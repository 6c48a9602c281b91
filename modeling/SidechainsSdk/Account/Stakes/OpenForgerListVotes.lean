/-
The majority that opens the list of forgers (`isForgerListOpen`). The flags are added up as a `Byte`, so at most 127 votes can be
seen: with up to 253 allowed forgers this is more than half of them, and voting ends before the sum wraps; with more, the list
never opens.

- `Voted`: the flags of a state against the indexes that have voted.
- `run_voted`: in every run the flags are those of the accepted votes.
- `isForgerListOpen_run`: when the list is open.
- `majority_iff`: it is open with a strict majority of distinct votes, and only then, exactly for these sizes.
-/
import Mathlib.Tactic
import SidechainsSdk.Account.Stakes.OpenForgerList

namespace SidechainsSdk.Account.OpenForgerList

open Fallible
open SidechainsSdk.Account.StateTransition (StateDb Invocation Machine)
open NativeContract (Request decodeInput run run_append accepted accepted_append run_induction Accepted step_cases)
open ForgerStakeV2 (getArgumentsFromData)
open WithdrawalRequests (getFunctionSignature)

variable {ρ : Type} {params : NetworkParams} {env : Externals ρ} {db db' : Db ρ} {votes : List ℤ} {msg : Message}
    {out : Octets}

/-- a list without restrictions is open -/
def isForgerListOpen (params : NetworkParams) (db : Db ρ) : Except Exc Bool :=
  if params.restrictForgers then do
    let restrictForgerList ← getAllowedForgersIndexList params db
    return isForgerListOpenUnchecked restrictForgerList
  else return true

/-- the index that a message is a vote for -/
def voteOf (env : Externals ρ) (msg : Message) : Option ℤ :=
  if getFunctionSignature msg.inv.input = .ok OpenStakeForgerListCmd ∨
      getFunctionSignature msg.inv.input = .ok OpenStakeForgerListCmdCorrect then
    match getArgumentsFromData msg.inv.input >>= decodeInput env.decodeOpenStakeForgerList with
    | .ok cmdInput => some cmdInput.forgerIndex
    | .error _ => none
  else none

/-! ## Flags -/

/-- the flags, also before they are stored -/
def flagsOf (params : NetworkParams) (db : Db ρ) : Octets :=
  db.rest.restrictForgerList.getD (List.replicate params.allowedForgersList.length 0)

theorem getAllowedForgersIndexList_ok (hne : params.allowedForgersList ≠ []) :
    getAllowedForgersIndexList params db = .ok (flagsOf params db) := by
  rw [getAllowedForgersIndexList, failIf, if_neg hne]
  rfl

theorem sum_cons_zero (flags : Octets) : List.sum (0 :: flags) = flags.sum := BitVec.zero_add flags.sum

/-- a flag that is raised adds one to the sum -/
theorem sum_set_one {flags : Octets} {i : ℕ} (h : flags[i]? = some 0) : (flags.set i 1).sum = flags.sum + 1 := by
  induction flags generalizing i with
  | nil => cases h
  | cons flag flags ih =>
    cases i with
    | zero =>
      obtain rfl := Option.some.inj h
      rw [List.set_cons_zero, sum_cons_zero, List.sum_cons, BitVec.add_comm]
    | succ i =>
      rw [List.set_cons_succ, List.sum_cons, List.sum_cons, ih h, BitVec.add_assoc]

/-- the flags are those of the indexes that have voted; a vote is accepted up to the first one that opens the list -/
structure Voted (params : NetworkParams) (db : Db ρ) (votes : List ℤ) : Prop where
  nodup : votes.Nodup
  listed : ∀ v ∈ votes, 0 ≤ v ∧ v < params.allowedForgersList.length
  length : (flagsOf params db).length = params.allowedForgersList.length
  flags : ∀ i < params.allowedForgersList.length, (flagsOf params db)[i]? = some (if (i : ℤ) ∈ votes then 1 else 0)
  sum : (flagsOf params db).sum = BitVec.ofNat 8 votes.length
  le : params.allowedForgersList.length ≤ 253 → votes.length ≤ params.allowedForgersList.length / 2 + 1

theorem voted_nil (h : db.rest.restrictForgerList = none) : Voted params db [] where
  nodup := List.nodup_nil
  listed v hv := by cases hv
  length := by simp [flagsOf, h]
  flags i hi := by simp [flagsOf, h, hi]
  sum := by
    rw [flagsOf, h, Option.getD_none]
    generalize params.allowedForgersList.length = n
    induction n with
    | zero => rfl
    | succ n ih => rw [List.replicate_succ, sum_cons_zero, ih]
  le _ := by simp

/-- with more than 253 forgers the half of them is out of reach of a `Byte` -/
theorem Voted.isOpen_iff (h : Voted params db votes) :
    isForgerListOpenUnchecked (flagsOf params db) = true ↔
      params.allowedForgersList.length ≤ 253 ∧ params.allowedForgersList.length / 2 < votes.length := by
  rw [isForgerListOpenUnchecked, decide_eq_true_eq, h.length, h.sum]
  have hhigh := (BitVec.ofNat 8 votes.length).toInt_lt
  by_cases hsize : params.allowedForgersList.length ≤ 253
  · have hle := h.le hsize
    have hsum : (BitVec.ofNat 8 votes.length).toInt = votes.length := by
      rw [BitVec.toInt_ofNat', Int.bmod_eq_of_le] <;> omega
    rw [hsum]
    omega
  · norm_num at hhigh
    omega

/-! ## Votes -/

/-- an accepted vote is for a listed index that has not voted, while the list is not open -/
theorem doOpenStakeForgerListCmd_vote (h : Voted params db votes)
    (hexec : exec (doOpenStakeForgerListCmd params env msg) db = (.ok out, db')) :
    ∃ cmdInput, (getArgumentsFromData msg.inv.input >>= decodeInput env.decodeOpenStakeForgerList) = .ok cmdInput ∧
      cmdInput.forgerIndex < params.allowedForgersList.length ∧ cmdInput.forgerIndex ∉ votes ∧
      isForgerListOpenUnchecked (flagsOf params db) = false ∧
      flagsOf params db' = (flagsOf params db).set cmdInput.forgerIndex.toNat 1 := by
  simp only [doOpenStakeForgerListCmd, getOrThrow, exec_orThrow_bind_ok, exec_throwIf_bind_ok, exec_get_bind,
    exec_modify_bind, exec_pure, Prod.mk.injEq] at hexec
  obtain ⟨-, hne, -, inputParams, hparams, cmdInput, hinput, -, forger, hforger, -, -, -, -, -, flags, hflags, hclosed, flag,
    hflag, hnew, -, rfl⟩ := hexec
  rw [getAllowedForgersIndexList_ok hne] at hflags
  obtain rfl := Except.ok.inj hflags
  have hnonneg := cmdInput.index_nonneg
  have hlt : cmdInput.forgerIndex < params.allowedForgersList.length := by
    by_contra hge
    rw [elementAt_outside hnonneg (not_lt.1 hge)] at hforger
    cases hforger
  refine ⟨cmdInput, bind_ok_iff.2 ⟨inputParams, hparams, hinput⟩, hlt, ?_, by simpa using hclosed, rfl⟩
  intro hvoted
  have hget := h.flags cmdInput.forgerIndex.toNat (by omega)
  rw [Int.toNat_of_nonneg hnonneg, if_pos hvoted] at hget
  rw [elementAt, if_neg (not_lt.2 hnonneg), hget] at hflag
  exact hnew (Except.ok.inj hflag).symm

theorem Voted.vote (h : Voted params db votes) {v : ℤ} (hnonneg : 0 ≤ v) (hlt : v < params.allowedForgersList.length)
    (hnew : v ∉ votes) (hclosed : isForgerListOpenUnchecked (flagsOf params db) = false)
    (hset : flagsOf params db' = (flagsOf params db).set v.toNat 1) : Voted params db' (votes ++ [v]) where
  nodup := by
    rw [List.nodup_append]
    refine ⟨h.nodup, List.nodup_singleton v, ?_⟩
    rintro w hw _ hv rfl
    rw [List.mem_singleton] at hv
    exact hnew (hv ▸ hw)
  listed w hw := by
    rcases List.mem_append.1 hw with hw | hw
    · exact h.listed w hw
    · obtain rfl := List.mem_singleton.1 hw
      exact ⟨hnonneg, hlt⟩
  length := by rw [hset, List.length_set, h.length]
  flags i hi := by
    have hindex : (i : ℤ) = v ↔ i = v.toNat := by omega
    have hmem : (i : ℤ) ∈ votes ++ [v] ↔ (i : ℤ) ∈ votes ∨ i = v.toNat := by
      rw [List.mem_append, List.mem_singleton, hindex]
    rw [hset]
    by_cases heq : i = v.toNat
    · rw [if_pos (hmem.2 (.inr heq)), heq, List.getElem?_set_self (by rw [h.length]; omega)]
    · rw [List.getElem?_set_ne (Ne.symm heq), h.flags i hi]
      simp only [hmem, heq, or_false]
  sum := by
    have hget := h.flags v.toNat (by omega)
    rw [Int.toNat_of_nonneg hnonneg, if_neg hnew] at hget
    rw [hset, sum_set_one hget, h.sum, List.length_append, List.length_singleton, BitVec.ofNat_add]
    rfl
  le hsize := by
    have hnot : ¬ (params.allowedForgersList.length ≤ 253 ∧ params.allowedForgersList.length / 2 < votes.length) := by
      rw [← h.isOpen_iff, hclosed]
      exact Bool.false_ne_true
    rw [List.length_append, List.length_singleton]
    omega

/-- a command of the contract, with the vote it is -/
theorem process_voted (h : Voted params db votes) (hexec : exec (process params env msg) db = (.ok out, db')) :
    Voted params db' (votes ++ (voteOf env msg).toList) ∧
      ∀ v, voteOf env msg = some v → v ∉ votes := by
  simp only [process, exec_get_bind, exec_orThrow_bind_ok] at hexec
  obtain ⟨functionSig, hsig, hexec⟩ := hexec
  have hvote (hid : getFunctionSignature msg.inv.input = .ok OpenStakeForgerListCmd ∨
      getFunctionSignature msg.inv.input = .ok OpenStakeForgerListCmdCorrect)
      (hexec : exec (doOpenStakeForgerListCmd params env msg) db = (.ok out, db')) :
      Voted params db' (votes ++ (voteOf env msg).toList) ∧ ∀ v, voteOf env msg = some v → v ∉ votes := by
    obtain ⟨cmdInput, hinput, hlt, hnew, hclosed, hset⟩ := doOpenStakeForgerListCmd_vote h hexec
    have hindex : voteOf env msg = some cmdInput.forgerIndex := by rw [voteOf, if_pos hid, hinput]
    rw [hindex]
    refine ⟨h.vote cmdInput.index_nonneg hlt hnew hclosed hset, ?_⟩
    rintro v heq
    rw [← Option.some.inj heq]
    exact hnew
  split_ifs at hexec with hfirst hsecond
  · exact hvote (.inl (hfirst ▸ hsig)) hexec
  · exact hvote (.inr (hsecond ▸ hsig)) hexec
  · cases hexec
  · obtain ⟨db₁, -, rfl⟩ := exec_onPart_ok.1 hexec
    have hnone : voteOf env msg = none := by
      rw [voteOf, if_neg]
      rw [hsig, Except.ok.injEq, Except.ok.injEq]
      exact fun hid => hid.elim hfirst hsecond
    rw [hnone, Option.toList_none, List.append_nil]
    exact ⟨⟨h.nodup, h.listed, h.length, h.flags, h.sum, h.le⟩, fun v hv => by cases hv⟩

/-! ## Runs -/

section Runs

variable (params env)

/-- the indexes of the accepted votes of a run, in order -/
def votesIn (m : Machine (ContractDb ρ)) (msgs : List Message) : List ℤ :=
  (accepted (toRequest params env) m msgs).filterMap (voteOf env)

def stateAfter (m : Machine (ContractDb ρ)) (msgs : List Message) : Machine (ContractDb ρ) := run (toRequest params env) m msgs

variable {params env} {m : Machine (ContractDb ρ)}

theorem run_voted (hstart : m.view.stateDb.rest.restrictForgerList = none) (msgs : List Message) :
    Voted params (stateAfter params env m msgs).view.stateDb (votesIn params env m msgs) := by
  have hstep : ∀ db db' (done : List Message) msg out, Voted params db (done.filterMap (voteOf env)) →
      exec (toRequest params env msg).command db = (.ok out, db') →
        Voted params db' ((done ++ [msg]).filterMap (voteOf env)) := by
    intro db db' done msg out h hexec
    have hnext := (process_voted h hexec).1
    rw [List.filterMap_append]
    cases hvote : voteOf env msg with
    | none => simpa [hvote] using hnext
    | some v => simpa [hvote] using hnext
  exact @run_induction _ _ (toRequest params env) (fun db done => Voted params db (done.filterMap (voteOf env))) hstep m []
    (voted_nil hstart) msgs

theorem isForgerListOpen_run (hrestrict : params.restrictForgers = true) (hne : params.allowedForgersList ≠ [])
    (hstart : m.view.stateDb.rest.restrictForgerList = none) (msgs : List Message) :
    isForgerListOpen params (stateAfter params env m msgs).view.stateDb = .ok true ↔
      params.allowedForgersList.length ≤ 253 ∧ params.allowedForgersList.length / 2 < (votesIn params env m msgs).length := by
  rw [isForgerListOpen, if_pos hrestrict, getAllowedForgersIndexList_ok hne, ← (run_voted hstart msgs).isOpen_iff]
  exact Except.ok.injEq _ _ |>.to_iff

/-- an index that has voted cannot vote again -/
theorem second_vote_refused (hstart : m.view.stateDb.rest.restrictForgerList = none) {msgs : List Message} {msg : Message}
    {v : ℤ}
    (hvote : voteOf env msg = some v) (hmem : v ∈ votesIn params env m msgs) :
    ¬ Accepted (stateAfter params env m msgs) (toRequest params env msg) := by
  intro haccepted
  rcases step_cases (stateAfter params env m msgs) (toRequest params env msg) with ⟨-, out, hexec⟩ | ⟨hrefused, -⟩
  · exact (process_voted (run_voted hstart msgs) hexec).2 v hvote hmem
  · exact hrefused haccepted

theorem votesIn_append (before after : List Message) :
    votesIn params env m (before ++ after) =
      votesIn params env m before ++ votesIn params env (stateAfter params env m before) after := by
  rw [votesIn, accepted_append, List.filterMap_append]
  rfl

/-- what is expected of the vote after some messages: more than half of the indexes open the list, and only these; none of them
votes twice; and the list stays open -/
structure Majority (params : NetworkParams) (env : Externals ρ) (m : Machine (ContractDb ρ)) (msgs : List Message) : Prop where
  isOpen : isForgerListOpen params (stateAfter params env m msgs).view.stateDb = .ok true ↔
    params.allowedForgersList.length / 2 < (votesIn params env m msgs).length
  nodup : (votesIn params env m msgs).Nodup
  refused : ∀ msg v, voteOf env msg = some v → v ∈ votesIn params env m msgs →
    ¬ Accepted (stateAfter params env m msgs) (toRequest params env msg)
  stays : isForgerListOpen params (stateAfter params env m msgs).view.stateDb = .ok true →
    ∀ more, isForgerListOpen params (stateAfter params env m (msgs ++ more)).view.stateDb = .ok true

/-- **Majority.** After any messages, with a restricted list of any size: the vote is as expected if and only if there are at
most 253 allowed forgers, or no more than half of them have voted. -/
theorem majority_iff (params : NetworkParams) (env : Externals ρ) (m : Machine (ContractDb ρ)) (msgs : List Message)
    (hrestrict : params.restrictForgers = true) (hne : params.allowedForgersList ≠ [])
    (hstart : m.view.stateDb.rest.restrictForgerList = none) :
    Majority params env m msgs ↔ (params.allowedForgersList.length ≤ 253 ∨
      (votesIn params env m msgs).length ≤ params.allowedForgersList.length / 2) := by
  have hopen := fun msgs => @isForgerListOpen_run _ params env m hrestrict hne hstart msgs
  constructor
  · intro h
    have hiff := (hopen msgs).symm.trans h.isOpen
    by_contra hcontra
    push Not at hcontra
    have hsize := (hiff.2 hcontra.2).1
    omega
  · intro h
    refine ⟨?_, (run_voted hstart msgs).nodup, fun msg v hvote hmem => second_vote_refused hstart hvote hmem, ?_⟩
    · rw [hopen msgs]
      omega
    · intro hisOpen more
      obtain ⟨hsize, hlt⟩ := (hopen msgs).1 hisOpen
      refine (hopen (msgs ++ more)).2 ⟨hsize, ?_⟩
      rw [votesIn_append, List.length_append]
      omega

end Runs

/-! The vote of the only forger; and 128 votes of 254 forgers. -/

section Sample

theorem sample_vote_opens : Majority sampleParams sampleExternals sampleMachine [sampleMessage 0] :=
  (majority_iff sampleParams sampleExternals sampleMachine [sampleMessage 0] rfl (by decide) rfl).2 (.inl (by decide))

theorem manyForgers_size : (List.replicate 254 ((7, 8) : BitVec 256 × BitVec 264)).length < 2 ^ 31 := by
  rw [List.length_replicate]
  norm_num

def manyForgers : NetworkParams := ⟨true, List.replicate 254 (7, 8), manyForgers_size⟩

theorem manyForgers_ne_nil : manyForgers.allowedForgersList ≠ [] := List.cons_ne_nil _ _

theorem manyForgers_not_opened :
    ¬ Majority manyForgers sampleExternals sampleMachine ((List.range 128).map sampleMessage) := by
  intro h
  have hvotes : (votesIn manyForgers sampleExternals sampleMachine ((List.range 128).map sampleMessage)).length = 128 := by
    decide +kernel
  have hopen := @isForgerListOpen_run _ manyForgers sampleExternals sampleMachine rfl manyForgers_ne_nil rfl
    ((List.range 128).map sampleMessage)
  have hsize := (hopen.1 (h.isOpen.2 (by rw [hvotes]; decide +kernel))).1
  exact absurd hsize (by decide +kernel)

end Sample

end SidechainsSdk.Account.OpenForgerList
