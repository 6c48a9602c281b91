/-
The queries of the forger stake contract for a window of epochs (`doStakeTotalCmd`, `doRewardsReceivedCmd` of
`ForgerStakeV2MsgProcessor`).

The start of a window and its number of epochs are chosen by the caller, as `uint32`, of which the decoders accept those
that are an `Int`. Their sum may not be one, and then the check against the current epoch passes.

- `doStakeTotalCmd`, `doRewardsReceivedCmd`: the code; a query of rewards comes with the keys that it reads.
- `RevertsOr`: a result that is right, or a revert; `revertsOr_throwIf_bind` and `revertsOr_orThrow_bind` turn the guards
  of a command into premises.
- `stakeTotal_iff`, `rewardsReceived_iff`: a query answers with its window if and only if the end of the window is an
  `Int`; the total over all forgers needs a forger.

The answers are lists; their ABI encoding, and the gas of a query, are left out.
-/
import Mathlib.Tactic
import SidechainsSdk.Account.MetadataStorage
import SidechainsSdk.Account.NativeContract
import SidechainsSdk.Account.Stakes.ForgerStakeV2
import SidechainsSdk.Account.Stakes.StakesPerEpoch

namespace SidechainsSdk.Account.ForgerStakeV2

open Fallible MachineInt StakeStorage
open NativeContract (decodeInput)
open SidechainsSdk.Account.StateTransition (Invocation)

/-! ## Inputs -/

/-- `BigInteger.intValueExact`, of a `uint32` -/
def intValueExact (n : BitVec 32) : Except String ℕ :=
  if n.toNat < 2 ^ 31 then .ok n.toNat else .error "BigInteger out of int range"

theorem intValueExact_ok {n : BitVec 32} {m : ℕ} (h : intValueExact n = .ok m) : m < 2 ^ 31 := by
  unfold intValueExact at h
  split_ifs at h with hlt
  rw [← Except.ok.inj h]
  exact hlt

/-- `Some(value).filter(_ != placeholder)` -/
def unlessPlaceholder {α : Type} [DecidableEq α] (value placeholder : α) : Option α :=
  if value = placeholder then none else some value

structure StakeTotalCmdInput where
  forgerPublicKeys : Option ForgerPublicKeys
  delegator : Option Address
  consensusEpochStart : Option ℕ
  maxNumOfEpoch : Option ℕ

/-- the ABI parameters of `stakeTotal` -/
structure StakeTotalParams where
  forgerPublicKeys : ForgerPublicKeys
  delegator : Address
  consensusEpochStart : BitVec 32
  maxNumOfEpoch : BitVec 32

/-- `StakeTotalCmdInputDecoder.createType` -/
def StakeTotalParams.createType (params : StakeTotalParams) : Except String StakeTotalCmdInput := do
  let consensusEpochStart ← intValueExact params.consensusEpochStart
  let maxNumOfEpoch ← intValueExact params.maxNumOfEpoch
  return ⟨unlessPlaceholder params.forgerPublicKeys ⟨0, ⟨0, 0⟩⟩, unlessPlaceholder params.delegator 0,
    unlessPlaceholder consensusEpochStart 0, unlessPlaceholder maxNumOfEpoch 0⟩

structure RewardsReceivedCmdInput where
  forgerPublicKeys : ForgerPublicKeys
  consensusEpochStart : ℕ
  maxNumOfEpoch : ℕ

/-- the ABI parameters of `rewardsReceived` -/
structure RewardsReceivedParams where
  forgerPublicKeys : ForgerPublicKeys
  consensusEpochStart : BitVec 32
  maxNumOfEpoch : BitVec 32

/-- `RewardsReceivedCmdInputDecoder.createType` -/
def RewardsReceivedParams.createType (params : RewardsReceivedParams) : Except String RewardsReceivedCmdInput := do
  let consensusEpochStart ← intValueExact params.consensusEpochStart
  let maxNumOfEpoch ← intValueExact params.maxNumOfEpoch
  return ⟨params.forgerPublicKeys, consensusEpochStart, maxNumOfEpoch⟩

/-- the decoders of the ABI library, for the parameters of the two commands -/
structure QueryDecoders where
  stakeTotal : Octets → Except String StakeTotalParams
  rewardsReceived : Octets → Except String RewardsReceivedParams

variable (env : QueryDecoders)

/-- the decoded input of `stakeTotal` in the call data -/
def decodeStakeTotal (data : Octets) : Except Exc StakeTotalCmdInput := do
  let inputParams ← getArgumentsFromData data
  decodeInput (fun inputParams => do (← env.stakeTotal inputParams).createType) inputParams

/-- the decoded input of `rewardsReceived` in the call data -/
def decodeRewardsReceived (data : Octets) : Except Exc RewardsReceivedCmdInput := do
  let inputParams ← getArgumentsFromData data
  decodeInput (fun inputParams => do (← env.rewardsReceived inputParams).createType) inputParams

/-! ## Commands -/

variable {ρ : Type}

/-- the last epoch of a query, in `Int`s -/
def consensusEpochEnd (currentEpoch consensusEpochStart : ℕ) (maxNumOfEpoch : Option ℕ) : ℤ :=
  match maxNumOfEpoch with
  | none => consensusEpochStart
  | some maxNumOfEpoch =>
    if intOf (consensusEpochStart + maxNumOfEpoch) > currentEpoch then currentEpoch
    else intOf (intOf (consensusEpochStart + maxNumOfEpoch) - 1)

def doStakeTotalCmd (invocation : Invocation) (currentEpoch : ℕ) : Command ρ (List ℕ) := do
  requireIsNotPayable invocation
  checkForgerStakesV2IsActive
  let cmdInput ← orThrow (decodeStakeTotal env invocation.input)
  throwIf (∃ start ∈ cmdInput.consensusEpochStart, start > currentEpoch)
    (.executionReverted
      (s!"Illegal argument - consensus epoch start {cmdInput.consensusEpochStart.getD 0} can not be greater than " ++
       s!"currentEpoch {currentEpoch}") [])
  let consensusEpochStart := cmdInput.consensusEpochStart.getD currentEpoch
  let db ← get
  throwIf (cmdInput.forgerPublicKeys = none ∧ cmdInput.delegator.isSome)
    (.executionReverted "Illegal argument - delegator is defined while forger keys are not" [])
  throwIf (∃ forgerKeys ∈ cmdInput.forgerPublicKeys, (db.rest.stakes.forgerInfo forgerKeys).isNone)
    (.executionReverted "Forger does not exist" [])
  orThrow (getStakeTotal sqrtPivots db.rest.stakes cmdInput.forgerPublicKeys cmdInput.delegator consensusEpochStart
    (consensusEpochEnd currentEpoch consensusEpochStart cmdInput.maxNumOfEpoch))

/-- rewards, with the keys read from the metadata storage for them -/
structure RewardsRead where
  rewards : List ℤ
  reads : List MetadataStorage.Key

/-- `AccountStateMetadataStorageView.getForgerRewards`: one read for each epoch -/
def getForgerRewards (metadata : MetadataStorage.Storage) (forgerPublicKeys : ForgerPublicKeys)
    (consensusEpochStart maxNumOfEpochs : ℤ) : RewardsRead :=
  let keys := (List.range maxNumOfEpochs.toNat).map fun epoch : ℕ =>
    MetadataStorage.Key.forgerRewards forgerPublicKeys (intOf (consensusEpochStart + epoch))
  ⟨keys.map (MetadataStorage.getForgerReward metadata), keys⟩

/-- the number of epochs of a query, in `Int`s -/
def numOfEpochs (currentEpoch consensusEpochStart maxNumOfEpoch : ℕ) : ℤ :=
  if intOf (intOf (consensusEpochStart + maxNumOfEpoch) - 1) ≥ currentEpoch then intOf (currentEpoch - consensusEpochStart)
  else maxNumOfEpoch

def doRewardsReceivedCmd (metadata : MetadataStorage.Storage) (invocation : Invocation) (currentEpoch : ℕ) :
    Command ρ RewardsRead := do
  requireIsNotPayable invocation
  checkForgerStakesV2IsActive
  let cmdInput ← orThrow (decodeRewardsReceived env invocation.input)
  throwIf (cmdInput.consensusEpochStart ≥ currentEpoch)
    (.executionReverted
      (s!"Illegal argument - consensus epoch start {cmdInput.consensusEpochStart} can not be greater than currentEpoch " ++
       s!"{currentEpoch}") [])
  let db ← get
  throwIf (db.rest.stakes.forgerInfo cmdInput.forgerPublicKeys).isNone (.executionReverted "Forger doesn't exist." [])
  return getForgerRewards metadata cmdInput.forgerPublicKeys cmdInput.consensusEpochStart
    (numOfEpochs currentEpoch cmdInput.consensusEpochStart cmdInput.maxNumOfEpoch)

/-! ## Reverts -/

/-- a revert, or a result with the property -/
def RevertsOr {α : Type} (Q : α → Prop) : Except Exc α → Prop
  | .ok a => Q a
  | .error (.executionReverted _ _) => True
  | .error _ => False

section Reverts

variable {S α β : Type} {Q : β → Prop} {s : S}

theorem revertsOr_throwIf_bind {c : Prop} [Decidable c] {message : String} {data : Octets} {f : Unit → Fallible Exc S β} :
    RevertsOr Q (exec (throwIf c (.executionReverted message data) >>= f) s).1 ↔ (¬ c → RevertsOr Q (exec (f ()) s).1) := by
  by_cases hc : c
  · rw [exec_throwIf_pos_bind hc]
    exact ⟨fun _ hnot => absurd hc hnot, fun _ => trivial⟩
  · rw [exec_throwIf_neg_bind hc]
    exact ⟨fun h _ => h, fun h => h hc⟩

theorem revertsOr_orThrow_bind {x : Except Exc α} (hx : RevertsOr (fun _ => True) x) {f : α → Fallible Exc S β} :
    RevertsOr Q (exec (orThrow x >>= f) s).1 ↔ ∀ a, x = .ok a → RevertsOr Q (exec (f a) s).1 := by
  cases x with
  | ok a =>
    rw [exec_orThrow_value_bind]
    exact ⟨fun h b hb => Except.ok.inj hb ▸ h, fun h => h a rfl⟩
  | error e =>
    rw [exec_bind, exec_orThrow]
    constructor
    · intro _ a ha
      cases ha
    · intro _
      cases e with
      | executionReverted => trivial
      | _ => cases hx

theorem revertsOr_bind {x : Except Exc α} {f : α → Except Exc β} (hx : RevertsOr (fun _ => True) x)
    (hf : ∀ a, RevertsOr Q (f a)) : RevertsOr Q (x >>= f) := by
  cases x with
  | ok a => exact hf a
  | error e =>
    cases e with
    | executionReverted => trivial
    | _ => cases hx

theorem revertsOr_congr {Q' : β → Prop} {r : Except Exc β} (h : ∀ b, Q b ↔ Q' b) : RevertsOr Q r ↔ RevertsOr Q' r := by
  cases r with
  | ok b => exact h b
  | error e => cases e <;> exact Iff.rfl

/-- a property of a result and of the input that was decoded -/
theorem revertsOr_decoded {x : Except Exc α} {a : α} (hx : x = .ok a) {P : α → β → Prop} {r : Except Exc β} :
    RevertsOr (fun b => ∀ a', x = .ok a' → P a' b) r ↔ RevertsOr (P a) r := by
  refine revertsOr_congr fun b => ⟨fun h => h a hx, ?_⟩
  intro h a' ha'
  rw [hx] at ha'
  exact Except.ok.inj ha' ▸ h

theorem decodeInput_reverts (decode : Octets → Except String α) (data : Octets) :
    RevertsOr (fun _ => True) (decodeInput decode data) := by
  unfold decodeInput
  split <;> trivial

theorem getArgumentsFromData_reverts (data : Octets) : RevertsOr (fun _ => True) (getArgumentsFromData data) := by
  unfold getArgumentsFromData
  split_ifs <;> trivial

end Reverts

section Decoded

variable {env} {data : Octets}

theorem decodeStakeTotal_reverts : RevertsOr (fun _ => True) (decodeStakeTotal env data) :=
  revertsOr_bind (getArgumentsFromData_reverts data) fun _ => decodeInput_reverts _ _

theorem decodeRewardsReceived_reverts : RevertsOr (fun _ => True) (decodeRewardsReceived env data) :=
  revertsOr_bind (getArgumentsFromData_reverts data) fun _ => decodeInput_reverts _ _

theorem decodeInput_ok {α : Type} {decode : Octets → Except String α} {a : α} (h : decodeInput decode data = .ok a) :
    decode data = .ok a := by
  unfold decodeInput at h
  split at h
  · rename_i input hdecode
    rw [hdecode, Except.ok.inj h]
  · cases h

theorem decodeStakeTotal_max {cmdInput : StakeTotalCmdInput} (h : decodeStakeTotal env data = .ok cmdInput) :
    ∀ n ∈ cmdInput.maxNumOfEpoch, 0 < n ∧ n < 2 ^ 31 := by
  obtain ⟨inputParams, -, h⟩ := bind_ok h
  obtain ⟨params, -, h⟩ := bind_ok (decodeInput_ok h)
  obtain ⟨start, -, h⟩ := bind_ok h
  obtain ⟨max, hmax, h⟩ := bind_ok h
  obtain rfl := Except.ok.inj h
  intro n hn
  simp only [unlessPlaceholder] at hn
  split_ifs at hn with hzero
  · cases hn
  · obtain rfl := Option.some.inj hn
    exact ⟨Nat.pos_of_ne_zero hzero, intValueExact_ok hmax⟩

theorem decodeRewardsReceived_max {cmdInput : RewardsReceivedCmdInput} (h : decodeRewardsReceived env data = .ok cmdInput) :
    cmdInput.maxNumOfEpoch < 2 ^ 31 := by
  obtain ⟨inputParams, -, h⟩ := bind_ok h
  obtain ⟨params, -, h⟩ := bind_ok (decodeInput_ok h)
  obtain ⟨start, -, h⟩ := bind_ok h
  obtain ⟨max, hmax, h⟩ := bind_ok h
  obtain rfl := Except.ok.inj h
  exact intValueExact_ok hmax

end Decoded

/-! ## The window of a query of stakes -/

/-- the last epoch of the window: the requested end or the current epoch, whichever is first -/
def windowEnd (currentEpoch consensusEpochStart : ℕ) (maxNumOfEpoch : Option ℕ) : ℕ :=
  match maxNumOfEpoch with
  | none => consensusEpochStart
  | some maxNumOfEpoch => min (consensusEpochStart + maxNumOfEpoch - 1) currentEpoch

/-- the end of the window is an `Int`, or nothing is cut off before the last `Int` -/
def WindowFits (currentEpoch consensusEpochStart : ℕ) (maxNumOfEpoch : Option ℕ) : Prop :=
  ∀ n ∈ maxNumOfEpoch, consensusEpochStart + n < 2 ^ 31 ∨ consensusEpochStart + n = currentEpoch + 1

/-- the stake at an epoch: of a delegator with a forger, of a forger, or of all forgers -/
def stakeAt (db : StakeDb) (forgerKeys : Option ForgerPublicKeys) (delegator : Option Address) (epoch : ℕ) : ℕ :=
  match forgerKeys, delegator with
  | some forgerKey, some address => amountAt (db.history.toList (.stake forgerKey address)) epoch
  | some forgerKey, none => amountAt (db.history.toList (.forger forgerKey)) epoch
  | none, _ => ((db.listOfForgers.toList ()).map fun forgerKey => amountAt (db.history.toList (.forger forgerKey)) epoch).sum

/-- one value for each epoch of the window -/
def stakesOfWindow (db : StakeDb) (currentEpoch : ℕ) (cmdInput : StakeTotalCmdInput) : List ℕ :=
  let consensusEpochStart := cmdInput.consensusEpochStart.getD currentEpoch
  (List.range (windowEnd currentEpoch consensusEpochStart cmdInput.maxNumOfEpoch + 1 - consensusEpochStart)).map fun k =>
    stakeAt db cmdInput.forgerPublicKeys cmdInput.delegator (consensusEpochStart + k)

section Window

variable {currentEpoch start : ℕ} {maxNumOfEpoch : Option ℕ}

theorem start_le_windowEnd (hstart : start ≤ currentEpoch) (hmax : ∀ n ∈ maxNumOfEpoch, 0 < n ∧ n < 2 ^ 31) :
    start ≤ windowEnd currentEpoch start maxNumOfEpoch := by
  unfold windowEnd
  split
  · exact le_refl start
  · rename_i n
    have hpos := (hmax n rfl).1
    omega

theorem windowEnd_le (hstart : start ≤ currentEpoch) : windowEnd currentEpoch start maxNumOfEpoch ≤ currentEpoch := by
  unfold windowEnd
  split
  · exact hstart
  · exact min_le_right _ _

theorem intOf_sub_range {x : ℤ} (hlow : 2 ^ 31 ≤ x) (hhigh : x < 2 ^ 31 + 2 ^ 32) : intOf x = x - 2 ^ 32 := by
  have hsame : intOf x = intOf (x - 2 ^ 32) := intOf_congr 1 (by ring)
  rw [hsame]
  exact intOf_eq ⟨by omega, by omega⟩

theorem consensusEpochEnd_of_fits (hstart : start ≤ currentEpoch) (hcurrent : currentEpoch < 2 ^ 31)
    (hmax : ∀ n ∈ maxNumOfEpoch, 0 < n ∧ n < 2 ^ 31) (hfits : WindowFits currentEpoch start maxNumOfEpoch) :
    consensusEpochEnd currentEpoch start maxNumOfEpoch = windowEnd currentEpoch start maxNumOfEpoch := by
  unfold consensusEpochEnd windowEnd
  split
  · rfl
  · rename_i n
    obtain ⟨hpos, hint⟩ := hmax n rfl
    rcases hfits n rfl with hlt | heq
    · have hsum : intOf ((start : ℤ) + n) = start + n := intOf_eq ⟨by omega, by omega⟩
      rw [hsum]
      split_ifs with hcut
      · rw [min_eq_right (by omega)]
      · rw [intOf_eq ⟨by omega, by omega⟩, min_eq_left (by omega)]
        omega
    · rw [min_eq_right (by omega)]
      rcases Nat.lt_or_ge (start + n) (2 ^ 31) with hlt | hge
      · have hsum : intOf ((start : ℤ) + n) = start + n := intOf_eq ⟨by omega, by omega⟩
        rw [hsum, if_pos (by omega)]
      · -- the current epoch is the last `Int`, and both operations wrap around
        have hsum : intOf ((start : ℤ) + n) = start + n - 2 ^ 32 := intOf_sub_range (by omega) (by omega)
        have hend : intOf ((start : ℤ) + n - 2 ^ 32 - 1) = currentEpoch := by
          have hsame : intOf ((start : ℤ) + n - 2 ^ 32 - 1) = intOf currentEpoch := intOf_congr (-1) (by omega)
          rw [hsame]
          exact intOf_eq ⟨by omega, by omega⟩
        rw [hsum, hend, if_neg (by omega)]

theorem length_fillZeros_intOf {x : ℤ} {n : ℕ} (hn : n < 2 ^ 31) (k : ℤ) (h : x = n + k * 2 ^ 32) :
    (fillZeros (intOf x)).length = n := by
  rw [intOf_congr k h, fillZeros_intOf hn, List.length_replicate]

/-- beyond the last `Int` the end wraps around; the answer has as many values as were asked for, which is not the window -/
theorem length_of_not_fits {db : StakeDb} (hr : Readable db) (hstart : start ≤ currentEpoch)
    (hcurrent : currentEpoch < 2 ^ 31) (hmax : ∀ n ∈ maxNumOfEpoch, 0 < n ∧ n < 2 ^ 31)
    (hfits : ¬ WindowFits currentEpoch start maxNumOfEpoch) :
    ∃ n, (∀ h, (getForgerStakesPerEpoch sqrtPivots db h start
        (consensusEpochEnd currentEpoch start maxNumOfEpoch)).length = n) ∧
      n ≠ windowEnd currentEpoch start maxNumOfEpoch + 1 - start := by
  unfold WindowFits at hfits
  push Not at hfits
  obtain ⟨n, hn, hge, hne⟩ := hfits
  obtain ⟨hpos, hint⟩ := hmax n hn
  obtain rfl := Option.mem_def.1 hn
  refine ⟨n, fun h => ?_, ?_⟩
  · have hsum : intOf ((start : ℤ) + n) = start + n - 2 ^ 32 := intOf_sub_range (by omega) (by omega)
    simp only [consensusEpochEnd, hsum]
    rw [if_neg (by omega)]
    rcases hge.eq_or_lt with heq | hlt
    · have hend : intOf ((start : ℤ) + n - 2 ^ 32 - 1) = (2 ^ 31 - 1 : ℕ) := by
        have hsame : intOf ((start : ℤ) + n - 2 ^ 32 - 1) = intOf ((2 ^ 31 - 1 : ℕ) : ℤ) :=
          intOf_congr (-1) (by push_cast; omega)
        rw [hsame]
        exact intOf_eq ⟨by norm_num, by norm_num⟩
      rw [hend, getForgerStakesPerEpoch_eq hr h (by omega) (by omega), List.length_map, List.length_range]
      omega
    · have hend : intOf ((start : ℤ) + n - 2 ^ 32 - 1) = start + n - 2 ^ 32 - 1 := intOf_eq ⟨by omega, by omega⟩
      rw [hend, getForgerStakesPerEpoch, if_pos (by omega)]
      exact length_fillZeros_intOf hint (-1) (by ring)
  · unfold windowEnd
    dsimp only
    omega

end Window

/-! ## Totals over forgers -/

theorem transposeSum_eq {columns : List (List ℕ)} {n : ℕ} (hne : columns ≠ [])
    (hlength : ∀ column ∈ columns, column.length = n) :
    transposeSum columns = .ok ((List.range n).map fun i => (columns.map fun column => column.getD i 0).sum) := by
  cases columns with
  | nil => exact absurd rfl hne
  | cons first rest =>
    have hfirst : first.length = n := hlength first List.mem_cons_self
    have hall : (rest.all fun column => column.length = first.length) = true := by
      rw [List.all_eq_true]
      intro column hcolumn
      rw [hlength column (List.mem_cons_of_mem first hcolumn), hfirst]
      exact decide_eq_true rfl
    simp only [transposeSum]
    rw [if_pos hall, hfirst]

section Total

variable {db : StakeDb} {forgerKeys : Option ForgerPublicKeys} {delegator : Option Address}

theorem getStakeTotal_eq (hr : Readable db) {start last : ℕ} (hle : start ≤ last) (hint : last < 2 ^ 31)
    (hforgers : forgerKeys = none → db.listOfForgers.toList () ≠ []) :
    getStakeTotal sqrtPivots db forgerKeys delegator start last =
      .ok ((List.range (last + 1 - start)).map fun k => stakeAt db forgerKeys delegator (start + k)) := by
  have hcount : last + 1 - start = last - start + 1 := by omega
  rw [hcount]
  cases forgerKeys with
  | some forgerKey =>
    cases delegator with
    | some address => exact congrArg Except.ok (getForgerStakesPerEpoch_eq hr _ hle hint)
    | none => exact congrArg Except.ok (getForgerStakesPerEpoch_eq hr _ hle hint)
  | none =>
    have hrow : ∀ f, getForgerStakesPerEpoch sqrtPivots db (.forger f) start last = _ := fun f =>
      getForgerStakesPerEpoch_eq hr (.forger f) hle hint
    have hne : ((db.listOfForgers.toList ()).map fun f => getForgerStakesPerEpoch sqrtPivots db (.forger f) start last) ≠
        [] := by
      rw [ne_eq, List.map_eq_nil_iff]
      exact hforgers rfl
    have hlength : ∀ column ∈ (db.listOfForgers.toList ()).map fun f =>
        getForgerStakesPerEpoch sqrtPivots db (.forger f) start last, column.length = last - start + 1 := by
      intro column hcolumn
      obtain ⟨f, -, rfl⟩ := List.mem_map.1 hcolumn
      rw [hrow f, List.length_map, List.length_range]
    simp only [getStakeTotal]
    rw [transposeSum_eq hne hlength]
    congr 1
    apply List.map_congr_left
    intro k hk
    rw [List.map_map]
    simp only [stakeAt]
    congr 1
    apply List.map_congr_left
    intro f _
    rw [Function.comp_apply, hrow f, List.getD_eq_getElem?_getD, List.getElem?_map,
      List.getElem?_range (List.mem_range.1 hk)]
    rfl

/-- with all histories giving lists of one length, the total has that length, or there is no forger -/
theorem getStakeTotal_length (forgerKeys : Option ForgerPublicKeys) (delegator : Option Address) {start last : ℤ} {n : ℕ}
    (hlength : ∀ h, (getForgerStakesPerEpoch sqrtPivots db h start last).length = n) :
    ∃ stakes, getStakeTotal sqrtPivots db forgerKeys delegator start last = .ok stakes ∧
      (stakes.length = n ∨ stakes = []) := by
  cases forgerKeys with
  | some forgerKey =>
    cases delegator with
    | some address => exact ⟨_, rfl, .inl (hlength _)⟩
    | none => exact ⟨_, rfl, .inl (hlength _)⟩
  | none =>
    by_cases hforgers : db.listOfForgers.toList () = []
    · refine ⟨[], ?_, .inr rfl⟩
      simp only [getStakeTotal, hforgers]
      rfl
    · have hne : ((db.listOfForgers.toList ()).map fun f => getForgerStakesPerEpoch sqrtPivots db (.forger f) start last) ≠
          [] := by
        rw [ne_eq, List.map_eq_nil_iff]
        exact hforgers
      refine ⟨_, transposeSum_eq (n := n) hne ?_, .inl (by simp)⟩
      intro column hcolumn
      obtain ⟨f, -, rfl⟩ := List.mem_map.1 hcolumn
      exact hlength (.forger f)

end Total

/-! ## The queries -/

section Queries

variable {env} {db : Db ρ} {invocation : Invocation} {currentEpoch : ℕ}

/-- what `doStakeTotalCmd` checks -/
structure StakeTotalChecked (db : Db ρ) (invocation : Invocation) (currentEpoch : ℕ) (cmdInput : StakeTotalCmdInput) :
    Prop where
  not_payable : invocation.value.sign = 0
  active : db.rest.stakes.active = true
  start_le : cmdInput.consensusEpochStart.getD currentEpoch ≤ currentEpoch
  delegator_of_forger : cmdInput.forgerPublicKeys = none → cmdInput.delegator = none
  registered : ∀ forgerKeys ∈ cmdInput.forgerPublicKeys, (db.rest.stakes.forgerInfo forgerKeys).isSome

/-- the guards of the command, as premises of what its result is to be -/
theorem doStakeTotalCmd_revertsOr {Q : List ℕ → Prop} :
    RevertsOr Q (exec (doStakeTotalCmd env invocation currentEpoch) db).1 ↔
      ∀ cmdInput, decodeStakeTotal env invocation.input = .ok cmdInput →
        StakeTotalChecked db invocation currentEpoch cmdInput →
        RevertsOr Q (getStakeTotal sqrtPivots db.rest.stakes cmdInput.forgerPublicKeys cmdInput.delegator
          (cmdInput.consensusEpochStart.getD currentEpoch : ℕ)
          (consensusEpochEnd currentEpoch (cmdInput.consensusEpochStart.getD currentEpoch) cmdInput.maxNumOfEpoch)) := by
  simp only [doStakeTotalCmd, requireIsNotPayable, checkForgerStakesV2IsActive, bind_assoc, revertsOr_throwIf_bind,
    exec_get_bind, revertsOr_orThrow_bind decodeStakeTotal_reverts, exec_orThrow]
  constructor
  · intro h cmdInput hdecode hchecked
    refine h (not_not.2 hchecked.not_payable) (not_not.2 hchecked.active) cmdInput hdecode ?_ ?_ ?_
    · rintro ⟨start, hstart, hlt⟩
      have hle := hchecked.start_le
      rw [Option.mem_def.1 hstart] at hle
      exact absurd hle hlt.not_ge
    · rintro ⟨hnone, hsome⟩
      rw [hchecked.delegator_of_forger hnone] at hsome
      cases hsome
    · rintro ⟨forgerKeys, hkeys, hmissing⟩
      have hregistered := hchecked.registered forgerKeys hkeys
      rw [Option.isNone_iff_eq_none.1 hmissing] at hregistered
      cases hregistered
  · intro h hpayable hactive cmdInput hdecode hstart hdelegator hforger
    refine h cmdInput hdecode ⟨not_not.1 hpayable, not_not.1 hactive, ?_, ?_, ?_⟩
    · cases hsome : cmdInput.consensusEpochStart with
      | none => exact le_refl _
      | some start => exact not_lt.1 fun hlt => hstart ⟨start, hsome, hlt⟩
    · intro hnone
      by_contra hsome
      exact hdelegator ⟨hnone, Option.isSome_iff_ne_none.2 hsome⟩
    · intro forgerKeys hkeys
      by_contra hmissing
      exact hforger ⟨forgerKeys, hkeys, by simpa using hmissing⟩

/-- the answer to a checked query -/
theorem getStakeTotal_iff (hr : Readable db.rest.stakes) (hcurrent : currentEpoch < 2 ^ 31) {cmdInput : StakeTotalCmdInput}
    (hmax : ∀ n ∈ cmdInput.maxNumOfEpoch, 0 < n ∧ n < 2 ^ 31)
    (hchecked : StakeTotalChecked db invocation currentEpoch cmdInput) :
    RevertsOr (fun stakes => stakes = stakesOfWindow db.rest.stakes currentEpoch cmdInput)
      (getStakeTotal sqrtPivots db.rest.stakes cmdInput.forgerPublicKeys cmdInput.delegator
        (cmdInput.consensusEpochStart.getD currentEpoch : ℕ)
        (consensusEpochEnd currentEpoch (cmdInput.consensusEpochStart.getD currentEpoch) cmdInput.maxNumOfEpoch)) ↔
    WindowFits currentEpoch (cmdInput.consensusEpochStart.getD currentEpoch) cmdInput.maxNumOfEpoch ∧
      (cmdInput.forgerPublicKeys = none → db.rest.stakes.listOfForgers.toList () ≠ []) := by
  have hstart := hchecked.start_le
  have hle := start_le_windowEnd hstart hmax
  have hwindow : (stakesOfWindow db.rest.stakes currentEpoch cmdInput).length =
      windowEnd currentEpoch (cmdInput.consensusEpochStart.getD currentEpoch) cmdInput.maxNumOfEpoch + 1 -
        cmdInput.consensusEpochStart.getD currentEpoch := by
    simp [stakesOfWindow]
  constructor
  · intro h
    constructor
    · by_contra hfits
      obtain ⟨n, hn, hne⟩ := length_of_not_fits hr hstart hcurrent hmax hfits
      obtain ⟨stakes, hstakes, hlength⟩ := getStakeTotal_length cmdInput.forgerPublicKeys cmdInput.delegator hn
      rw [hstakes] at h
      have hsame : stakes.length = _ := (congrArg List.length h).trans hwindow
      rcases hlength with hlength | rfl
      · exact hne (hlength.symm.trans hsame)
      · simp only [List.length_nil] at hsame
        omega
    · intro hkeys hforgers
      rw [hkeys] at h
      simp only [getStakeTotal, hforgers, List.map_nil, transposeSum] at h
      have hsame : ([] : List ℕ).length = _ := (congrArg List.length h).trans hwindow
      simp only [List.length_nil] at hsame
      omega
  · rintro ⟨hfits, hforgers⟩
    rw [consensusEpochEnd_of_fits hstart hcurrent hmax hfits,
      getStakeTotal_eq hr hle ((windowEnd_le hstart).trans_lt hcurrent) hforgers]
    rfl

/-- **Stake totals.** After any calls on the stakes: a query reverts, or answers with one value for each epoch of its window,
if and only if the sum of its start and its number of epochs is an `Int` (or only cut off there) and, for the total of all
forgers, there is one. -/
theorem stakeTotal_iff (ops : List Op) (hepochs : ∀ o ∈ ops, o.epoch < 2 ^ 31) (hcurrent : currentEpoch < 2 ^ 31)
    (hdb : db.rest.stakes.history = (StakeStorage.run StakeDb.empty ops).history) :
    RevertsOr (fun stakes => ∀ cmdInput, decodeStakeTotal env invocation.input = .ok cmdInput →
        stakes = stakesOfWindow db.rest.stakes currentEpoch cmdInput)
      (exec (doStakeTotalCmd env invocation currentEpoch) db).1 ↔
    ∀ cmdInput, decodeStakeTotal env invocation.input = .ok cmdInput →
      StakeTotalChecked db invocation currentEpoch cmdInput →
      WindowFits currentEpoch (cmdInput.consensusEpochStart.getD currentEpoch) cmdInput.maxNumOfEpoch ∧
        (cmdInput.forgerPublicKeys = none → db.rest.stakes.listOfForgers.toList () ≠ []) := by
  have hrun := run_readable ops hepochs
  have hr : Readable db.rest.stakes := ⟨hdb ▸ hrun.slots, hdb ▸ hrun.sorted⟩
  rw [doStakeTotalCmd_revertsOr]
  refine forall_congr' fun cmdInput => forall_congr' fun hdecode => forall_congr' fun hchecked => ?_
  rw [← getStakeTotal_iff hr hcurrent (decodeStakeTotal_max hdecode) hchecked]
  exact revertsOr_decoded hdecode

/-! ## Rewards -/

/-- what `doRewardsReceivedCmd` checks -/
structure RewardsReceivedChecked (db : Db ρ) (invocation : Invocation) (currentEpoch : ℕ)
    (cmdInput : RewardsReceivedCmdInput) :
    Prop where
  not_payable : invocation.value.sign = 0
  active : db.rest.stakes.active = true
  start_lt : cmdInput.consensusEpochStart < currentEpoch
  registered : (db.rest.stakes.forgerInfo cmdInput.forgerPublicKeys).isSome

/-- the rewards from the start up to the requested end or the last completed epoch, whichever is first -/
def rewardsOfWindow (metadata : MetadataStorage.Storage) (currentEpoch : ℕ) (cmdInput : RewardsReceivedCmdInput) : List ℤ :=
  (List.range (min (cmdInput.consensusEpochStart + cmdInput.maxNumOfEpoch) currentEpoch - cmdInput.consensusEpochStart)).map
    fun k : ℕ => MetadataStorage.getForgerReward metadata
      (.forgerRewards cmdInput.forgerPublicKeys ((cmdInput.consensusEpochStart : ℤ) + k))

theorem doRewardsReceivedCmd_revertsOr {metadata : MetadataStorage.Storage} {Q : RewardsRead → Prop} :
    RevertsOr Q (exec (doRewardsReceivedCmd env metadata invocation currentEpoch) db).1 ↔
      ∀ cmdInput, decodeRewardsReceived env invocation.input = .ok cmdInput →
        RewardsReceivedChecked db invocation currentEpoch cmdInput →
        Q (getForgerRewards metadata cmdInput.forgerPublicKeys cmdInput.consensusEpochStart
          (numOfEpochs currentEpoch cmdInput.consensusEpochStart cmdInput.maxNumOfEpoch)) := by
  simp only [doRewardsReceivedCmd, requireIsNotPayable, checkForgerStakesV2IsActive, bind_assoc, revertsOr_throwIf_bind,
    exec_get_bind, revertsOr_orThrow_bind decodeRewardsReceived_reverts, exec_pure]
  constructor
  · intro h cmdInput hdecode hchecked
    refine h (not_not.2 hchecked.not_payable) (not_not.2 hchecked.active) cmdInput hdecode hchecked.start_lt.not_ge ?_
    rw [Option.isNone_iff_eq_none]
    exact Option.isSome_iff_ne_none.1 hchecked.registered
  · intro h hpayable hactive cmdInput hdecode hstart hforger
    exact h cmdInput hdecode ⟨not_not.1 hpayable, not_not.1 hactive, not_le.1 hstart,
      Option.isSome_iff_ne_none.2 fun hnone => hforger (Option.isNone_iff_eq_none.2 hnone)⟩

section Epochs

variable {start n : ℕ}

theorem requestedEnd_eq (start n : ℕ) : intOf (intOf ((start : ℤ) + n) - 1) = intOf ((start : ℤ) + n - 1) := by
  have hswap : intOf ((start : ℤ) + n) - 1 = -1 + intOf ((start : ℤ) + n) := by ring
  rw [hswap, intOf_add_intOf]
  exact congrArg intOf (by ring)

theorem numOfEpochs_of_fits (hstart : start < currentEpoch) (hcurrent : currentEpoch < 2 ^ 31) (hfits : start + n ≤ 2 ^ 31) :
    numOfEpochs currentEpoch start n = (min (start + n) currentEpoch - start : ℕ) := by
  have hend : intOf ((start : ℤ) + n - 1) = (start : ℤ) + n - 1 := intOf_eq ⟨by omega, by omega⟩
  have hrest : intOf ((currentEpoch : ℤ) - start) = (currentEpoch : ℤ) - start := intOf_eq ⟨by omega, by omega⟩
  unfold numOfEpochs
  rw [requestedEnd_eq, hend, hrest]
  split_ifs with hcut
  · rw [min_eq_right (by omega)]
    omega
  · rw [min_eq_left (by omega)]
    omega

/-- beyond the last `Int` the requested end wraps around, and nothing is cut off -/
theorem numOfEpochs_of_not_fits (hstart : start < currentEpoch) (hcurrent : currentEpoch < 2 ^ 31) (hn : n < 2 ^ 31)
    (hfits : ¬ start + n ≤ 2 ^ 31) : numOfEpochs currentEpoch start n = n := by
  have hend : intOf ((start : ℤ) + n - 1) = (start : ℤ) + n - 1 - 2 ^ 32 := intOf_sub_range (by omega) (by omega)
  unfold numOfEpochs
  rw [requestedEnd_eq, hend, if_neg (by omega)]

end Epochs

theorem length_getForgerRewards_reads (metadata : MetadataStorage.Storage) (keys : ForgerPublicKeys) (start : ℤ) (n : ℕ) :
    (getForgerRewards metadata keys start n).reads.length = n := by
  simp [getForgerRewards]

/-- **Rewards.** A query reverts, or answers with the rewards of its window and reads at most one key for each epoch from the
start to the current one, if and only if the end of the window is an `Int`. -/
theorem rewardsReceived_iff (metadata : MetadataStorage.Storage) (hcurrent : currentEpoch < 2 ^ 31) :
    RevertsOr (fun answer => ∀ cmdInput, decodeRewardsReceived env invocation.input = .ok cmdInput →
        answer.rewards = rewardsOfWindow metadata currentEpoch cmdInput ∧
          answer.reads.length ≤ currentEpoch - cmdInput.consensusEpochStart)
      (exec (doRewardsReceivedCmd env metadata invocation currentEpoch) db).1 ↔
    ∀ cmdInput, decodeRewardsReceived env invocation.input = .ok cmdInput →
      RewardsReceivedChecked db invocation currentEpoch cmdInput →
      cmdInput.consensusEpochStart + cmdInput.maxNumOfEpoch ≤ 2 ^ 31 := by
  rw [doRewardsReceivedCmd_revertsOr]
  refine forall_congr' fun cmdInput => forall_congr' fun hdecode => forall_congr' fun hchecked => ?_
  have hstart := hchecked.start_lt
  have hn := decodeRewardsReceived_max hdecode
  constructor
  · intro h
    by_contra hfits
    obtain ⟨-, hreads⟩ := h cmdInput hdecode
    rw [numOfEpochs_of_not_fits hstart hcurrent hn hfits, length_getForgerRewards_reads] at hreads
    omega
  · intro hfits cmdInput' hdecode'
    rw [hdecode] at hdecode'
    obtain rfl := Except.ok.inj hdecode'
    rw [numOfEpochs_of_fits hstart hcurrent hfits, length_getForgerRewards_reads]
    refine ⟨?_, by omega⟩
    simp only [getForgerRewards, rewardsOfWindow, Int.toNat_natCast, List.map_map]
    apply List.map_congr_left
    intro k hk
    have hlt := List.mem_range.1 hk
    have hepoch : intOf ((cmdInput.consensusEpochStart : ℤ) + k) = (cmdInput.consensusEpochStart : ℤ) + k :=
      intOf_eq ⟨by omega, by omega⟩
    rw [Function.comp_apply, hepoch]

end Queries

/-! ## Beyond the last `Int` -/

def queryDb : Db Unit :=
  ⟨fun _ => 0, fun _ => 0, fun _ => true, 0, ⟨{ StakeStorage.run StakeDb.empty twoCheckpoints with active := true }, [],
    ()⟩⟩

/-- a call without parameters: the decoders below ignore them -/
def queryInvocation : Invocation := ⟨⟨1, some contractAddress, 0, [0, 0, 0, 0], true⟩, ⟨0, 0⟩⟩

/-- from epoch 100, as many epochs as an `Int` can say -/
def overflowing : QueryDecoders :=
  ⟨fun _ => .ok ⟨⟨1, 2, 3⟩, 0, 100, 2147483647⟩, fun _ => .ok ⟨⟨1, 2, 3⟩, 99, 2147483647⟩⟩

/-- the same for the last epoch alone -/
def lastEpochOnly : QueryDecoders :=
  ⟨fun _ => .ok ⟨⟨1, 2, 3⟩, 0, 100, 1⟩, fun _ => .ok ⟨⟨1, 2, 3⟩, 99, 1⟩⟩

def overflowingInput : StakeTotalCmdInput := ⟨some ⟨1, 2, 3⟩, none, some 100, some 2147483647⟩

theorem overflowingInput_decoded : decodeStakeTotal overflowing queryInvocation.input = .ok overflowingInput := rfl

theorem overflowingInput_checked : StakeTotalChecked queryDb queryInvocation 100 overflowingInput := by
  refine ⟨rfl, rfl, le_refl _, ?_, ?_⟩
  · intro h
    cases h
  · intro forgerKeys hkeys
    rw [← Option.some.inj (Option.mem_def.1 hkeys)]
    rfl

/-- the query is for epoch 100 alone, but answered with 2147483647 zeros -/
theorem stakeTotal_overflows :
    ¬ RevertsOr (fun stakes => ∀ cmdInput, decodeStakeTotal overflowing queryInvocation.input = .ok cmdInput →
        stakes = stakesOfWindow queryDb.rest.stakes 100 cmdInput)
      (exec (doStakeTotalCmd overflowing queryInvocation 100) queryDb).1 := by
  intro h
  have hrun := run_readable twoCheckpoints twoCheckpoints_epochs
  have hr : Readable queryDb.rest.stakes := ⟨hrun.slots, hrun.sorted⟩
  have hanswer := doStakeTotalCmd_revertsOr.1 h overflowingInput overflowingInput_decoded overflowingInput_checked
  rw [revertsOr_decoded overflowingInput_decoded] at hanswer
  have hfits := ((getStakeTotal_iff hr (by norm_num)
    (decodeStakeTotal_max overflowingInput_decoded) overflowingInput_checked).1 hanswer).1
  rcases hfits 2147483647 rfl with hlt | heq
  · exact absurd hlt (by decide)
  · exact absurd heq (by decide)

theorem stakeTotal_iff_lastEpochOnly :
    RevertsOr (fun stakes => ∀ cmdInput, decodeStakeTotal lastEpochOnly queryInvocation.input = .ok cmdInput →
        stakes = stakesOfWindow queryDb.rest.stakes 100 cmdInput)
      (exec (doStakeTotalCmd lastEpochOnly queryInvocation 100) queryDb).1 := by
  refine (stakeTotal_iff twoCheckpoints twoCheckpoints_epochs (by norm_num) rfl).2 ?_
  intro cmdInput hdecode _
  obtain rfl := Except.ok.inj hdecode
  refine ⟨?_, fun h => by cases h⟩
  intro n hn
  left
  rw [← Option.some.inj (Option.mem_def.1 hn)]
  decide

/-- one epoch is completed since the start, but 2147483647 keys are read -/
theorem rewardsReceived_overflows :
    ¬ RevertsOr (fun answer => ∀ cmdInput, decodeRewardsReceived overflowing queryInvocation.input = .ok cmdInput →
        answer.rewards = rewardsOfWindow MetadataStorage.emptyStorage 100 cmdInput ∧
          answer.reads.length ≤ 100 - cmdInput.consensusEpochStart)
      (exec (doRewardsReceivedCmd overflowing MetadataStorage.emptyStorage queryInvocation 100) queryDb).1 := by
  intro h
  have hdecode : decodeRewardsReceived overflowing queryInvocation.input = .ok ⟨⟨1, 2, 3⟩, 99, 2147483647⟩ := rfl
  have hchecked : RewardsReceivedChecked queryDb queryInvocation 100 ⟨⟨1, 2, 3⟩, 99, 2147483647⟩ :=
    ⟨rfl, rfl, by norm_num, rfl⟩
  obtain ⟨-, hreads⟩ := doRewardsReceivedCmd_revertsOr.1 h _ hdecode hchecked _ hdecode
  rw [numOfEpochs_of_not_fits (by norm_num) (by norm_num) (by norm_num) (by norm_num),
    length_getForgerRewards_reads] at hreads
  norm_num at hreads

theorem rewardsReceived_iff_lastEpochOnly :
    RevertsOr (fun answer => ∀ cmdInput, decodeRewardsReceived lastEpochOnly queryInvocation.input = .ok cmdInput →
        answer.rewards = rewardsOfWindow MetadataStorage.emptyStorage 100 cmdInput ∧
          answer.reads.length ≤ 100 - cmdInput.consensusEpochStart)
      (exec (doRewardsReceivedCmd lastEpochOnly MetadataStorage.emptyStorage queryInvocation 100) queryDb).1 := by
  refine (rewardsReceived_iff _ (by norm_num)).2 ?_
  intro cmdInput hdecode _
  obtain rfl := Except.ok.inj hdecode
  decide

end SidechainsSdk.Account.ForgerStakeV2
