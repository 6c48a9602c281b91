/-
Stakes by epoch (`StakeStorage.getForgerStakesPerEpoch`, `checkpointBSearch`, `getStakeTotal`).

A query searches the checkpoint in force at its last epoch, with a pivot near the end of the history first, and then walks
back epoch by epoch and checkpoint by checkpoint. The search reads slots of the history by their index; one beyond its size
may hold a checkpoint that was dropped.

- `checkpointBSearch`, `getForgerStakesPerEpoch`, `getStakeTotal`: the code, for any pivots between the bounds;
  `sqrtPivots` are those of the source.
- `Readable`: what the histories need for it. The epochs of a history increase and are `Int`s, and where nothing was ever
  recorded the first slot was never written. `run_readable`: all calls keep it.
- `checkpointBSearch_spec`: the search ends, stays within the history and finds the checkpoint in force.
- `stakesBack_eq`: the walk back, by induction on the epochs that are left.
- `getForgerStakesPerEpoch_eq`: the list of a query is the step function of the history at its epochs.

Indices are natural numbers. The sum of two of them leaves the range of an `Int` from 2^30 checkpoints on.
-/
import Mathlib.Tactic
import SidechainsSdk.Account.Stakes.StakeStorage
import SidechainsSdk.Core.MachineInt
import SidechainsSdk.Core.PivotSearch

namespace SidechainsSdk.Account.StakeStorage

open Fallible Checkpoints MachineInt PivotSearch

/-! ## The code -/

/-- the pivots of a search: the first one for a history of more than 5 checkpoints, the others between two bounds -/
structure Pivots extends Pivot where
  recent : ℕ → ℕ
  recent_lt : ∀ length, 5 < length → recent length < length

/-- `Math.sqrt(n).round`: a root of an integer does not lie half way between two integers -/
def roundedSqrt (n : ℕ) : ℕ := if n ≤ n.sqrt * (n.sqrt + 1) then n.sqrt else n.sqrt + 1

theorem roundedSqrt_pos {n : ℕ} (h : 0 < n) : 0 < roundedSqrt n := by
  unfold roundedSqrt
  split_ifs
  · exact Nat.sqrt_pos.2 h
  · exact Nat.succ_pos _

def sqrtPivots : Pivots where
  index low high := (high + low) / 2
  le_index := by omega
  index_lt := by omega
  recent length := length - roundedSqrt length
  recent_lt length h := Nat.sub_lt (by omega) (roundedSqrt_pos (by omega))

def getCheckpoint (db : StakeDb) (h : HistoryId) (index : ℕ) : StakeCheckpoint := db.history.getValue h index

/-- the epochs of the checkpoints, as the search compares them -/
def checkpointEpoch (db : StakeDb) (h : HistoryId) (index : ℕ) : ℤ := (getCheckpoint db h index).fromEpochNumber

variable (pivots : Pivots)

def checkpointBSearch (db : StakeDb) (h : HistoryId) (epoch : ℤ) : Found :=
  let length := db.history.getSize h
  if length > 5 then
    let mid := pivots.recent length
    if checkpointEpoch db h mid = epoch then ⟨mid, [mid]⟩
    else if checkpointEpoch db h mid > epoch then
      (search pivots.toPivot (checkpointEpoch db h) epoch 0 mid).after mid
    else
      (search pivots.toPivot (checkpointEpoch db h) epoch (mid + 1) length).after mid
  else
    search pivots.toPivot (checkpointEpoch db h) epoch 0 length

/-- `List.fill` with zeros; a count that is not positive gives the empty list -/
def fillZeros (count : ℤ) : List ℕ := List.replicate count.toNat 0

/-- the loop of `getForgerStakesPerEpoch`, with the epochs that are left; `result` is filled from the front -/
def stakesBack (db : StakeDb) (h : HistoryId) (consensusEpochStart : ℤ) :
    ℕ → ℤ → ℕ → StakeCheckpoint → List ℕ → List ℕ
  | 0, _, _, _, result => result
  | left + 1, currEpoch, currIndex, currCheckpoint, result =>
    let result := currCheckpoint.stakedAmount :: result
    if currCheckpoint.fromEpochNumber = currEpoch then
      if currIndex = 0 then
        fillZeros (intOf (currEpoch - consensusEpochStart)) ++ result
      else
        let currIndex := currIndex - 1
        let currCheckpoint := if currEpoch ≠ consensusEpochStart then getCheckpoint db h currIndex else currCheckpoint
        stakesBack db h consensusEpochStart left (currEpoch - 1) currIndex currCheckpoint result
    else
      stakesBack db h consensusEpochStart left (currEpoch - 1) currIndex currCheckpoint result

def getForgerStakesPerEpoch (db : StakeDb) (h : HistoryId) (consensusEpochStart consensusEpochEnd : ℤ) : List ℕ :=
  if (getCheckpoint db h 0).fromEpochNumber > consensusEpochEnd then
    fillZeros (intOf (consensusEpochEnd - consensusEpochStart + 1))
  else
    let currIndex := (checkpointBSearch pivots db h consensusEpochEnd).position
    stakesBack db h consensusEpochStart (consensusEpochEnd - consensusEpochStart + 1).toNat consensusEpochEnd currIndex
      (getCheckpoint db h currIndex) []

/-- `transpose`, and the sums of its rows -/
def transposeSum (columns : List (List ℕ)) : Except Exc (List ℕ) :=
  match columns with
  | [] => .ok []
  | first :: rest =>
    if rest.all fun column => column.length = first.length then
      .ok ((List.range first.length).map fun i => (columns.map fun column => column.getD i 0).sum)
    else .error (.illegalArgument "transpose requires all collections have the same size")

def getStakeTotal (db : StakeDb) (forgerKeys : Option ForgerPublicKeys) (delegator : Option Address)
    (consensusEpochStart consensusEpochEnd : ℤ) : Except Exc (List ℕ) :=
  match forgerKeys with
  | some forgerKey =>
    let history := match delegator with
      | some address => HistoryId.stake forgerKey address
      | none => HistoryId.forger forgerKey
    .ok (getForgerStakesPerEpoch pivots db history consensusEpochStart consensusEpochEnd)
  | none =>
    transposeSum ((db.listOfForgers.toList ()).map fun forgerKey =>
      getForgerStakesPerEpoch pivots db (.forger forgerKey) consensusEpochStart consensusEpochEnd)

/-! ## What the slots hold -/

/-- the slots of the histories: epochs are `Int`s, and an empty history was never written -/
structure Slots (a : StateDbArray HistoryId StakeCheckpoint) : Prop where
  unwritten : ∀ h, a.getSize h = 0 → a.getValue h 0 = default
  bounded : ∀ h i, i < a.getSize h → (a.getValue h i).fromEpochNumber < 2 ^ 31

/-- one write of a call on a history: the last checkpoint is dropped only if another one stays -/
inductive Write (epoch : ℕ) (a : StateDbArray HistoryId StakeCheckpoint) : StateDbArray HistoryId StakeCheckpoint → Prop
  | append (h : HistoryId) (c : StakeCheckpoint) (hc : c.fromEpochNumber = epoch) : Write epoch a (a.append h c)
  | drop (h : HistoryId) (n : ℕ) (hpos : 0 < n) (hle : n ≤ a.getSize h) : Write epoch a (a.updateSize h n)
  | replace (h : HistoryId) (i : ℕ) (c : StakeCheckpoint) (hc : c.fromEpochNumber = epoch) (hi : i < a.getSize h) :
      Write epoch a (a.setSlot h i c)

abbrev Writes (epoch : ℕ) := Relation.ReflTransGen (Write epoch)

theorem Slots.write {epoch : ℕ} (hepoch : epoch < 2 ^ 31) {a a' : StateDbArray HistoryId StakeCheckpoint} (ha : Slots a)
    (hw : Write epoch a a') : Slots a' := by
  cases hw with
  | append h c hc =>
    refine ⟨?_, ?_⟩
    · intro h' hsize
      by_cases hh : h' = h
      · subst hh
        simp [StateDbArray.getSize, StateDbArray.append, StateDbArray.updateSize] at hsize
      · have hold := ha.unwritten h'
        simp only [StateDbArray.getSize, StateDbArray.getValue, StateDbArray.append, StateDbArray.updateSize,
          StateDbArray.setSlot, Function.update_of_ne hh] at hsize hold ⊢
        exact hold hsize
    · intro h' i hi
      by_cases hh : h' = h
      · subst hh
        simp only [StateDbArray.getSize, StateDbArray.append, StateDbArray.updateSize, Function.update_self] at hi
        rcases Nat.lt_succ_iff_lt_or_eq.1 hi with hlt | rfl
        · have hold := ha.bounded h' i hlt
          simp only [StateDbArray.getValue, StateDbArray.append, StateDbArray.updateSize, StateDbArray.setSlot,
            StateDbArray.getSize, Function.update_self, Function.update_of_ne hlt.ne] at hold ⊢
          exact hold
        · simp only [StateDbArray.getValue, StateDbArray.append, StateDbArray.updateSize, StateDbArray.setSlot,
            StateDbArray.getSize, Function.update_self, hc]
          exact hepoch
      · have hold := ha.bounded h' i
        simp only [StateDbArray.getSize, StateDbArray.getValue, StateDbArray.append, StateDbArray.updateSize,
          StateDbArray.setSlot, Function.update_of_ne hh] at hi hold ⊢
        exact hold hi
  | drop h n hpos hle =>
    refine ⟨?_, ?_⟩
    · intro h' hsize
      by_cases hh : h' = h
      · subst hh
        simp only [StateDbArray.getSize, StateDbArray.updateSize, Function.update_self] at hsize
        exact absurd hsize hpos.ne'
      · have hold := ha.unwritten h'
        simp only [StateDbArray.getSize, StateDbArray.getValue, StateDbArray.updateSize, Function.update_of_ne hh]
          at hsize hold ⊢
        exact hold hsize
    · intro h' i hi
      by_cases hh : h' = h
      · subst hh
        simp only [StateDbArray.getSize, StateDbArray.updateSize, Function.update_self] at hi
        exact ha.bounded h' i (hi.trans_le hle)
      · simp only [StateDbArray.getSize, StateDbArray.updateSize, Function.update_of_ne hh] at hi
        exact ha.bounded h' i hi
  | replace h i c hc hi =>
    refine ⟨?_, ?_⟩
    · intro h' hsize
      by_cases hh : h' = h
      · subst hh
        have hzero : a.getSize h' = 0 := hsize
        omega
      · have hold := ha.unwritten h' hsize
        simp only [StateDbArray.getValue, StateDbArray.setSlot, Function.update_of_ne hh] at hold ⊢
        exact hold
    · intro h' j hj
      have hold := ha.bounded h' j hj
      simp only [StateDbArray.getValue, StateDbArray.setSlot] at hold ⊢
      by_cases hh : h' = h
      · subst hh
        rw [Function.update_self]
        by_cases hij : j = i
        · subst hij
          rw [Function.update_self, hc]
          exact hepoch
        · rw [Function.update_of_ne hij]
          exact hold
      · rw [Function.update_of_ne hh]
        exact hold

theorem Slots.writes {epoch : ℕ} (hepoch : epoch < 2 ^ 31) {a a' : StateDbArray HistoryId StakeCheckpoint} (ha : Slots a)
    (hw : Writes epoch a a') : Slots a' := by
  induction hw with
  | refl => exact ha
  | tail _ hw ih => exact ih.write hepoch hw

theorem addCheckpoint_write {h : HistoryId} {epoch : ℕ} {amount : ℤ} {db db' : StakeDb}
    (hrun : exec (addCheckpoint h epoch amount) db = (.ok (), db')) : Write epoch db.history db'.history := by
  obtain ⟨-, rfl⟩ := addCheckpoint_ok hrun
  exact .append h _ rfl

theorem updateOrAddCheckpoint_write {h : HistoryId} {epoch : ℕ} {op : ℤ → Except Exc ℤ} {db db' : StakeDb}
    (hrun : exec (updateOrAddCheckpoint h (db.history.getSize h) epoch op) db = (.ok (), db')) :
    Write epoch db.history db'.history := by
  simp only [updateOrAddCheckpoint, exec_get_bind] at hrun
  by_cases hpos : db.history.getSize h > 0
  · rw [if_pos hpos, exec_orThrow_bind_ok] at hrun
    obtain ⟨newAmount, -, hrun⟩ := hrun
    split_ifs at hrun with heq hsame hlt
    · -- the last checkpoint is dropped, there is one before it
      simp only [exec_modify, Prod.mk.injEq, true_and] at hrun
      subst hrun
      exact .drop h _ hsame.1 (Nat.sub_le _ 1)
    · simp only [exec_orThrow_bind_ok, exec_modify, Prod.mk.injEq, true_and] at hrun
      obtain ⟨c, hc, history, hset, rfl⟩ := hrun
      obtain ⟨-, rfl⟩ := newCheckpoint_ok hc
      have hlast : db.history.getSize h - 1 < db.history.getSize h := Nat.sub_lt hpos Nat.one_pos
      rw [StateDbArray.updateValue, if_pos hlast] at hset
      obtain rfl := Except.ok.inj hset
      exact .replace h _ _ rfl hlast
    · exact addCheckpoint_write hrun
    · simp at hrun
  · rw [if_neg hpos, exec_orThrow_bind_ok] at hrun
    obtain ⟨newAmount, -, hrun⟩ := hrun
    exact addCheckpoint_write hrun

theorem addNewDelegator_history {f : ForgerPublicKeys} {d : Address} {db db' : StakeDb}
    (hrun : exec (addNewDelegator f d) db = (.ok (), db')) : db'.history = db.history := by
  simp only [addNewDelegator, exec_modify_bind, exec_modify, Prod.mk.injEq, true_and] at hrun
  rw [← hrun]

/-- the epoch of a call -/
def Op.epoch : Op → ℕ
  | .addForger _ _ _ epochNumber _ _ => epochNumber
  | .addStake _ epochNumber _ _ => epochNumber
  | .removeStake _ epochNumber _ _ => epochNumber

theorem call_writes {db db' : StakeDb} (o : Op) (hrun : exec o.call db = (.ok (), db')) :
    Writes o.epoch db.history db'.history := by
  cases o with
  | addForger f share addr epoch d amount =>
    simp only [Op.call, addForger, exec_get_bind, exec_throwIf_bind_ok] at hrun
    simp only [exec_bind_ok] at hrun
    obtain ⟨-, ⟨⟩, s1, hinfo, ⟨⟩, s2, hadd1, ⟨⟩, s3, hadd2, hdel⟩ := hrun
    obtain ⟨-, rfl⟩ := addForgerInfo_ok hinfo
    rw [addNewDelegator_history hdel]
    exact (Relation.ReflTransGen.single (addCheckpoint_write hadd1)).tail (addCheckpoint_write hadd2)
  | addStake f epoch d amount =>
    simp only [Op.call, addStake, exec_get_bind, exec_throwIf_bind_ok] at hrun
    simp only [exec_bind_ok, exec_get_bind] at hrun
    obtain ⟨-, ⟨⟩, s1, hforger, ⟨⟩, s2, hstake, hrun⟩ := hrun
    have hwrites : Writes epoch db.history s2.history :=
      (Relation.ReflTransGen.single (updateOrAddCheckpoint_write hforger)).tail (updateOrAddCheckpoint_write hstake)
    split_ifs at hrun with hnew
    · rw [addNewDelegator_history hrun]
      exact hwrites
    · obtain ⟨-, rfl⟩ := Prod.mk.inj hrun
      exact hwrites
  | removeStake f epoch d amount =>
    simp only [Op.call, removeStake, exec_get_bind, exec_throwIf_bind_ok] at hrun
    simp only [exec_bind_ok] at hrun
    obtain ⟨-, -, ⟨⟩, s1, hstake, hforger⟩ := hrun
    obtain ⟨own, hu⟩ := updateOrAddCheckpoint_ok hstake
    have hsize : db.history.getSize (.forger f) = s1.history.getSize (.forger f) := by
      rw [StateDbArray.getSize_eq, StateDbArray.getSize_eq, hu.others _ (stake_ne_forger f f d).symm]
    rw [hsize] at hforger
    exact (Relation.ReflTransGen.single (updateOrAddCheckpoint_write hstake)).tail (updateOrAddCheckpoint_write hforger)

/-- what a query relies on -/
structure Readable (db : StakeDb) : Prop where
  slots : Slots db.history
  sorted : ∀ h, Sorted StakeCheckpoint.fromEpochNumber (db.history.toList h)

theorem run_slots {db : StakeDb} (hdb : Slots db.history) (ops : List Op) (hepochs : ∀ o ∈ ops, o.epoch < 2 ^ 31) :
    Slots (run db ops).history := by
  induction ops generalizing db with
  | nil => exact hdb
  | cons o ops ih =>
    have hstep : Slots (step db o).history := by
      unfold step
      rcases reverting_cases o.call db with ⟨⟨⟩, db', hexec, hrev⟩ | ⟨e, db', -, hrev⟩
      · rw [hrev]
        exact hdb.writes (hepochs o List.mem_cons_self) (call_writes o hexec)
      · rw [hrev]
        exact hdb
    exact ih hstep fun o' ho' => hepochs o' (List.mem_cons_of_mem o ho')

theorem run_readable (ops : List Op) (hepochs : ∀ o ∈ ops, o.epoch < 2 ^ 31) : Readable (run StakeDb.empty ops) := by
  have hempty : Slots StakeDb.empty.history := by
    refine ⟨fun _ _ => rfl, ?_⟩
    intro h i hi
    exact absurd hi (Nat.not_lt_zero i)
  exact ⟨run_slots hempty ops hepochs, (run_consistent empty_consistent ops).delegations.sorted⟩

/-! ## The search -/

section Search

variable {pivots} {db : StakeDb} {h : HistoryId}

theorem Readable.increasing (hr : Readable db) (h : HistoryId) : Increasing (checkpointEpoch db h) (db.history.getSize h) := by
  intro i j hij hj
  have hi := hij.trans hj
  have hlt : (getCheckpoint db h i).fromEpochNumber < (getCheckpoint db h j).fromEpochNumber := by
    have hpair := List.pairwise_iff_getElem.1 (hr.sorted h) i j (by rwa [← StateDbArray.getSize_eq])
      (by rwa [← StateDbArray.getSize_eq]) hij
    simp only [StateDbArray.toList, List.getElem_map, List.getElem_range] at hpair
    exact hpair
  exact Int.ofNat_lt.2 hlt

/-- **The search.** It reads within the history; if the first checkpoint is not after the epoch, it finds the last one that
is not. -/
theorem checkpointBSearch_spec (hr : Readable db) (hsize : db.history.getSize h ≠ 0) (epoch : ℤ) :
    (∀ i ∈ (checkpointBSearch pivots db h epoch).reads, i < db.history.getSize h) ∧
      (checkpointEpoch db h 0 ≤ epoch → IsLast (checkpointEpoch db h) epoch (db.history.getSize h)
        (checkpointBSearch pivots db h epoch).position) := by
  have hincreasing := hr.increasing h
  have hpos : 0 < db.history.getSize h := Nat.pos_of_ne_zero hsize
  have hstart : Decided (checkpointEpoch db h) epoch (db.history.getSize h) 0 (db.history.getSize h) := Decided.start _
  unfold checkpointBSearch
  dsimp only
  by_cases hlong : db.history.getSize h > 5
  · have hmid := pivots.recent_lt _ hlong
    rw [if_pos hlong]
    split_ifs with heq hlater
    · refine ⟨fun i hi => ?_, fun _ => isLast_of_eq hincreasing hmid heq⟩
      rw [List.mem_singleton.1 hi]
      exact hmid
    · refine ⟨fun i hi => ?_, fun hfirst =>
        search_isLast hincreasing hfirst hpos (hstart.lower hincreasing (Nat.zero_le _) hmid hlater)⟩
      rcases List.mem_cons.1 hi with rfl | hi
      · exact hmid
      · exact (search_reads _ _ _ _ _ i hi).2.trans hmid
    · refine ⟨fun i hi => ?_, fun hfirst =>
        search_isLast hincreasing hfirst hpos (hstart.upper hincreasing hmid (not_lt.1 hlater))⟩
      rcases List.mem_cons.1 hi with rfl | hi
      · exact hmid
      · exact (search_reads _ _ _ _ _ i hi).2
  · rw [if_neg hlong]
    exact ⟨fun i hi => (search_reads _ _ _ _ _ i hi).2, fun hfirst => search_isLast hincreasing hfirst hpos hstart⟩

theorem checkpointBSearch_empty (hsize : db.history.getSize h = 0) (epoch : ℤ) :
    (checkpointBSearch pivots db h epoch).position = 0 := by
  simp only [checkpointBSearch, hsize, gt_iff_lt, Nat.not_lt_zero, if_false]
  rw [search_of_le _ _ _ (le_refl 0)]
  rfl

end Search

/-! ## The walk back -/

theorem fillZeros_intOf {n : ℕ} (hn : n < 2 ^ 31) : fillZeros (intOf n) = List.replicate n 0 := by
  have hint : IsInt n := ⟨by omega, by exact_mod_cast hn⟩
  rw [fillZeros, intOf_eq hint, Int.toNat_natCast]

section Walk

variable {db : StakeDb} {h : HistoryId} {n : ℕ}

/-- the checkpoints with index below `n`; an empty history is read as one with the zero word at index 0 -/
def checkpoints (db : StakeDb) (h : HistoryId) (n : ℕ) : List StakeCheckpoint := (List.range n).map (getCheckpoint db h)

theorem amountAt_of_isLast {epoch r : ℕ} (hlast : IsLast (checkpointEpoch db h) epoch n r) :
    amountAt (checkpoints db h n) epoch = (getCheckpoint db h r).stakedAmount := by
  have hcast : IsLast (fun i => (getCheckpoint db h i).fromEpochNumber) epoch n r := by
    refine ⟨hlast.lt, Int.ofNat_le.1 hlast.le, ?_⟩
    intro i hi hn
    exact Int.ofNat_lt.1 (hlast.later i hi hn)
  exact hcast.valueAt

theorem amountAt_before {epoch : ℕ} (hincreasing : Increasing (checkpointEpoch db h) n)
    (hfirst : (epoch : ℤ) < checkpointEpoch db h 0) : amountAt (checkpoints db h n) epoch = 0 := by
  apply valueAt_before
  intro i hi
  have hle : checkpointEpoch db h 0 ≤ checkpointEpoch db h i := by
    rcases Nat.eq_zero_or_pos i with rfl | hpos
    · exact le_refl _
    · exact (hincreasing 0 i hpos hi).le
  exact Int.ofNat_lt.1 (hfirst.trans_le hle)

/-- Going back from the epoch `start + left - 1`, whose checkpoint is at the current index: the amounts of the epochs that
are left come before the result. -/
theorem stakesBack_eq (hincreasing : Increasing (checkpointEpoch db h) n) (start left : ℕ) (hfits : start + left ≤ 2 ^ 31)
    (currIndex : ℕ) (currCheckpoint : StakeCheckpoint) (result : List ℕ)
    (hlast : left ≠ 0 → IsLast (checkpointEpoch db h) ((start : ℤ) + left - 1) n currIndex)
    (hcurr : left ≠ 0 → currCheckpoint = getCheckpoint db h currIndex) :
    stakesBack db h start left ((start : ℤ) + left - 1) currIndex currCheckpoint result =
      (List.range left).map (fun k => amountAt (checkpoints db h n) (start + k)) ++ result := by
  induction left generalizing currIndex currCheckpoint result with
  | zero => rfl
  | succ left ih =>
    have hcurrent : (start : ℤ) + (left + 1 : ℕ) - 1 = ((start + left : ℕ) : ℤ) := by push_cast; ring
    have hprevious : ((start + left : ℕ) : ℤ) - 1 = (start : ℤ) + left - 1 := by push_cast; ring
    have hlast' := hlast (Nat.succ_ne_zero left)
    rw [hcurrent] at hlast' ⊢
    obtain rfl := hcurr (Nat.succ_ne_zero left)
    have hamount := amountAt_of_isLast hlast'
    have hrange : (List.range (left + 1)).map (fun k => amountAt (checkpoints db h n) (start + k)) ++ result =
        (List.range left).map (fun k => amountAt (checkpoints db h n) (start + k)) ++
          (getCheckpoint db h currIndex).stakedAmount :: result := by
      rw [List.range_succ, List.map_append, List.map_singleton, hamount, List.append_assoc]
      rfl
    rw [hrange]
    simp only [stakesBack, hprevious]
    split_ifs with heq hzero hmore
    · -- the first checkpoint starts here, so nothing is before
      subst hzero
      have hdiff : ((start + left : ℕ) : ℤ) - start = left := by push_cast; ring
      rw [hdiff, fillZeros_intOf (by omega)]
      congr 1
      refine (List.eq_replicate_iff.2 ⟨by simp, ?_⟩).symm
      intro amount hamount
      obtain ⟨k, hk, rfl⟩ := List.mem_map.1 hamount
      apply amountAt_before hincreasing
      rw [checkpointEpoch, heq]
      have hlt := List.mem_range.1 hk
      push_cast
      omega
    · -- another checkpoint before it
      obtain ⟨index, rfl⟩ := Nat.exists_eq_succ_of_ne_zero hzero
      refine ih (by omega) _ _ _ ?_ fun _ => rfl
      intro _
      refine hlast'.previous hincreasing ?_ ?_
      · intro u hu
        rw [checkpointEpoch, heq] at hu
        push_cast at hu
        omega
      · rw [checkpointEpoch, heq]
        push_cast
        omega
    · -- the last epoch of the query
      have hleft : left = 0 := by
        have hsame := not_not.1 hmore
        push_cast at hsame
        omega
      subst hleft
      rfl
    · refine ih (by omega) _ _ _ ?_ fun _ => rfl
      intro _
      have hle := hlast'.le
      refine hlast'.earlier ?_ ?_
      · rw [checkpointEpoch] at hle ⊢
        push_cast at hle heq ⊢
        omega
      · intro u hu
        push_cast at hu
        omega

end Walk

/-! ## Queries -/

section Query

variable {pivots} {db : StakeDb}

theorem checkpoints_size (db : StakeDb) (h : HistoryId) : checkpoints db h (db.history.getSize h) = db.history.toList h := rfl

/-- an empty history, as it is read -/
theorem amountAt_unwritten (hr : Readable db) {h : HistoryId} (hsize : db.history.getSize h = 0) (epoch : ℕ) :
    amountAt (checkpoints db h 1) epoch = amountAt (db.history.toList h) epoch := by
  have hzero : getCheckpoint db h 0 = ⟨0, 0⟩ := hr.slots.unwritten h hsize
  have hlist : db.history.toList h = [] := by
    rw [← List.length_eq_zero_iff, ← StateDbArray.getSize_eq]
    exact hsize
  rw [hlist]
  simp [checkpoints, hzero, amountAt, valueAt]

/-- **The query.** One amount for each epoch, that of the step function of the history. -/
theorem getForgerStakesPerEpoch_eq (hr : Readable db) (h : HistoryId) {start last : ℕ} (hle : start ≤ last)
    (hint : last < 2 ^ 31) :
    getForgerStakesPerEpoch pivots db h start last =
      (List.range (last - start + 1)).map fun k => amountAt (db.history.toList h) (start + k) := by
  -- the number of entries to read, and the entry in force at the last epoch
  obtain ⟨n, hincreasing, hamounts, hlast, hfirst⟩ : ∃ n, Increasing (checkpointEpoch db h) n ∧
      (∀ epoch, amountAt (checkpoints db h n) epoch = amountAt (db.history.toList h) epoch) ∧
      (checkpointEpoch db h 0 ≤ last →
        IsLast (checkpointEpoch db h) last n (checkpointBSearch pivots db h last).position) ∧
      (getCheckpoint db h 0).fromEpochNumber < 2 ^ 31 := by
    by_cases hsize : db.history.getSize h = 0
    · have hzero : getCheckpoint db h 0 = ⟨0, 0⟩ := hr.slots.unwritten h hsize
      refine ⟨1, ?_, amountAt_unwritten hr hsize, ?_, ?_⟩
      · intro i j hij hj
        omega
      · intro hle
        rw [checkpointBSearch_empty hsize]
        refine ⟨Nat.one_pos, hle, ?_⟩
        intro i hi hone
        omega
      · rw [hzero]
        norm_num
    · exact ⟨db.history.getSize h, hr.increasing h, fun _ => by rw [checkpoints_size],
        (checkpointBSearch_spec hr hsize last).2, hr.slots.bounded h 0 (Nat.pos_of_ne_zero hsize)⟩
  have hcount : (last : ℤ) - start + 1 = ((last - start + 1 : ℕ) : ℤ) := by
    push_cast [Nat.cast_sub hle]
    ring
  unfold getForgerStakesPerEpoch
  dsimp only
  by_cases hbefore : ((getCheckpoint db h 0).fromEpochNumber : ℤ) > last
  · rw [if_pos hbefore, hcount, fillZeros_intOf (by omega)]
    refine (List.eq_replicate_iff.2 ⟨by simp, ?_⟩).symm
    intro amount hamount
    obtain ⟨k, hk, rfl⟩ := List.mem_map.1 hamount
    rw [← hamounts]
    apply amountAt_before hincreasing
    have hlt := List.mem_range.1 hk
    unfold checkpointEpoch
    push_cast
    omega
  · have hend : (last : ℤ) = (start : ℤ) + (last - start + 1 : ℕ) - 1 := by
      push_cast [Nat.cast_sub hle]
      ring
    have hwalk := stakesBack_eq hincreasing start (last - start + 1) (by omega)
      (checkpointBSearch pivots db h last).position _ []
      (fun _ => hend ▸ hlast (not_lt.1 hbefore)) (fun _ => rfl)
    rw [if_neg hbefore, hcount, Int.toNat_natCast]
    rw [← hend] at hwalk
    rw [hwalk, List.append_nil]
    exact List.map_congr_left fun k _ => hamounts _

end Query

/-- **Stakes by epoch.** After any calls, failed ones being reverted, and for any pivots: a query has one entry for each
epoch, the amount of the last checkpoint that is not after it or zero; and the search reads within the history and finds
that checkpoint. -/
theorem stakes_per_epoch (pivots : Pivots) (ops : List Op) (hepochs : ∀ o ∈ ops, o.epoch < 2 ^ 31) (h : HistoryId) :
    let db := run StakeDb.empty ops
    (∀ start last : ℕ, start ≤ last → last < 2 ^ 31 →
      (getForgerStakesPerEpoch pivots db h start last).length = last - start + 1 ∧
      ∀ k, k < last - start + 1 →
        (getForgerStakesPerEpoch pivots db h start last)[k]? = some (amountAt (db.history.toList h) (start + k))) ∧
    (db.history.getSize h ≠ 0 → ∀ epoch : ℤ,
      (∀ i ∈ (checkpointBSearch pivots db h epoch).reads, i < db.history.getSize h) ∧
      (checkpointEpoch db h 0 ≤ epoch → IsLast (checkpointEpoch db h) epoch (db.history.getSize h)
        (checkpointBSearch pivots db h epoch).position)) := by
  intro db
  have hr := run_readable ops hepochs
  refine ⟨?_, fun hsize epoch => checkpointBSearch_spec hr hsize epoch⟩
  intro start last hle hint
  have hquery : getForgerStakesPerEpoch pivots db h start last = _ := getForgerStakesPerEpoch_eq hr h hle hint
  rw [hquery]
  refine ⟨by simp, ?_⟩
  intro k hk
  rw [List.getElem?_map, List.getElem?_range hk]
  rfl

/-- a forger registered at epoch 2, with more stake from epoch 4 on -/
def twoCheckpoints : List Op := [.addForger ⟨1, 2, 3⟩ 0 0 2 7 100, .addStake ⟨1, 2, 3⟩ 4 7 50]

theorem twoCheckpoints_epochs : ∀ o ∈ twoCheckpoints, o.epoch < 2 ^ 31 := by
  simp [twoCheckpoints, Op.epoch]

theorem stakes_per_epoch_twoCheckpoints :
    (getForgerStakesPerEpoch sqrtPivots (run StakeDb.empty twoCheckpoints) (.forger ⟨1, 2, 3⟩) 1 5).length = 5 := by
  have h := stakes_per_epoch sqrtPivots twoCheckpoints twoCheckpoints_epochs (.forger ⟨1, 2, 3⟩)
  exact (h.1 1 5 (by decide) (by decide)).1

-- before the first checkpoint, between the two, and from the second on
example : getForgerStakesPerEpoch sqrtPivots (run StakeDb.empty twoCheckpoints) (.forger ⟨1, 2, 3⟩) 1 5 =
    [0, 100, 100, 150, 150] := by decide +kernel

end SidechainsSdk.Account.StakeStorage
