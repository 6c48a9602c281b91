/-
Version 2 of the storage of the first forger stake contract (`ForgerStakeStorageV2`): the data of a stake under its id, an array
with the ids of all stakes, and for each owner an array with the ids of its stakes and their total. The data of a stake says
where its id is in both arrays, and the last id of an array takes the place of a removed one.

- `addForgerStake`, `removeForgerStake`, `getListOfForgersStakes`, `getPagedListOfForgersStakesOfUser`: the code.
- `Represents`: the storage holds a list of stakes.
- `addForgerStake_spec`, `removeForgerStake_spec`: what the two operations do to it.
- `storage_represents_stakes`: after any calls the storage holds the stakes that were added and not removed.

The sizes of arrays are natural numbers. Seeds and keys are hashed, so that arrays, totals and data do not overlap. The data of
a stake is written with the two positions behind it, so that the readers of version 1 read the rest.
-/
import Mathlib.Tactic
import SidechainsSdk.Core.Fallible
import SidechainsSdk.Core.MachineInt
import SidechainsSdk.Account.Stakes.StateDbArray
import SidechainsSdk.Account.Stakes.ForgerStakeStorage

namespace SidechainsSdk.Account.ForgerStakeStorageV2

open Fallible MachineInt SwapRemove
open scoped List
open ForgerStakeStorage (StakeId ForgerStakeData AccountForgingStakeInfo)

/-! ## The code -/

/-- the data of a stake, with its positions in the two arrays -/
structure ForgerStakeStorageElemV2 where
  data : ForgerStakeData
  stakeListIndex : ℕ
  ownerListIndex : ℕ
deriving DecidableEq

/-- an array is that of all stakes, or that of an owner -/
abbrev ArrayKey := Option Address

def forgerStakeArray : ArrayKey := none

/-- `OwnerStakeInfo` -/
def ownerStakeInfo (owner : Address) : ArrayKey := some owner

structure StakeDb where
  arrays : StateDbArray ArrayKey StakeId
  /-- under `OwnerTotalStakeKey` -/
  ownerTotalStake : Address → ℤ
  stakes : StakeId → Option ForgerStakeStorageElemV2

def StakeDb.empty : StakeDb := ⟨StateDbArray.empty, fun _ => 0, fun _ => none⟩

abbrev Command := Fallible Exc StakeDb

/-- `BigIntegerUtil.toUint256Bytes` as a number: the shortest bytes of a number, padded with zeros in front -/
def toUint256 (n : ℤ) : Except Exc ℤ :=
  if 0 ≤ n then if n < 2 ^ 256 then .ok n else .error (.other "ArrayIndexOutOfBoundsException")
  else
    let length := Nat.size (-n - 1).toNat / 8 + 1
    if length ≤ 32 then .ok (n + 256 ^ length) else .error (.other "ArrayIndexOutOfBoundsException")

def appendTo (k : ArrayKey) (stakeId : StakeId) : Command ℕ := do
  let numOfElem := (← get).arrays.getSize k
  modify fun db => { db with arrays := db.arrays.append k stakeId }
  return numOfElem

def removeAndRearrange (k : ArrayKey) (index : ℕ) : Command StakeId := do
  let (lastElemValue, arrays) ← orThrow ((← get).arrays.removeAndRearrange k index)
  modify fun db => { db with arrays := arrays }
  return lastElemValue

/-- `addOwnerStake`, and `subOwnerStake` with the opposite amount -/
def addOwnerStake (owner : Address) (stakeAmount : ℤ) : Command Unit := do
  let amount ← orThrow (toUint256 ((← get).ownerTotalStake owner + stakeAmount))
  modify fun db => { db with ownerTotalStake := Function.update db.ownerTotalStake owner amount }

def putStake (stakeId : StakeId) (stake : ForgerStakeStorageElemV2) : Command Unit :=
  modify fun db => { db with stakes := Function.update db.stakes stakeId (some stake) }

def addForgerStake (stakeId : StakeId) (forgerPublicKeys : ForgerPublicKeys) (ownerPublicKey : Address) (stakedAmount : ℤ) :
    Command Unit := do
  let forgerListIndex ← appendTo forgerStakeArray stakeId
  let ownerListIndex ← appendTo (ownerStakeInfo ownerPublicKey) stakeId
  addOwnerStake ownerPublicKey stakedAmount
  throwIf (stakedAmount.sign = -1) (.illegalArgument "requirement failed: stakeAmount expected to be non negative.")
  putStake stakeId ⟨⟨forgerPublicKeys, ownerPublicKey, stakedAmount⟩, forgerListIndex, ownerListIndex⟩

def getOwnerStake (db : StakeDb) (owner : Address) : ℤ := db.ownerTotalStake owner

def findForgerStakeStorageElem (db : StakeDb) (stakeId : StakeId) : Option ForgerStakeStorageElemV2 := db.stakes stakeId

def updateStake (stakeId : StakeId) (change : ForgerStakeStorageElemV2 → ForgerStakeStorageElemV2) : Command Unit := do
  let stake ← getOrThrow (findForgerStakeStorageElem (← get) stakeId) (.other "None.get")
  putStake stakeId (change stake)

/-- the stake that took the place of the removed one, unless it is that one -/
def updateMoved (stakeId stakeIdToMove : StakeId) (change : ForgerStakeStorageElemV2 → ForgerStakeStorageElemV2) :
    Command Unit :=
  if stakeIdToMove ≠ stakeId then updateStake stakeIdToMove change else pure ()

def removeForgerStake (stakeId : StakeId) (stakeToRemove : ForgerStakeStorageElemV2) : Command Unit := do
  let stakeListIndex := stakeToRemove.stakeListIndex
  let stakeIdToMove ← removeAndRearrange forgerStakeArray stakeListIndex
  updateMoved stakeId stakeIdToMove fun stake => { stake with stakeListIndex := stakeListIndex }
  let owner := stakeToRemove.data.ownerPublicKey
  let ownerStakeListIndex := stakeToRemove.ownerListIndex
  let stakeIdToMoveFromOwnerList ← removeAndRearrange (ownerStakeInfo owner) ownerStakeListIndex
  updateMoved stakeId stakeIdToMoveFromOwnerList fun stake => { stake with ownerListIndex := ownerStakeListIndex }
  addOwnerStake owner (-stakeToRemove.data.stakedAmount)
  modify fun db => { db with stakes := Function.update db.stakes stakeId none }

/-- `findStakeData` -/
def findStakeData (db : StakeDb) (stakeId : StakeId) : Option ForgerStakeData :=
  (db.stakes stakeId).map ForgerStakeStorageElemV2.data

/-- the item of an array at an index -/
def getStakeAt (db : StakeDb) (stakeArray : ArrayKey) (index : ℕ) : Except Exc AccountForgingStakeInfo :=
  let currentStakeId := db.arrays.getValue stakeArray index
  match findStakeData db currentStakeId with
  | some stakeData => .ok ⟨currentStakeId, stakeData⟩
  | none => .error (.other "None.get")

def getListOfForgersStakesFromList (db : StakeDb) (stakeArray : ArrayKey) : Except Exc (List AccountForgingStakeInfo) :=
  (List.range (db.arrays.getSize stakeArray)).mapM (getStakeAt db stakeArray)

def getListOfForgersStakes (db : StakeDb) : Except Exc (List AccountForgingStakeInfo) :=
  getListOfForgersStakesFromList db forgerStakeArray

/-- the next position, or -1 at the end of the array -/
def getPagedListOfForgersStakesFromList (db : StakeDb) (stakeArray : ArrayKey) (startPos pageSize : ℤ) :
    Except Exc (ℤ × List AccountForgingStakeInfo) := do
  let stakeListSize : ℤ := db.arrays.getSize stakeArray
  failIf (startPos < 0) (.illegalArgument s!"Invalid startPos input: {startPos}, can not be negative")
  failIf (pageSize ≤ 0) (.illegalArgument s!"Invalid page size {pageSize}, must be positive")
  if startPos = 0 ∧ stakeListSize = 0 then return (-1, [])
  failIf (stakeListSize - 1 < startPos)
    (.illegalArgument s!"Invalid position where to start reading forger stakes: {startPos}, stakes array size: {stakeListSize}")
  let endPos := intOf (startPos + pageSize)
  let endPos := if stakeListSize < endPos then stakeListSize else endPos
  let stakeList ← (List.range' startPos.toNat (endPos - startPos).toNat).mapM (getStakeAt db stakeArray)
  return (if endPos = stakeListSize then -1 else endPos, stakeList)

def getPagedListOfForgersStakesOfUser (db : StakeDb) (owner : Address) (startPos size : ℤ) :
    Except Exc (ℤ × List AccountForgingStakeInfo) :=
  getPagedListOfForgersStakesFromList db (ownerStakeInfo owner) startPos size

theorem ownerStakeInfo_ne (owner : Address) : ownerStakeInfo owner ≠ forgerStakeArray := by
  simp [ownerStakeInfo, forgerStakeArray]

/-! ## Stakes -/

/-- the stakes of an owner -/
def stakesOf (live : List AccountForgingStakeInfo) (owner : Address) : List AccountForgingStakeInfo :=
  live.filter (·.forgerStakeData.ownerPublicKey = owner)

def totalOf (live : List AccountForgingStakeInfo) (owner : Address) : ℤ :=
  ((stakesOf live owner).map (·.forgerStakeData.stakedAmount)).sum

def idsOf (live : List AccountForgingStakeInfo) : List StakeId := live.map AccountForgingStakeInfo.stakeId

/-- the data of a stake is stored, with its positions in both arrays -/
def Stored (db : StakeDb) (stake : AccountForgingStakeInfo) : Prop :=
  ∃ elem, db.stakes stake.stakeId = some elem ∧ elem.data = stake.forgerStakeData ∧
    (db.arrays.toList forgerStakeArray)[elem.stakeListIndex]? = some stake.stakeId ∧
    (db.arrays.toList (ownerStakeInfo stake.forgerStakeData.ownerPublicKey))[elem.ownerListIndex]? = some stake.stakeId

/-- the storage holds these stakes -/
structure Represents (db : StakeDb) (live : List AccountForgingStakeInfo) : Prop where
  nodup : (idsOf live).Nodup
  all : (db.arrays.toList forgerStakeArray).Perm (idsOf live)
  owned : ∀ owner, (db.arrays.toList (ownerStakeInfo owner)).Perm (idsOf (stakesOf live owner))
  stored : ∀ stake ∈ live, Stored db stake
  absent : ∀ id ∉ idsOf live, db.stakes id = none
  total : ∀ owner, db.ownerTotalStake owner = totalOf live owner
  amount_nonneg : ∀ stake ∈ live, 0 ≤ stake.forgerStakeData.stakedAmount
  total_lt : ∀ owner, totalOf live owner < 2 ^ 256

variable {db db' : StakeDb} {live : List AccountForgingStakeInfo} {stake : AccountForgingStakeInfo} {id : StakeId}
    {owner : Address}

theorem represents_empty : Represents StakeDb.empty [] where
  nodup := List.nodup_nil
  all := List.Perm.refl _
  owned _ := List.Perm.refl _
  stored stake hstake := by cases hstake
  absent _ _ := rfl
  total _ := rfl
  amount_nonneg stake hstake := by cases hstake
  total_lt _ := by norm_num [totalOf, stakesOf]

theorem totalOf_nonneg (h : Represents db live) (owner : Address) : 0 ≤ totalOf live owner := by
  apply List.sum_nonneg
  intro amount hamount
  obtain ⟨stake, hstake, rfl⟩ := List.mem_map.1 hamount
  exact h.amount_nonneg stake (List.mem_of_mem_filter hstake)

theorem toUint256_of_lt {n : ℤ} (h : 0 ≤ n) (hlt : n < 2 ^ 256) : toUint256 n = .ok n := by
  rw [toUint256, if_pos h, if_pos hlt]

theorem toUint256_of_ge {n : ℤ} (hge : 2 ^ 256 ≤ n) : ∃ e, toUint256 n = .error e := by
  have hnonneg : 0 ≤ n := le_trans (by norm_num) hge
  rw [toUint256, if_pos hnonneg, if_neg (not_lt.2 hge)]
  exact ⟨_, rfl⟩

theorem exec_appendTo (k : ArrayKey) (id : StakeId) (db : StakeDb) :
    exec (appendTo k id) db = (.ok (db.arrays.toList k).length, { db with arrays := db.arrays.append k id }) := by
  rw [appendTo, exec_get_bind, exec_modify_bind, exec_pure, StateDbArray.getSize_eq]

/-- an amount that is not negative and keeps the total of the owner in its range -/
def AmountOk (live : List AccountForgingStakeInfo) (stake : AccountForgingStakeInfo) : Prop :=
  0 ≤ stake.forgerStakeData.stakedAmount ∧
    totalOf live stake.forgerStakeData.ownerPublicKey + stake.forgerStakeData.stakedAmount < 2 ^ 256

instance : Decidable (AmountOk live stake) := inferInstanceAs (Decidable (_ ∧ _))

theorem stakesOf_append (live : List AccountForgingStakeInfo) (stake : AccountForgingStakeInfo) (owner : Address) :
    stakesOf (live ++ [stake]) owner =
      stakesOf live owner ++ if stake.forgerStakeData.ownerPublicKey = owner then [stake] else [] := by
  unfold stakesOf
  rw [List.filter_append]
  congr 1
  by_cases howner : stake.forgerStakeData.ownerPublicKey = owner
  · simp [howner]
  · simp [howner]

theorem totalOf_append (live : List AccountForgingStakeInfo) (stake : AccountForgingStakeInfo) (owner : Address) :
    totalOf (live ++ [stake]) owner =
      totalOf live owner + if stake.forgerStakeData.ownerPublicKey = owner then stake.forgerStakeData.stakedAmount else 0 := by
  unfold totalOf
  rw [stakesOf_append]
  split_ifs
  · simp
  · simp

/-- what `addForgerStake` does to the storage -/
def added (db : StakeDb) (stake : AccountForgingStakeInfo) : StakeDb where
  arrays := (db.arrays.append forgerStakeArray stake.stakeId).append (ownerStakeInfo stake.forgerStakeData.ownerPublicKey)
    stake.stakeId
  ownerTotalStake := Function.update db.ownerTotalStake stake.forgerStakeData.ownerPublicKey
    (db.ownerTotalStake stake.forgerStakeData.ownerPublicKey + stake.forgerStakeData.stakedAmount)
  stakes := Function.update db.stakes stake.stakeId (some ⟨stake.forgerStakeData, (db.arrays.toList forgerStakeArray).length,
    (db.arrays.toList (ownerStakeInfo stake.forgerStakeData.ownerPublicKey)).length⟩)

def addStake (stake : AccountForgingStakeInfo) : Command Unit :=
  addForgerStake stake.stakeId stake.forgerStakeData.forgerPublicKeys stake.forgerStakeData.ownerPublicKey
    stake.forgerStakeData.stakedAmount

theorem exec_addStake (h : Represents db live) (hamount : AmountOk live stake) :
    exec (addStake stake) db = (.ok (), added db stake) := by
  obtain ⟨hnonneg, hlt⟩ := hamount
  have hsign : ¬ stake.forgerStakeData.stakedAmount.sign = -1 := by
    rw [Int.sign_eq_neg_one_iff_neg]
    omega
  have htotal := h.total stake.forgerStakeData.ownerPublicKey
  have hrange : toUint256 (db.ownerTotalStake stake.forgerStakeData.ownerPublicKey + stake.forgerStakeData.stakedAmount) =
      .ok (db.ownerTotalStake stake.forgerStakeData.ownerPublicKey + stake.forgerStakeData.stakedAmount) := by
    have hold := totalOf_nonneg h stake.forgerStakeData.ownerPublicKey
    apply toUint256_of_lt
    · rw [htotal]
      omega
    · rw [htotal]
      exact hlt
  have hother : (db.arrays.append forgerStakeArray stake.stakeId).toList (ownerStakeInfo stake.forgerStakeData.ownerPublicKey) =
      db.arrays.toList (ownerStakeInfo stake.forgerStakeData.ownerPublicKey) :=
        StateDbArray.toList_append_ne _ (ownerStakeInfo_ne _) _
  rw [addStake, addForgerStake, exec_bind_of_ok (exec_appendTo ..), exec_bind_of_ok (exec_appendTo ..), hother]
  simp only [addOwnerStake, bind_assoc, exec_get_bind, hrange, exec_orThrow_value_bind, exec_modify_bind]
  rw [exec_throwIf_neg_bind hsign]
  rfl

theorem exec_addStake_refused (h : Represents db live) (hamount : ¬ AmountOk live stake) :
    ∃ e db', exec (addStake stake) db = (.error e, db') := by
  have hother : (db.arrays.append forgerStakeArray stake.stakeId).toList (ownerStakeInfo stake.forgerStakeData.ownerPublicKey) =
      db.arrays.toList (ownerStakeInfo stake.forgerStakeData.ownerPublicKey) :=
        StateDbArray.toList_append_ne _ (ownerStakeInfo_ne _) _
  rw [addStake, addForgerStake, exec_bind_of_ok (exec_appendTo ..), exec_bind_of_ok (exec_appendTo ..), hother]
  simp only [addOwnerStake, bind_assoc, exec_get_bind]
  cases hamount' : toUint256 (db.ownerTotalStake stake.forgerStakeData.ownerPublicKey + stake.forgerStakeData.stakedAmount) with
  | error e =>
    rw [exec_bind, exec_orThrow]
    exact ⟨e, _, rfl⟩
  | ok amount =>
    have hsign : stake.forgerStakeData.stakedAmount.sign = -1 := by
      rw [Int.sign_eq_neg_one_iff_neg]
      by_contra hnonneg
      have hge : 2 ^ 256 ≤ db.ownerTotalStake stake.forgerStakeData.ownerPublicKey + stake.forgerStakeData.stakedAmount := by
        rw [h.total]
        by_contra hlt
        exact hamount ⟨not_lt.1 hnonneg, not_le.1 hlt⟩
      obtain ⟨e, he⟩ := toUint256_of_ge hge
      rw [he] at hamount'
      cases hamount'
    rw [exec_orThrow_value_bind, exec_modify_bind, exec_throwIf_pos_bind hsign]
    exact ⟨_, _, rfl⟩

theorem added_toList (db : StakeDb) (stake : AccountForgingStakeInfo) :
    (added db stake).arrays.toList = Function.update (Function.update db.arrays.toList forgerStakeArray
      (db.arrays.toList forgerStakeArray ++ [stake.stakeId])) (ownerStakeInfo stake.forgerStakeData.ownerPublicKey)
      (db.arrays.toList (ownerStakeInfo stake.forgerStakeData.ownerPublicKey) ++ [stake.stakeId]) := by
  rw [added, StateDbArray.toList_append_eq, StateDbArray.toList_append_eq, Function.update_of_ne (ownerStakeInfo_ne _)]

@[simp] theorem added_toList_all (db : StakeDb) (stake : AccountForgingStakeInfo) :
    (added db stake).arrays.toList forgerStakeArray = db.arrays.toList forgerStakeArray ++ [stake.stakeId] := by
  rw [added_toList, Function.update_of_ne (ownerStakeInfo_ne _).symm, Function.update_self]

@[simp] theorem added_toList_owner (db : StakeDb) (stake : AccountForgingStakeInfo) (owner : Address) :
    (added db stake).arrays.toList (ownerStakeInfo owner) = db.arrays.toList (ownerStakeInfo owner) ++
      if stake.forgerStakeData.ownerPublicKey = owner then [stake.stakeId] else [] := by
  rw [added_toList]
  split_ifs with howner
  · subst howner
    rw [Function.update_self]
  · have hne : ownerStakeInfo owner ≠ ownerStakeInfo stake.forgerStakeData.ownerPublicKey := by
      intro heq
      exact howner (Option.some.inj heq).symm
    rw [Function.update_of_ne hne, Function.update_of_ne (ownerStakeInfo_ne _), List.append_nil]

theorem added_stakes_of_ne (db : StakeDb) (hne : id ≠ stake.stakeId) : (added db stake).stakes id = db.stakes id :=
  Function.update_of_ne hne _ _

theorem added_ownerTotalStake (db : StakeDb) (stake : AccountForgingStakeInfo) (owner : Address) :
    (added db stake).ownerTotalStake owner = db.ownerTotalStake owner +
      if stake.forgerStakeData.ownerPublicKey = owner then stake.forgerStakeData.stakedAmount else 0 := by
  show Function.update db.ownerTotalStake _ _ owner = _
  split_ifs with howner
  · subst howner
    rw [Function.update_self]
  · rw [Function.update_of_ne (fun heq => howner heq.symm), add_zero]

/-- **Adding.** A new stake goes to the end of both arrays. -/
theorem represents_added (h : Represents db live) (hnew : stake.stakeId ∉ idsOf live) (hamount : AmountOk live stake) :
    Represents (added db stake) (live ++ [stake]) where
  nodup := by
    rw [idsOf, List.map_append, List.nodup_append]
    refine ⟨h.nodup, List.nodup_singleton _, ?_⟩
    intro a ha b hb heq
    rw [heq, List.mem_singleton.1 hb] at ha
    exact hnew ha
  all := by
    rw [added_toList_all, idsOf, List.map_append]
    exact h.all.append_right _
  owned owner := by
    rw [added_toList_owner, stakesOf_append, idsOf, List.map_append]
    split_ifs
    · exact (h.owned owner).append_right _
    · rw [List.map_nil, List.append_nil, List.append_nil]
      exact h.owned owner
  stored s hs := by
    rcases List.mem_append.1 hs with hold | hlast
    · obtain ⟨elem, helem, hdata, hpos, hown⟩ := h.stored s hold
      have hne : s.stakeId ≠ stake.stakeId := by
        intro heq
        exact hnew (heq ▸ List.mem_map_of_mem hold)
      refine ⟨elem, ?_, hdata, ?_, ?_⟩
      · rw [added_stakes_of_ne db hne, helem]
      · rw [added_toList_all, List.getElem?_append_left (List.getElem?_eq_some_iff.1 hpos).1, hpos]
      · rw [added_toList_owner, List.getElem?_append_left (List.getElem?_eq_some_iff.1 hown).1, hown]
    · obtain rfl := List.mem_singleton.1 hlast
      refine ⟨_, Function.update_self _ _ _, rfl, ?_, ?_⟩
      · rw [added_toList_all, List.getElem?_concat_length]
      · rw [added_toList_owner, if_pos rfl, List.getElem?_concat_length]
  absent id hid := by
    rw [idsOf, List.map_append, List.mem_append, not_or] at hid
    have hne : id ≠ stake.stakeId := fun heq => hid.2 (by simp [heq])
    rw [added_stakes_of_ne db hne]
    exact h.absent id hid.1
  total owner := by
    rw [totalOf_append, added_ownerTotalStake, h.total]
  amount_nonneg s hs := by
    rcases List.mem_append.1 hs with hold | hlast
    · exact h.amount_nonneg s hold
    · rw [List.mem_singleton.1 hlast]
      exact hamount.1
  total_lt owner := by
    rw [totalOf_append]
    split_ifs with howner
    · subst howner
      exact hamount.2
    · rw [add_zero]
      exact h.total_lt owner

/-! ## Removing -/

theorem exec_removeAndRearrange {k : ArrayKey} {index : ℕ} (hid : (db.arrays.toList k)[index]? = some id) :
    ∃ last arrays, exec (removeAndRearrange k index) db = (.ok last, { db with arrays := arrays }) ∧
      (db.arrays.toList k).getLast? = some last ∧
      arrays.toList = Function.update db.arrays.toList k (swapRemove (db.arrays.toList k) index) := by
  have hlt : index < db.arrays.getSize k := by
    rw [StateDbArray.getSize_eq]
    exact (List.getElem?_eq_some_iff.1 hid).1
  obtain ⟨last, arrays, hok, hlast, htoList⟩ := db.arrays.removeAndRearrange_ok hlt
  refine ⟨last, arrays, ?_, hlast, htoList⟩
  rw [removeAndRearrange, exec_get_bind, hok]
  rfl

/-- the data of the stakes after the one under `moved` was changed -/
def changed (stakes : StakeId → Option ForgerStakeStorageElemV2) (id moved : StakeId)
    (change : ForgerStakeStorageElemV2 → ForgerStakeStorageElemV2) : StakeId → Option ForgerStakeStorageElemV2 :=
  if moved ≠ id then Function.update stakes moved ((stakes moved).map change) else stakes

theorem changed_of_ne {stakes : StakeId → Option ForgerStakeStorageElemV2} {moved id' : StakeId}
    {change : ForgerStakeStorageElemV2 → ForgerStakeStorageElemV2} (hne : id' ≠ id) :
    changed stakes id moved change id' = if moved = id' then (stakes id').map change else stakes id' := by
  unfold changed
  by_cases hmoved : moved = id'
  · subst hmoved
    rw [if_pos hne, if_pos rfl, Function.update_self]
  · rw [if_neg hmoved]
    split_ifs
    · rw [Function.update_of_ne (fun heq => hmoved heq.symm)]
    · rfl

theorem exec_updateMoved {moved : StakeId} (change : ForgerStakeStorageElemV2 → ForgerStakeStorageElemV2)
    (hfound : ∃ elem, db.stakes moved = some elem) :
    exec (updateMoved id moved change) db = (.ok (), { db with stakes := changed db.stakes id moved change }) := by
  obtain ⟨elem, helem⟩ := hfound
  unfold updateMoved changed
  split_ifs
  · rw [updateStake, exec_get_bind, findForgerStakeStorageElem, helem, exec_getOrThrow_some_bind]
    rfl
  · rfl

/-- what `removeForgerStake` does to the storage -/
structure Removed (db db' : StakeDb) (stake : AccountForgingStakeInfo) (elem : ForgerStakeStorageElemV2) : Prop where
  all : db'.arrays.toList forgerStakeArray = swapRemove (db.arrays.toList forgerStakeArray) elem.stakeListIndex
  owned : ∀ owner, db'.arrays.toList (ownerStakeInfo owner) = if stake.forgerStakeData.ownerPublicKey = owner then
    swapRemove (db.arrays.toList (ownerStakeInfo owner)) elem.ownerListIndex else db.arrays.toList (ownerStakeInfo owner)
  total : db'.ownerTotalStake = Function.update db.ownerTotalStake stake.forgerStakeData.ownerPublicKey
    (db.ownerTotalStake stake.forgerStakeData.ownerPublicKey - stake.forgerStakeData.stakedAmount)
  removed : db'.stakes stake.stakeId = none
  others : ∀ id ≠ stake.stakeId, db'.stakes id = (db.stakes id).map fun e =>
    { e with
      stakeListIndex := if (db.arrays.toList forgerStakeArray).getLast? = some id then elem.stakeListIndex else e.stakeListIndex
      ownerListIndex :=
        if (db.arrays.toList (ownerStakeInfo stake.forgerStakeData.ownerPublicKey)).getLast? = some id then elem.ownerListIndex
        else e.ownerListIndex }

theorem Represents.found (h : Represents db live) (hid : id ∈ idsOf live) : ∃ elem, db.stakes id = some elem := by
  obtain ⟨stake, hstake, rfl⟩ := List.mem_map.1 hid
  obtain ⟨elem, helem, -⟩ := h.stored stake hstake
  exact ⟨elem, helem⟩

theorem idsOf_stakesOf_subset : idsOf (stakesOf live owner) ⊆ idsOf live := by
  intro id hid
  obtain ⟨stake, hstake, rfl⟩ := List.mem_map.1 hid
  exact List.mem_map_of_mem (List.mem_of_mem_filter hstake)

theorem totalOf_erase (hstake : stake ∈ live) (owner : Address) :
    totalOf live owner = totalOf (live.erase stake) owner +
      if stake.forgerStakeData.ownerPublicKey = owner then stake.forgerStakeData.stakedAmount else 0 := by
  have hperm : live.Perm (live.erase stake ++ [stake]) := by
    refine (List.perm_cons_erase hstake).trans ?_
    exact (List.perm_append_singleton _ _).symm
  rw [← totalOf_append]
  exact ((hperm.filter _).map _).sum_eq

theorem exists_changed {stakes : StakeId → Option ForgerStakeStorageElemV2} {moved id' : StakeId}
    (change : ForgerStakeStorageElemV2 → ForgerStakeStorageElemV2) (hfound : ∃ elem, stakes id' = some elem) :
    ∃ elem, changed stakes id moved change id' = some elem := by
  obtain ⟨elem, helem⟩ := hfound
  unfold changed
  split_ifs
  · by_cases heq : id' = moved
    · subst heq
      rw [Function.update_self, helem]
      exact ⟨_, rfl⟩
    · rw [Function.update_of_ne heq]
      exact ⟨elem, helem⟩
  · exact ⟨elem, helem⟩

/-- the total of an owner without one of its stakes -/
theorem toUint256_total (h : Represents db live) (hstake : stake ∈ live) :
    toUint256 (db.ownerTotalStake stake.forgerStakeData.ownerPublicKey + -stake.forgerStakeData.stakedAmount) =
      .ok (db.ownerTotalStake stake.forgerStakeData.ownerPublicKey - stake.forgerStakeData.stakedAmount) := by
  have hsplit := totalOf_erase hstake stake.forgerStakeData.ownerPublicKey
  rw [if_pos rfl] at hsplit
  have hrest : 0 ≤ totalOf (live.erase stake) stake.forgerStakeData.ownerPublicKey := by
    apply List.sum_nonneg
    intro amount hamount
    obtain ⟨s, hs, rfl⟩ := List.mem_map.1 hamount
    exact h.amount_nonneg s (List.mem_of_mem_erase (List.mem_of_mem_filter hs))
  have hnonneg := h.amount_nonneg stake hstake
  have hlt := h.total_lt stake.forgerStakeData.ownerPublicKey
  rw [h.total, ← sub_eq_add_neg]
  apply toUint256_of_lt <;> omega

/-- **Removing.** Every step of the removal succeeds. -/
theorem exec_removeForgerStake (h : Represents db live) (hstake : stake ∈ live) {elem : ForgerStakeStorageElemV2}
    (hdata : elem.data = stake.forgerStakeData)
    (hpos : (db.arrays.toList forgerStakeArray)[elem.stakeListIndex]? = some stake.stakeId)
    (hown : (db.arrays.toList (ownerStakeInfo stake.forgerStakeData.ownerPublicKey))[elem.ownerListIndex]? = some stake.stakeId) :
    ∃ db', exec (removeForgerStake stake.stakeId elem) db = (.ok (), db') ∧ Removed db db' stake elem := by
  set owner := stake.forgerStakeData.ownerPublicKey with howner
  set change₁ : ForgerStakeStorageElemV2 → ForgerStakeStorageElemV2 :=
    fun e => { e with stakeListIndex := elem.stakeListIndex }
  set change₂ : ForgerStakeStorageElemV2 → ForgerStakeStorageElemV2 :=
    fun e => { e with ownerListIndex := elem.ownerListIndex }
  -- the array of all stakes
  obtain ⟨moved₁, arrays₁, hexec₁, hlast₁, hlist₁⟩ := exec_removeAndRearrange hpos
  have hmem₁ : moved₁ ∈ idsOf live := h.all.subset (List.mem_of_getLast? hlast₁)
  set stakes₁ := changed db.stakes stake.stakeId moved₁ change₁ with hstakes₁
  have hexec₂ : exec (updateMoved stake.stakeId moved₁ change₁) { db with arrays := arrays₁ } =
      (.ok (), ⟨arrays₁, db.ownerTotalStake, stakes₁⟩) := exec_updateMoved change₁ (h.found hmem₁)
  -- the array of its owner
  have hsame : arrays₁.toList (ownerStakeInfo owner) = db.arrays.toList (ownerStakeInfo owner) := by
    rw [hlist₁, Function.update_of_ne (ownerStakeInfo_ne _)]
  have hown₁ : (StakeDb.arrays ⟨arrays₁, db.ownerTotalStake, stakes₁⟩).toList (ownerStakeInfo owner) =
      db.arrays.toList (ownerStakeInfo owner) := hsame
  rw [← hown₁] at hown
  obtain ⟨moved₂, arrays₂, hexec₃, hlast₂, hlist₂⟩ := exec_removeAndRearrange hown
  rw [hown₁] at hlast₂ hlist₂
  have hmem₂ : moved₂ ∈ idsOf live := idsOf_stakesOf_subset ((h.owned owner).subset (List.mem_of_getLast? hlast₂))
  set stakes₂ := changed stakes₁ stake.stakeId moved₂ change₂ with hstakes₂
  have hexec₄ : exec (updateMoved stake.stakeId moved₂ change₂) ⟨arrays₂, db.ownerTotalStake, stakes₁⟩ =
      (.ok (), ⟨arrays₂, db.ownerTotalStake, stakes₂⟩) :=
        exec_updateMoved change₂ (exists_changed change₁ (h.found hmem₂))
  refine ⟨⟨arrays₂, Function.update db.ownerTotalStake owner
    (db.ownerTotalStake owner - stake.forgerStakeData.stakedAmount),
    Function.update stakes₂ stake.stakeId none⟩, ?_, ?_, ?_, rfl, Function.update_self _ _ _, ?_⟩
  · rw [removeForgerStake, exec_bind_of_ok hexec₁, exec_bind_of_ok hexec₂, hdata, ← howner]
    dsimp only
    rw [exec_bind_of_ok hexec₃, exec_bind_of_ok hexec₄]
    simp only [addOwnerStake, bind_assoc, exec_get_bind, toUint256_total h hstake, exec_orThrow_value_bind, exec_modify_bind,
      exec_modify, howner]
  · rw [hlist₂, Function.update_of_ne (ownerStakeInfo_ne _).symm]
    show arrays₁.toList forgerStakeArray = _
    rw [hlist₁, Function.update_self]
  · intro owner'
    split_ifs with heq
    · rw [← heq, hlist₂, Function.update_self]
    · have hne : ownerStakeInfo owner' ≠ ownerStakeInfo owner := fun h => heq (Option.some.inj h).symm
      rw [hlist₂, Function.update_of_ne hne]
      show arrays₁.toList (ownerStakeInfo owner') = _
      rw [hlist₁, Function.update_of_ne (ownerStakeInfo_ne _)]
  · intro id hne
    show Function.update stakes₂ stake.stakeId none id = _
    rw [Function.update_of_ne hne, hstakes₂, changed_of_ne hne, hstakes₁, changed_of_ne hne, hlast₁, hlast₂]
    simp only [Option.some.injEq]
    cases db.stakes id with
    | none => split_ifs <;> rfl
    | some e => split_ifs <;> rfl

theorem perm_erase (hstake : stake ∈ live) : (idsOf live).Perm (stake.stakeId :: idsOf (live.erase stake)) :=
  (List.perm_cons_erase hstake).map AccountForgingStakeInfo.stakeId

theorem perm_stakesOf_erase (hstake : stake ∈ live) (owner : Address) :
    (idsOf (stakesOf live owner)).Perm ((if stake.forgerStakeData.ownerPublicKey = owner then [stake.stakeId] else []) ++
      idsOf (stakesOf (live.erase stake) owner)) := by
  have hperm := ((List.perm_cons_erase hstake).filter (·.forgerStakeData.ownerPublicKey = owner)).map
    AccountForgingStakeInfo.stakeId
  split_ifs with howner
  · simpa [stakesOf, idsOf, howner] using hperm
  · simpa [stakesOf, idsOf, howner] using hperm

theorem stakeId_ne_of_mem_erase (h : Represents db live) (hstake : stake ∈ live) {s : AccountForgingStakeInfo}
    (hs : s ∈ live.erase stake) : s.stakeId ≠ stake.stakeId := by
  have hnodup := (perm_erase hstake).nodup_iff.1 h.nodup
  intro heq
  exact (List.nodup_cons.1 hnodup).1 (heq ▸ List.mem_map_of_mem hs)

/-- a stake that stays is still where its data says -/
theorem stored_removed (h : Represents db live) (hstake : stake ∈ live) {elem : ForgerStakeStorageElemV2}
    (hpos : (db.arrays.toList forgerStakeArray)[elem.stakeListIndex]? = some stake.stakeId)
    (hown : (db.arrays.toList (ownerStakeInfo stake.forgerStakeData.ownerPublicKey))[elem.ownerListIndex]? = some stake.stakeId)
    (hremoved : Removed db db' stake elem) {s : AccountForgingStakeInfo} (hs : s ∈ live.erase stake) : Stored db' s := by
  have hne := stakeId_ne_of_mem_erase h hstake hs
  obtain ⟨e, he, hdata, hpos', hown'⟩ := h.stored s (List.mem_of_mem_erase hs)
  have hnew := hremoved.others s.stakeId hne
  rw [he, Option.map_some] at hnew
  refine ⟨_, hnew, hdata, ?_, ?_⟩
  · rw [hremoved.all]
    exact getElem?_swapRemove hpos hpos' hne
  · rw [hremoved.owned]
    dsimp only
    split_ifs with howner hlast hlast
    · rw [← howner] at hown' ⊢
      have hmoved := getElem?_swapRemove hown hown' hne
      rwa [if_pos hlast] at hmoved
    · rw [← howner] at hown' ⊢
      have hmoved := getElem?_swapRemove hown hown' hne
      rwa [if_neg hlast] at hmoved
    · -- the last stake of an owner is not one of another owner
      have hmem := (h.owned _).subset (List.mem_of_getLast? hlast)
      obtain ⟨s', hs', heq⟩ := List.mem_map.1 hmem
      obtain ⟨hs'live, hs'owner⟩ := List.mem_filter.1 hs'
      have hsame : s' = s := List.inj_on_of_nodup_map h.nodup hs'live (List.mem_of_mem_erase hs) heq
      exact absurd (by simpa [hsame, eq_comm] using hs'owner) howner
    · exact hown'

/-- the stakes without one of them -/
theorem represents_removed (h : Represents db live) (hstake : stake ∈ live) {elem : ForgerStakeStorageElemV2}
    (hpos : (db.arrays.toList forgerStakeArray)[elem.stakeListIndex]? = some stake.stakeId)
    (hown : (db.arrays.toList (ownerStakeInfo stake.forgerStakeData.ownerPublicKey))[elem.ownerListIndex]? = some stake.stakeId)
    (hremoved : Removed db db' stake elem) : Represents db' (live.erase stake) where
  nodup := (List.nodup_cons.1 ((perm_erase hstake).nodup_iff.1 h.nodup)).2
  all := by
    rw [hremoved.all]
    apply List.Perm.cons_inv (a := stake.stakeId)
    calc stake.stakeId :: swapRemove (db.arrays.toList forgerStakeArray) elem.stakeListIndex
        ~ db.arrays.toList forgerStakeArray := (perm_swapRemove hpos).symm
      _ ~ idsOf live := h.all
      _ ~ stake.stakeId :: idsOf (live.erase stake) := perm_erase hstake
  owned owner := by
    have hperm := (h.owned owner).trans (perm_stakesOf_erase hstake owner)
    rw [hremoved.owned]
    split_ifs at hperm ⊢ with howner
    · rw [howner] at hown
      exact List.Perm.cons_inv ((perm_swapRemove hown).symm.trans hperm)
    · exact hperm
  stored s hs := stored_removed h hstake hpos hown hremoved hs
  absent id hid := by
    by_cases heq : id = stake.stakeId
    · rw [heq]
      exact hremoved.removed
    · have hold : id ∉ idsOf live := by
        intro hmem
        rcases List.mem_cons.1 ((perm_erase hstake).subset hmem) with hsame | hrest
        · exact heq hsame
        · exact hid hrest
      rw [hremoved.others id heq, h.absent id hold]
      rfl
  total owner := by
    have htotal := totalOf_erase hstake owner
    rw [hremoved.total]
    split_ifs at htotal with howner
    · subst howner
      rw [Function.update_self, h.total]
      omega
    · rw [Function.update_of_ne (fun heq => howner heq.symm), h.total]
      omega
  amount_nonneg s hs := h.amount_nonneg s (List.mem_of_mem_erase hs)
  total_lt owner := by
    have htotal := totalOf_erase hstake owner
    have hamount := h.amount_nonneg stake hstake
    have hlt := h.total_lt owner
    split_ifs at htotal <;> omega

/-! ## Reading -/

/-- an array of live stakes is read in its order -/
theorem mapM_getStakeAt (h : Represents db live) {k : ArrayKey} (hids : db.arrays.toList k ⊆ idsOf live) :
    ∃ stakes, (List.range (db.arrays.getSize k)).mapM (getStakeAt db k) = .ok stakes ∧ stakes ⊆ live ∧
      idsOf stakes = db.arrays.toList k := by
  apply mapM_described
  intro index hindex
  have hget := db.arrays.getValue_eq k index (List.mem_range.1 hindex)
  obtain ⟨s, hs, heq⟩ := List.mem_map.1 (hids (List.mem_of_getElem? hget))
  obtain ⟨elem, helem, hdata, -⟩ := h.stored s hs
  refine ⟨s, ?_, hs, heq⟩
  rw [getStakeAt, findStakeData, ← heq, helem]
  show Except.ok (⟨s.stakeId, elem.data⟩ : AccountForgingStakeInfo) = _
  rw [hdata]

/-- distinct live stakes with the right ids are the right stakes -/
theorem perm_of_idsOf (h : Represents db live) {stakes expected : List AccountForgingStakeInfo} (hstakes : stakes ⊆ live)
    (hexpected : expected ⊆ live) (hids : (idsOf stakes).Perm (idsOf expected)) (hnodup : (idsOf expected).Nodup) :
    stakes.Perm expected := by
  have hinj := List.inj_on_of_nodup_map h.nodup
  rw [List.perm_ext_iff_of_nodup (List.Nodup.of_map _ (hids.nodup_iff.2 hnodup)) (List.Nodup.of_map _ hnodup)]
  intro s
  constructor
  · intro hs
    obtain ⟨s', hs', heq⟩ := List.mem_map.1 (hids.subset (List.mem_map_of_mem hs))
    rwa [← hinj (hexpected hs') (hstakes hs) heq]
  · intro hs
    obtain ⟨s', hs', heq⟩ := List.mem_map.1 (hids.symm.subset (List.mem_map_of_mem hs))
    rwa [← hinj (hstakes hs') (hexpected hs) heq]

theorem getListOfForgersStakes_perm (h : Represents db live) :
    ∃ stakes, getListOfForgersStakes db = .ok stakes ∧ stakes.Perm live := by
  obtain ⟨stakes, hok, hsubset, hids⟩ := mapM_getStakeAt h h.all.subset
  refine ⟨stakes, hok, perm_of_idsOf h hsubset (List.Subset.refl _) ?_ h.nodup⟩
  rw [hids]
  exact h.all

/-- the stakes of an owner, on one page that is large enough for them -/
theorem getPagedListOfForgersStakesOfUser_perm (h : Represents db live) (owner : Address) {size : ℤ} (hpos : 0 < size)
    (hint : IsInt size) (hsize : ((stakesOf live owner).length : ℤ) ≤ size) :
    ∃ stakes, getPagedListOfForgersStakesOfUser db owner 0 size = .ok (-1, stakes) ∧ stakes.Perm (stakesOf live owner) := by
  have hsubset : db.arrays.toList (ownerStakeInfo owner) ⊆ idsOf live :=
    fun id hid => idsOf_stakesOf_subset ((h.owned owner).subset hid)
  obtain ⟨stakes, hok, hlive, hids⟩ := mapM_getStakeAt h hsubset
  have hlength : db.arrays.getSize (ownerStakeInfo owner) = (stakesOf live owner).length := by
    rw [StateDbArray.getSize_eq, (h.owned owner).length_eq, idsOf, List.length_map]
  have hnodup : (idsOf (stakesOf live owner)).Nodup := h.nodup.sublist ((List.filter_sublist).map _)
  refine ⟨stakes, ?_, perm_of_idsOf h hlive (fun s hs => List.mem_of_mem_filter hs) ?_ hnodup⟩
  · have hend : intOf (0 + size) = size := by
      rw [zero_add]
      exact intOf_eq hint
    have hread : (List.range' 0 ((stakesOf live owner).length : ℤ).toNat).mapM
        (getStakeAt db (ownerStakeInfo owner)) = .ok stakes := by
      rw [Int.toNat_natCast, ← List.range_eq_range', ← hlength]
      exact hok
    unfold getPagedListOfForgersStakesOfUser getPagedListOfForgersStakesFromList
    rw [hlength]
    by_cases hempty : (stakesOf live owner).length = 0
    · have hnil : stakes = [] := by
        rw [← List.length_eq_zero_iff, ← List.length_map AccountForgingStakeInfo.stakeId]
        show (idsOf stakes).length = 0
        rw [hids, ← StateDbArray.getSize_eq, hlength, hempty]
      simp [hempty, hnil, failIf, not_le.2 hpos, bind, Except.bind, pure, Except.pure]
    · have hnonempty : ¬ ((stakesOf live owner).length : ℤ) = 0 := by omega
      have hstart : ¬ ((stakesOf live owner).length : ℤ) - 1 < 0 := by omega
      have hstop : (if ((stakesOf live owner).length : ℤ) < size then ((stakesOf live owner).length : ℤ) else size) =
          (stakesOf live owner).length := by
        split_ifs <;> omega
      simp only [failIf, lt_irrefl, if_false, not_le.2 hpos, hnonempty, and_false, hstart, hend, hstop, Int.toNat_zero, sub_zero,
        if_true, hread, bind, Except.bind, pure, Except.pure]
  · rw [hids]
    exact h.owned owner

/-! ## Runs -/

inductive Op where
  | add (stake : AccountForgingStakeInfo)
  | remove (stakeId : StakeId)

namespace Op

/-- the caller looks up the stake it removes -/
def run : Op → Command Unit
  | add stake => addStake stake
  | remove stakeId => do
    let stake ← getOrThrow (findForgerStakeStorageElem (← get) stakeId) (.executionReverted "No such stake id in state-db" [])
    removeForgerStake stakeId stake

/-- ids are added that are not in use, and removed when they are -/
def Allowed (live : List AccountForgingStakeInfo) : Op → Prop
  | add stake => stake.stakeId ∉ idsOf live
  | remove stakeId => stakeId ∈ idsOf live

instance (live : List AccountForgingStakeInfo) (op : Op) : Decidable (op.Allowed live) :=
  match op with
  | add stake => inferInstanceAs (Decidable (stake.stakeId ∉ idsOf live))
  | remove stakeId => inferInstanceAs (Decidable (stakeId ∈ idsOf live))

/-- the stakes after a call; one with an amount out of range is refused -/
def apply (live : List AccountForgingStakeInfo) : Op → List AccountForgingStakeInfo
  | add stake => if AmountOk live stake then live ++ [stake] else live
  | remove stakeId => live.filter (·.stakeId ≠ stakeId)

end Op

/-- the storage after calls; one that throws is reverted -/
def runAll (db : StakeDb) (ops : List Op) : StakeDb := ops.foldl (fun db op => (reverting op.run db).2) db

def liveAfter (live : List AccountForgingStakeInfo) (ops : List Op) : List AccountForgingStakeInfo := ops.foldl Op.apply live

def AllowedFrom : List AccountForgingStakeInfo → List Op → Prop
  | _, [] => True
  | live, op :: ops => op.Allowed live ∧ AllowedFrom (op.apply live) ops

theorem erase_eq_filter (h : Represents db live) (hstake : stake ∈ live) :
    live.erase stake = live.filter (·.stakeId ≠ stake.stakeId) := by
  rw [List.Nodup.erase_eq_filter (List.Nodup.of_map _ h.nodup)]
  apply List.filter_congr
  intro s hs
  have hinj : s.stakeId = stake.stakeId ↔ s = stake := ⟨List.inj_on_of_nodup_map h.nodup hs hstake, fun heq => heq ▸ rfl⟩
  by_cases heq : s = stake
  · simp [heq]
  · simp [heq, hinj]

/-- **Step.** A call keeps the representation. -/
theorem represents_step (h : Represents db live) {op : Op} (hallowed : op.Allowed live) :
    Represents (reverting op.run db).2 (op.apply live) := by
  cases op with
  | add stake =>
    rw [Op.apply]
    split_ifs with hamount
    · rw [reverting, Op.run, exec_addStake h hamount]
      exact represents_added h hallowed hamount
    · obtain ⟨e, db', hexec⟩ := exec_addStake_refused h hamount
      rw [reverting, Op.run, hexec]
      exact h
  | remove stakeId =>
    obtain ⟨stake, hstake, rfl⟩ := List.mem_map.1 hallowed
    obtain ⟨elem, helem, hdata, hpos, hown⟩ := h.stored stake hstake
    obtain ⟨db', hexec, hremoved⟩ := exec_removeForgerStake h hstake hdata hpos hown
    have hrun : exec (Op.run (.remove stake.stakeId)) db = (.ok (), db') := by
      rw [Op.run, exec_get_bind, findForgerStakeStorageElem, helem, exec_getOrThrow_some_bind]
      exact hexec
    rw [reverting, hrun, Op.apply, ← erase_eq_filter h hstake]
    exact represents_removed h hstake hpos hown hremoved

theorem represents_run (h : Represents db live) (ops : List Op) (hallowed : AllowedFrom live ops) :
    Represents (runAll db ops) (liveAfter live ops) := by
  induction ops generalizing db live with
  | nil => exact h
  | cons op ops ih => exact ih (represents_step h hallowed.1) hallowed.2

/-- **Storage version 2.** After any calls from the empty storage, with new ids added and existing ones removed: the ids of the
live stakes are in the array of all stakes once each, those of an owner in its array, and the data of each stake says where;
the total of an owner is the sum of its stakes; the lists that are read are the live stakes, and those of an owner; and no other
id is found. -/
theorem storage_represents_stakes (ops : List Op) (hallowed : AllowedFrom [] ops) :
    let db := runAll StakeDb.empty ops
    let live := liveAfter [] ops
    ((db.arrays.toList forgerStakeArray).Nodup ∧ (db.arrays.toList forgerStakeArray).Perm (idsOf live)) ∧
      (∀ owner, (db.arrays.toList (ownerStakeInfo owner)).Nodup ∧
        (db.arrays.toList (ownerStakeInfo owner)).Perm (idsOf (stakesOf live owner))) ∧
      (∀ stake ∈ live, Stored db stake) ∧
      (∀ owner, getOwnerStake db owner = ((stakesOf live owner).map (·.forgerStakeData.stakedAmount)).sum) ∧
      (∃ stakes, getListOfForgersStakes db = .ok stakes ∧ stakes.Perm live) ∧
      (∀ owner size, IsInt size → 0 < size → ((stakesOf live owner).length : ℤ) ≤ size →
        ∃ stakes, getPagedListOfForgersStakesOfUser db owner 0 size = .ok (-1, stakes) ∧
          stakes.Perm (stakesOf live owner)) ∧
      ∀ id ∉ idsOf live, findForgerStakeStorageElem db id = none := by
  intro db live
  have h : Represents db live := represents_run represents_empty ops hallowed
  have hnodup : ∀ owner, (idsOf (stakesOf live owner)).Nodup := fun owner => h.nodup.sublist ((List.filter_sublist).map _)
  refine ⟨⟨h.all.nodup_iff.2 h.nodup, h.all⟩, fun owner => ⟨(h.owned owner).nodup_iff.2 (hnodup owner), h.owned owner⟩,
    h.stored,
    h.total, getListOfForgersStakes_perm h, ?_, h.absent⟩
  intro owner size hint hpos hsize
  exact getPagedListOfForgersStakesOfUser_perm h owner hpos hint hsize

def sampleStake (id : StakeId) (owner : Address) (amount : ℤ) : AccountForgingStakeInfo :=
  ⟨id, ⟨⟨7, 8, 9⟩, owner, amount⟩⟩

/-- the first of three stakes is removed, and the last one moves in both arrays -/
def sampleOps : List Op :=
  [.add (sampleStake 11 1 10), .add (sampleStake 12 2 20), .add (sampleStake 13 1 30), .remove 11]

theorem first_stake_removed :
    getOwnerStake (runAll StakeDb.empty sampleOps) 1 = 30 ∧ Stored (runAll StakeDb.empty sampleOps) (sampleStake 13 1 30) ∧
      findForgerStakeStorageElem (runAll StakeDb.empty sampleOps) 11 = none := by
  have hallowed : AllowedFrom [] sampleOps := ⟨by decide, by decide, by decide, by decide, trivial⟩
  obtain ⟨-, -, hstored, htotal, -, -, habsent⟩ := storage_represents_stakes sampleOps hallowed
  exact ⟨(htotal 1).trans (by decide), hstored _ (by decide), habsent 11 (by decide)⟩

end SidechainsSdk.Account.ForgerStakeStorageV2
