/-
Paged queries of the stake contracts: stakes by forger, stakes by delegator and forgers (`StakeStorage`), all stakes and stakes by
owner (`ForgerStakeStorageV2`). They are written five times with the same arithmetic.

- `getPagedForgersStakesByForger`, `getPagedForgersStakesByDelegator`, `getPagedListOfForgers`, `getPagedListOfForgersStakes`:
  the code; stakes by owner are with the storage.
- `reads_byForger` to `reads_byOwner`: each of them reads its list page by page.
- `paged_queries_iff`: in every state that calls reach, a page covers its positions if and only if its end is an `Int`, and the
  pages from the first position on give the whole list if and only if the end of the last one is.

The messages of `checkPage` are those of each query; the order of its checks is the same in all of them but
`getPagedListOfForgersStakes`.
-/
import Mathlib.Tactic
import SidechainsSdk.Core.Paging
import SidechainsSdk.Account.Stakes.StakeStorage
import SidechainsSdk.Account.Stakes.ForgerStakeStorageV2

namespace SidechainsSdk.Account.PagedQueries

open Fallible MachineInt Paging
open StakeStorage (StakeDb HistoryId getLatestAmount latestAmount content existsForger)
open ForgerStakeStorage (AccountForgingStakeInfo)

/-! ## The code -/

structure StakeDataDelegator where
  delegator : Address
  stakedAmount : ℕ
deriving DecidableEq

structure StakeDataForger where
  forgerPublicKeys : ForgerPublicKeys
  stakedAmount : ℕ
deriving DecidableEq

/-- the elements of a page, up to its end -/
def readPage {α : Type} (readAt : ℕ → Except Exc α) (startPos endPos : ℤ) : Except Exc (List α) :=
  (List.range' startPos.toNat (endPos - startPos).toNat).mapM readAt

def getPagedForgersStakesByForger (db : StakeDb) (forger : ForgerPublicKeys) (startPos pageSize : ℤ) :
    Except Exc (ℤ × List StakeDataDelegator) := do
  failIf (startPos < 0) (.illegalArgument s!"Negative start position: {startPos} can not be negative")
  failIf (pageSize ≤ 0) (.illegalArgument s!"Invalid page size {pageSize}, must be positive")
  let numOfDelegators : ℤ := db.delegatorList.getSize forger
  if startPos = 0 ∧ numOfDelegators = 0 then return (-1, [])
  failIf (numOfDelegators - 1 < startPos)
    (.illegalArgument s!"Invalid start position reading list of delegators: {startPos}, delegators array size: {numOfDelegators}")
  let endPos := intOf (startPos + pageSize)
  let endPos := if numOfDelegators < endPos then numOfDelegators else endPos
  let resultList ← readPage (fun index =>
    let delegatorKey := db.delegatorList.getValue forger index
    let amount := getLatestAmount db (.stake forger delegatorKey)
    .ok ⟨delegatorKey, amount⟩) startPos endPos
  let resultList := resultList.filter fun data => 0 < data.stakedAmount
  return (if endPos = numOfDelegators then -1 else endPos, resultList)

def getPagedForgersStakesByDelegator (db : StakeDb) (delegator : Address) (startPos pageSize : ℤ) :
    Except Exc (ℤ × List StakeDataForger) := do
  failIf (startPos < 0) (.illegalArgument s!"Negative start position: {startPos}")
  failIf (pageSize ≤ 0) (.illegalArgument s!"Invalid page size {pageSize}, must be positive")
  let numOfForgers : ℤ := db.delegatorListOfForgerKeys.getSize delegator
  if startPos = 0 ∧ numOfForgers = 0 then return (-1, [])
  failIf (numOfForgers - 1 < startPos)
    (.illegalArgument s!"Invalid start position reading list of forgers: {startPos}, forgers array size: {numOfForgers}")
  let endPos := intOf (startPos + pageSize)
  let endPos := if numOfForgers < endPos then numOfForgers else endPos
  let resultList ← readPage (fun index => do
    let forgerKey := db.delegatorListOfForgerKeys.getValue delegator index
    match db.forgerInfo forgerKey with
    | none => .error (.executionReverted "Forger doesn't exist." [])
    | some forger =>
      let amount := getLatestAmount db (.stake forgerKey delegator)
      .ok ⟨forger.forgerPublicKeys, amount⟩) startPos endPos
  let resultList := resultList.filter fun data => 0 < data.stakedAmount
  return (if endPos = numOfForgers then -1 else endPos, resultList)

/-- `ForgerMap.getPagedListOfForgers` -/
def getPagedListOfForgers (db : StakeDb) (startPos pageSize : ℤ) : Except Exc (ℤ × List ForgerInfo) := do
  failIf (startPos < 0) (.executionReverted s!"Invalid startPos input: {startPos} can not be negative" [])
  failIf (pageSize ≤ 0) (.executionReverted s!"Invalid page size {pageSize}, must be positive" [])
  let listSize : ℤ := db.listOfForgers.getSize ()
  if startPos = 0 ∧ listSize = 0 then return (-1, [])
  failIf (listSize - 1 < startPos)
    (.executionReverted s!"Invalid start position: {startPos}, array size: {listSize}" [])
  let endPos := intOf (startPos + pageSize)
  let endPos := if listSize < endPos then listSize else endPos
  let listOfElems ← readPage (fun index =>
    match db.forgerInfo (db.listOfForgers.getValue () index) with
    | none => .error (.other "no data to parse")
    | some forger => .ok forger) startPos endPos
  return (if endPos = listSize then -1 else endPos, listOfElems)

/-- of the storage version 2; an empty list has no first position -/
def getPagedListOfForgersStakes (db : ForgerStakeStorageV2.StakeDb) (startPos pageSize : ℤ) :
    Except Exc (ℤ × List AccountForgingStakeInfo) := do
  let stakeListSize : ℤ := db.arrays.getSize ForgerStakeStorageV2.forgerStakeArray
  failIf (startPos < 0) (.illegalArgument s!"Invalid startPos input: {startPos} can not be negative")
  failIf (stakeListSize - 1 < startPos)
    (.illegalArgument s!"Invalid position where to start reading forger stakes: {startPos}, stakes array size: {stakeListSize}")
  failIf (pageSize ≤ 0) (.illegalArgument s!"Invalid page size {pageSize}, must be positive")
  let endPos := intOf (startPos + pageSize)
  let endPos := if stakeListSize < endPos then stakeListSize else endPos
  let stakeList ← readPage (ForgerStakeStorageV2.getStakeAt db ForgerStakeStorageV2.forgerStakeArray) startPos endPos
  return (if endPos = stakeListSize then -1 else endPos, stakeList)

/-! ## Pages -/

theorem endPos_le (size start page : ℤ) : endPos size start page ≤ size := by
  unfold endPos
  split_ifs <;> omega

/-- elements that can be read at every position of a list -/
theorem readPage_ok {α : Type} {readAt : ℕ → Except Exc α} {items : List α}
    (hread : ∀ i a, items[i]? = some a → readAt i = .ok a) {start page : ℤ} (hstart : 0 ≤ start)
    (hlt : start < items.length) :
    readPage readAt start (endPos items.length start page) =
      .ok ((items.drop start.toNat).take (endPos items.length start page - start).toNat) := by
  have hle := endPos_le items.length start page
  exact mapM_range'_ok hread start.toNat _ (by omega)

/-- the guards of a query on a position inside the list -/
theorem inside_passes {size start page : ℤ} (hstart : 0 ≤ start) (hlt : start < size) (hpage : 0 < page) :
    ¬ start < 0 ∧ ¬ page ≤ 0 ∧ ¬ (start = 0 ∧ size = 0) ∧ ¬ size - 1 < start := by
  omega

/-! ## The second contract -/

/-- a map that is defined on all elements of a list -/
theorem filterMap_getElem? {α β : Type} {f : α → Option β} {l : List α} (h : ∀ a ∈ l, ∃ b, f a = some b) (i : ℕ) :
    (l.filterMap f)[i]? = l[i]?.bind f := by
  induction l generalizing i with
  | nil => rfl
  | cons a l ih =>
    obtain ⟨b, hb⟩ := h a List.mem_cons_self
    rw [List.filterMap_cons_some hb]
    cases i with
    | zero => exact hb.symm
    | succ i => exact ih (fun a ha => h a (List.mem_cons_of_mem _ ha)) i

theorem filterMap_length {α β : Type} {f : α → Option β} {l : List α} (h : ∀ a ∈ l, ∃ b, f a = some b) :
    (l.filterMap f).length = l.length := by
  induction l with
  | nil => rfl
  | cons a l ih =>
    obtain ⟨b, hb⟩ := h a List.mem_cons_self
    rw [List.filterMap_cons_some hb, List.length_cons, List.length_cons, ih fun a ha => h a (List.mem_cons_of_mem _ ha)]

section StakeQueries

variable {db : StakeDb}

/-- the delegators of a forger, with what they have staked -/
def delegatorStakes (db : StakeDb) (forger : ForgerPublicKeys) : List StakeDataDelegator :=
  ((content db).delegators forger).map fun delegator =>
    ⟨delegator, latestAmount ((content db).history (.stake forger delegator))⟩

/-- the forgers of a delegator, with what it has staked -/
def forgerStakes (db : StakeDb) (delegator : Address) : List StakeDataForger :=
  ((content db).forgersOf delegator).map fun forger => ⟨forger, latestAmount ((content db).history (.stake forger delegator))⟩

/-- the data of the registered forgers -/
def forgerInfos (db : StakeDb) : List ForgerInfo := (content db).forgers.filterMap db.forgerInfo

theorem reads_byForger (db : StakeDb) (forger : ForgerPublicKeys) :
    Reads (getPagedForgersStakesByForger db forger) (delegatorStakes db forger) fun data => 0 < data.stakedAmount where
  negative start page hneg := by
    rw [getPagedForgersStakesByForger, failIf, if_pos hneg]
    exact ⟨_, rfl⟩
  inside start page hstart hlt hpage := by
    have hsize : db.delegatorList.getSize forger = (delegatorStakes db forger).length := by
      rw [StateDbArray.getSize_eq, delegatorStakes, List.length_map]
      rfl
    have hread : ∀ i a, (delegatorStakes db forger)[i]? = some a →
        (.ok ⟨db.delegatorList.getValue forger i, getLatestAmount db (.stake forger (db.delegatorList.getValue forger i))⟩ :
          Except Exc StakeDataDelegator) = .ok a := by
      intro i a hget
      have hi : i < (delegatorStakes db forger).length := (List.getElem?_eq_some_iff.1 hget).1
      have hvalue : ((content db).delegators forger)[i]? = some (db.delegatorList.getValue forger i) :=
        db.delegatorList.getValue_eq forger i (hsize ▸ hi)
      rw [delegatorStakes, List.getElem?_map, hvalue] at hget
      rw [StakeStorage.getLatestAmount_eq]
      exact congrArg Except.ok (Option.some.inj hget)
    obtain ⟨hneg, hzero, hnone, hbeyond⟩ := inside_passes hstart hlt hpage
    simp only [getPagedForgersStakesByForger, hsize, if_neg hnone, bind_ok_iff, failIf_ok]
    exact ⟨(), hneg, (), hzero, (), hbeyond, _, readPage_ok hread hstart hlt, rfl⟩

theorem reads_byDelegator (hdb : (content db).Consistent) (delegator : Address) :
    Reads (getPagedForgersStakesByDelegator db delegator) (forgerStakes db delegator) fun data => 0 < data.stakedAmount where
  negative start page hneg := by
    rw [getPagedForgersStakesByDelegator, failIf, if_pos hneg]
    exact ⟨_, rfl⟩
  inside start page hstart hlt hpage := by
    have hsize : db.delegatorListOfForgerKeys.getSize delegator = (forgerStakes db delegator).length := by
      rw [StateDbArray.getSize_eq, forgerStakes, List.length_map]
      rfl
    have hread : ∀ i a, (forgerStakes db delegator)[i]? = some a →
        (match db.forgerInfo (db.delegatorListOfForgerKeys.getValue delegator i) with
          | none => .error (.executionReverted "Forger doesn't exist." [])
          | some forger => .ok ⟨forger.forgerPublicKeys,
            getLatestAmount db (.stake (db.delegatorListOfForgerKeys.getValue delegator i) delegator)⟩ :
          Except Exc StakeDataForger) = .ok a := by
      intro i a hget
      have hi : i < (forgerStakes db delegator).length := (List.getElem?_eq_some_iff.1 hget).1
      have hvalue : ((content db).forgersOf delegator)[i]? = some (db.delegatorListOfForgerKeys.getValue delegator i) :=
        db.delegatorListOfForgerKeys.getValue_eq delegator i (hsize ▸ hi)
      rw [forgerStakes, List.getElem?_map, hvalue] at hget
      -- a forger of a delegator is registered
      have hdelegator := (hdb.delegations.listed_both _ _).1 (List.mem_of_getElem? hvalue)
      have hforger := hdb.registry.delegator_forger _ _ hdelegator
      obtain ⟨info, hinfo⟩ := Option.isSome_iff_exists.1 ((hdb.registry.registered _).1 hforger)
      have hinfo' : db.forgerInfo (db.delegatorListOfForgerKeys.getValue delegator i) = some info := hinfo
      rw [hinfo']
      dsimp only
      rw [hdb.registry.info_keys _ _ hinfo, StakeStorage.getLatestAmount_eq]
      exact congrArg Except.ok (Option.some.inj hget)
    obtain ⟨hneg, hzero, hnone, hbeyond⟩ := inside_passes hstart hlt hpage
    simp only [getPagedForgersStakesByDelegator, hsize, if_neg hnone, bind_ok_iff, failIf_ok]
    exact ⟨(), hneg, (), hzero, (), hbeyond, _, readPage_ok hread hstart hlt, rfl⟩

theorem reads_forgers (hdb : (content db).Consistent) :
    Reads (getPagedListOfForgers db) (forgerInfos db) fun _ => true where
  negative start page hneg := by
    rw [getPagedListOfForgers, failIf, if_pos hneg]
    exact ⟨_, rfl⟩
  inside start page hstart hlt hpage := by
    have hinfo : ∀ f ∈ (content db).forgers, ∃ info, db.forgerInfo f = some info := fun f hf =>
      Option.isSome_iff_exists.1 ((hdb.registry.registered f).1 hf)
    have hinfos := filterMap_getElem? hinfo
    have hsize : db.listOfForgers.getSize () = (forgerInfos db).length := by
      rw [StateDbArray.getSize_eq]
      exact (filterMap_length hinfo).symm
    have hread : ∀ i a, (forgerInfos db)[i]? = some a →
        (match db.forgerInfo (db.listOfForgers.getValue () i) with
          | none => .error (.other "no data to parse")
          | some forger => .ok forger : Except Exc ForgerInfo) = .ok a := by
      intro i a hget
      have hi : i < (forgerInfos db).length := (List.getElem?_eq_some_iff.1 hget).1
      have hvalue : (content db).forgers[i]? = some (db.listOfForgers.getValue () i) :=
        db.listOfForgers.getValue_eq () i (hsize ▸ hi)
      have hstored : db.forgerInfo (db.listOfForgers.getValue () i) = some a := by
        rw [← hget, forgerInfos, hinfos i, hvalue]
        rfl
      rw [hstored]
    obtain ⟨hneg, hzero, hnone, hbeyond⟩ := inside_passes hstart hlt hpage
    simp only [getPagedListOfForgers, hsize, if_neg hnone, bind_ok_iff, failIf_ok]
    exact ⟨(), hneg, (), hzero, (), hbeyond, _, readPage_ok hread hstart hlt, by rw [List.filter_true]; rfl⟩

end StakeQueries

/-! ## The first contract -/

section StakeLists

open ForgerStakeStorageV2 (ArrayKey getStakeAt findStakeData forgerStakeArray ownerStakeInfo getPagedListOfForgersStakesOfUser
  getPagedListOfForgersStakesFromList Represents idsOf idsOf_stakesOf_subset)

variable {db : ForgerStakeStorageV2.StakeDb} {live : List AccountForgingStakeInfo}

/-- the stakes of an array, in its order -/
def stakesIn (db : ForgerStakeStorageV2.StakeDb) (k : ArrayKey) : List AccountForgingStakeInfo :=
  (db.arrays.toList k).filterMap fun id => (findStakeData db id).map fun data => ⟨id, data⟩

theorem stored_in (h : Represents db live) {k : ArrayKey} (hids : db.arrays.toList k ⊆ idsOf live) :
    ∀ id ∈ db.arrays.toList k, ∃ stake : AccountForgingStakeInfo,
      ((findStakeData db id).map fun data => (⟨id, data⟩ : AccountForgingStakeInfo)) = some stake := by
  intro id hid
  obtain ⟨s, hs, rfl⟩ := List.mem_map.1 (hids hid)
  obtain ⟨elem, helem, -⟩ := h.stored s hs
  refine ⟨⟨s.stakeId, elem.data⟩, ?_⟩
  rw [findStakeData, helem]
  rfl

theorem stakesIn_size (h : Represents db live) {k : ArrayKey} (hids : db.arrays.toList k ⊆ idsOf live) :
    db.arrays.getSize k = (stakesIn db k).length := by
  rw [StateDbArray.getSize_eq]
  exact (filterMap_length (stored_in h hids)).symm

theorem stakesIn_read (h : Represents db live) {k : ArrayKey} (hids : db.arrays.toList k ⊆ idsOf live) :
    ∀ i a, (stakesIn db k)[i]? = some a → getStakeAt db k i = .ok a := by
  intro i a hget
  have hi : i < db.arrays.getSize k := by
    rw [stakesIn_size h hids]
    exact (List.getElem?_eq_some_iff.1 hget).1
  rw [stakesIn, filterMap_getElem? (stored_in h hids), db.arrays.getValue_eq k i hi, Option.bind_some] at hget
  obtain ⟨data, hdata, rfl⟩ := Option.map_eq_some_iff.1 hget
  rw [getStakeAt, hdata]

theorem reads_allStakes (h : Represents db live) :
    Reads (getPagedListOfForgersStakes db) (stakesIn db forgerStakeArray) fun _ => true where
  negative start page hneg := by
    rw [getPagedListOfForgersStakes, failIf, if_pos hneg]
    exact ⟨_, rfl⟩
  inside start page hstart hlt hpage := by
    obtain ⟨hneg, hzero, -, hbeyond⟩ := inside_passes hstart hlt hpage
    simp only [getPagedListOfForgersStakes, stakesIn_size h h.all.subset, bind_ok_iff, failIf_ok]
    refine ⟨(), hneg, (), hbeyond, (), hzero, _, readPage_ok (stakesIn_read h h.all.subset) hstart hlt, ?_⟩
    rw [List.filter_true]
    rfl

theorem reads_byOwner (h : Represents db live) (owner : Address) :
    Reads (getPagedListOfForgersStakesOfUser db owner) (stakesIn db (ownerStakeInfo owner)) fun _ => true where
  negative start page hneg := by
    rw [getPagedListOfForgersStakesOfUser, getPagedListOfForgersStakesFromList, failIf, if_pos hneg]
    exact ⟨_, rfl⟩
  inside start page hstart hlt hpage := by
    have hids : db.arrays.toList (ownerStakeInfo owner) ⊆ idsOf live :=
      fun id hid => idsOf_stakesOf_subset ((h.owned owner).subset hid)
    obtain ⟨hneg, hzero, hnone, hbeyond⟩ := inside_passes hstart hlt hpage
    simp only [getPagedListOfForgersStakesOfUser, getPagedListOfForgersStakesFromList, stakesIn_size h hids, if_neg hnone,
      bind_ok_iff, failIf_ok]
    exact ⟨(), hneg, (), hzero, (), hbeyond, _, readPage_ok (stakesIn_read h hids) hstart hlt, by rw [List.filter_true]; rfl⟩

end StakeLists

/-! ## All queries -/

/-- when a query covers its list: on a page, with an end that is an `Int`; on all pages from the first one, if the last has one -/
structure PagedExactly {α : Type} (query : ℤ → ℤ → Except Exc (ℤ × List α)) (items : List α) (keep : α → Bool) :
    Prop where
  page : ∀ startPos pageSize : ℤ, 0 ≤ startPos → startPos < items.length → startPos < 2 ^ 31 → 0 < pageSize →
    pageSize < 2 ^ 31 →
    (Covers query items keep startPos pageSize ↔ startPos + pageSize < 2 ^ 31)
  walk : items ≠ [] → ∀ pageSize : ℤ, 0 < pageSize → pageSize < 2 ^ 31 →
    (Walk query pageSize 0 (items.filter keep) ↔ lastStart items.length pageSize + pageSize < 2 ^ 31)

theorem pagedExactly_of_reads {α : Type} {query : ℤ → ℤ → Except Exc (ℤ × List α)} {items : List α}
    {keep : α → Bool}
    (h : Reads query items keep) : PagedExactly query items keep where
  page _ _ hstart hlt hstartInt hpage hpageInt := covers_iff h hstart hlt hpage hstartInt hpageInt
  walk hne _ hpage hpageInt := walk_iff h hne hpage hpageInt

/-- **Paged queries.** After any calls of the contracts, for each query and all of its lists. -/
theorem paged_queries_iff (ops : List StakeStorage.Op) (stakeOps : List ForgerStakeStorageV2.Op)
    (hallowed : ForgerStakeStorageV2.AllowedFrom [] stakeOps) :
    let db := StakeStorage.run StakeDb.empty ops
    let stakes := ForgerStakeStorageV2.runAll ForgerStakeStorageV2.StakeDb.empty stakeOps
    (∀ forger, PagedExactly (getPagedForgersStakesByForger db forger) (delegatorStakes db forger) fun data =>
      0 < data.stakedAmount) ∧
      (∀ delegator, PagedExactly (getPagedForgersStakesByDelegator db delegator) (forgerStakes db delegator)
        fun data => 0 < data.stakedAmount) ∧
      PagedExactly (getPagedListOfForgers db) (forgerInfos db) (fun _ => true) ∧
      PagedExactly (getPagedListOfForgersStakes stakes) (stakesIn stakes ForgerStakeStorageV2.forgerStakeArray)
        (fun _ => true) ∧
      ∀ owner, PagedExactly (ForgerStakeStorageV2.getPagedListOfForgersStakesOfUser stakes owner)
        (stakesIn stakes (ForgerStakeStorageV2.ownerStakeInfo owner)) fun _ => true := by
  intro db stakes
  have hdb : (content db).Consistent := StakeStorage.run_consistent StakeStorage.empty_consistent ops
  have hstakes := ForgerStakeStorageV2.represents_run ForgerStakeStorageV2.represents_empty stakeOps hallowed
  exact ⟨fun forger => pagedExactly_of_reads (reads_byForger db forger),
    fun delegator => pagedExactly_of_reads (reads_byDelegator hdb delegator), pagedExactly_of_reads (reads_forgers hdb),
    pagedExactly_of_reads (reads_allStakes hstakes), fun owner => pagedExactly_of_reads (reads_byOwner hstakes owner)⟩

/-! Three stakes in pages of two; and a page of the largest size from the second one on. -/

section Sample

open ForgerStakeStorageV2 (runAll sampleStake forgerStakeArray)

def threeStakes : List ForgerStakeStorageV2.Op :=
  [.add (sampleStake 11 1 10), .add (sampleStake 12 2 20), .add (sampleStake 13 1 30)]

theorem threeStakes_walk :
    Walk (getPagedListOfForgersStakes (runAll ForgerStakeStorageV2.StakeDb.empty threeStakes)) 2 0
      ((stakesIn (runAll ForgerStakeStorageV2.StakeDb.empty threeStakes) forgerStakeArray).filter fun _ => true) := by
  have hallowed : ForgerStakeStorageV2.AllowedFrom [] threeStakes := ⟨by decide, by decide, by decide, trivial⟩
  obtain ⟨-, -, -, hall, -⟩ := paged_queries_iff [] threeStakes hallowed
  exact (hall.walk (by decide) 2 (by decide) (by decide)).2 (by decide)

/-- no error, no stakes, and a negative position -/
theorem largest_page_not_covered :
    getPagedListOfForgersStakes (runAll ForgerStakeStorageV2.StakeDb.empty threeStakes) 1 (2 ^ 31 - 1) = .ok (-2 ^ 31, []) ∧
      ¬ Covers (getPagedListOfForgersStakes (runAll ForgerStakeStorageV2.StakeDb.empty threeStakes))
        (stakesIn (runAll ForgerStakeStorageV2.StakeDb.empty threeStakes) forgerStakeArray) (fun _ => true) 1 (2 ^ 31 - 1) := by
  have hpage : getPagedListOfForgersStakes (runAll ForgerStakeStorageV2.StakeDb.empty threeStakes) 1 (2 ^ 31 - 1) =
      .ok (-2 ^ 31, []) := by decide
  refine ⟨hpage, ?_⟩
  rw [Covers, hpage]
  decide

end Sample

end SidechainsSdk.Account.PagedQueries
