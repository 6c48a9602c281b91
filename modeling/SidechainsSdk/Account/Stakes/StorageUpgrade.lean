/-
The upgrade of the storage of the first forger stake contract (`doUpgradeCmd`). In version 1 the ids of the stakes are the nodes
of a linked list; in version 2 they are in arrays. The upgrade walks the list from its tip back, adds each stake to the storage of
version 2, and removes its node. Both versions keep the data of a stake under its id, in formats of their own.

- `addForgerStake`, `removeForgerStake`, `getListOfForgersStakes`: version 1, and the choice of the version.
- `upgradeList`, `doUpgradeCmd`: the code of the upgrade.
- `Migrating`: what the storage holds while the list is walked; with nothing moved yet this is a storage of version 1.
- `upgradeList_spec`: the walk ends with all stakes moved, unless the total of an owner does not fit into a word.
- `upgrade_preserves_stakes`: what is left after a successful upgrade.

Hashes are symbolic, so keys of nodes and of stakes are different. A record under a stake id is in the format of one version:
writing it in the other one replaces it.
-/
import Mathlib.Tactic
import SidechainsSdk.Account.NativeContract
import SidechainsSdk.Account.NativeLinkedList
import SidechainsSdk.Account.Stakes.ForgerStakeV2
import SidechainsSdk.Account.Stakes.ForgerStakeStorageV2

namespace SidechainsSdk.Account.StorageUpgrade

open Fallible NativeLinkedList LinkedList
open SidechainsSdk.Account.StateTransition (StateDb Invocation)
open ForgerStakeV2 (METHOD_ID_LENGTH getArgumentsFromData)
open ForgerStakeStorage (StakeId ForgerStakeData AccountForgingStakeInfo ForgerStakeStorageVersion)
open ForgerStakeStorageV2 (ForgerStakeStorageElemV2 Represents AmountOk idsOf stakesOf totalOf added)

/-! ## State -/

inductive Key where
  | zero
  | tip
  | null
  | stake (stakeId : StakeId)
  | node (key : Key)
deriving DecidableEq

/-- `ForgerStakeLinkedList` -/
def forgerStakeLinkedList : NativeSmartContractLinkedList Key where
  listTipKey := .tip
  listTipNullValue := .null
  hash := .node
  toHexString _ := ""

/-- the storage of the contract, with the logs of upgrades -/
structure StakeContract where
  version : ForgerStakeStorageVersion
  linked : ContractStorage Key ForgerStakeData
  indexed : ForgerStakeStorageV2.StakeDb
  logs : List (ForgerStakeStorageVersion × ForgerStakeStorageVersion)

/-- after `ForgerStakeStorageV1.setupStorage` -/
def initialStorage : StakeContract :=
  ⟨.VERSION_1, ⟨fun k => if k = .tip then .null else .zero, ∅⟩, ForgerStakeStorageV2.StakeDb.empty, []⟩

abbrev Call := Fallible Exc StakeContract

def onLinked {α : Type} (x : NativeLinkedList.Command Key ForgerStakeData α) : Call α :=
  onPart StakeContract.linked (fun linked s => { s with linked := linked }) x

def onIndexed {α : Type} (x : ForgerStakeStorageV2.Command α) : Call α :=
  onPart StakeContract.indexed (fun indexed s => { s with indexed := indexed }) x

/-! ## Version 1 -/

/-- data of version 2 start as those of version 1 -/
def findStakeData (s : StakeContract) (stakeId : StakeId) : Except Exc (Option ForgerStakeData) :=
  match s.linked.records.lookup (.stake stakeId) with
  | some (.data data) => .ok (some data)
  | some (.node _) => .error (.executionReverted "Error while parsing forger data." [])
  | none => .ok (ForgerStakeStorageV2.findStakeData s.indexed stakeId)

def existsStakeData (s : StakeContract) (stakeId : StakeId) : Bool :=
  (s.linked.records.lookup (.stake stakeId)).isSome || (s.indexed.stakes stakeId).isSome

def getStakeListItem (s : StakeContract) (tipRef : Key) : Except Exc (AccountForgingStakeInfo × Key) := do
  failIf (linkedListNodeRefIsNull forgerStakeLinkedList tipRef) (.executionReverted "Tip has the null value, no list here" [])
  let (dataKey, prevNodeKey) ← getDataKey s.linked tipRef
  match dataKey with
  | .stake stakeId =>
    let found ← findStakeData s stakeId
    let data ← found.elim (.error (.other "None.get")) .ok
    return (⟨stakeId, data⟩, prevNodeKey)
  | _ => .error (.other "not a stake id")

def addForgerStake (stake : AccountForgingStakeInfo) : Call Unit := do
  onLinked (addNewNode forgerStakeLinkedList (.stake stake.stakeId))
  throwIf (stake.forgerStakeData.stakedAmount.sign = -1)
    (.illegalArgument "requirement failed: stakeAmount expected to be non negative.")
  onLinked (updateAccountStorageBytes (.stake stake.stakeId) (.data stake.forgerStakeData))

def removeForgerStake (stakeId : StakeId) : Call Unit := do
  onLinked (removeNode forgerStakeLinkedList (.stake stakeId))
  onLinked (removeAccountStorageBytes (.stake stakeId))

def getForgerStakeStorageVersion (s : StakeContract) (isForkV1_3Active : Bool) : ForgerStakeStorageVersion :=
  if isForkV1_3Active then s.version else .VERSION_1

/-- of either version; with version 2 there are no data in the other format left -/
def getListOfForgersStakes (s : StakeContract) (isForkV1_3Active : Bool) : Except Exc (List AccountForgingStakeInfo) :=
  match getForgerStakeStorageVersion s isForkV1_3Active with
  | .VERSION_1 => readList forgerStakeLinkedList (getStakeListItem s) s.linked.records.keys.length (s.linked.words .tip) []
  | .VERSION_2 => ForgerStakeStorageV2.getListOfForgersStakes s.indexed

/-! ## The upgrade -/

/-- `ForgerStakeStorageV2.addForgerStake`, whose data replace those of version 1 -/
def addUpgradedStake (stake : AccountForgingStakeInfo) : Call Unit := do
  onIndexed (ForgerStakeStorageV2.addStake stake)
  onLinked (removeAccountStorageBytes (.stake stake.stakeId))

/-- the loop; it is given as many steps as there are records, as a list that takes more goes round in circles -/
def upgradeList : ℕ → Key → Call Unit
  | 0, nodeReference =>
    throwIf (¬ linkedListNodeRefIsNull forgerStakeLinkedList nodeReference) (.other "does not end")
  | n + 1, nodeReference =>
    if linkedListNodeRefIsNull forgerStakeLinkedList nodeReference then pure ()
    else do
      let (item, prevNodeReference) ← orThrow (getStakeListItem (← get) nodeReference)
      addUpgradedStake item
      onLinked (removeNode forgerStakeLinkedList (.stake item.stakeId))
      upgradeList n prevNodeReference

abbrev Db := StateDb StakeContract

def onContract {α : Type} (x : Call α) : NativeContract.Command StakeContract α :=
  onPart (fun db => db.rest) (fun rest db => { db with rest := rest }) x

/-- a version as a word -/
def versionWord : ForgerStakeStorageVersion → Octets
  | .VERSION_1 => List.replicate 32 0
  | .VERSION_2 => List.replicate 31 0 ++ [1]

def upgradeStorage : Call Octets := do
  throwIf ((← get).version = .VERSION_2) (.executionReverted "Forger stake storage already upgraded" [])
  let s ← get
  upgradeList s.linked.records.keys.length (s.linked.words .tip)
  onLinked (updateAccountStorage .tip .zero)
  modify fun s => { s with logs := s.logs ++ [(.VERSION_1, .VERSION_2)], version := .VERSION_2 }
  return versionWord .VERSION_2

def doUpgradeCmd (invocation : Invocation) : NativeContract.Command StakeContract Octets := do
  throwIf (invocation.value.sign ≠ 0) (.executionReverted "Call value must be zero" [])
  let args ← orThrow (getArgumentsFromData invocation.input)
  throwIf (args.length > 0)
    (.executionReverted s!"invalid msg data length: {invocation.input.length}, expected {METHOD_ID_LENGTH}" [])
  onContract upgradeStorage

/-! ## What the storage holds -/

/-- the stakes that are still in the list, oldest first, and those that have been moved -/
structure Migrating (s : StakeContract) (left done : List AccountForgingStakeInfo) : Prop where
  holds : Holds forgerStakeLinkedList s.linked (left.map fun stake => .stake stake.stakeId)
  nodup : (idsOf (done ++ left)).Nodup
  data : ∀ stake ∈ left, s.linked.records.lookup (.stake stake.stakeId) = some (.data stake.forgerStakeData)
  others : ∀ id ∉ idsOf left, s.linked.records.lookup (.stake id) = none
  null : s.linked.records.lookup .null = none
  indexed : Represents s.indexed done
  amount_nonneg : ∀ stake ∈ left, 0 ≤ stake.forgerStakeData.stakedAmount

variable {s s' : StakeContract} {left done older younger : List AccountForgingStakeInfo} {stake : AccountForgingStakeInfo}

theorem migrating_initial : Migrating initialStorage [] [] where
  holds := holds_nil rfl
  nodup := List.nodup_nil
  data stake hstake := by cases hstake
  others _ _ := rfl
  null := rfl
  indexed := ForgerStakeStorageV2.represents_empty
  amount_nonneg stake hstake := by cases hstake

/-- the keys of nodes are no keys of stakes -/
theorem stake_not_node {id : StakeId} (keys : List Key) : Key.stake id ∉ keys.map forgerStakeLinkedList.hash := by
  intro hmem
  obtain ⟨key, -, hkey⟩ := List.mem_map.1 hmem
  cases hkey

theorem null_not_node (keys : List Key) : Key.null ∉ keys.map forgerStakeLinkedList.hash := by
  intro hmem
  obtain ⟨key, -, hkey⟩ := List.mem_map.1 hmem
  cases hkey

theorem node_injective : Function.Injective forgerStakeLinkedList.hash := fun _ _ h => Key.node.inj h

theorem stakeKeys_mem {id : StakeId} :
    Key.stake id ∈ left.map (fun stake => Key.stake stake.stakeId) ↔ id ∈ idsOf left := by
  unfold idsOf
  simp [List.mem_map]

/-! ## Calls of version 1 -/

theorem exec_onLinked {α : Type} {x : NativeLinkedList.Command Key ForgerStakeData α} {a : α}
    {linked : ContractStorage Key ForgerStakeData}
    (h : exec x s.linked = (.ok a, linked)) : exec (onLinked x) s = (.ok a, { s with linked := linked }) := by
  rw [onLinked, exec_onPart, h]

theorem addForgerStake_spec (h : Migrating s left []) (hnew : stake.stakeId ∉ idsOf left)
    (hamount : 0 ≤ stake.forgerStakeData.stakedAmount) :
    ∃ s', exec (addForgerStake stake) s = (.ok (), s') ∧ Migrating s' (left ++ [stake]) [] ∧ s'.version = s.version := by
  have hnode : forgerStakeLinkedList.hash (.stake stake.stakeId) ∉
      (left.map fun stake => Key.stake stake.stakeId).map forgerStakeLinkedList.hash := by
    rw [List.mem_map_of_injective node_injective, stakeKeys_mem]
    exact hnew
  obtain ⟨linked, hexec, hholds, hframe⟩ := addNewNode_spec h.holds hnode (by exact Key.noConfusion)
  have hsign : ¬ stake.forgerStakeData.stakedAmount.sign = -1 := by
    rw [Int.sign_eq_neg_one_iff_neg]
    omega
  have hkeys : (left ++ [stake]).map (fun stake => Key.stake stake.stakeId) =
      left.map (fun stake => Key.stake stake.stakeId) ++ [.stake stake.stakeId] := List.map_append
  refine ⟨{ s with
    linked := { linked with records := linked.records.insert (.stake stake.stakeId) (.data stake.forgerStakeData) } },
    ?_, ?_, rfl⟩
  · rw [addForgerStake, exec_bind_of_ok (exec_onLinked hexec), exec_throwIf_neg_bind hsign]
    rfl
  · refine ⟨?_, ?_, ?_, ?_, ?_, h.indexed, ?_⟩
    · rw [hkeys]
      refine hholds.congr rfl ?_
      intro k hk
      refine AList.lookup_insert_ne ?_
      rintro rfl
      exact stake_not_node _ hk
    · have hnodup := h.nodup
      rw [List.nil_append] at hnodup ⊢
      rw [idsOf, List.map_append]
      exact StakeStorage.nodup_concat hnodup hnew
    · intro other hother
      by_cases heq : other.stakeId = stake.stakeId
      · rcases List.mem_append.1 hother with hold | hsame
        · exact absurd (heq ▸ List.mem_map_of_mem hold) hnew
        · rw [List.mem_singleton.1 hsame]
          exact AList.lookup_insert _
      · have hold : other ∈ left := (List.mem_append.1 hother).resolve_right fun hsame =>
          heq (congrArg AccountForgingStakeInfo.stakeId (List.mem_singleton.1 hsame))
        have hne : Key.stake other.stakeId ≠ .stake stake.stakeId := fun hkey => heq (Key.stake.inj hkey)
        dsimp only
        rw [AList.lookup_insert_ne hne, hframe.records _ (stake_not_node _), h.data other hold]
    · intro id hid
      rw [idsOf, List.map_append, List.mem_append, not_or] at hid
      have hne : Key.stake id ≠ .stake stake.stakeId := fun hkey => hid.2 (List.mem_singleton.2 (Key.stake.inj hkey))
      dsimp only
      rw [AList.lookup_insert_ne hne, hframe.records _ (stake_not_node _), h.others id hid.1]
    · dsimp only
      rw [AList.lookup_insert_ne Key.noConfusion, hframe.records _ (null_not_node _), h.null]
    · intro other hother
      rcases List.mem_append.1 hother with hold | hsame
      · exact h.amount_nonneg other hold
      · rw [List.mem_singleton.1 hsame]
        exact hamount

/-- a node of the list taken out, when its data have been replaced or removed already -/
theorem removeNode_migrating (h : Holds forgerStakeLinkedList s.linked
      ((older ++ stake :: younger).map fun stake => .stake stake.stakeId)) :
    ∃ linked,
      exec (onLinked (removeNode forgerStakeLinkedList (.stake stake.stakeId))) s = (.ok (), { s with linked := linked }) ∧
      Holds forgerStakeLinkedList linked ((older ++ younger).map fun stake => .stake stake.stakeId) ∧
      (∀ id : StakeId, linked.records.lookup (.stake id) = s.linked.records.lookup (.stake id)) ∧
      linked.records.lookup .null = s.linked.records.lookup .null := by
  rw [List.map_append, List.map_cons] at h
  obtain ⟨linked, hexec, hholds, -, hframe⟩ := removeNode_spec h
  refine ⟨linked, exec_onLinked hexec, ?_, fun id => hframe.records _ (stake_not_node _), hframe.records _ (null_not_node _)⟩
  rw [List.map_append]
  exact hholds

/-- removing a record of data leaves the list -/
theorem holds_erase_stake {linked : ContractStorage Key ForgerStakeData} {ids : List Key}
    (h : Holds forgerStakeLinkedList linked ids)
    (id : StakeId) : Holds forgerStakeLinkedList { linked with records := linked.records.erase (.stake id) } ids := by
  refine h.congr rfl ?_
  intro k hk
  refine AList.lookup_erase_ne ?_
  rintro rfl
  exact stake_not_node _ hk

theorem lookup_erase_stake {linked : ContractStorage Key ForgerStakeData} (id other : StakeId) :
    ((linked.records.erase (.stake id)).lookup (.stake other)) =
      if other = id then none else linked.records.lookup (.stake other) := by
  split_ifs with heq
  · rw [heq]
    exact AList.lookup_erase _ _
  · exact AList.lookup_erase_ne fun hkey => heq (Key.stake.inj hkey)

theorem idsOf_mid (older younger : List AccountForgingStakeInfo) (stake : AccountForgingStakeInfo) :
    (idsOf (older ++ stake :: younger)).Perm (stake.stakeId :: idsOf (older ++ younger)) := by
  unfold idsOf
  exact List.perm_middle.map _

theorem removeForgerStake_spec (h : Migrating s (older ++ stake :: younger) []) :
    ∃ s', exec (removeForgerStake stake.stakeId) s = (.ok (), s') ∧ Migrating s' (older ++ younger) [] ∧
      s'.version = s.version := by
  obtain ⟨linked, hexec, hholds, hlookup, hnull⟩ := removeNode_migrating h.holds
  have hids := idsOf_mid older younger stake
  have hnodup := h.nodup
  rw [List.nil_append, hids.nodup_iff, List.nodup_cons] at hnodup
  have hmem : ∀ other ∈ older ++ younger, other ∈ older ++ stake :: younger := by
    intro other hother
    exact List.perm_middle.mem_iff.2 (List.mem_cons_of_mem _ hother)
  refine ⟨{ s with linked := { linked with records := linked.records.erase (.stake stake.stakeId) } }, ?_, ?_, rfl⟩
  · rw [removeForgerStake, exec_bind_of_ok hexec]
    rfl
  · refine ⟨holds_erase_stake hholds _, hnodup.2, ?_, ?_, ?_, h.indexed, fun other hother => h.amount_nonneg other
      (hmem other hother)⟩
    · intro other hother
      have hne : ¬ other.stakeId = stake.stakeId := fun heq => hnodup.1 (heq ▸ List.mem_map_of_mem hother)
      rw [lookup_erase_stake, if_neg hne, hlookup, h.data other (hmem other hother)]
    · intro id hid
      rw [lookup_erase_stake]
      split_ifs with heq
      · rfl
      · rw [hlookup]
        refine h.others id fun hold => ?_
        rcases List.mem_cons.1 (hids.mem_iff.1 hold) with hsame | hrest
        · exact heq hsame
        · exact hid hrest
    · dsimp only
      rw [AList.lookup_erase_ne Key.noConfusion, hnull, h.null]

/-! ## Storages of version 1 -/

inductive Op where
  | add (stake : AccountForgingStakeInfo)
  | remove (stakeId : StakeId)

/-- the callers look whether the stake is there -/
def Op.run : Op → Call Unit
  | add stake => do
    throwIf (existsStakeData (← get) stake.stakeId = true) (.executionReverted "Stake already exists" [])
    addForgerStake stake
  | remove stakeId => do
    let found ← orThrow (findStakeData (← get) stakeId)
    let _ ← getOrThrow found (.executionReverted "No such stake id in state-db" [])
    removeForgerStake stakeId

/-- the storage after calls; one that throws is reverted -/
def runV1 (s : StakeContract) (ops : List Op) : StakeContract := ops.foldl (fun s op => (reverting op.run s).2) s

theorem findStakeData_eq (h : Migrating s left []) (id : StakeId) :
    findStakeData s id = .ok ((left.find? fun stake => stake.stakeId = id).map AccountForgingStakeInfo.forgerStakeData) := by
  unfold findStakeData
  cases hfound : left.find? fun stake => stake.stakeId = id with
  | some stake =>
    have hid : stake.stakeId = id := by simpa using List.find?_some hfound
    rw [← hid, h.data stake (List.mem_of_find?_eq_some hfound)]
    rfl
  | none =>
    have hnot : id ∉ idsOf left := by
      intro hmem
      obtain ⟨stake, hstake, hid⟩ := List.mem_map.1 hmem
      exact absurd hid (by simpa using List.find?_eq_none.1 hfound stake hstake)
    rw [h.others id hnot]
    show Except.ok (ForgerStakeStorageV2.findStakeData s.indexed id) = _
    rw [ForgerStakeStorageV2.findStakeData, h.indexed.absent id (by simp [idsOf])]
    rfl

theorem addForgerStake_nonneg (hexec : exec (addForgerStake stake) s = (.ok (), s')) :
    0 ≤ stake.forgerStakeData.stakedAmount := by
  rw [addForgerStake, exec_bind_ok] at hexec
  obtain ⟨⟨⟩, s1, -, hexec⟩ := hexec
  have hsign := (exec_throwIf_bind_ok.1 hexec).1
  rw [Int.sign_eq_neg_one_iff_neg] at hsign
  exact not_lt.1 hsign

theorem not_exists_new (h : Migrating s left []) {id : StakeId} (hnew : ¬ existsStakeData s id = true) : id ∉ idsOf left := by
  intro hmem
  obtain ⟨stake, hstake, rfl⟩ := List.mem_map.1 hmem
  rw [existsStakeData, h.data stake hstake] at hnew
  exact hnew rfl

/-- every call of version 1, also a failed one -/
theorem step_version1 (h : Migrating s left []) (op : Op) :
    ∃ left', Migrating (reverting op.run s).2 left' [] ∧ (reverting op.run s).2.version = s.version := by
  rcases reverting_cases op.run s with ⟨⟨⟩, s', hexec, hrun⟩ | ⟨e, s', -, hrun⟩
  · rw [hrun]
    cases op with
    | add stake =>
      rw [Op.run, exec_get_bind] at hexec
      obtain ⟨hnew, hadd⟩ := exec_throwIf_bind_ok.1 hexec
      obtain ⟨s'', hexec', hmigrating, hversion⟩ := addForgerStake_spec h (not_exists_new h hnew) (addForgerStake_nonneg hadd)
      rw [hexec'] at hadd
      obtain ⟨-, rfl⟩ := Prod.mk.inj hadd
      exact ⟨_, hmigrating, hversion⟩
    | remove stakeId =>
      rw [Op.run, exec_get_bind, findStakeData_eq h, exec_orThrow_value_bind] at hexec
      cases hfound : left.find? fun stake => stake.stakeId = stakeId with
      | none =>
        rw [hfound, Option.map_none, exec_getOrThrow_none_bind] at hexec
        cases hexec
      | some stake =>
        have hid : stake.stakeId = stakeId := by simpa using List.find?_some hfound
        obtain ⟨older, younger, rfl⟩ := List.append_of_mem (List.mem_of_find?_eq_some hfound)
        rw [hfound, Option.map_some, exec_getOrThrow_some_bind, ← hid] at hexec
        obtain ⟨s'', hexec', hmigrating, hversion⟩ := removeForgerStake_spec h
        rw [hexec'] at hexec
        obtain ⟨-, rfl⟩ := Prod.mk.inj hexec
        exact ⟨_, hmigrating, hversion⟩
  · rw [hrun]
    exact ⟨left, h, rfl⟩

/-- **Version 1.** After any calls the list holds the stakes. -/
theorem run_version1 (h : Migrating s left []) (ops : List Op) :
    ∃ left', Migrating (runV1 s ops) left' [] ∧ (runV1 s ops).version = s.version := by
  induction ops generalizing s left with
  | nil => exact ⟨left, h, rfl⟩
  | cons op ops ih =>
    obtain ⟨left₁, h₁, hversion₁⟩ := step_version1 h op
    obtain ⟨left₂, h₂, hversion₂⟩ := ih h₁
    exact ⟨left₂, h₂, hversion₂.trans hversion₁⟩

/-- the reference to the youngest node -/
def youngestRef (left : List AccountForgingStakeInfo) : Key :=
  reference forgerStakeLinkedList (lastKey none (entries forgerStakeLinkedList (left.map fun stake => .stake stake.stakeId)))

theorem youngestRef_concat (left : List AccountForgingStakeInfo) (stake : AccountForgingStakeInfo) :
    youngestRef (left ++ [stake]) = .node (.stake stake.stakeId) := by
  unfold youngestRef
  rw [List.map_append, List.map_singleton, entries_append, lastKey_append]
  rfl

/-- the item at the youngest node -/
theorem getStakeListItem_youngest (h : Migrating s (left ++ [stake]) done) :
    getStakeListItem s (.node (.stake stake.stakeId)) = .ok (stake, youngestRef left) := by
  have hholds := h.holds
  rw [List.map_append, List.map_singleton] at hholds
  have hlookup : s.linked.records.lookup
      (.node (.stake stake.stakeId)) = some (.node ⟨.stake stake.stakeId, youngestRef left, .null⟩) :=
    hholds.lookup_at
  have hdata := h.data stake (List.mem_append_right _ List.mem_cons_self)
  rw [getStakeListItem, getDataKey, getLinkedListNode, hlookup]
  dsimp only [bind, Except.bind, failIf]
  rw [if_neg (by exact Key.noConfusion)]
  dsimp only
  rw [findStakeData, hdata]
  rfl

theorem find_stake (hnodup : (idsOf left).Nodup) (hstake : stake ∈ left) :
    (left.find? fun other => other.stakeId = stake.stakeId) = some stake := by
  cases hfound : left.find? fun other => other.stakeId = stake.stakeId with
  | none =>
    have hnot := List.find?_eq_none.1 hfound stake hstake
    simp at hnot
  | some other =>
    have hid : other.stakeId = stake.stakeId := by simpa using List.find?_some hfound
    rw [List.inj_on_of_nodup_map hnodup (List.mem_of_find?_eq_some hfound) hstake hid]

/-- version 1 reads its stakes, oldest first -/
theorem getListOfForgersStakes_version1 (h : Migrating s left []) (hversion : s.version = .VERSION_1) (isForkV1_3Active : Bool) :
    getListOfForgersStakes s isForkV1_3Active = .ok left := by
  have hnodup : (idsOf left).Nodup := by
    have hnodup := h.nodup
    rwa [List.nil_append] at hnodup
  let item : Key → AccountForgingStakeInfo := fun key =>
    (left.find? fun stake => Key.stake stake.stakeId = key).getD ⟨0, ⟨⟨0, ⟨0, 0⟩⟩, 0, 0⟩⟩
  have hitemOf : ∀ stake ∈ left, item (.stake stake.stakeId) = stake := by
    intro stake hstake
    have hfind : (left.find? fun other => Key.stake other.stakeId = .stake stake.stakeId) = some stake := by
      simpa only [Key.stake.injEq] using find_stake hnodup hstake
    show (left.find? fun other => Key.stake other.stakeId = .stake stake.stakeId).getD _ = stake
    rw [hfind, Option.getD_some]
  have hitem : ∀ k n, s.linked.records.lookup k = some (.node n) →
      n.dataKey ∈ left.map (fun stake => Key.stake stake.stakeId) →
      getStakeListItem s k = .ok (item n.dataKey, n.previousNodeKey) := by
    intro k n hnode hmem
    obtain ⟨stake, hstake, hkey⟩ := List.mem_map.1 hmem
    have hne : ¬ linkedListNodeRefIsNull forgerStakeLinkedList k := by
      rintro rfl
      have hnull : s.linked.records.lookup .null = some (.node n) := hnode
      rw [h.null] at hnull
      cases hnull
    rw [getStakeListItem, getDataKey, getLinkedListNode, hnode]
    dsimp only [bind, Except.bind, failIf]
    rw [if_neg hne, ← hkey, hitemOf stake hstake]
    dsimp only
    rw [findStakeData, h.data stake hstake]
    rfl
  have hread := h.holds.readList_eq hitem
  have hmap : (left.map fun stake => Key.stake stake.stakeId).map item = left := by
    rw [List.map_map]
    exact (List.map_congr_left hitemOf).trans (List.map_id _)
  rw [hmap] at hread
  unfold getListOfForgersStakes getForgerStakeStorageVersion
  rw [hversion, ite_self]
  exact hread

/-! ## The walk -/

/-- the totals of the owners fit into words -/
def TotalsFit (stakes : List AccountForgingStakeInfo) : Prop := ∀ owner, totalOf stakes owner < 2 ^ 256

theorem totalOf_perm {stakes stakes' : List AccountForgingStakeInfo} (h : stakes.Perm stakes') (owner : Address) :
    totalOf stakes owner = totalOf stakes' owner :=
  ((h.filter _).map _).sum_eq

theorem TotalsFit.perm {stakes stakes' : List AccountForgingStakeInfo} (h : stakes.Perm stakes') (hfit : TotalsFit stakes) :
    TotalsFit stakes' := by
  intro owner
  rw [← totalOf_perm h]
  exact hfit owner

theorem totalOf_le_append {stakes more : List AccountForgingStakeInfo}
    (hmore : ∀ stake ∈ more, 0 ≤ stake.forgerStakeData.stakedAmount)
    (owner : Address) : totalOf stakes owner ≤ totalOf (stakes ++ more) owner := by
  unfold totalOf stakesOf
  rw [List.filter_append, List.map_append, List.sum_append]
  have hnonneg : 0 ≤ ((more.filter (·.forgerStakeData.ownerPublicKey = owner)).map (·.forgerStakeData.stakedAmount)).sum := by
    refine List.sum_nonneg ?_
    intro amount hamount
    obtain ⟨stake, hstake, rfl⟩ := List.mem_map.1 hamount
    exact hmore stake (List.mem_of_mem_filter hstake)
  linarith

theorem move_perm (left done : List AccountForgingStakeInfo) (stake : AccountForgingStakeInfo) :
    (done ++ (left ++ [stake])).Perm (done ++ [stake] ++ left) := by
  rw [List.append_assoc]
  exact List.perm_append_comm.append_left done

/-- an amount that does not fit is in a total that does not -/
theorem not_fit_of_refused (h : Migrating s (left ++ [stake]) done) (hamount : ¬ AmountOk done stake) :
    ¬ TotalsFit (done ++ (left ++ [stake])) := by
  intro hfit
  have hnonneg := h.amount_nonneg stake (List.mem_append_right _ List.mem_cons_self)
  have hmoved := (hfit.perm (move_perm left done stake)) stake.forgerStakeData.ownerPublicKey
  have hle := @totalOf_le_append (done ++ [stake]) left
    (fun other hother => h.amount_nonneg other (List.mem_append_left _ hother)) stake.forgerStakeData.ownerPublicKey
  rw [ForgerStakeStorageV2.totalOf_append, if_pos rfl] at hle
  exact hamount ⟨hnonneg, lt_of_le_of_lt hle hmoved⟩

/-- one turn of the loop: the youngest stake moves, and its node is taken out -/
theorem move_spec (h : Migrating s (left ++ [stake]) done) (hamount : AmountOk done stake) :
    ∃ s', exec (addUpgradedStake stake >>= fun _ => onLinked (removeNode forgerStakeLinkedList (.stake stake.stakeId))) s =
        (.ok (), s') ∧ Migrating s' left (done ++ [stake]) ∧ s'.version = s.version ∧ s'.logs = s.logs := by
  have hids : (idsOf (done ++ (left ++ [stake]))).Perm (idsOf (done ++ [stake] ++ left)) := (move_perm left done stake).map _
  have hnodup := hids.nodup_iff.1 h.nodup
  have hmoved : stake.stakeId ∉ idsOf left := by
    unfold idsOf at hnodup ⊢
    rw [List.map_append, List.nodup_append] at hnodup
    intro hmem
    exact hnodup.2.2 _ (List.mem_map_of_mem (List.mem_append_right _ List.mem_cons_self)) _ hmem rfl
  have hnew : stake.stakeId ∉ idsOf done := by
    unfold idsOf at hnodup ⊢
    rw [List.map_append, List.map_append, List.nodup_append, List.nodup_append] at hnodup
    intro hmem
    exact hnodup.1.2.2 _ hmem _ List.mem_cons_self rfl
  set s1 : StakeContract := { s with
    indexed := added s.indexed stake
    linked := { s.linked with records := s.linked.records.erase (.stake stake.stakeId) } } with hs1
  have hadd : exec (addUpgradedStake stake) s = (.ok (), s1) := by
    have hindexed : exec (onIndexed (ForgerStakeStorageV2.addStake stake)) s =
        (.ok (), { s with indexed := added s.indexed stake }) := by
      rw [onIndexed, exec_onPart, ForgerStakeStorageV2.exec_addStake h.indexed hamount]
    rw [addUpgradedStake, exec_bind_of_ok hindexed]
    rfl
  have hholds1 : Holds forgerStakeLinkedList s1.linked ((left ++ stake :: []).map fun stake => .stake stake.stakeId) :=
    holds_erase_stake h.holds _
  obtain ⟨linked, hexec, hholds, hlookup, hnull⟩ := removeNode_migrating hholds1
  rw [List.append_nil] at hholds
  refine ⟨{ s1 with linked := linked }, ?_, ?_, rfl, rfl⟩
  · rw [exec_bind_of_ok hadd, hexec]
  · have hlookup1 : ∀ id : StakeId, linked.records.lookup (.stake id) =
        if id = stake.stakeId then none else s.linked.records.lookup (.stake id) := by
      intro id
      rw [hlookup, hs1]
      exact lookup_erase_stake _ _
    refine ⟨hholds, hnodup, ?_, ?_, ?_, ?_, fun other hother => h.amount_nonneg other (List.mem_append_left _ hother)⟩
    · intro other hother
      have hne : ¬ other.stakeId = stake.stakeId := fun heq => hmoved (heq ▸ List.mem_map_of_mem hother)
      rw [hlookup1, if_neg hne, h.data other (List.mem_append_left _ hother)]
    · intro id hid
      rw [hlookup1]
      split_ifs with heq
      · rfl
      · refine h.others id ?_
        unfold idsOf at hid ⊢
        rw [List.map_append, List.mem_append, not_or]
        exact ⟨hid, fun hsame => heq (List.mem_singleton.1 hsame)⟩
    · rw [hnull, hs1]
      dsimp only
      rw [AList.lookup_erase_ne Key.noConfusion, h.null]
    · exact ForgerStakeStorageV2.represents_added h.indexed hnew hamount

/-- by induction on the stakes that are left, from the youngest on -/
theorem upgradeList_spec (h : Migrating s left done) {n : ℕ} (hn : left.length ≤ n) :
    (TotalsFit (done ++ left) → ∃ s', exec (upgradeList n (youngestRef left)) s = (.ok (), s') ∧
        Migrating s' [] (done ++ left.reverse) ∧ s'.version = s.version ∧ s'.logs = s.logs) ∧
      (¬ TotalsFit (done ++ left) → ∃ e s', exec (upgradeList n (youngestRef left)) s = (.error e, s')) := by
  induction left using List.reverseRecOn generalizing s done n with
  | nil =>
    have hstop : exec (upgradeList n (youngestRef [])) s = (.ok (), s) := by
      cases n with
      | zero => rfl
      | succ n => rfl
    refine ⟨fun _ => ⟨s, hstop, by simpa using h, rfl, rfl⟩, fun hnot => absurd (fun owner => ?_) hnot⟩
    rw [List.append_nil]
    exact h.indexed.total_lt owner
  | append_singleton left stake ih =>
    rw [List.length_append, List.length_singleton] at hn
    obtain ⟨n, rfl⟩ : ∃ m, n = m + 1 := ⟨n - 1, by omega⟩
    have hloop : exec (upgradeList (n + 1) (youngestRef (left ++ [stake]))) s =
        exec (addUpgradedStake stake >>= fun _ => onLinked (removeNode forgerStakeLinkedList (.stake stake.stakeId)) >>= fun _ =>
          upgradeList n (youngestRef left)) s := by
      rw [youngestRef_concat, upgradeList, if_neg (by exact Key.noConfusion), exec_get_bind, getStakeListItem_youngest h,
        exec_orThrow_value_bind]
    rw [hloop]
    by_cases hamount : AmountOk done stake
    · obtain ⟨s1, hexec, hnext, hversion, hlogs⟩ := move_spec h hamount
      obtain ⟨hfit, hnot⟩ := ih hnext (n := n) (by omega)
      have hperm := move_perm left done stake
      rw [← bind_assoc, exec_bind_of_ok hexec]
      refine ⟨fun hall => ?_, fun hall => hnot fun hall' => hall (hall'.perm hperm.symm)⟩
      obtain ⟨s', hrest, hmigrating, hversion', hlogs'⟩ := hfit (hall.perm hperm)
      refine ⟨s', hrest, ?_, hversion'.trans hversion, hlogs'.trans hlogs⟩
      rw [List.reverse_append, List.reverse_singleton, ← List.append_assoc]
      exact hmigrating
    · refine ⟨fun hall => absurd hall (not_fit_of_refused h hamount), fun _ => ?_⟩
      obtain ⟨e, indexed, hrefused⟩ := ForgerStakeStorageV2.exec_addStake_refused h.indexed hamount
      have hadd : exec (addUpgradedStake stake) s = (.error e, { s with indexed := indexed }) := by
        rw [addUpgradedStake, exec_bind, onIndexed, exec_onPart, hrefused]
      rw [exec_bind, hadd]
      exact ⟨e, _, rfl⟩

/-! ## The command -/

/-- the state after an upgrade, when the walk ended in it -/
def upgraded (s : StakeContract) : StakeContract :=
  { s with
    linked := { s.linked with words := Function.update s.linked.words .tip .zero }
    logs := s.logs ++ [(.VERSION_1, .VERSION_2)]
    version := .VERSION_2 }

theorem youngestRef_tip (h : Migrating s left done) : s.linked.words .tip = youngestRef left := h.holds.tip

theorem left_length_le (h : Migrating s left done) : left.length ≤ s.linked.records.keys.length := by
  have hle := h.holds.length_le
  rwa [List.length_map] at hle

theorem exec_upgradeStorage (hversion : s.version = .VERSION_1)
    (hwalk : exec (upgradeList s.linked.records.keys.length (s.linked.words .tip)) s = (.ok (), s')) :
    exec upgradeStorage s = (.ok (versionWord .VERSION_2), upgraded s') := by
  rw [upgradeStorage, exec_get_bind, exec_throwIf_neg_bind (by rw [hversion]; exact ForgerStakeStorageVersion.noConfusion),
    exec_get_bind, exec_bind_of_ok hwalk]
  rfl

/-- an upgrade of a storage of version 1 succeeds exactly when the totals of the owners fit -/
theorem upgradeStorage_spec (h : Migrating s left []) (hversion : s.version = .VERSION_1) :
    (TotalsFit left → ∃ s', exec upgradeStorage s = (.ok (versionWord .VERSION_2), upgraded s') ∧
      Migrating s' [] left.reverse) ∧
      (¬ TotalsFit left → ∃ e s', exec upgradeStorage s = (.error e, s')) := by
  obtain ⟨hfit, hnot⟩ := upgradeList_spec h (left_length_le h)
  rw [List.nil_append, ← youngestRef_tip h] at hfit
  rw [List.nil_append, ← youngestRef_tip h] at hnot
  refine ⟨fun hall => ?_, fun hall => ?_⟩
  · obtain ⟨s', hwalk, hmigrating, -⟩ := hfit hall
    exact ⟨s', exec_upgradeStorage hversion hwalk, hmigrating⟩
  · obtain ⟨e, s', hwalk⟩ := hnot hall
    refine ⟨e, s', ?_⟩
    rw [upgradeStorage, exec_get_bind, exec_throwIf_neg_bind (by rw [hversion]; exact ForgerStakeStorageVersion.noConfusion),
      exec_get_bind, exec_bind, hwalk]

theorem upgradeStorage_refused (hversion : s.version = .VERSION_2) :
    exec upgradeStorage s = (.error (.executionReverted "Forger stake storage already upgraded" []), s) := by
  rw [upgradeStorage, exec_get_bind, exec_throwIf_pos_bind hversion]

/-- a successful call is one of the storage -/
theorem doUpgradeCmd_ok {invocation : Invocation} {db db' : Db} {out : Octets}
    (hexec : exec (doUpgradeCmd invocation) db = (.ok out, db')) :
    exec upgradeStorage db.rest = (.ok out, db'.rest) ∧ db' = { db with rest := db'.rest } := by
  rw [doUpgradeCmd] at hexec
  obtain ⟨-, hexec⟩ := exec_throwIf_bind_ok.1 hexec
  obtain ⟨args, -, hexec⟩ := exec_orThrow_bind_ok.1 hexec
  obtain ⟨-, hexec⟩ := exec_throwIf_bind_ok.1 hexec
  obtain ⟨rest, hrest, rfl⟩ := exec_onPart_ok.1 hexec
  exact ⟨hrest, rfl⟩

/-- a second call ends in an error, whatever it is given -/
theorem doUpgradeCmd_refused {db : Db} (hversion : db.rest.version = .VERSION_2) (invocation : Invocation) :
    ∃ e db', exec (doUpgradeCmd invocation) db = (.error e, db') := by
  rcases hexec : exec (doUpgradeCmd invocation) db with ⟨out | e, db'⟩
  · exact ⟨_, db', rfl⟩
  · have hstorage := (doUpgradeCmd_ok hexec).1
    rw [upgradeStorage_refused hversion] at hstorage
    cases hstorage

/-- a stake of version 2 is taken out by its id -/
theorem remove_upgraded {live : List AccountForgingStakeInfo} (h : Represents s.indexed live) (hversion : s.version = .VERSION_2)
    (hstake : stake ∈ live) :
    ∃ s', exec (onIndexed (ForgerStakeStorageV2.Op.run (.remove stake.stakeId))) s = (.ok (), s') ∧
      ∃ stakes, getListOfForgersStakes s' true = .ok stakes ∧ stakes.Perm (live.erase stake) := by
  obtain ⟨elem, helem, hdata, hpos, hown⟩ := h.stored stake hstake
  obtain ⟨indexed, hexec, hremoved⟩ := ForgerStakeStorageV2.exec_removeForgerStake h hstake hdata hpos hown
  refine ⟨{ s with indexed := indexed }, ?_, ?_⟩
  · rw [onIndexed, exec_onPart, ForgerStakeStorageV2.Op.run, exec_get_bind, ForgerStakeStorageV2.findForgerStakeStorageElem,
      helem,
      exec_getOrThrow_some_bind, hexec]
  · obtain ⟨stakes, hlist, hperm⟩ := ForgerStakeStorageV2.getListOfForgersStakes_perm
      (ForgerStakeStorageV2.represents_removed h hstake hpos hown hremoved)
    refine ⟨stakes, ?_, hperm⟩
    rw [getListOfForgersStakes, getForgerStakeStorageVersion, if_pos rfl, hversion]
    exact hlist

/-- the queries of version 2 read neither the tip nor the nodes of the list, and no record is left in the format of version 1 -/
structure ListUnused (s : StakeContract) : Prop where
  records : ∀ id, s.linked.records.lookup (.stake id) = none
  stakes : ∀ linked, getListOfForgersStakes { s with linked := linked } true = getListOfForgersStakes s true
  find : ∀ linked, (∀ id, linked.records.lookup (.stake id) = none) → ∀ id,
    findStakeData { s with linked := linked } id = findStakeData s id ∧
      existsStakeData { s with linked := linked } id = existsStakeData s id

theorem listUnused (hrecords : ∀ id, s.linked.records.lookup (.stake id) = none) (hversion : s.version = .VERSION_2) :
    ListUnused s where
  records := hrecords
  stakes linked := by
    unfold getListOfForgersStakes getForgerStakeStorageVersion
    dsimp only
    rw [hversion, if_pos rfl]
  find linked hlinked id := by
    unfold findStakeData existsStakeData
    dsimp only
    rw [hlinked, hrecords]
    exact ⟨rfl, rfl⟩

/-- the data of a stake that has been moved -/
theorem findStakeData_upgraded (hrecords : ∀ id, s.linked.records.lookup (.stake id) = none) (h : Represents s.indexed done)
    (id : StakeId) :
    findStakeData s id = .ok ((done.find? fun stake => stake.stakeId = id).map AccountForgingStakeInfo.forgerStakeData) := by
  unfold findStakeData
  rw [hrecords]
  show Except.ok (ForgerStakeStorageV2.findStakeData s.indexed id) = _
  unfold ForgerStakeStorageV2.findStakeData
  cases hfound : done.find? fun stake => stake.stakeId = id with
  | some stake =>
    have hid : stake.stakeId = id := by simpa using List.find?_some hfound
    obtain ⟨elem, helem, hdata, -⟩ := h.stored stake (List.mem_of_find?_eq_some hfound)
    rw [← hid, helem, Option.map_some, Option.map_some, hdata]
  | none =>
    have hnot : id ∉ idsOf done := by
      intro hmem
      obtain ⟨stake, hstake, hid⟩ := List.mem_map.1 hmem
      exact absurd hid (by simpa using List.find?_eq_none.1 hfound stake hstake)
    rw [h.absent id hnot]
    rfl

/-- an id is found in the same stake, from either end -/
theorem find_reverse {stakes : List AccountForgingStakeInfo} (hnodup : (idsOf stakes).Nodup) (id : StakeId) :
    (stakes.reverse.find? fun stake => stake.stakeId = id) = stakes.find? fun stake => stake.stakeId = id := by
  have hreverse : (idsOf stakes.reverse).Nodup := ((List.reverse_perm stakes).map _).nodup_iff.2 hnodup
  cases hfound : stakes.find? fun stake => stake.stakeId = id with
  | some stake =>
    have hid : stake.stakeId = id := by simpa using List.find?_some hfound
    rw [← hid]
    exact find_stake hreverse (List.mem_reverse.2 (List.mem_of_find?_eq_some hfound))
  | none =>
    refine List.find?_eq_none.2 ?_
    intro stake hstake
    exact List.find?_eq_none.1 hfound stake (List.mem_reverse.1 hstake)

/-- **Upgrade of the stakes.** After any calls of version 1 and an upgrade that succeeds, the list that is read is that of before
in another order, so that ids, forger keys, owners, amounts and the total of all amounts are the same. Each id is found with the
data it had; each owner has the sum of its stakes; each stake can be taken out by its id; nothing of the list is read any more;
only the storage of the contract changes, and no further upgrade succeeds. -/
theorem upgrade_preserves_stakes (ops : List Op) (db db' : Db) (hdb : db.rest = runV1 initialStorage ops)
    (invocation : Invocation)
    (out : Octets) (hexec : exec (doUpgradeCmd invocation) db = (.ok out, db')) :
    ∃ stakes, (idsOf stakes).Nodup ∧
      (∀ isForkV1_3Active, getListOfForgersStakes db.rest isForkV1_3Active = .ok stakes) ∧
      (∃ stakes', getListOfForgersStakes db'.rest true = .ok stakes' ∧ stakes'.Perm stakes ∧
        (stakes'.map (·.forgerStakeData.stakedAmount)).sum = (stakes.map (·.forgerStakeData.stakedAmount)).sum) ∧
      (∀ id, findStakeData db'.rest id = findStakeData db.rest id) ∧
      (∀ owner, ForgerStakeStorageV2.getOwnerStake db'.rest.indexed owner =
        ((stakesOf stakes owner).map (·.forgerStakeData.stakedAmount)).sum) ∧
      (∀ stake ∈ stakes, ∃ s', exec (onIndexed (ForgerStakeStorageV2.Op.run (.remove stake.stakeId))) db'.rest = (.ok (),
        s') ∧
        ∃ rest, getListOfForgersStakes s' true = .ok rest ∧ rest.Perm (stakes.erase stake)) ∧
      ListUnused db'.rest ∧
      db' = { db with rest := db'.rest } ∧
      ∀ invocation', ∃ e db'', exec (doUpgradeCmd invocation') db' = (.error e, db'') := by
  obtain ⟨stakes, h, hversion⟩ := run_version1 migrating_initial ops
  rw [← hdb] at h hversion
  have hversion : db.rest.version = .VERSION_1 := hversion
  obtain ⟨hstorage, hframe⟩ := doUpgradeCmd_ok hexec
  obtain ⟨hfit, hnot⟩ := upgradeStorage_spec h hversion
  have hall : TotalsFit stakes := by
    by_contra hlarge
    obtain ⟨e, s', herror⟩ := hnot hlarge
    rw [herror] at hstorage
    cases hstorage
  obtain ⟨s', hupgrade, hmigrated⟩ := hfit hall
  have hrest : db'.rest = upgraded s' := by
    rw [hupgrade] at hstorage
    exact (Prod.mk.inj hstorage).2.symm
  have hperm : stakes.reverse.Perm stakes := List.reverse_perm stakes
  have hnodup : (idsOf stakes).Nodup := by
    have hnodup := h.nodup
    rwa [List.nil_append] at hnodup
  have hrecords : ∀ id, db'.rest.linked.records.lookup (.stake id) = none := by
    intro id
    rw [hrest]
    exact hmigrated.others id (by simp [idsOf])
  have hindexed : Represents db'.rest.indexed stakes.reverse := by
    rw [hrest]
    exact hmigrated.indexed
  have hversion' : db'.rest.version = .VERSION_2 := by
    rw [hrest]
    rfl
  refine ⟨stakes, hnodup, fun isForkV1_3Active => getListOfForgersStakes_version1 h hversion isForkV1_3Active, ?_, ?_, ?_, ?_,
    listUnused hrecords hversion', hframe, fun invocation' => doUpgradeCmd_refused hversion' invocation'⟩
  · obtain ⟨stakes', hlist, hsame⟩ := ForgerStakeStorageV2.getListOfForgersStakes_perm hindexed
    have hsame' := hsame.trans hperm
    refine ⟨stakes', ?_, hsame', (hsame'.map _).sum_eq⟩
    rw [getListOfForgersStakes, getForgerStakeStorageVersion, if_pos rfl, hversion']
    exact hlist
  · intro id
    rw [findStakeData_upgraded hrecords hindexed, findStakeData_eq h]
    congr 2
    exact find_reverse hnodup id
  · intro owner
    rw [ForgerStakeStorageV2.getOwnerStake, hindexed.total, totalOf_perm hperm]
    rfl
  · intro stake hstake
    obtain ⟨s'', hremove, rest, hlist, hsame⟩ := remove_upgraded hindexed hversion' (hperm.mem_iff.2 hstake)
    exact ⟨s'', hremove, rest, hlist, hsame.trans (hperm.erase stake)⟩

def sampleStake (id : StakeId) (owner : Address) (amount : ℤ) : AccountForgingStakeInfo :=
  ⟨id, ⟨⟨7, ⟨8, 9⟩⟩, owner, amount⟩⟩

/-- three stakes, of which the first is taken out again -/
def sampleDb : Db :=
  ⟨fun _ => 0, fun _ => 0, fun _ => true, 0,
    runV1 initialStorage [.add (sampleStake 11 1 10), .add (sampleStake 12 1 20), .add (sampleStake 13 2 30), .remove 11]⟩

def sampleInvocation : Invocation := ⟨⟨1, none, 0, [1, 2, 3, 4], false⟩, ⟨0, 0⟩⟩

theorem two_stakes_upgraded :
    ∃ stakes', getListOfForgersStakes (exec (doUpgradeCmd sampleInvocation) sampleDb).2.rest true = .ok stakes' ∧
      stakes'.Perm [sampleStake 12 1 20, sampleStake 13 2 30] := by
  have hexec : exec (doUpgradeCmd sampleInvocation) sampleDb =
      (.ok (versionWord .VERSION_2), (exec (doUpgradeCmd sampleInvocation) sampleDb).2) := Prod.ext (by rfl) (by rfl)
  obtain ⟨stakes, -, hlist, ⟨stakes', hlist', hperm, -⟩, -⟩ :=
    upgrade_preserves_stakes _ sampleDb _ rfl sampleInvocation _ hexec
  have hstakes : getListOfForgersStakes sampleDb.rest true = .ok [sampleStake 12 1 20, sampleStake 13 2 30] := by rfl
  obtain rfl := Except.ok.inj ((hlist true).symm.trans hstakes)
  exact ⟨stakes', hlist', hperm⟩

end SidechainsSdk.Account.StorageUpgrade
