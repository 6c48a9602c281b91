/-
Storage of the first forger stake contract (`ForgerStakeStorage`), as far as it is read: the list of all stakes.

There are two layouts. In version 1 the stake ids are the nodes of a linked list that is read from its tip backwards; in
version 2 they are an array. In both the data of a stake is stored under its id.

- `getListOfForgersStakes`: the list as the code reads it.
- `Represents`, `getListOfForgersStakes_eq`: a storage that represents a list of stakes is read as that list.

Hashes are collision free: the key of a node is the stake id it is the hash of, and the null value is `none`.
-/
import Mathlib.Tactic
import SidechainsSdk.Core.Fallible
import SidechainsSdk.Account.GasPool
import SidechainsSdk.Account.Stakes.StateDbArray

namespace SidechainsSdk.Account.ForgerStakeStorage

abbrev StakeId := BitVec 256

structure ForgerStakeData where
  forgerPublicKeys : ForgerPublicKeys
  ownerPublicKey : Address
  stakedAmount : ℤ
deriving DecidableEq

structure AccountForgingStakeInfo where
  stakeId : StakeId
  forgerStakeData : ForgerStakeData
deriving DecidableEq

/-- the key of the stake is that of the node -/
structure LinkedListNode where
  previousNodeKey : Option StakeId
  nextNodeKey : Option StakeId
deriving DecidableEq

inductive ForgerStakeStorageVersion where
  | VERSION_1
  | VERSION_2
deriving DecidableEq

/-- the storage of the contract -/
structure ForgerStakeDb where
  version : ForgerStakeStorageVersion
  disabled : Bool
  stakeData : StakeId → Option ForgerStakeData
  linkedListTip : Option StakeId
  -- finitely many nodes have been written
  linkedListNodes : AList fun _ : StakeId => LinkedListNode
  forgerStakeArray : StateDbArray Unit StakeId

/-- `findStakeData(..).get` -/
def findStakeData (db : ForgerStakeDb) (stakeId : StakeId) : Except Exc AccountForgingStakeInfo :=
  match db.stakeData stakeId with
  | some data => .ok ⟨stakeId, data⟩
  | none => .error (.other "None.get")

/-- `ForgerStakeLinkedList.getStakeListItem` -/
def getStakeListItem (db : ForgerStakeDb) (tip : StakeId) : Except Exc (AccountForgingStakeInfo × Option StakeId) := do
  match db.linkedListNodes.lookup tip with
  | none => .error (.other "None.get")
  | some node =>
    let item ← findStakeData db tip
    return (item, node.previousNodeKey)

/-- the loop of version 1. It is given one step for every node there is: a list that takes more goes round in circles, and
the loop does not end. -/
def readLinkedList (db : ForgerStakeDb) : ℕ → Option StakeId → List AccountForgingStakeInfo →
    Except Exc (List AccountForgingStakeInfo)
  | _, none, stakeList => .ok stakeList
  | 0, some _, _ => .error (.other "does not end")
  | n + 1, some nodeReference, stakeList => do
    let (item, previousNodeReference) ← getStakeListItem db nodeReference
    readLinkedList db n previousNodeReference (item :: stakeList)

/-- `getForgerStakeStorageVersion` -/
def getForgerStakeStorageVersion (db : ForgerStakeDb) (isForkV1_3Active : Bool) : ForgerStakeStorageVersion :=
  if isForkV1_3Active then db.version else .VERSION_1

def getListOfForgersStakes (db : ForgerStakeDb) (isForkV1_3Active : Bool) :
    Except Exc (List AccountForgingStakeInfo) :=
  match getForgerStakeStorageVersion db isForkV1_3Active with
  | .VERSION_1 => readLinkedList db db.linkedListNodes.keys.length db.linkedListTip []
  | .VERSION_2 => (db.forgerStakeArray.toList ()).mapM (findStakeData db)

/-- the nodes from `tip` backwards, one for each stake -/
inductive Chain (db : ForgerStakeDb) : Option StakeId → List AccountForgingStakeInfo → Prop where
  | nil : Chain db none []
  | cons (stake : AccountForgingStakeInfo) (node : LinkedListNode) (stakes : List AccountForgingStakeInfo)
      (hnode : db.linkedListNodes.lookup stake.stakeId = some node)
      (hdata : db.stakeData stake.stakeId = some stake.forgerStakeData)
      (hrest : Chain db node.previousNodeKey stakes) : Chain db (some stake.stakeId) (stake :: stakes)

/-- the storage holds these stakes, in the layout of its version -/
structure Represents (db : ForgerStakeDb) (stakes : List AccountForgingStakeInfo) : Prop where
  ids_nodup : (stakes.map AccountForgingStakeInfo.stakeId).Nodup
  linked : db.version = .VERSION_1 → Chain db db.linkedListTip stakes.reverse
  array : db.version = .VERSION_2 → db.forgerStakeArray.toList () = stakes.map AccountForgingStakeInfo.stakeId ∧
    ∀ s ∈ stakes, db.stakeData s.stakeId = some s.forgerStakeData

theorem Chain.mem_keys {db : ForgerStakeDb} {tip : Option StakeId} {stakes : List AccountForgingStakeInfo}
    (h : Chain db tip stakes) : ∀ s ∈ stakes, s.stakeId ∈ db.linkedListNodes.keys := by
  induction h with
  | nil => simp
  | cons stake node stakes hnode hdata hrest ih =>
    intro s hs
    rcases List.mem_cons.1 hs with rfl | hs
    · rw [← AList.mem_keys, ← AList.lookup_isSome, hnode]
      rfl
    · exact ih s hs

/-- walking the chain collects its stakes in the opposite order -/
theorem readLinkedList_eq {db : ForgerStakeDb} {tip : Option StakeId} {stakes : List AccountForgingStakeInfo}
    (h : Chain db tip stakes) (n : ℕ) (hn : stakes.length ≤ n) (acc : List AccountForgingStakeInfo) :
    readLinkedList db n tip acc = .ok (stakes.reverse ++ acc) := by
  induction h generalizing n acc with
  | nil =>
    cases n <;> rfl
  | cons stake node stakes hnode hdata hrest ih =>
    cases n with
    | zero => simp at hn
    | succ n =>
      have hitem : getStakeListItem db stake.stakeId = .ok (stake, node.previousNodeKey) := by
        simp only [getStakeListItem, hnode, findStakeData, hdata]
        rfl
      simp only [readLinkedList, hitem]
      show readLinkedList db n node.previousNodeKey (stake :: acc) = _
      rw [ih n (by simpa using hn), List.reverse_cons, List.append_assoc]
      rfl

/-- a storage that represents a list of stakes is read as that list -/
theorem getListOfForgersStakes_eq {db : ForgerStakeDb} {stakes : List AccountForgingStakeInfo} {isForkV1_3Active : Bool}
    (h : Represents db stakes) (hfork : db.version = .VERSION_2 → isForkV1_3Active = true) :
    getListOfForgersStakes db isForkV1_3Active = .ok stakes := by
  unfold getListOfForgersStakes getForgerStakeStorageVersion
  cases hversion : db.version with
  | VERSION_1 =>
    have hchain := h.linked hversion
    have hlength : stakes.reverse.length ≤ db.linkedListNodes.keys.length := by
      have hsubset : (stakes.map AccountForgingStakeInfo.stakeId) ⊆ db.linkedListNodes.keys := by
        intro id hid
        obtain ⟨s, hs, rfl⟩ := List.mem_map.1 hid
        exact hchain.mem_keys s (List.mem_reverse.2 hs)
      have hperm := (List.subperm_of_subset h.ids_nodup hsubset).length_le
      simpa using hperm
    have hread := readLinkedList_eq hchain _ hlength []
    rw [List.reverse_reverse, List.append_nil] at hread
    rw [ite_self]
    exact hread
  | VERSION_2 =>
    obtain ⟨harray, hdata⟩ := h.array hversion
    rw [hfork hversion, if_pos rfl]
    show (db.forgerStakeArray.toList ()).mapM (findStakeData db) = _
    have hfind : ∀ s ∈ stakes, (findStakeData db ∘ AccountForgingStakeInfo.stakeId) s = .ok (id s) := by
      intro s hs
      simp only [Function.comp_apply, findStakeData, hdata s hs, id]
    rw [harray, List.mapM_map, Fallible.mapM_ok hfind, List.map_id]

end SidechainsSdk.Account.ForgerStakeStorage
