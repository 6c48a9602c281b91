/-
Linked lists in the storage of a native contract (`NativeSmartContractLinkedList`).

The storage of a contract maps keys to words of 32 bytes, and to records of any length; a key that was never written holds
the zero word and no record. A list keeps the key of its youngest node, the tip, in a word. Its nodes are records: the node
of a data id is stored under the hash of that id, and names its neighbours by their keys. The null value stands for no node.

- `addNewNode`, `removeNode`, `readList`: the code.
- `Holds`: the storage holds a list of data ids, oldest first. It is stated with the store of a linked list of the library.
- `addNewNode_spec`, `removeNode_spec`: what the two operations do to it, and what they leave alone.
- `linked_list_run`: after any operations the walk back from the tip visits the ids in the list, newest first.

The ids may be any keys. Hashes of the ids that occur are assumed to be different, and different from the null value.
-/
import Mathlib.Tactic
import SidechainsSdk.Core.Fallible
import SidechainsSdk.Core.LinkedList
import SidechainsSdk.Account.GasPool

namespace SidechainsSdk.Account.NativeLinkedList

open Fallible LinkedList

structure LinkedListNode (κ : Type) where
  dataKey : κ
  previousNodeKey : κ
  nextNodeKey : κ
deriving DecidableEq

/-- what is stored with the chunk strategy: nodes, and the data they point to -/
inductive Record (κ δ : Type) where
  | node (n : LinkedListNode κ)
  | data (d : δ)
deriving DecidableEq

structure ContractStorage (κ δ : Type) where
  words : κ → κ
  records : AList fun _ : κ => Record κ δ

/-- the storage key and the null value of a list, with `Blake2b256.hash` of a key -/
structure NativeSmartContractLinkedList (κ : Type) where
  listTipKey : κ
  listTipNullValue : κ
  hash : κ → κ
  toHexString : κ → String

variable {κ δ α : Type}

abbrev Command (κ δ : Type) := Fallible Exc (ContractStorage κ δ)

/-! ## The code -/

section Code

def getAccountStorage (key : κ) : Command κ δ κ := do return (← get).words key

variable [DecidableEq κ]

def updateAccountStorage (key value : κ) : Command κ δ Unit :=
  modify fun s => { s with words := Function.update s.words key value }

def updateAccountStorageBytes (key : κ) (record : Record κ δ) : Command κ δ Unit :=
  modify fun s => { s with records := s.records.insert key record }

def removeAccountStorageBytes (key : κ) : Command κ δ Unit := modify fun s => { s with records := s.records.erase key }

/-- data that is not a node does not parse -/
def getLinkedListNode (nodeId : κ) (s : ContractStorage κ δ) : Except Exc (Option (LinkedListNode κ)) :=
  match s.records.lookup nodeId with
  | none => .ok none
  | some (.node n) => .ok (some n)
  | some (.data _) => .error (.executionReverted "Error while parsing data." [])

variable (list : NativeSmartContractLinkedList κ)

def linkedListNodeRefIsNull (ref : κ) : Prop := ref = list.listTipNullValue

instance (ref : κ) : Decidable (linkedListNodeRefIsNull list ref) := inferInstanceAs (Decidable (_ = _))

/-- `none` for the null reference -/
def modifyNode (nodeId : κ) (change : LinkedListNode κ → LinkedListNode κ) : Command κ δ (Option Unit) := do
  if linkedListNodeRefIsNull list nodeId then return none
  else
    let found ← orThrow (getLinkedListNode nodeId (← get))
    let node ← getOrThrow found (.executionReverted s!"Failed to update node: {list.toHexString nodeId}" [])
    updateAccountStorageBytes nodeId (.node (change node))
    return some ()

def addNewNode (dataId : κ) : Command κ δ Unit := do
  let oldTip ← getAccountStorage list.listTipKey
  let nodeToAddId := list.hash dataId
  -- the previous node, if any, points at this one
  let _ ← modifyNode list oldTip fun previousNode => { previousNode with nextNodeKey := nodeToAddId }
  updateAccountStorage list.listTipKey nodeToAddId
  updateAccountStorageBytes nodeToAddId (.node ⟨dataId, oldTip, list.listTipNullValue⟩)

def removeNode (dataId : κ) : Command κ δ Unit := do
  let nodeToRemoveId := list.hash dataId
  let found ← orThrow (getLinkedListNode nodeToRemoveId (← get))
  let nodeToRemove ← getOrThrow found (.other "None.get")
  let _ ← modifyNode list nodeToRemove.previousNodeKey fun previousNode =>
    { previousNode with nextNodeKey := nodeToRemove.nextNodeKey }
  let modified ← modifyNode list nodeToRemove.nextNodeKey fun nextNode =>
    { nextNode with previousNodeKey := nodeToRemove.previousNodeKey }
  -- without a next node the previous one becomes the tip
  if modified.isNone then updateAccountStorage list.listTipKey nodeToRemove.previousNodeKey
  removeAccountStorageBytes nodeToRemoveId

/-- the loop that reads a list from a node back. It is given as many steps as there are records: a walk that takes more goes
round in circles, and the loop does not end. -/
def readList (getListItem : κ → Except Exc (α × κ)) : ℕ → κ → List α → Except Exc (List α)
  | 0, nodeReference, items =>
    if linkedListNodeRefIsNull list nodeReference then .ok items else .error (.other "does not end")
  | n + 1, nodeReference, items =>
    if linkedListNodeRefIsNull list nodeReference then .ok items
    else do
      let (item, prevNodeReference) ← getListItem nodeReference
      readList getListItem n prevNodeReference (item :: items)

/-- `getLinkedListNode(..).get`, with the data key of the node -/
def getDataKey (s : ContractStorage κ δ) (nodeReference : κ) : Except Exc (κ × κ) := do
  let found ← getLinkedListNode nodeReference s
  match found with
  | none => .error (.other "None.get")
  | some node => .ok (node.dataKey, node.previousNodeKey)

end Code

/-! ## Lists in a storage -/

section Lists

variable (list : NativeSmartContractLinkedList κ)

/-- the nodes of a list of data ids, with their keys -/
def entries (ids : List κ) : List (κ × κ) := ids.map fun d => (list.hash d, d)

/-- a reference to a node, or the null value -/
def reference (ref : Option κ) : κ := ref.getD list.listTipNullValue

def record (node : Node κ κ) : Record κ δ := .node ⟨node.value, reference list node.older, reference list node.younger⟩

@[simp] theorem keys_entries (ids : List κ) : (entries list ids).map Prod.fst = ids.map list.hash := by
  simp [entries, Function.comp_def]

theorem entries_append (ids₁ ids₂ : List κ) : entries list (ids₁ ++ ids₂) = entries list ids₁ ++ entries list ids₂ :=
  List.map_append

theorem entries_cons (d : κ) (ids : List κ) : entries list (d :: ids) = (list.hash d, d) :: entries list ids := rfl

theorem lastKey_entries (ids : List κ) : lastKey none (entries list ids) = ids.getLast?.map list.hash := by
  induction ids using List.reverseRecOn with
  | nil => rfl
  | append_singleton ids d ih => simp [lastKey_append, entries, lastKey]

theorem headKey_entries (ids : List κ) : headKey (entries list ids) none = ids.head?.map list.hash := by
  cases ids <;> rfl

variable {list} {ids : List κ} {k : κ}

theorem lastKey_entries_mem (hk : lastKey none (entries list ids) = some k) : k ∈ ids.map list.hash := by
  rw [← keys_entries]
  exact lastKey_mem hk

theorem headKey_entries_mem (hk : headKey (entries list ids) none = some k) : k ∈ ids.map list.hash := by
  rw [← keys_entries]
  exact headKey_mem hk

variable (list) in
/-- the storage holds a list of data ids, oldest first -/
structure Holds [DecidableEq κ] (s : ContractStorage κ δ) (ids : List κ) : Prop where
  nodup : (ids.map list.hash).Nodup
  not_null : ∀ k ∈ ids.map list.hash, k ≠ list.listTipNullValue
  tip : s.words list.listTipKey = reference list (lastKey none (entries list ids))
  stored : ∀ k ∈ ids.map list.hash, s.records.lookup k = (nodes none (entries list ids) none k).map (record list)

end Lists

variable [DecidableEq κ] {list : NativeSmartContractLinkedList κ} {s s' : ContractStorage κ δ} {ids ids₁ ids₂ : List κ}
    {d k : κ}

theorem Holds.entries_nodup (h : Holds list s ids) : ((entries list ids).map Prod.fst).Nodup := by
  rw [keys_entries]
  exact h.nodup

/-- nothing but the tip and the nodes matters -/
theorem Holds.congr (h : Holds list s ids) (hwords : s'.words list.listTipKey = s.words list.listTipKey)
    (hrecords : ∀ k ∈ ids.map list.hash, s'.records.lookup k = s.records.lookup k) : Holds list s' ids where
  nodup := h.nodup
  not_null := h.not_null
  tip := by rw [hwords, h.tip]
  stored := by
    intro k hk
    rw [hrecords k hk, h.stored k hk]

theorem holds_nil (htip : s.words list.listTipKey = list.listTipNullValue) : Holds list s [] :=
  ⟨List.nodup_nil, by simp, htip, by simp⟩

/-! ## Changing a node -/

/-- the storage with the node behind a reference changed, if there is one -/
def changed (s : ContractStorage κ δ) (ref : Option κ) (change : LinkedListNode κ → LinkedListNode κ) :
    ContractStorage κ δ :=
  match ref with
  | none => s
  | some k =>
    match s.records.lookup k with
    | some (.node n) => { s with records := s.records.insert k (.node (change n)) }
    | _ => s

@[simp] theorem changed_words (ref : Option κ) (change : LinkedListNode κ → LinkedListNode κ) :
    (changed s ref change).words = s.words := by
  unfold changed
  split
  · rfl
  · split <;> rfl

theorem lookup_changed {ref : Option κ} {change : LinkedListNode κ → LinkedListNode κ} {n : LinkedListNode κ}
    (hfound : s.records.lookup k = some (.node n)) :
    (changed s ref change).records.lookup k = some (.node (if ref = some k then change n else n)) := by
  unfold changed
  cases ref with
  | none => simpa using hfound
  | some k' =>
    by_cases hk : k = k'
    · subst hk
      simp [hfound]
    · have hk' : ¬ (some k' = some k) := fun h => hk (Option.some.inj h).symm
      rw [if_neg hk']
      dsimp only
      split
      · rw [AList.lookup_insert_ne hk, hfound]
      · exact hfound

theorem lookup_changed_of_ne {ref : Option κ} {change : LinkedListNode κ → LinkedListNode κ} (hne : ref ≠ some k) :
    (changed s ref change).records.lookup k = s.records.lookup k := by
  unfold changed
  cases ref with
  | none => rfl
  | some k' =>
    have hk : k ≠ k' := fun h => hne (h ▸ rfl)
    dsimp only
    split
    · exact AList.lookup_insert_ne hk
    · rfl

/-- the node behind a reference to a node that is stored; nothing happens for no node -/
theorem exec_modifyNode {ref : Option κ} (hnull : ∀ k, ref = some k → k ≠ list.listTipNullValue)
    (hfound : ∀ k, ref = some k → ∃ n, s.records.lookup k = some (.node n)) (change : LinkedListNode κ →
      LinkedListNode κ) :
    exec (modifyNode list (reference list ref) change) s = (.ok (ref.map fun _ => ()), changed s ref change) := by
  cases ref with
  | none =>
    have hif : linkedListNodeRefIsNull list (reference list none) := rfl
    rw [modifyNode, if_pos hif]
    rfl
  | some k =>
    obtain ⟨n, hn⟩ := hfound k rfl
    have hif : ¬ linkedListNodeRefIsNull list (reference list (some k)) := hnull k rfl
    have hnode : getLinkedListNode (reference list (some k)) s = .ok (some n) := by
      show getLinkedListNode k s = _
      simp only [getLinkedListNode, hn]
    rw [modifyNode, if_neg hif]
    simp only [exec_get_bind, hnode, changed, hn]
    rfl

/-! ## The operations -/

/-- the node of an id in the list -/
theorem Holds.node_at (h : Holds list s (ids₁ ++ d :: ids₂)) :
    nodes none (entries list (ids₁ ++ d :: ids₂)) none (list.hash d) =
      some ⟨d, headKey (entries list ids₂) none, lastKey none (entries list ids₁)⟩ := by
  have hnodup := h.nodup
  rw [List.map_append, List.map_cons, List.nodup_append] at hnodup
  have hnot : list.hash d ∉ (entries list ids₁).map Prod.fst := by
    rw [keys_entries]
    intro hmem
    exact hnodup.2.2 _ hmem _ (List.mem_cons_self ..) rfl
  rw [entries_append]
  exact nodes_mid none none (entries list ids₁) (entries list ids₂) d hnot

theorem Holds.lookup_at (h : Holds list s (ids₁ ++ d :: ids₂)) :
    s.records.lookup (list.hash d) =
      some (record list ⟨d, headKey (entries list ids₂) none, lastKey none (entries list ids₁)⟩) := by
  have hmem : list.hash d ∈ (ids₁ ++ d :: ids₂).map list.hash := List.mem_map_of_mem (by simp)
  rw [h.stored _ hmem, h.node_at]
  rfl

theorem Holds.found (h : Holds list s ids) (hk : k ∈ ids.map list.hash) :
    ∃ node, nodes none (entries list ids) none k = some node ∧ s.records.lookup k = some (record list node) := by
  obtain ⟨d, hd, rfl⟩ := List.mem_map.1 hk
  obtain ⟨ids₁, ids₂, rfl⟩ := List.append_of_mem hd
  exact ⟨_, h.node_at, h.lookup_at⟩

/-- a reference within the list -/
theorem Holds.exec_modifyNode (h : Holds list s ids) {ref : Option κ} (href : ∀ k, ref = some k → k ∈ ids.map list.hash)
    (change : LinkedListNode κ → LinkedListNode κ) :
    exec (modifyNode list (reference list ref) change) s = (.ok (ref.map fun _ => ()), changed s ref change) := by
  apply NativeLinkedList.exec_modifyNode
  · intro k hk
    exact h.not_null k (href k hk)
  · intro k hk
    obtain ⟨node, -, hnode⟩ := h.found (href k hk)
    exact ⟨_, hnode⟩

/-- what an operation on a list leaves alone -/
structure Frame (list : NativeSmartContractLinkedList κ) (keys : List κ) (s s' : ContractStorage κ δ) : Prop where
  words : ∀ k, k ≠ list.listTipKey → s'.words k = s.words k
  records : ∀ k, k ∉ keys → s'.records.lookup k = s.records.lookup k

/-- **Adding.** A new id comes after those in the list. -/
theorem addNewNode_spec (h : Holds list s ids) (hnew : list.hash d ∉ ids.map list.hash)
    (hnull : list.hash d ≠ list.listTipNullValue) :
    ∃ s', exec (addNewNode list d) s = (.ok (), s') ∧ Holds list s' (ids ++ [d]) ∧
      Frame list ((ids ++ [d]).map list.hash) s s' := by
  set ref := lastKey none (entries list ids) with hrefdef
  set change : LinkedListNode κ → LinkedListNode κ := fun n => { n with nextNodeKey := list.hash d }
  have hmodify : exec (modifyNode list (reference list ref) change) s = (.ok (ref.map fun _ => ()), changed s ref change) :=
    h.exec_modifyNode (fun k hk => lastKey_entries_mem hk) change
  refine ⟨⟨Function.update s.words list.listTipKey (list.hash d),
    (changed s ref change).records.insert (list.hash d) (.node ⟨d, reference list ref, list.listTipNullValue⟩)⟩, ?_, ?_,
      ?_⟩
  · rw [addNewNode]
    have htip : exec (getAccountStorage list.listTipKey) s = (.ok (reference list ref), s) := by
      rw [hrefdef, ← h.tip]
      rfl
    rw [exec_bind_of_ok htip, exec_bind_of_ok hmodify]
    simp only [updateAccountStorage, updateAccountStorageBytes, exec_modify_bind, exec_modify, changed_words]
  · refine ⟨?_, ?_, ?_, ?_⟩
    · rw [List.map_append, List.nodup_append]
      refine ⟨h.nodup, by simp, ?_⟩
      intro a ha b hb
      rw [List.mem_singleton.1 hb]
      rintro rfl
      exact hnew ha
    · intro k hk
      rw [List.map_append, List.mem_append] at hk
      rcases hk with hk | hk
      · exact h.not_null k hk
      · rw [List.mem_singleton.1 hk]
        exact hnull
    · simp [lastKey_append, entries, lastKey, reference]
    · intro k hk
      rw [entries_append, nodes_append, keys_entries]
      by_cases hkd : k = list.hash d
      · subst hkd
        rw [if_neg hnew, AList.lookup_insert]
        simp [entries, nodes, record, reference, headKey, hrefdef]
      · have hmem : k ∈ ids.map list.hash := by
          rw [List.map_append, List.mem_append] at hk
          exact hk.resolve_right fun hd => hkd (List.mem_singleton.1 hd)
        obtain ⟨node, hnode, hlookup⟩ := h.found hmem
        rw [if_pos hmem, AList.lookup_insert_ne hkd, lookup_changed hlookup]
        have hhead : headKey (entries list [d]) none = some (list.hash d) := rfl
        rw [hhead, nodes_next none none (some (list.hash d)) (entries list ids) h.entries_nodup k, hnode, ← hrefdef]
        by_cases hlast : ref = some k
        · rw [if_pos hlast, if_pos hlast]
          rfl
        · rw [if_neg hlast, if_neg hlast]
          rfl
  · refine ⟨?_, ?_⟩
    · intro k hk
      exact Function.update_of_ne hk _ _
    · intro k hk
      rw [List.map_append, List.mem_append, not_or] at hk
      have hkd : k ≠ list.hash d := fun heq => hk.2 (by simp [heq])
      rw [AList.lookup_insert_ne hkd]
      apply lookup_changed_of_ne
      intro heq
      exact hk.1 (lastKey_entries_mem heq)

/-! A node that is removed, with the nodes `ids₁` before it and `ids₂` after it. -/

/-- the storage without the node, where its neighbours link to each other -/
def withoutNode (list : NativeSmartContractLinkedList κ) (s : ContractStorage κ δ) (d : κ) (older younger : Option κ) :
    ContractStorage κ δ :=
  ⟨if younger.isNone then Function.update s.words list.listTipKey (reference list older) else s.words,
    (changed (changed s older fun n => { n with nextNodeKey := reference list younger }) younger
      fun n => { n with previousNodeKey := reference list older }).records.erase (list.hash d)⟩

omit [DecidableEq κ] in
theorem keys_left (d : κ) (ids₂ : List κ) (hk : k ∈ ids₁.map list.hash) :
    k ∈ (ids₁ ++ d :: ids₂).map list.hash := by
  rw [List.map_append]
  exact List.mem_append_left _ hk

omit [DecidableEq κ] in
theorem keys_right (ids₁ : List κ) (d : κ) (hk : k ∈ ids₂.map list.hash) :
    k ∈ (ids₁ ++ d :: ids₂).map list.hash := by
  rw [List.map_append, List.map_cons]
  exact List.mem_append_right _ (List.mem_cons_of_mem _ hk)

section Removing

variable (h : Holds list s (ids₁ ++ d :: ids₂))
include h

theorem exec_removeNode : exec (removeNode list d) s =
    (.ok (), withoutNode list s d (lastKey none (entries list ids₁)) (headKey (entries list ids₂) none)) := by
  set older := lastKey none (entries list ids₁) with holder
  set younger := headKey (entries list ids₂) none with hyounger
  set change₁ : LinkedListNode κ → LinkedListNode κ := fun n => { n with nextNodeKey := reference list younger }
  set change₂ : LinkedListNode κ → LinkedListNode κ := fun n => { n with previousNodeKey := reference list older }
  have hmodify₁ : exec (modifyNode list (reference list older) change₁) s = (.ok (older.map fun _ => ()),
      changed s older change₁) :=
    h.exec_modifyNode (fun k hk => keys_left d ids₂ (lastKey_entries_mem hk)) change₁
  have hmodify₂ : exec (modifyNode list (reference list younger) change₂) (changed s older change₁) =
      (.ok (younger.map fun _ => ()), changed (changed s older change₁) younger change₂) := by
    apply exec_modifyNode
    · intro k hk
      exact h.not_null k (keys_right ids₁ d (headKey_entries_mem hk))
    · intro k hk
      obtain ⟨node, -, hnode⟩ := h.found (keys_right ids₁ d (headKey_entries_mem hk))
      exact ⟨_, lookup_changed hnode⟩
  have hnode : getLinkedListNode (list.hash d) s = .ok (some ⟨d, reference list older, reference list younger⟩) := by
    simp only [getLinkedListNode, h.lookup_at, record]
    rfl
  have hwithout : withoutNode list s d older younger =
      ⟨if younger.isNone then Function.update s.words list.listTipKey (reference list older) else s.words,
        (changed (changed s older change₁) younger change₂).records.erase (list.hash d)⟩ := rfl
  rw [removeNode, hwithout]
  simp only [exec_get_bind, hnode, exec_orThrow_value_bind, exec_getOrThrow_some_bind]
  rw [exec_bind_of_ok hmodify₁, exec_bind_of_ok hmodify₂]
  cases younger with
  | none =>
    simp only [Option.map_none, Option.isNone_none, if_true, updateAccountStorage, removeAccountStorageBytes, exec_modify_bind,
      exec_modify, changed_words]
  | some k =>
    simp only [Option.map_some, Option.isNone_some, Bool.false_eq_true, if_false, removeAccountStorageBytes]
    rw [exec_modify, changed_words, changed_words]

theorem holds_withoutNode :
    Holds list (withoutNode list s d (lastKey none (entries list ids₁)) (headKey (entries list ids₂) none))
      (ids₁ ++ ids₂) := by
  have hnodup := h.nodup
  rw [List.map_append, List.map_cons, List.nodup_append, List.nodup_cons] at hnodup
  obtain ⟨hnodup₁, ⟨hd₂, hnodup₂⟩, hdisjoint⟩ := hnodup
  have hlisted : entries list ids₁ ++ (list.hash d, d) :: entries list ids₂ = entries list (ids₁ ++ d :: ids₂) := by
    rw [← entries_cons, ← entries_append]
  have hkmem : ∀ k ∈ (ids₁ ++ ids₂).map list.hash, k ∈ (ids₁ ++ d :: ids₂).map list.hash := by
    intro k hk
    rw [List.map_append, List.mem_append] at hk
    exact hk.elim (keys_left d ids₂) (keys_right ids₁ d)
  refine ⟨?_, fun k hk => h.not_null k (hkmem k hk), ?_, ?_⟩
  · rw [List.map_append, List.nodup_append]
    exact ⟨hnodup₁, hnodup₂, fun a ha b hb => hdisjoint a ha b (List.mem_cons_of_mem _ hb)⟩
  · have htip := h.tip
    rw [entries_append, lastKey_append] at htip ⊢
    cases ids₂ with
    | nil => simp [withoutNode, entries, headKey, lastKey]
    | cons d' ids₂ => exact htip
  · intro k hk
    have hkd : k ≠ list.hash d := by
      rintro rfl
      rw [List.map_append, List.mem_append] at hk
      exact hk.elim (fun hk₁ => hdisjoint _ hk₁ _ (List.mem_cons_self ..) rfl) hd₂
    obtain ⟨node, hnodes, hlookup⟩ := h.found (hkmem k hk)
    have hremove := nodes_remove none none (entries list ids₁) (entries list ids₂) (list.hash d, d)
      (by rw [hlisted]; exact h.entries_nodup) k
    rw [hlisted, ← entries_append, hnodes, if_neg hkd] at hremove
    rw [withoutNode, AList.lookup_erase_ne hkd, hremove, lookup_changed (lookup_changed hlookup)]
    by_cases hlast : lastKey none (entries list ids₁) = some k
    · have hhead : headKey (entries list ids₂) none ≠ some k := by
        intro hhead
        exact hdisjoint k (lastKey_entries_mem hlast) k (List.mem_cons_of_mem _ (headKey_entries_mem hhead)) rfl
      rw [if_pos hlast, if_neg hhead, if_pos hlast]
      rfl
    · rw [if_neg hlast, if_neg hlast]
      by_cases hhead : headKey (entries list ids₂) none = some k
      · rw [if_pos hhead, if_pos hhead]
        rfl
      · rw [if_neg hhead, if_neg hhead]
        rfl

/-- **Removing.** The neighbours of the node link to each other, and the tip moves when it was the youngest. -/
theorem removeNode_spec :
    ∃ s', exec (removeNode list d) s = (.ok (), s') ∧ Holds list s' (ids₁ ++ ids₂) ∧
      s'.records.lookup (list.hash d) = none ∧
      Frame list ((ids₁ ++ d :: ids₂).map list.hash) s s' := by
  refine ⟨_, exec_removeNode h, holds_withoutNode h, AList.lookup_erase _ _, ?_, ?_⟩
  · intro k hk
    dsimp only [withoutNode]
    split_ifs
    · exact Function.update_of_ne hk _ _
    · rfl
  · intro k hk
    have hkd : k ≠ list.hash d := by
      rintro rfl
      exact hk (List.mem_map_of_mem (by simp))
    rw [withoutNode, AList.lookup_erase_ne hkd, lookup_changed_of_ne, lookup_changed_of_ne]
    · exact fun hlast => hk (keys_left d ids₂ (lastKey_entries_mem hlast))
    · exact fun hhead => hk (keys_right ids₁ d (headKey_entries_mem hhead))

end Removing

/-! ## Walks -/

/-- the walk back from a node visits these data ids, and ends at the null value -/
inductive WalksBack (list : NativeSmartContractLinkedList κ) (s : ContractStorage κ δ) : κ → List κ → Prop where
  | stop : WalksBack list s list.listTipNullValue []
  | step {ref : κ} {n : LinkedListNode κ} {ids : List κ} (hne : ref ≠ list.listTipNullValue)
      (hnode : s.records.lookup ref = some (.node n)) (hrest : WalksBack list s n.previousNodeKey ids) :
      WalksBack list s ref (n.dataKey :: ids)

/-- from the youngest of the older part of a list -/
theorem Holds.walksBack_prefix (h : Holds list s (ids₁ ++ ids₂)) :
    WalksBack list s (reference list (lastKey none (entries list ids₁))) ids₁.reverse := by
  induction ids₁ using List.reverseRecOn generalizing ids₂ with
  | nil => exact WalksBack.stop
  | append_singleton ids₁ d ih =>
    rw [List.append_assoc, List.singleton_append] at h
    have hkey : reference list (lastKey none (entries list (ids₁ ++ [d]))) = list.hash d := by
      simp [lastKey_append, entries, lastKey, reference]
    rw [hkey, List.reverse_concat]
    have hne := h.not_null (list.hash d) (List.mem_map_of_mem (by simp))
    exact WalksBack.step hne h.lookup_at (ih h)

theorem Holds.walksBack (h : Holds list s ids) : WalksBack list s (s.words list.listTipKey) ids.reverse := by
  have hprefix : Holds list s (ids ++ []) := by
    rw [List.append_nil]
    exact h
  rw [h.tip]
  exact hprefix.walksBack_prefix

/-- there are at least as many records as nodes, so that the loop ends -/
theorem Holds.length_le (h : Holds list s ids) : ids.length ≤ s.records.keys.length := by
  have hsubset : ids.map list.hash ⊆ s.records.keys := by
    intro k hk
    obtain ⟨node, -, hnode⟩ := h.found hk
    rw [← AList.mem_keys, ← AList.lookup_isSome, hnode]
    rfl
  have hle := (List.subperm_of_subset h.nodup hsubset).length_le
  rw [List.length_map] at hle
  exact hle

/-- the loop collects what the nodes point to -/
theorem readList_of_walksBack {getListItem : κ → Except Exc (α × κ)} {item : κ → α} {ref : κ}
    (hwalk : WalksBack list s ref ids)
    (hitem : ∀ k n, s.records.lookup k = some (.node n) → n.dataKey ∈ ids →
      getListItem k = .ok (item n.dataKey, n.previousNodeKey))
    (steps : ℕ) (hsteps : ids.length ≤ steps) (items : List α) :
    readList list getListItem steps ref items = .ok (ids.reverse.map item ++ items) := by
  induction hwalk generalizing steps items with
  | stop =>
    have hif : linkedListNodeRefIsNull list list.listTipNullValue := rfl
    cases steps with
    | zero =>
      rw [readList, if_pos hif]
      rfl
    | succ steps =>
      rw [readList, if_pos hif]
      rfl
  | @step ref n ids hne hnode hrest ih =>
    have hif : ¬ linkedListNodeRefIsNull list ref := hne
    cases steps with
    | zero => simp at hsteps
    | succ steps =>
      rw [readList, if_neg hif]
      simp only [hitem ref n hnode (List.mem_cons_self ..), bind, Except.bind]
      rw [ih (fun k n hk hn => hitem k n hk (List.mem_cons_of_mem _ hn)) steps (by simpa using hsteps)]
      simp

theorem Holds.readList_eq {getListItem : κ → Except Exc (α × κ)} {item : κ → α} (h : Holds list s ids)
    (hitem : ∀ k n, s.records.lookup k = some (.node n) → n.dataKey ∈ ids →
      getListItem k = .ok (item n.dataKey, n.previousNodeKey)) :
    readList list getListItem s.records.keys.length (s.words list.listTipKey) [] = .ok (ids.map item) := by
  have hread := readList_of_walksBack h.walksBack (fun k n hk hn => hitem k n hk (List.mem_reverse.1 hn)) s.records.keys.length
    (by rw [List.length_reverse]; exact h.length_le) []
  rw [List.reverse_reverse, List.append_nil] at hread
  exact hread

/-! ## Runs -/

inductive Op (κ : Type) where
  | add (dataId : κ)
  | remove (dataId : κ)

namespace Op

def dataId : Op κ → κ
  | add d => d
  | remove d => d

def run (list : NativeSmartContractLinkedList κ) : Op κ → Command κ δ Unit
  | add d => addNewNode list d
  | remove d => removeNode list d

/-- the list after an operation, newest first -/
def apply (ids : List κ) : Op κ → List κ
  | add d => d :: ids
  | remove d => ids.erase d

/-- ids are added that are not in the list, and removed when they are -/
def Allowed (ids : List κ) : Op κ → Prop
  | add d => d ∉ ids
  | remove d => d ∈ ids

end Op

/-- the operations are allowed one after the other -/
def AllowedFrom : List κ → List (Op κ) → Prop
  | _, [] => True
  | ids, op :: ops => op.Allowed ids ∧ AllowedFrom (op.apply ids) ops

/-- neighbours refer to each other; the newest id has no next node, and the oldest no previous one -/
def Linked (list : NativeSmartContractLinkedList κ) (s : ContractStorage κ δ) (ids : List κ) : Prop :=
  ∀ newer d older, ids = newer ++ d :: older → s.records.lookup (list.hash d) =
    some (.node ⟨d, reference list (older.head?.map list.hash), reference list (newer.getLast?.map list.hash)⟩)

theorem Holds.linked (h : Holds list s ids) : Linked list s ids.reverse := by
  intro newer d older heq
  have hids : ids = older.reverse ++ d :: newer.reverse := by
    rw [← List.reverse_reverse ids, heq]
    simp
  rw [hids] at h
  rw [h.lookup_at, record, lastKey_entries, headKey_entries, List.getLast?_reverse, List.head?_reverse]

/-- one operation -/
theorem Op.run_spec {op : Op κ} (h : Holds list s ids) (hallowed : op.Allowed ids.reverse)
    (hinj : ∀ d ∈ ids, list.hash d = list.hash op.dataId → d = op.dataId)
    (hnull : list.hash op.dataId ≠ list.listTipNullValue) :
    ∃ s', exec (op.run list) s = (.ok (), s') ∧ Holds list s' (op.apply ids.reverse).reverse := by
  cases op with
  | add d =>
    have hnew : list.hash d ∉ ids.map list.hash := by
      intro hmem
      obtain ⟨d', hd', heq⟩ := List.mem_map.1 hmem
      rw [hinj d' hd' heq] at hd'
      exact hallowed (List.mem_reverse.2 hd')
    obtain ⟨s', hexec, hholds, -⟩ := addNewNode_spec h hnew hnull
    refine ⟨s', hexec, ?_⟩
    simpa [Op.apply] using hholds
  | remove d =>
    obtain ⟨ids₁, ids₂, rfl⟩ := List.append_of_mem (List.mem_reverse.1 hallowed)
    obtain ⟨s', hexec, hholds, -⟩ := removeNode_spec h
    refine ⟨s', hexec, ?_⟩
    have hnodup := List.Nodup.of_map _ h.nodup
    rw [List.nodup_append] at hnodup
    have hd : d ∉ ids₂.reverse := by
      rw [List.mem_reverse]
      exact (List.nodup_cons.1 hnodup.2.1).1
    have herase : Op.apply (ids₁ ++ d :: ids₂).reverse (.remove d) = (ids₁ ++ ids₂).reverse := by
      simp only [Op.apply, List.reverse_append, List.reverse_cons, List.append_assoc, List.singleton_append]
      rw [List.erase_append_right _ hd, List.erase_cons_head]
    rw [herase, List.reverse_reverse]
    exact hholds

theorem mem_apply {op : Op κ} (hd : d ∈ op.apply ids) : d ∈ ids ∨ d = op.dataId := by
  cases op with
  | add d' =>
    rcases List.mem_cons.1 hd with rfl | hmem
    · exact .inr rfl
    · exact .inl hmem
  | remove d' => exact .inl (List.mem_of_mem_erase hd)

theorem run_holds (ops : List (Op κ)) {used : List κ} (h : Holds list s ids) (hids : ∀ d ∈ ids, d ∈ used)
    (hops : ∀ op ∈ ops, op.dataId ∈ used) (hinj : ∀ d ∈ used, ∀ d' ∈ used, list.hash d = list.hash d' → d = d')
    (hnull : ∀ d ∈ used, list.hash d ≠ list.listTipNullValue) (hallowed : AllowedFrom ids.reverse ops) :
    ∃ s', exec (ops.forM (Op.run list)) s = (.ok (), s') ∧ Holds list s' (ops.foldl Op.apply ids.reverse).reverse := by
  induction ops generalizing s ids with
  | nil =>
    refine ⟨s, rfl, ?_⟩
    rw [List.foldl_nil, List.reverse_reverse]
    exact h
  | cons op ops ih =>
    obtain ⟨hop, hrest⟩ := hallowed
    have hused := hops op (List.mem_cons_self ..)
    obtain ⟨s₁, hexec, hholds⟩ := Op.run_spec h hop (fun d hd => hinj d (hids d hd) _ hused) (hnull _ hused)
    have hids' : ∀ d ∈ (op.apply ids.reverse).reverse, d ∈ used := by
      intro d hd
      rcases mem_apply (List.mem_reverse.1 hd) with hmem | rfl
      · exact hids d (List.mem_reverse.1 hmem)
      · exact hused
    rw [← List.reverse_reverse (op.apply ids.reverse)] at hrest
    obtain ⟨s', hexec', hholds'⟩ := ih hholds hids' (fun op' hop' => hops op' (List.mem_cons_of_mem _ hop')) hrest
    refine ⟨s', ?_, ?_⟩
    · show exec (op.run list >>= fun _ => ops.forM (Op.run list)) s = _
      rw [exec_bind_of_ok hexec]
      exact hexec'
    · rw [List.reverse_reverse] at hholds'
      exact hholds'

/-- **Linked list.** From an empty list, any operations that add new ids and remove ids in the list succeed. The walk back
from the tip then visits the ids in the list, newest first, and ends at the null value; neighbours refer to each other; and
the loop that reads the list ends with all of them. -/
theorem linked_list_run (ops : List (Op κ)) (hstart : s.words list.listTipKey = list.listTipNullValue)
    (hinj : ∀ op ∈ ops, ∀ op' ∈ ops, list.hash op.dataId = list.hash op'.dataId → op.dataId = op'.dataId)
    (hnull : ∀ op ∈ ops, list.hash op.dataId ≠ list.listTipNullValue) (hallowed : AllowedFrom [] ops) :
    ∃ s', exec (ops.forM (Op.run list)) s = (.ok (), s') ∧
      WalksBack list s' (s'.words list.listTipKey) (ops.foldl Op.apply []) ∧ Linked list s' (ops.foldl Op.apply []) ∧
      readList list (getDataKey s') s'.records.keys.length (s'.words list.listTipKey) [] =
        .ok (ops.foldl Op.apply []).reverse := by
  have hinj' : ∀ d ∈ ops.map Op.dataId, ∀ d' ∈ ops.map Op.dataId, list.hash d = list.hash d' → d = d' := by
    simpa using hinj
  obtain ⟨s', hexec, hholds⟩ := run_holds ops (holds_nil hstart) (by simp) (fun op hop => List.mem_map_of_mem hop) hinj'
    (by simpa using hnull) hallowed
  rw [List.reverse_nil] at hholds
  have hwalk := hholds.walksBack
  have hlinked := hholds.linked
  rw [List.reverse_reverse] at hwalk hlinked
  refine ⟨s', hexec, hwalk, hlinked, ?_⟩
  have hitem : ∀ k n, s'.records.lookup k = some (.node n) → n.dataKey ∈ (ops.foldl Op.apply []).reverse →
      getDataKey s' k = .ok (id n.dataKey, n.previousNodeKey) := by
    intro k n hk _
    simp only [getDataKey, getLinkedListNode, hk]
    rfl
  rw [hholds.readList_eq hitem, List.map_id]

def sampleList : NativeSmartContractLinkedList ℕ := ⟨1, 2, (· + 100), Nat.repr⟩

def sampleStorage : ContractStorage ℕ Unit := ⟨fun k => if k = 1 then 2 else 0, ∅⟩

/-- the middle one of three ids is removed -/
theorem linked_list_middle_removed :
    ∃ s', exec ([Op.add 10, .add 11, .add 12, .remove 11].forM (Op.run sampleList)) sampleStorage = (.ok (), s') ∧
      WalksBack sampleList s' (s'.words 1) [12, 10] := by
  have hrun := linked_list_run [Op.add 10, .add 11, .add 12, .remove 11]
    (show sampleStorage.words sampleList.listTipKey = sampleList.listTipNullValue from rfl) (by simp [sampleList])
      (by simp [sampleList])
    (by simp [AllowedFrom, Op.Allowed, Op.apply])
  obtain ⟨s', hexec, hwalk, -, -⟩ := hrun
  exact ⟨s', hexec, hwalk⟩

end SidechainsSdk.Account.NativeLinkedList
