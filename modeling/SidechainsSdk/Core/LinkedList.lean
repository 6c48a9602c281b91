/-
Doubly linked lists in a store: every node is stored under a key and links to its neighbours by their keys. A node goes
from older to younger, the first node of a list is the oldest.

- `nodes older l next`: the store that holds exactly the list `l`, between the keys `older` and `next`. It is a function
  from keys to nodes, so that a store represents a list if their lookups agree.
- `nodes_append`: how the store of a list is put together from two parts.
- `nodes_remove`: what unlinking a node does: the node is gone, and its neighbours link to each other.
- `nodes_map`: values change in place.
- `unlink`, `lookup_unlink`: how a map of nodes is unlinked, through the references that the node itself has.
-/
import Mathlib.Data.List.AList
import Mathlib.Tactic

namespace SidechainsSdk.LinkedList

variable {κ ν : Type}

structure Node (κ ν : Type) where
  value : ν
  younger : Option κ
  older : Option κ

/-- the key of the oldest node, or `next` for no node -/
def headKey : List (κ × ν) → Option κ → Option κ
  | [], next => next
  | (k, _) :: _, _ => some k

/-- the key of the youngest node, or `older` for no node -/
def lastKey : Option κ → List (κ × ν) → Option κ
  | older, [] => older
  | _, (k, _) :: l => lastKey (some k) l

theorem headKey_append (l₁ l₂ : List (κ × ν)) (next : Option κ) :
    headKey (l₁ ++ l₂) next = headKey l₁ (headKey l₂ next) := by
  cases l₁ <;> rfl

theorem lastKey_append (older : Option κ) (l₁ l₂ : List (κ × ν)) :
    lastKey older (l₁ ++ l₂) = lastKey (lastKey older l₁) l₂ := by
  induction l₁ generalizing older with
  | nil => rfl
  | cons x l₁ ih => exact ih (some x.1)

theorem headKey_mem {l : List (κ × ν)} {k : κ} (h : headKey l none = some k) : k ∈ l.map Prod.fst := by
  cases l with
  | nil => cases h
  | cons x l =>
    injection h with h
    simp [← h]

theorem lastKey_eq (older : Option κ) (l : List (κ × ν)) : lastKey older l = (lastKey none l).or older := by
  induction l generalizing older with
  | nil => rfl
  | cons x l ih =>
    show lastKey (some x.1) l = (lastKey (some x.1) l).or older
    rw [ih (some x.1)]
    cases lastKey none l <;> rfl

theorem lastKey_mem {l : List (κ × ν)} {k : κ} (h : lastKey none l = some k) : k ∈ l.map Prod.fst := by
  induction l with
  | nil => cases h
  | cons x l ih =>
    have hcons : lastKey (some x.1) l = some k := h
    rw [lastKey_eq] at hcons
    rw [List.map_cons, List.mem_cons]
    cases hlast : lastKey none l with
    | none =>
      rw [hlast] at hcons
      injection hcons with hcons
      exact .inl hcons.symm
    | some k' =>
      rw [hlast] at hcons
      exact .inr (ih (hlast.trans hcons))

theorem headKey_map (l : List (κ × ν)) (next : Option κ) (g : κ → ν → ν) :
    headKey (l.map fun x => (x.1, g x.1 x.2)) next = headKey l next := by
  cases l <;> rfl

theorem lastKey_map (older : Option κ) (l : List (κ × ν)) (g : κ → ν → ν) :
    lastKey older (l.map fun x => (x.1, g x.1 x.2)) = lastKey older l := by
  induction l generalizing older with
  | nil => rfl
  | cons x l ih => exact ih (some x.1)

theorem headKey_eq_none {l : List (κ × ν)} (h : headKey l none = none) : l = [] := by
  cases l with
  | nil => rfl
  | cons x l => cases h

theorem lastKey_eq_none {l : List (κ × ν)} (h : lastKey none l = none) : l = [] := by
  cases l with
  | nil => rfl
  | cons x l =>
    have hcons : lastKey (some x.1) l = none := h
    rw [lastKey_eq] at hcons
    cases hlast : lastKey none l <;> simp [hlast] at hcons

/-- without a node: the oldest one is the first of those after it, if there were none before -/
theorem headKey_remove (l₁ l₂ : List (κ × ν)) (x : κ × ν) :
    headKey (l₁ ++ l₂) none = if lastKey none l₁ = none then headKey l₂ none else headKey (l₁ ++ x :: l₂) none := by
  rw [headKey_append, headKey_append]
  cases l₁ with
  | nil => rfl
  | cons y l₁ => exact (if_neg fun h => List.cons_ne_nil _ _ (lastKey_eq_none h)).symm

theorem lastKey_remove (l₁ l₂ : List (κ × ν)) (x : κ × ν) :
    lastKey none (l₁ ++ l₂) = if headKey l₂ none = none then lastKey none l₁ else lastKey none (l₁ ++ x :: l₂) := by
  rw [lastKey_append, lastKey_append]
  cases l₂ <;> rfl

variable [DecidableEq κ]

/-- the store of a list -/
def nodes : Option κ → List (κ × ν) → Option κ → κ → Option (Node κ ν)
  | _, [], _ => fun _ => none
  | older, (k, v) :: l, next => Function.update (nodes (some k) l next) k (some ⟨v, headKey l next, older⟩)

theorem nodes_of_not_mem (older next : Option κ) (l : List (κ × ν)) {k : κ} (h : k ∉ l.map Prod.fst) :
    nodes older l next k = none := by
  induction l generalizing older with
  | nil => rfl
  | cons x l ih =>
    rw [List.map_cons, List.mem_cons, not_or] at h
    rw [nodes, Function.update_of_ne h.1, ih _ h.2]

theorem nodes_append (older next : Option κ) (l₁ l₂ : List (κ × ν)) (k : κ) :
    nodes older (l₁ ++ l₂) next k =
      if k ∈ l₁.map Prod.fst then nodes older l₁ (headKey l₂ next) k else nodes (lastKey older l₁) l₂ next k := by
  induction l₁ generalizing older with
  | nil => simp [lastKey]
  | cons x l₁ ih =>
    rw [List.cons_append, nodes, nodes, headKey_append]
    by_cases hk : k = x.1
    · simp [hk]
    · have hmem : k ∈ (x :: l₁).map Prod.fst ↔ k ∈ l₁.map Prod.fst := by
        rw [List.map_cons, List.mem_cons, or_iff_right hk]
      rw [Function.update_of_ne hk, Function.update_of_ne hk, ih]
      exact (if_congr hmem rfl rfl).symm

theorem nodes_mid (older next : Option κ) (l₁ l₂ : List (κ × ν)) {k : κ} (v : ν) (h : k ∉ l₁.map Prod.fst) :
    nodes older (l₁ ++ (k, v) :: l₂) next k = some ⟨v, headKey l₂ next, lastKey older l₁⟩ := by
  rw [nodes_append, if_neg h, nodes, Function.update_self]

/-- another key after the list: the youngest node links to it -/
theorem nodes_next (older next next' : Option κ) (l : List (κ × ν)) (hl : (l.map Prod.fst).Nodup) (k : κ) :
    nodes older l next' k =
      if lastKey none l = some k then (nodes older l next k).map fun x => { x with younger := next' }
      else nodes older l next k := by
  induction l generalizing older with
  | nil => rfl
  | cons x l ih =>
    rw [List.map_cons, List.nodup_cons] at hl
    rw [nodes, nodes]
    have hlast : lastKey none (x :: l) = (lastKey none l).or (some x.1) := lastKey_eq (some x.1) l
    rw [hlast]
    by_cases hk : k = x.1
    · subst hk
      have hne : lastKey none l ≠ some x.1 := fun h => hl.1 (lastKey_mem h)
      rw [Function.update_self, Function.update_self]
      cases l with
      | nil => simp [headKey, lastKey]
      | cons y l =>
        cases hy : lastKey none (y :: l) with
        | none => cases lastKey_eq_none hy
        | some z =>
          rw [hy] at hne
          simp [hne, headKey]
    · rw [Function.update_of_ne hk, Function.update_of_ne hk, ih _ hl.2]
      cases hlast' : lastKey none l with
      | none => simp [Ne.symm hk]
      | some z => simp

/-- another key before the list: the oldest node links to it -/
theorem nodes_older (older older' next : Option κ) (l : List (κ × ν)) (k : κ) :
    nodes older' l next k =
      if headKey l none = some k then (nodes older l next k).map fun x => { x with older := older' }
      else nodes older l next k := by
  cases l with
  | nil => rfl
  | cons x l =>
    rw [nodes, nodes]
    by_cases hk : k = x.1
    · simp [hk, headKey]
    · rw [Function.update_of_ne hk, Function.update_of_ne hk]
      simp [headKey, Ne.symm hk]

/-- **Unlinking.** The store of the list without a node, from the store of the list with it. -/
theorem nodes_remove (older next : Option κ) (l₁ l₂ : List (κ × ν)) (x : κ × ν)
    (hl : ((l₁ ++ x :: l₂).map Prod.fst).Nodup) (k : κ) :
    nodes older (l₁ ++ l₂) next k =
      if k = x.1 then none
      else if lastKey none l₁ = some k then
        (nodes older (l₁ ++ x :: l₂) next k).map fun nd => { nd with younger := headKey l₂ next }
      else if headKey l₂ none = some k then
        (nodes older (l₁ ++ x :: l₂) next k).map fun nd => { nd with older := lastKey older l₁ }
      else nodes older (l₁ ++ x :: l₂) next k := by
  rw [List.map_append, List.nodup_append] at hl
  obtain ⟨hl₁, hl₂, hdisjoint⟩ := hl
  rw [List.map_cons, List.nodup_cons] at hl₂
  have hx₁ : x.1 ∉ l₁.map Prod.fst := fun h => hdisjoint _ h _ List.mem_cons_self rfl
  by_cases hk : k = x.1
  · subst hk
    rw [if_pos rfl]
    exact nodes_of_not_mem _ _ _ (by simpa using ⟨by simpa using hx₁, by simpa using hl₂.1⟩)
  · rw [if_neg hk, nodes_append, nodes_append]
    by_cases hk₁ : k ∈ l₁.map Prod.fst
    · have hk₂ : headKey l₂ none ≠ some k := by
        intro h
        exact hdisjoint k hk₁ k (List.mem_cons_of_mem _ (headKey_mem h)) rfl
      rw [if_pos hk₁, if_pos hk₁, if_neg hk₂, nodes_next older (headKey (x :: l₂) next) (headKey l₂ next) l₁ hl₁]
    · have hlast : lastKey none l₁ ≠ some k := fun h => hk₁ (lastKey_mem h)
      rw [if_neg hk₁, if_neg hk₁, if_neg hlast, nodes, Function.update_of_ne hk,
        nodes_older (some x.1) (lastKey older l₁) next l₂]

/-- values that change in place -/
theorem nodes_map (older next : Option κ) (l : List (κ × ν)) (g : κ → ν → ν) (k : κ) :
    nodes older (l.map fun x => (x.1, g x.1 x.2)) next k =
      (nodes older l next k).map fun nd => { nd with value := g k nd.value } := by
  induction l generalizing older with
  | nil => rfl
  | cons x l ih =>
    rw [List.map_cons, nodes, nodes]
    by_cases hk : k = x.1
    · subst hk
      rw [Function.update_self, Function.update_self, headKey_map]
      rfl
    · rw [Function.update_of_ne hk, Function.update_of_ne hk, ih]

/-! ## Changing a stored node -/

/-- a node changed through a reference to it -/
def modifyNode (all : AList fun _ : κ => Node κ ν) (k : κ) (f : Node κ ν → Node κ ν) : AList fun _ : κ => Node κ ν :=
  match all.lookup k with
  | some nd => all.insert k (f nd)
  | none => all

theorem lookup_modifyNode (all : AList fun _ : κ => Node κ ν) (k k' : κ) (f : Node κ ν → Node κ ν) :
    (modifyNode all k f).lookup k' = if k' = k then (all.lookup k').map f else all.lookup k' := by
  unfold modifyNode
  cases hk : all.lookup k with
  | none =>
    by_cases h : k' = k
    · rw [if_pos h, h, hk]
      rfl
    · rw [if_neg h]
  | some nd =>
    by_cases h : k' = k
    · subst h
      simp [hk]
    · simp [h, AList.lookup_insert_ne h]

/-- a node taken out; its neighbours link to each other -/
def unlink (all : AList fun _ : κ => Node κ ν) (k : κ) (older younger : Option κ) : AList fun _ : κ => Node κ ν :=
  match older, younger with
  | none, none => all.erase k
  | none, some younger => modifyNode (all.erase k) younger fun info => { info with older := none }
  | some older, none => modifyNode (all.erase k) older fun info => { info with younger := none }
  | some older, some younger =>
    modifyNode (modifyNode (all.erase k) older fun info => { info with younger := some younger }) younger
      fun info => { info with older := some older }

theorem lookup_unlink (all : AList fun _ : κ => Node κ ν) (k : κ) {older younger : Option κ}
    (hne : ∀ o, older = some o → younger ≠ some o) (k' : κ) :
    (unlink all k older younger).lookup k' =
      if k' = k then none
      else if older = some k' then (all.lookup k').map fun nd => { nd with younger := younger }
      else if younger = some k' then (all.lookup k').map fun nd => { nd with older := older }
      else all.lookup k' := by
  by_cases hk : k' = k
  · subst hk
    cases older <;> cases younger <;> simp [unlink, lookup_modifyNode]
  · cases older with
    | none =>
      cases younger with
      | none => simp [unlink, hk, AList.lookup_erase_ne hk]
      | some y => simp [unlink, hk, lookup_modifyNode, AList.lookup_erase_ne hk, eq_comm]
    | some o =>
      cases younger with
      | none => simp [unlink, hk, lookup_modifyNode, AList.lookup_erase_ne hk, eq_comm]
      | some y =>
        have hoy : o ≠ y := fun heq => hne o rfl (congrArg some heq.symm)
        by_cases ho : k' = o
        · subst ho
          simp [unlink, hk, lookup_modifyNode, AList.lookup_erase_ne hk, hoy]
        · simp [unlink, hk, lookup_modifyNode, AList.lookup_erase_ne hk, ho, eq_comm]

end SidechainsSdk.LinkedList
