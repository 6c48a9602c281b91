/-
Trees of nodes that name their parents, grown one node at a time: a root, then each node after its parent.

`paths bs i` is the path from the root to the node with id `i`, by recursion on the order in which the nodes came. The results
are about the tree, whatever this order was:

- `Grown.path_cases`: the path of a node is the root alone, or the path of its parent and the node.
- `Grown.fork`: the paths of two nodes have a last common node, and then separate.
- `Grown.paths_eq`: two orders of the same nodes give the same paths.
-/
import Mathlib.Tactic

namespace SidechainsSdk.ParentTree

class Node (β : Type) (ι : outParam Type) where
  id : β → ι
  parentId : β → ι

variable {ι β : Type} [DecidableEq ι] [Node β ι]

def addPath (m : ι → List β) (b : β) : ι → List β := Function.update m (Node.id b) (m (Node.parentId b) ++ [b])

def paths (bs : List β) : ι → List β := bs.foldl addPath fun _ => []

/-- a tree, in the order in which its nodes came -/
inductive Grown : List β → Prop
  | root (r : β) : Grown [r]
  | child {bs : List β} {b : β} (h : Grown bs) (hparent : ∃ a ∈ bs, Node.id a = Node.parentId b)
      (hfresh : ∀ a ∈ bs, Node.id a ≠ Node.id b) : Grown (bs ++ [b])

section Paths

variable {bs : List β} {a b c : β}

theorem paths_concat (bs : List β) (b : β) :
    paths (bs ++ [b]) = Function.update (paths bs) (Node.id b) (paths bs (Node.parentId b) ++ [b]) := by
  rw [paths, List.foldl_append]
  rfl

theorem paths_root (r : β) : paths [r] (Node.id r) = [r] := by
  have hconcat := paths_concat ([] : List β) r
  rw [List.nil_append] at hconcat
  rw [hconcat, Function.update_self]
  rfl

theorem paths_concat_self (bs : List β) (b : β) : paths (bs ++ [b]) (Node.id b) = paths bs (Node.parentId b) ++ [b] := by
  rw [paths_concat, Function.update_self]

theorem paths_concat_of_ne {i : ι} (h : i ≠ Node.id b) : paths (bs ++ [b]) i = paths bs i := by
  rw [paths_concat, Function.update_of_ne h]

namespace Grown

omit [DecidableEq ι] in
theorem ne_nil (h : Grown bs) : bs ≠ [] := by
  cases h with
  | root r => simp
  | child h hparent hfresh => simp

omit [DecidableEq ι] in
theorem id_inj (h : Grown bs) (ha : a ∈ bs) (hb : b ∈ bs) (heq : Node.id a = Node.id b) : a = b := by
  induction h with
  | root r => rw [List.mem_singleton.1 ha, List.mem_singleton.1 hb]
  | child h hparent hfresh ih =>
    rcases List.mem_append.1 ha with ha | ha
    · rcases List.mem_append.1 hb with hb | hb
      · exact ih ha hb
      · rw [List.mem_singleton.1 hb] at heq
        exact absurd heq (hfresh a ha)
    · rcases List.mem_append.1 hb with hb | hb
      · rw [List.mem_singleton.1 ha] at heq
        exact absurd heq.symm (hfresh b hb)
      · rw [List.mem_singleton.1 ha, List.mem_singleton.1 hb]

/-- the path of a node that is not the last one -/
theorem paths_of_mem {x : β} (hfresh : ∀ a ∈ bs, Node.id a ≠ Node.id x) (hb : b ∈ bs) :
    paths (bs ++ [x]) (Node.id b) = paths bs (Node.id b) := paths_concat_of_ne (hfresh b hb)

/-- **The path of a node.** -/
theorem path_cases (h : Grown bs) (hb : b ∈ bs) :
    (bs.head? = some b ∧ paths bs (Node.id b) = [b]) ∨
      bs.head? ≠ some b ∧ ∃ a ∈ bs, Node.id a = Node.parentId b ∧
        paths bs (Node.id b) = paths bs (Node.id a) ++ [b] := by
  induction h with
  | root r =>
    obtain rfl := List.mem_singleton.1 hb
    exact .inl ⟨rfl, paths_root b⟩
  | @child bs x h hparent hfresh ih =>
    have hhead : (bs ++ [x]).head? = bs.head? := List.head?_append_of_ne_nil bs h.ne_nil
    rcases List.mem_append.1 hb with hb | hb
    · rw [hhead, paths_of_mem hfresh hb]
      rcases ih hb with hroot | ⟨hne, a, ha, hid, hpath⟩
      · exact .inl hroot
      · refine .inr ⟨hne, a, List.mem_append_left _ ha, hid, ?_⟩
        rw [paths_of_mem hfresh ha, hpath]
    · obtain rfl := List.mem_singleton.1 hb
      obtain ⟨a, ha, hid⟩ := hparent
      refine .inr ⟨?_, a, List.mem_append_left _ ha, hid, ?_⟩
      · rw [hhead]
        intro heq
        exact hfresh b (List.mem_of_mem_head? heq) rfl
      · rw [paths_concat_self, paths_of_mem hfresh ha, hid]

theorem path_last (h : Grown bs) (hb : b ∈ bs) : (paths bs (Node.id b)).getLast? = some b := by
  rcases h.path_cases hb with ⟨-, hpath⟩ | ⟨-, a, -, -, hpath⟩
  · rw [hpath]
    rfl
  · rw [hpath]
    simp

theorem path_ne_nil (h : Grown bs) (hb : b ∈ bs) : paths bs (Node.id b) ≠ [] := by
  intro hnil
  have hlast := h.path_last hb
  rw [hnil] at hlast
  cases hlast

/-- to prove something of the paths: of the root, and of a node from its parent -/
theorem path_induction (h : Grown bs) {P : β → Prop} (hroot : ∀ r, bs.head? = some r → P r)
    (hchild : ∀ a b, a ∈ bs → b ∈ bs → bs.head? ≠ some b → Node.id a = Node.parentId b →
      paths bs (Node.id b) = paths bs (Node.id a) ++ [b] → P a → P b) (hb : b ∈ bs) : P b := by
  induction hn : (paths bs (Node.id b)).length generalizing b with
  | zero => exact absurd (List.length_eq_zero_iff.1 hn) (h.path_ne_nil hb)
  | succ n ih =>
    rcases h.path_cases hb with ⟨hhead, -⟩ | ⟨hne, a, ha, hid, hpath⟩
    · exact hroot b hhead
    · have hlen : (paths bs (Node.id a)).length = n := by
        rw [hpath, List.length_append, List.length_singleton] at hn
        omega
      exact hchild a b ha hb hne hid hpath (ih ha hlen)

theorem mem_of_mem_path (h : Grown bs) (hb : b ∈ bs) : ∀ x ∈ paths bs (Node.id b), x ∈ bs := by
  refine h.path_induction (P := fun b => ∀ x ∈ paths bs (Node.id b), x ∈ bs) ?_ ?_ hb
  · intro r hr x hx
    have hmem := List.mem_of_mem_head? hr
    rcases h.path_cases hmem with ⟨-, hpath⟩ | ⟨hne, -⟩
    · rw [hpath] at hx
      rwa [List.mem_singleton.1 hx]
    · exact absurd hr hne
  · intro a b ha hb _ _ hpath ih x hx
    rw [hpath] at hx
    rcases List.mem_append.1 hx with hx | hx
    · exact ih x hx
    · rwa [List.mem_singleton.1 hx]

theorem path_head (h : Grown bs) (hb : b ∈ bs) : (paths bs (Node.id b)).head? = bs.head? := by
  refine h.path_induction (P := fun b => (paths bs (Node.id b)).head? = bs.head?) ?_ ?_ hb
  · intro r hr
    rcases h.path_cases (List.mem_of_mem_head? hr) with ⟨hhead, hpath⟩ | ⟨hne, -⟩
    · rw [hpath, hhead]
      rfl
    · exact absurd hr hne
  · intro a b ha _ _ _ hpath ih
    rw [hpath, List.head?_append_of_ne_nil _ (h.path_ne_nil ha), ih]

/-- the path of a node on the path -/
theorem path_prefix (h : Grown bs) (hb : b ∈ bs) (hc : c ∈ paths bs (Node.id b)) :
    paths bs (Node.id c) <+: paths bs (Node.id b) := by
  refine h.path_induction (P := fun b => c ∈ paths bs (Node.id b) → paths bs (Node.id c) <+: paths bs (Node.id b)) ?_ ?_ hb hc
  · intro r hr hc
    rcases h.path_cases (List.mem_of_mem_head? hr) with ⟨-, hpath⟩ | ⟨hne, -⟩
    · rw [hpath] at hc
      rw [List.mem_singleton.1 hc]
    · exact absurd hr hne
  · intro a b ha _ _ _ hpath ih hc
    rw [hpath] at hc
    rcases List.mem_append.1 hc with hc | hc
    · rw [hpath]
      exact (ih hc).trans (List.prefix_append _ _)
    · rw [List.mem_singleton.1 hc]

theorem path_nodup (h : Grown bs) (hb : b ∈ bs) : ((paths bs (Node.id b)).map Node.id).Nodup := by
  refine h.path_induction (P := fun b => ((paths bs (Node.id b)).map Node.id).Nodup) ?_ ?_ hb
  · intro r hr
    rcases h.path_cases (List.mem_of_mem_head? hr) with ⟨-, hpath⟩ | ⟨hne, -⟩
    · rw [hpath]
      exact List.nodup_singleton _
    · exact absurd hr hne
  · intro a b ha hb _ _ hpath ih
    rw [hpath, List.map_append]
    refine List.nodup_append.2 ⟨ih, List.nodup_singleton _, ?_⟩
    rintro i hi j hj rfl
    obtain ⟨c, hc, hid⟩ := List.mem_map.1 hi
    -- a node on the path of its own parent would have a path longer than itself
    have hcb : c = b := h.id_inj (h.mem_of_mem_path ha c hc) hb (hid.trans (List.mem_singleton.1 hj))
    have hlen := (h.path_prefix ha (hcb ▸ hc)).length_le
    rw [hpath, List.length_append, List.length_singleton] at hlen
    omega

theorem path_length_le (h : Grown bs) (hb : b ∈ bs) : (paths bs (Node.id b)).length ≤ bs.length := by
  have hnodup : (paths bs (Node.id b)).Nodup := (h.path_nodup hb).of_map
  exact (List.subperm_of_subset hnodup (h.mem_of_mem_path hb)).length_le

theorem path_isChain (h : Grown bs) (hb : b ∈ bs) :
    (paths bs (Node.id b)).IsChain fun a b => Node.parentId b = Node.id a := by
  refine h.path_induction (P := fun b => (paths bs (Node.id b)).IsChain fun a b => Node.parentId b = Node.id a) ?_ ?_ hb
  · intro r hr
    rcases h.path_cases (List.mem_of_mem_head? hr) with ⟨-, hpath⟩ | ⟨hne, -⟩
    · rw [hpath]
      exact .singleton r
    · exact absurd hr hne
  · intro a b ha _ _ hid hpath ih
    rw [hpath]
    refine List.isChain_append.2 ⟨ih, .singleton b, ?_⟩
    intro x hx y hy
    obtain rfl : a = x := Option.some.inj ((h.path_last ha).symm.trans hx)
    obtain rfl : b = y := by simpa using hy
    exact hid.symm

/-- the node that follows `c` on a path -/
theorem path_next {x : β} {l : List β} (h : Grown bs) (hb : b ∈ bs) (hc : c ∈ bs)
    (hl : paths bs (Node.id b) = paths bs (Node.id c) ++ x :: l) :
    x ∈ bs ∧ bs.head? ≠ some x ∧ Node.id c = Node.parentId x ∧ paths bs (Node.id x) = paths bs (Node.id c) ++ [x] := by
  have hx : x ∈ bs := h.mem_of_mem_path hb x (by rw [hl]; simp)
  have hparent : Node.id c = Node.parentId x := by
    have hchain := h.path_isChain hb
    rw [hl] at hchain
    exact ((List.isChain_append.1 hchain).2.2 c (h.path_last hc) x rfl).symm
  have hroot : bs.head? ≠ some x := by
    intro hhead
    have hnodup := h.path_nodup hb
    have hfirst : (paths bs (Node.id c)).head? = some x := (h.path_head hc).trans hhead
    rw [hl, List.map_append, List.map_cons] at hnodup
    exact (List.nodup_append.1 hnodup).2.2 _ (List.mem_map_of_mem (List.mem_of_mem_head? hfirst)) _ List.mem_cons_self rfl
  refine ⟨hx, hroot, hparent, ?_⟩
  rcases h.path_cases hx with ⟨hhead, -⟩ | ⟨-, a, ha, hid, hpath⟩
  · exact absurd hhead hroot
  · rw [hpath, h.id_inj ha hc (hid.trans hparent.symm)]

/-- a part of a path that starts at a node is a path from it -/
theorem path_between {l r : List β} (h : Grown bs) (hb : b ∈ bs) (hc : c ∈ bs)
    (hl : paths bs (Node.id b) = paths bs (Node.id c) ++ (l ++ r)) :
      ∃ z ∈ bs, paths bs (Node.id z) = paths bs (Node.id c) ++ l := by
  induction l generalizing c with
  | nil => exact ⟨c, hc, (List.append_nil _).symm⟩
  | cons x l ih =>
    obtain ⟨hx, -, -, hpath⟩ := h.path_next hb hc hl
    obtain ⟨z, hz, hzpath⟩ := ih hx (by rw [hl, hpath, List.append_assoc]; rfl)
    refine ⟨z, hz, ?_⟩
    rw [hzpath, hpath, List.append_assoc]
    rfl

/-- **Two paths separate at a last common node.** -/
theorem fork (h : Grown bs) (ha : a ∈ bs) (hb : b ∈ bs) :
    ∃ c ∈ bs, ∃ l₁ l₂, paths bs (Node.id a) = paths bs (Node.id c) ++ l₁ ∧
      paths bs (Node.id b) = paths bs (Node.id c) ++ l₂ ∧
      ∀ x ∈ l₂, x ∉ paths bs (Node.id a) := by
  refine h.path_induction (P := fun b => ∃ c ∈ bs, ∃ l₁ l₂, paths bs (Node.id a) = paths bs (Node.id c) ++ l₁ ∧
    paths bs (Node.id b) = paths bs (Node.id c) ++ l₂ ∧ ∀ x ∈ l₂, x ∉ paths bs (Node.id a)) ?_ ?_ hb
  · intro r hr
    have hmem : r ∈ paths bs (Node.id a) := List.mem_of_mem_head? ((h.path_head ha).trans hr)
    obtain ⟨l₁, hl₁⟩ := h.path_prefix ha hmem
    exact ⟨r, List.mem_of_mem_head? hr, l₁, [], hl₁.symm, (List.append_nil _).symm, by simp⟩
  · intro a' b _ hb _ _ hpath ih
    by_cases hmem : b ∈ paths bs (Node.id a)
    · obtain ⟨l₁, hl₁⟩ := h.path_prefix ha hmem
      exact ⟨b, hb, l₁, [], hl₁.symm, (List.append_nil _).symm, by simp⟩
    · obtain ⟨c, hc, l₁, l₂, hl₁, hl₂, hdisjoint⟩ := ih
      refine ⟨c, hc, l₁, l₂ ++ [b], hl₁, by rw [hpath, hl₂, List.append_assoc], ?_⟩
      intro x hx
      rcases List.mem_append.1 hx with hx | hx
      · exact hdisjoint x hx
      · rwa [List.mem_singleton.1 hx]

/-- two trees with the same root, in which an id stands for one node, have the same paths to their common nodes -/
theorem paths_agree {bs' : List β} (h : Grown bs) (h' : Grown bs') (hhead : bs.head? = bs'.head?)
    (hids : ∀ a ∈ bs, ∀ a' ∈ bs', Node.id a = Node.id a' → a = a') (hb : b ∈ bs) (hb' : b ∈ bs') :
    paths bs (Node.id b) = paths bs' (Node.id b) := by
  refine h.path_induction (P := fun b => b ∈ bs' → paths bs (Node.id b) = paths bs' (Node.id b)) ?_ ?_ hb hb'
  · intro r hr _
    have hr' := hhead.symm.trans hr
    rcases h.path_cases (List.mem_of_mem_head? hr) with ⟨-, hpath⟩ | ⟨hne, -⟩
    · rcases h'.path_cases (List.mem_of_mem_head? hr') with ⟨-, hpath'⟩ | ⟨hne', -⟩
      · rw [hpath, hpath']
      · exact absurd hr' hne'
    · exact absurd hr hne
  · intro a b ha hb hne hid hpath ih hb'
    rcases h'.path_cases hb' with ⟨hroot, -⟩ | ⟨-, a', ha', hid', hpath'⟩
    · exact absurd (hhead.trans hroot) hne
    · obtain rfl := hids a ha a' ha' (hid.trans hid'.symm)
      rw [hpath, hpath', ih ha']

/-- **The order does not matter.** -/
theorem paths_eq {bs' : List β} (h : Grown bs) (h' : Grown bs') (hhead : bs.head? = bs'.head?)
    (hmem : ∀ x, x ∈ bs ↔ x ∈ bs')
    (hb : b ∈ bs) : paths bs (Node.id b) = paths bs' (Node.id b) :=
  h.paths_agree h' hhead (fun _ ha a' ha' heq => h.id_inj ha ((hmem a').2 ha') heq) hb ((hmem b).1 hb)

end Grown

end Paths

end SidechainsSdk.ParentTree
