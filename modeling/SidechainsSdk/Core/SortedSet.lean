/-
Sorted sets: the elements in increasing order, each once.

- `mem_insert`, `mem_filter`: membership after an operation.
- `nodup_toList`, `lt_of_drop`: what the order gives.
-/
import Mathlib.Tactic
import Mathlib.Data.List.Sort

namespace SidechainsSdk

structure SortedSet (κ : Type) [LinearOrder κ] where
  toList : List κ
  sorted : toList.Pairwise (· < ·)

namespace SortedSet

variable {κ : Type} [LinearOrder κ]

instance : Membership κ (SortedSet κ) := ⟨fun s k => k ∈ s.toList⟩

theorem mem_def {k : κ} {s : SortedSet κ} : k ∈ s ↔ k ∈ s.toList := Iff.rfl

theorem nodup_toList (s : SortedSet κ) : s.toList.Nodup := s.sorted.imp ne_of_lt

def empty : SortedSet κ := ⟨[], .nil⟩

theorem sorted_orderedInsert {k : κ} {l : List κ} (h : l.Pairwise (· < ·)) (hk : k ∉ l) :
    (l.orderedInsert (· ≤ ·) k).Pairwise (· < ·) := by
  have hle : (l.orderedInsert (· ≤ ·) k).Pairwise (· ≤ ·) := (h.imp le_of_lt).orderedInsert k l
  have hnodup : (l.orderedInsert (· ≤ ·) k).Nodup :=
    (List.perm_orderedInsert (· ≤ ·) k l).nodup_iff.2 (List.nodup_cons.2 ⟨hk, h.imp ne_of_lt⟩)
  exact (hle.and hnodup).imp fun h => lt_of_le_of_ne h.1 h.2

/-- an element that is there stays where it is -/
def insert (k : κ) (s : SortedSet κ) : SortedSet κ :=
  if h : k ∈ s.toList then s else ⟨s.toList.orderedInsert (· ≤ ·) k, sorted_orderedInsert s.sorted h⟩

def filter (p : κ → Bool) (s : SortedSet κ) : SortedSet κ := ⟨s.toList.filter p, s.sorted.filter p⟩

@[simp] theorem not_mem_empty (k : κ) : k ∉ (empty : SortedSet κ) := List.not_mem_nil

@[simp] theorem mem_insert {k k' : κ} {s : SortedSet κ} : k' ∈ s.insert k ↔ k' = k ∨ k' ∈ s := by
  unfold insert
  split_ifs with h
  · constructor
    · exact .inr
    · rintro (rfl | hk)
      · exact h
      · exact hk
  · exact List.mem_orderedInsert (r := (· ≤ ·))

@[simp] theorem mem_filter {p : κ → Bool} {k : κ} {s : SortedSet κ} : k ∈ s.filter p ↔ k ∈ s ∧ p k = true :=
  List.mem_filter

end SortedSet

/-- what is below all other elements stands first -/
theorem take_eq_of_lower {α : Type*} {r : α → α → Prop} [Std.Irrefl r] [Std.Asymm r] {l lower : List α}
    (hsorted : l.Pairwise r) (hlower : lower.Pairwise r) (hin : lower ⊆ l)
    (hfirst : ∀ a ∈ lower, ∀ b ∈ l, b ∉ lower → r a b) : l.take lower.length = lower := by
  classical
  have hperm : l.Perm (lower ++ l.filter (· ∉ lower)) := by
    refine (List.perm_ext_iff_of_nodup hsorted.nodup (hlower.nodup.append (hsorted.nodup.filter _) ?_)).2 ?_
    · intro a ha hrest
      exact of_decide_eq_true (List.mem_filter.1 hrest).2 ha
    · intro a
      rw [List.mem_append, List.mem_filter, decide_eq_true_eq]
      constructor
      · intro ha
        by_cases hmem : a ∈ lower
        · exact .inl hmem
        · exact .inr ⟨ha, hmem⟩
      · rintro (ha | ⟨ha, -⟩)
        · exact hin ha
        · exact ha
  have happend : (lower ++ l.filter (· ∉ lower)).Pairwise r := by
    refine List.pairwise_append.2 ⟨hlower, hsorted.filter _, ?_⟩
    intro a ha b hb
    obtain ⟨hmem, hnot⟩ := List.mem_filter.1 hb
    exact hfirst a ha b hmem (of_decide_eq_true hnot)
  have heq := hperm.eq_of_pairwise (fun a b _ _ hab hba => absurd hba (Std.Asymm.asymm _ _ hab)) hsorted happend
  rw [heq, List.take_left]

end SidechainsSdk
