/-
Removing an element of an array by moving the last one into its place.

- `swapRemove`: the list after it.
- `perm_swapRemove`: it holds what was there but for the element removed.
- `getElem?_swapRemove`: where the other elements are: the last one has moved, the others have not.
-/
import Mathlib.Tactic

namespace SidechainsSdk.SwapRemove

open scoped List

variable {α : Type}

/-- the last element takes the place of the one at `i` -/
def swapRemove (l : List α) (i : ℕ) : List α :=
  match l.getLast? with
  | none => []
  | some last => l.dropLast.set i last

@[simp] theorem swapRemove_concat (init : List α) (last : α) (i : ℕ) : swapRemove (init ++ [last]) i = init.set i last := by
  simp [swapRemove]

variable {l : List α} {i j : ℕ} {x y : α}

theorem perm_swapRemove (hi : l[i]? = some x) : l.Perm (x :: swapRemove l i) := by
  induction l using List.reverseRecOn with
  | nil => simp at hi
  | append_singleton init last _ =>
    rw [swapRemove_concat]
    rcases Nat.lt_trichotomy i init.length with hlt | heq | hgt
    · rw [List.getElem?_append_left hlt] at hi
      obtain ⟨hbound, hget⟩ := List.getElem?_eq_some_iff.1 hi
      have hsplit : init = init.take i ++ x :: init.drop (i + 1) := by
        rw [← hget, List.cons_getElem_drop_succ, List.take_append_drop]
      rw [List.set_eq_take_append_cons_drop, if_pos hlt]
      calc init ++ [last] = (init.take i ++ x :: init.drop (i + 1)) ++ [last] := by rw [← hsplit]
        _ = init.take i ++ x :: (init.drop (i + 1) ++ [last]) := by rw [List.append_assoc, List.cons_append]
        _ ~ x :: (init.take i ++ (init.drop (i + 1) ++ [last])) := List.perm_middle
        _ ~ x :: (init.take i ++ last :: init.drop (i + 1)) :=
          (List.Perm.append_left _ (List.perm_append_singleton _ _)).cons x
    · subst heq
      simp only [List.getElem?_concat_length, Option.some.injEq] at hi
      rw [hi, List.set_eq_of_length_le le_rfl]
      exact List.perm_append_singleton _ _
    · rw [List.getElem?_eq_none (by simp; omega)] at hi
      cases hi

/-- the last element is where the removed one was, and the others are where they were -/
theorem getElem?_swapRemove [DecidableEq α] (hi : l[i]? = some x) (hj : l[j]? = some y) (hne : y ≠ x) :
    (swapRemove l i)[if l.getLast? = some y then i else j]? = some y := by
  induction l using List.reverseRecOn with
  | nil => simp at hi
  | append_singleton init last _ =>
    have hij : i ≠ j := by
      rintro rfl
      exact hne (Option.some.inj (hj.symm.trans hi))
    have hilt : i < init.length + 1 := by
      have hbound := (List.getElem?_eq_some_iff.1 hi).1
      simpa using hbound
    have hjlt : j < init.length + 1 := by
      have hbound := (List.getElem?_eq_some_iff.1 hj).1
      simpa using hbound
    rw [swapRemove_concat, List.getLast?_concat]
    by_cases hlast : last = y
    · have hi' : i < init.length := by
        by_contra hge
        have hieq : i = init.length := by omega
        rw [hieq, List.getElem?_concat_length] at hi
        exact hne (hlast.symm.trans (Option.some.inj hi))
      rw [if_pos (by rw [hlast]), hlast, List.getElem?_set_self hi']
    · have hjlt' : j < init.length := by
        by_contra hge
        have hjeq : j = init.length := by omega
        rw [hjeq, List.getElem?_concat_length] at hj
        exact hlast (Option.some.inj hj)
      rw [if_neg (by simpa using hlast), List.getElem?_set_ne hij, ← hj, List.getElem?_append_left hjlt']

end SidechainsSdk.SwapRemove
