/-
The last elements of a list that grows at its end.

- `rtake_concat`: the window after one more element, without its oldest one.
- `sum_rtake_concat`: a sum over the window is kept by taking off the oldest summand and adding the new one.
-/
import Mathlib.Tactic
import Mathlib.Data.List.DropRight

namespace SidechainsSdk.SlidingWindow

variable {α M : Type}

theorem length_rtake {l : List α} {k : ℕ} (h : k ≤ l.length) : (l.rtake k).length = k := by
  rw [List.rtake, List.length_drop]
  omega

theorem rtake_of_le {l : List α} {k : ℕ} (h : l.length ≤ k) : l.rtake k = l := by
  rw [List.rtake, Nat.sub_eq_zero_of_le h, List.drop_zero]

/-- what comes before the window does not count -/
theorem rtake_append_of_le (l : List α) {l' : List α} {k : ℕ} (h : k ≤ l'.length) : (l ++ l').rtake k = l'.rtake k := by
  have hsplit : (l ++ l').length - k = l.length + (l'.length - k) := by
    rw [List.length_append]
    omega
  rw [List.rtake, List.rtake, hsplit, List.drop_append, List.drop_eq_nil_of_le (Nat.le_add_right _ _), List.nil_append,
    Nat.add_sub_cancel_left]

theorem rtake_append_of_length {l l' : List α} {k : ℕ} (h : l'.length = k) : (l ++ l').rtake k = l' := by
  rw [rtake_append_of_le l h.ge, rtake_of_le h.le]

theorem rtake_concat {l : List α} {k : ℕ} (hk : 0 < k) (h : k ≤ l.length) (x : α) :
    (l ++ [x]).rtake k = (l.rtake k).tail ++ [x] := by
  have hlength : (l ++ [x]).length - k = l.length - k + 1 := by
    rw [List.length_append, List.length_singleton]
    omega
  rw [List.rtake, List.rtake, hlength, List.tail_drop, List.drop_append_of_le_length (by omega)]

/-- a window in a window -/
theorem rtake_rtake {l : List α} {j k : ℕ} (hjk : j ≤ k) (h : k ≤ l.length) : (l.rtake k).rtake j = l.rtake j := by
  have hlength := length_rtake h
  rw [List.rtake, hlength, List.rtake, List.rtake, List.drop_drop]
  congr 1
  omega

/-- the oldest element of the smaller window, in the larger one -/
theorem getElem?_rtake {l : List α} {j k : ℕ} (hjk : j ≤ k) (h : k ≤ l.length) :
    (l.rtake k)[k - j]? = (l.rtake j).head? := by
  rw [List.rtake, List.rtake, List.getElem?_drop, List.head?_drop]
  congr 1
  omega

theorem sum_rtake_concat [AddCommGroup M] (f : α → M) {l : List α} {k : ℕ} {oldest : α} (h : k ≤ l.length)
    (holdest : (l.rtake k).head? = some oldest) (x : α) :
    (((l ++ [x]).rtake k).map f).sum = ((l.rtake k).map f).sum - f oldest + f x := by
  have hk : 0 < k := by
    by_contra hzero
    have hempty : l.rtake k = [] := List.length_eq_zero_iff.1 (by rw [length_rtake h]; omega)
    rw [hempty] at holdest
    cases holdest
  obtain ⟨rest, hrest⟩ := List.head?_eq_some_iff.1 holdest
  rw [rtake_concat hk h, hrest]
  simp only [List.tail_cons, List.map_append, List.sum_append, List.map_cons, List.map_nil, List.sum_cons, List.sum_nil]
  abel

end SidechainsSdk.SlidingWindow
