/-
Runs of consecutive keys: the elements at the front of a list with the keys `n`, `n + 1`, …, and the elements behind them.

- `run_append_rest`: the two parts are the list. `exists_mem_run_iff`: the keys of the run are those up to `runEnd`.
- `Ascending.runEnd_lt`: in an ascending list the other keys are above the end of the run.
- `run_concat_of_eq`, `run_concat_of_ne`: a further element extends the run exactly if its key is the end of the run.
- `Consecutive`: the run is the whole list. `consecutive_of_mem_iff`: an ascending list with an interval of keys is one.
-/
import Mathlib.Tactic

namespace SidechainsSdk.ConsecutiveRun

variable {α : Type} (key : α → ℤ)

/-- the elements with the keys from `n` on -/
def run (n : ℤ) : List α → List α
  | [] => []
  | x :: xs => if key x = n then x :: run (n + 1) xs else []

/-- the elements behind them -/
def rest (n : ℤ) : List α → List α
  | [] => []
  | x :: xs => if key x = n then rest (n + 1) xs else x :: xs

/-- the key after the run -/
def runEnd (n : ℤ) (xs : List α) : ℤ := n + (run key n xs).length

structure Ascending (n : ℤ) (xs : List α) : Prop where
  sorted : xs.Pairwise fun x y => key x < key y
  le : ∀ x ∈ xs, n ≤ key x

def Consecutive (n : ℤ) (xs : List α) : Prop := run key n xs = xs

variable {key} {n : ℤ} {x : α} {xs : List α}

@[simp] theorem run_nil : run key n [] = [] := rfl

@[simp] theorem rest_nil : rest key n [] = [] := rfl

@[simp] theorem runEnd_nil : runEnd key n [] = n := by simp [runEnd]

theorem run_cons_of_eq (h : key x = n) : run key n (x :: xs) = x :: run key (n + 1) xs := if_pos h

theorem run_cons_of_ne (h : key x ≠ n) : run key n (x :: xs) = [] := if_neg h

theorem rest_cons_of_eq (h : key x = n) : rest key n (x :: xs) = rest key (n + 1) xs := if_pos h

theorem rest_cons_of_ne (h : key x ≠ n) : rest key n (x :: xs) = x :: xs := if_neg h

theorem runEnd_cons_of_eq (h : key x = n) : runEnd key n (x :: xs) = runEnd key (n + 1) xs := by
  rw [runEnd, runEnd, run_cons_of_eq h, List.length_cons]
  push_cast
  ring

theorem runEnd_cons_of_ne (h : key x ≠ n) : runEnd key n (x :: xs) = n := by
  rw [runEnd, run_cons_of_ne h]
  simp

theorem le_runEnd (n : ℤ) (xs : List α) : n ≤ runEnd key n xs := by
  unfold runEnd
  omega

theorem run_append_rest (n : ℤ) (xs : List α) : run key n xs ++ rest key n xs = xs := by
  induction xs generalizing n with
  | nil => rfl
  | cons x xs ih =>
    by_cases hx : key x = n
    · rw [run_cons_of_eq hx, rest_cons_of_eq hx, List.cons_append, ih]
    · rw [run_cons_of_ne hx, rest_cons_of_ne hx, List.nil_append]

theorem mem_run_or_rest : x ∈ run key n xs ∨ x ∈ rest key n xs ↔ x ∈ xs := by
  rw [← List.mem_append, run_append_rest]

theorem exists_mem_run_iff {k : ℤ} : (∃ x ∈ run key n xs, key x = k) ↔ n ≤ k ∧ k < runEnd key n xs := by
  induction xs generalizing n with
  | nil =>
    rw [run_nil, runEnd_nil]
    simp
  | cons x xs ih =>
    by_cases hx : key x = n
    · have hle : n + 1 ≤ runEnd key (n + 1) xs := le_runEnd (n + 1) xs
      rw [run_cons_of_eq hx, runEnd_cons_of_eq hx]
      constructor
      · rintro ⟨y, hy, rfl⟩
        rcases List.mem_cons.1 hy with rfl | hy
        · omega
        · have hkey := ih.1 ⟨y, hy, rfl⟩
          omega
      · rintro ⟨hlow, hhigh⟩
        by_cases hk : k = n
        · exact ⟨x, List.mem_cons_self, by rw [hx, hk]⟩
        · obtain ⟨y, hy, hkey⟩ := ih.2 ⟨by omega, hhigh⟩
          exact ⟨y, List.mem_cons_of_mem _ hy, hkey⟩
    · rw [run_cons_of_ne hx, runEnd_cons_of_ne hx]
      simp

/-- with keys below a bound, the run ends there at the latest -/
theorem runEnd_le {j : ℤ} (hn : n ≤ j) (h : ∀ x ∈ xs, key x < j) : runEnd key n xs ≤ j := by
  by_contra hlt
  obtain ⟨x, hx, hkey⟩ := exists_mem_run_iff.2 ⟨hn, not_le.1 hlt⟩
  have hbound := h x (mem_run_or_rest.1 (.inl hx))
  omega

namespace Ascending

theorem nil : Ascending key n [] := ⟨.nil, by simp⟩

theorem nodup (h : Ascending key n xs) : xs.Nodup := by
  refine h.sorted.imp fun hlt heq => ?_
  rw [heq] at hlt
  exact lt_irrefl _ hlt

theorem tail (h : Ascending key n (x :: xs)) : Ascending key (n + 1) xs := by
  obtain ⟨hhead, hsorted⟩ := List.pairwise_cons.1 h.sorted
  refine ⟨hsorted, fun y hy => ?_⟩
  have hx := h.le x List.mem_cons_self
  have hy := hhead y hy
  omega

theorem concat (h : Ascending key n xs) (hn : n ≤ key x) (hx : ∀ y ∈ xs, key y < key x) :
    Ascending key n (xs ++ [x]) := by
  refine ⟨List.pairwise_append.2 ⟨h.sorted, List.pairwise_singleton _ _, ?_⟩, ?_⟩
  · intro y hy z hz
    rw [List.mem_singleton.1 hz]
    exact hx y hy
  · intro y hy
    rcases List.mem_append.1 hy with hy | hy
    · exact h.le y hy
    · rwa [List.mem_singleton.1 hy]

theorem runEnd_lt (h : Ascending key n xs) : ∀ x ∈ rest key n xs, runEnd key n xs < key x := by
  induction xs generalizing n with
  | nil => simp
  | cons y xs ih =>
    by_cases hy : key y = n
    · rw [rest_cons_of_eq hy, runEnd_cons_of_eq hy]
      exact ih h.tail
    · rw [rest_cons_of_ne hy, runEnd_cons_of_ne hy]
      have hhead := h.le y List.mem_cons_self
      intro x hx
      rcases List.mem_cons.1 hx with rfl | hx
      · omega
      · have hlt := (List.pairwise_cons.1 h.sorted).1 x hx
        omega

/-- the run is the whole list if a further key is where it ends -/
theorem rest_eq_nil (h : Ascending key n xs) (hx : ∀ y ∈ xs, key y < key x) (heq : key x = runEnd key n xs) :
    rest key n xs = [] := by
  refine List.eq_nil_iff_forall_not_mem.2 fun y hy => ?_
  have hlow := h.runEnd_lt y hy
  have hhigh := hx y (mem_run_or_rest.1 (.inr hy))
  omega

end Ascending

theorem run_concat_of_eq (h : Ascending key n xs) (hx : ∀ y ∈ xs, key y < key x) (heq : key x = runEnd key n xs) :
    run key n (xs ++ [x]) = run key n xs ++ [x] ∧ rest key n (xs ++ [x]) = rest key n xs := by
  induction xs generalizing n with
  | nil =>
    rw [runEnd_nil] at heq
    exact ⟨run_cons_of_eq heq, rest_cons_of_eq heq⟩
  | cons y xs ih =>
    by_cases hy : key y = n
    · rw [runEnd_cons_of_eq hy] at heq
      obtain ⟨hrun, hrest⟩ := ih h.tail (fun z hz => hx z (List.mem_cons_of_mem _ hz)) heq
      rw [List.cons_append, run_cons_of_eq hy, run_cons_of_eq hy, rest_cons_of_eq hy, rest_cons_of_eq hy, hrun, hrest]
      exact ⟨rfl, rfl⟩
    · rw [runEnd_cons_of_ne hy] at heq
      have hlow := h.le y List.mem_cons_self
      have hlt := hx y List.mem_cons_self
      omega

theorem run_concat_of_ne (hne : key x ≠ runEnd key n xs) :
    run key n (xs ++ [x]) = run key n xs ∧ rest key n (xs ++ [x]) = rest key n xs ++ [x] := by
  induction xs generalizing n with
  | nil =>
    rw [runEnd_nil] at hne
    exact ⟨run_cons_of_ne hne, rest_cons_of_ne hne⟩
  | cons y xs ih =>
    by_cases hy : key y = n
    · rw [runEnd_cons_of_eq hy] at hne
      obtain ⟨hrun, hrest⟩ := ih hne
      rw [List.cons_append, run_cons_of_eq hy, run_cons_of_eq hy, rest_cons_of_eq hy, rest_cons_of_eq hy, hrun, hrest]
      exact ⟨rfl, rfl⟩
    · rw [List.cons_append, run_cons_of_ne hy, run_cons_of_ne hy, rest_cons_of_ne hy, rest_cons_of_ne hy]
      exact ⟨rfl, rfl⟩

theorem runEnd_concat_of_eq (h : Ascending key n xs) (hx : ∀ y ∈ xs, key y < key x) (heq : key x = runEnd key n xs) :
    runEnd key n (xs ++ [x]) = runEnd key n xs + 1 := by
  rw [runEnd, (run_concat_of_eq h hx heq).1, List.length_append, List.length_singleton, runEnd]
  push_cast
  ring

theorem runEnd_concat_of_ne (hne : key x ≠ runEnd key n xs) : runEnd key n (xs ++ [x]) = runEnd key n xs := by
  rw [runEnd, (run_concat_of_ne hne).1]
  rfl

/-! ## Consecutive keys -/

theorem consecutive_nil : Consecutive key n [] := rfl

theorem consecutive_cons : Consecutive key n (x :: xs) ↔ key x = n ∧ Consecutive key (n + 1) xs := by
  unfold Consecutive
  by_cases hx : key x = n
  · rw [run_cons_of_eq hx, List.cons_inj_right]
    exact ⟨fun h => ⟨hx, h⟩, fun h => h.2⟩
  · rw [run_cons_of_ne hx]
    exact ⟨fun h => (List.cons_ne_nil _ _ h.symm).elim, fun h => absurd h.1 hx⟩

theorem Consecutive.of_append {ys : List α} (h : Consecutive key n (xs ++ ys)) : Consecutive key (n + xs.length) ys := by
  induction xs generalizing n with
  | nil => simpa using h
  | cons x xs ih =>
    obtain ⟨-, hrest⟩ := consecutive_cons.1 h
    have hys := ih hrest
    rw [List.length_cons]
    push_cast
    rwa [add_right_comm, add_assoc] at hys

theorem Consecutive.concat (h : Consecutive key n xs) (hx : key x = n + xs.length) : Consecutive key n (xs ++ [x]) := by
  induction xs generalizing n with
  | nil => exact consecutive_cons.2 ⟨by simpa using hx, consecutive_nil⟩
  | cons y xs ih =>
    obtain ⟨hy, hrest⟩ := consecutive_cons.1 h
    refine consecutive_cons.2 ⟨hy, ih hrest ?_⟩
    rw [hx, List.length_cons]
    push_cast
    ring

theorem Consecutive.exists_mem_iff (h : Consecutive key n xs) {k : ℤ} :
    (∃ x ∈ xs, key x = k) ↔ n ≤ k ∧ k < n + xs.length := by
  have hiff : (∃ x ∈ run key n xs, key x = k) ↔ n ≤ k ∧ k < runEnd key n xs := exists_mem_run_iff
  rwa [runEnd, h] at hiff

theorem Consecutive.key_last (h : Consecutive key n (xs ++ [x])) : key x = n + xs.length := by
  induction xs generalizing n with
  | nil => simpa using (consecutive_cons.1 h).1
  | cons y xs ih =>
    have hlast := ih (consecutive_cons.1 h).2
    rw [hlast, List.length_cons]
    push_cast
    ring

/-- what is left of consecutive keys from a key on -/
theorem Consecutive.dropWhile_lt {k : ℤ} (h : Consecutive key n xs) (hk : n ≤ k) (hend : k ≤ n + xs.length) :
    Consecutive key k (xs.dropWhile fun x => key x < k) ∧
      k + (xs.dropWhile fun x => key x < k).length = n + xs.length := by
  induction xs generalizing n with
  | nil =>
    have heq : k = n := by simpa using le_antisymm (by simpa using hend) hk
    exact ⟨consecutive_nil, by simp [heq]⟩
  | cons x xs ih =>
    obtain ⟨hx, hxs⟩ := consecutive_cons.1 h
    rw [List.length_cons] at hend ⊢
    push_cast at hend ⊢
    by_cases hlt : key x < k
    · rw [List.dropWhile_cons_of_pos (by simpa using hlt)]
      obtain ⟨hcons, hlength⟩ := ih hxs (by omega) (by omega)
      exact ⟨hcons, by omega⟩
    · have heq : k = n := by omega
      rw [List.dropWhile_cons_of_neg (by simpa using hlt), heq]
      exact ⟨h, by simp⟩

theorem Ascending.takeWhile_le_eq {k : ℤ} (h : Ascending key n xs) :
    (xs.takeWhile fun x => key x ≤ k) = xs.filter fun x => key x ≤ k := by
  induction xs generalizing n with
  | nil => rfl
  | cons x xs ih =>
    by_cases hle : key x ≤ k
    · rw [List.takeWhile_cons_of_pos (by simpa using hle), List.filter_cons_of_pos (by simpa using hle), ih h.tail]
    · rw [List.takeWhile_cons_of_neg (by simpa using hle), eq_comm, List.filter_eq_nil_iff]
      intro y hy
      rcases List.mem_cons.1 hy with rfl | hy
      · simpa using hle
      · have hxy := (List.pairwise_cons.1 h.sorted).1 y hy
        simpa using (not_le.1 hle).trans hxy

theorem Consecutive.ascending (h : Consecutive key n xs) : Ascending key n xs := by
  induction xs generalizing n with
  | nil => exact .nil
  | cons x xs ih =>
    obtain ⟨hx, hxs⟩ := consecutive_cons.1 h
    have htail := ih hxs
    refine ⟨List.pairwise_cons.2 ⟨?_, htail.sorted⟩, ?_⟩
    · intro y hy
      have hle := htail.le y hy
      omega
    · intro y hy
      rcases List.mem_cons.1 hy with rfl | hy
      · omega
      · have hle := htail.le y hy
        omega

theorem consecutive_of_mem_iff {hi : ℤ} (h : xs.Pairwise fun x y => key x < key y)
    (hkeys : ∀ k, (∃ x ∈ xs, key x = k) ↔ n ≤ k ∧ k < hi) : Consecutive key n xs := by
  induction xs generalizing n with
  | nil => exact consecutive_nil
  | cons x xs ih =>
    obtain ⟨hhead, hsorted⟩ := List.pairwise_cons.1 h
    have hx := (hkeys (key x)).1 ⟨x, List.mem_cons_self, rfl⟩
    have hfirst : key x = n := by
      obtain ⟨y, hy, hkey⟩ := (hkeys n).2 ⟨le_rfl, by omega⟩
      rcases List.mem_cons.1 hy with rfl | hy
      · exact hkey
      · have hlt := hhead y hy
        omega
    refine consecutive_cons.2 ⟨hfirst, ih hsorted fun k => ?_⟩
    constructor
    · rintro ⟨y, hy, rfl⟩
      have hlt := hhead y hy
      have hbounds := (hkeys (key y)).1 ⟨y, List.mem_cons_of_mem _ hy, rfl⟩
      omega
    · rintro ⟨hlow, hhigh⟩
      obtain ⟨y, hy, hkey⟩ := (hkeys k).2 ⟨by omega, hhigh⟩
      rcases List.mem_cons.1 hy with rfl | hy
      · omega
      · exact ⟨y, hy, hkey⟩

end SidechainsSdk.ConsecutiveRun
