/-
Locators: samples of the heights of a chain, ten from the top with steps of one, and then steps that double.

- `indexes`: the loop that collects the samples above a first height.
- `indexes_spec`: they go down from the top and stay above the first height; `indexes_fuel`: the loop has ended.
- `gap`, `offset`: the distance of a sample from the one before, and from the top; `indexes_offset`.
-/
import Mathlib.Tactic

namespace SidechainsSdk.Locator

variable {first : ℕ}

/-- the loop; an index is at most the fuel -/
def indexes (first : ℕ) : (fuel index step : ℕ) → (indexes : List ℕ) → List ℕ
  | 0, _, _, indexes => indexes
  | fuel + 1, index, step, acc =>
    if index > first then
      let acc := acc ++ [index]
      -- the top ten first, then exponentially back
      let step := if acc.length ≥ 10 then step * 2 else step
      indexes first fuel (index - step) step acc
    else acc

/-- the distance of the sample at a position from the one before it -/
def gap (position : ℕ) : ℕ := if position < 10 then 1 else 2 ^ (position - 9)

/-- its distance from the top -/
def offset : ℕ → ℕ
  | 0 => 0
  | position + 1 => offset position + gap (position + 1)

/-- the step after a sample has been collected -/
theorem gap_succ (n : ℕ) : (if n + 1 ≥ 10 then gap n * 2 else gap n) = gap (n + 1) := by
  unfold gap
  by_cases hlt : n + 1 < 10
  · rw [if_neg (by omega), if_pos (by omega), if_pos hlt]
  · by_cases hten : n < 10
    · obtain rfl : n = 9 := by omega
      rfl
    · rw [if_pos (by omega), if_neg hten, if_neg hlt, ← Nat.pow_succ]
      congr 1
      omega

theorem offset_le_nine {n : ℕ} (hn : n < 10) : offset n = n := by
  induction n with
  | zero => rfl
  | succ n ih => rw [offset, ih (by omega), gap, if_pos hn]

theorem offset_nine_add (m : ℕ) : offset (9 + m) = 9 + 2 * (2 ^ m - 1) := by
  induction m with
  | zero => rfl
  | succ m ih =>
    have hgap : gap (9 + m + 1) = 2 ^ (m + 1) := by
      rw [gap, if_neg (by omega)]
      congr 1
      omega
    have hpow := Nat.one_le_two_pow (n := m)
    rw [← Nat.add_assoc, offset, ih, hgap, Nat.pow_succ]
    omega

/-- the samples go down from the start, and stay above the first height -/
theorem indexes_spec (fuel : ℕ) {index step : ℕ} (acc : List ℕ) (hfuel : index ≤ fuel) (hstep : 0 < step) :
    ∃ tail, indexes first fuel index step acc = acc ++ tail ∧ (∀ i ∈ tail, first < i ∧ i ≤ index) ∧
      (first < index → tail.head? = some index) := by
  induction fuel generalizing index step acc with
  | zero => exact ⟨[], by simp [indexes], by simp, by omega⟩
  | succ fuel ih =>
    unfold indexes
    by_cases hindex : index > first
    · rw [if_pos hindex]
      have hstep' : 0 < (if (acc ++ [index]).length ≥ 10 then step * 2 else step) := by split_ifs <;> omega
      obtain ⟨tail, htail, hrange, -⟩ := ih (acc ++ [index])
        (show index - (if (acc ++ [index]).length ≥ 10 then step * 2 else step) ≤ fuel by omega) hstep'
      refine ⟨index :: tail, ?_, ?_, fun _ => rfl⟩
      · rw [htail, List.append_assoc, List.singleton_append]
      · intro i hi
        rcases List.mem_cons.1 hi with rfl | hi
        · exact ⟨hindex, le_rfl⟩
        · have := hrange i hi
          omega
    · rw [if_neg hindex]
      exact ⟨[], by simp, by simp, fun hlt => absurd hlt hindex⟩

/-- more fuel than the index changes nothing: the loop has ended -/
theorem indexes_fuel (fuel more : ℕ) {index step : ℕ} (acc : List ℕ) (hfuel : index ≤ fuel) (hstep : 0 < step) :
    indexes first (fuel + more) index step acc = indexes first fuel index step acc := by
  induction fuel generalizing index step acc with
  | zero =>
    have hindex : ¬ index > first := by omega
    cases more with
    | zero => rfl
    | succ more => simp [indexes, hindex]
  | succ fuel ih =>
    rw [Nat.succ_add_eq_add_succ, Nat.add_succ, indexes, indexes]
    by_cases hindex : index > first
    · have hstep' : 0 < (if (acc ++ [index]).length ≥ 10 then step * 2 else step) := by split_ifs <;> omega
      rw [if_pos hindex, if_pos hindex]
      exact ih _ (by omega) hstep'
    · rw [if_neg hindex, if_neg hindex]

/-- every sample is at the offset of its position; the induction is on the loop, with the samples so far at theirs -/
theorem indexes_offset {top : ℕ} (fuel : ℕ) (acc : List ℕ) (hacc : ∀ (i x : ℕ), acc[i]? = some x →
    x = top - offset i) :
    ∀ i x : ℕ, (indexes first fuel (top - offset acc.length) (gap acc.length) acc)[i]? = some x → x = top - offset i := by
  induction fuel generalizing acc with
  | zero => exact hacc
  | succ fuel ih =>
    unfold indexes
    by_cases hindex : top - offset acc.length > first
    · rw [if_pos hindex]
      have hlength : (acc ++ [top - offset acc.length]).length = acc.length + 1 := by simp
      have hacc' : ∀ (i x : ℕ), (acc ++ [top - offset acc.length])[i]? = some x → x = top - offset i := by
        intro i x hx
        rcases lt_trichotomy i acc.length with hlt | rfl | hgt
        · rw [List.getElem?_append_left hlt] at hx
          exact hacc i x hx
        · simpa using hx.symm
        · rw [List.getElem?_eq_none (by omega)] at hx
          cases hx
      have hrest := ih _ hacc'
      rw [hlength] at hrest
      simp only [hlength, gap_succ]
      rw [Nat.sub_sub]
      exact hrest
    · rw [if_neg hindex]
      exact hacc

end SidechainsSdk.Locator
