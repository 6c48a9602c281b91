/-
Integers of 32 and 64 bits, as values among all integers: every operation of the machine takes the result back into the range.

- `intOf_eq`: a value in range is its own.
- `intOf_congr`: only the remainder counts, so a chain of operations may be taken back once, at its end.
-/
import Mathlib.Tactic

namespace SidechainsSdk.MachineInt

/-- the value an `Int` takes -/
def intOf (x : ℤ) : ℤ := x.bmod (2 ^ 32)

/-- the values of an `Int` -/
def IsInt (x : ℤ) : Prop := -2 ^ 31 ≤ x ∧ x < 2 ^ 31

theorem intOf_eq {x : ℤ} (h : IsInt x) : intOf x = x := by
  unfold intOf IsInt at *
  rw [Int.bmod_eq_of_le] <;> norm_num <;> omega

theorem isInt_intOf (x : ℤ) : IsInt (intOf x) := by
  unfold intOf IsInt
  constructor
  · exact Int.le_bmod (x := x) (m := 2 ^ 32) (by norm_num)
  · exact Int.bmod_lt (x := x) (m := 2 ^ 32) (by norm_num)

/-- the multiple of the range that is taken off -/
theorem intOf_eq_sub (x : ℤ) : ∃ k : ℤ, intOf x = x - k * 2 ^ 32 := by
  refine ⟨x.bdiv (2 ^ 32), ?_⟩
  rw [intOf, Int.bmod_eq_self_sub_bdiv_mul]
  norm_num

/-- a value that is not below the range only gets smaller -/
theorem intOf_le {x : ℤ} (h : -2 ^ 31 ≤ x) : intOf x ≤ x := by
  obtain ⟨k, hk⟩ := intOf_eq_sub x
  have hrange := isInt_intOf x
  unfold IsInt at hrange
  omega

theorem intOf_congr {x y : ℤ} (k : ℤ) (h : x = y + k * 2 ^ 32) : intOf x = intOf y := by
  have hmul : y + k * 2 ^ 32 = y + ((2 ^ 32 : ℕ) : ℤ) * k := by
    push_cast
    ring
  rw [intOf, intOf, h, hmul, Int.add_mul_bmod_self_left]

/-- an inner result may be taken back or not -/
theorem intOf_add_intOf (x y : ℤ) : intOf (x + intOf y) = intOf (x + y) := by
  obtain ⟨k, hk⟩ := intOf_eq_sub y
  apply intOf_congr (-k)
  rw [hk]
  ring

theorem intOf_mul_intOf (x y : ℤ) : intOf (intOf x * y) = intOf (x * y) := by
  obtain ⟨k, hk⟩ := intOf_eq_sub x
  apply intOf_congr (-k * y)
  rw [hk]
  ring

/-! ## 64 bits -/

/-- the value a `Long` takes -/
def longOf (x : ℤ) : ℤ := x.bmod (2 ^ 64)

theorem longOf_eq {x : ℤ} (hlow : -2 ^ 63 ≤ x) (hhigh : x < 2 ^ 63) : longOf x = x := by
  unfold longOf
  rw [Int.bmod_eq_of_le] <;> norm_num <;> omega

theorem abs_longOf_le (x : ℤ) : |longOf x| ≤ 2 ^ 63 := by
  have hlow : -2 ^ 63 ≤ longOf x := Int.le_bmod (x := x) (m := 2 ^ 64) (by norm_num)
  have hhigh : longOf x < 2 ^ 63 := Int.bmod_lt (x := x) (m := 2 ^ 64) (by norm_num)
  exact abs_le.2 ⟨hlow, hhigh.le⟩

theorem longOf_lt (x : ℤ) : longOf x < 2 ^ 63 := Int.bmod_lt (x := x) (m := 2 ^ 64) (by norm_num)

end SidechainsSdk.MachineInt
