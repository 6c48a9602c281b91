/-
Numbers as strings of digits of `w` bits, the highest first, and their conversion through an accumulator.

- `number` / `group w k`: the number that a string of digits stands for, and the `k` lowest digits of a number; inverse to each
  other (`number_group`, `group_number`). The digits of an exclusive or are those of the two numbers, one by one
  (`group_xor`).
- `Holds acc bits n`: the lowest `bits` bits of an accumulator are those of `n`. The digits of `n` can be shifted in
  (`Holds.push`), as long as the accumulator is wide enough, and its bits taken out from the top (`Holds.top`, `Holds.rest`).
- `bytes_shift`, `bytes_mask`: the bytes of a digit, each taken out and put in with its part of the mask.
-/
import Mathlib.Tactic
import Mathlib.Data.Nat.Bitwise
import SidechainsSdk.Core.BigEndian

namespace SidechainsSdk.BitGroups

def number (w : ℕ) (digits : List ℕ) : ℕ := digits.foldl (fun n digit => n * 2 ^ w + digit) 0

/-- the lowest `k` digits of `n` -/
def group (w : ℕ) : ℕ → ℕ → List ℕ
  | 0, _ => []
  | k + 1, n => group w k (n / 2 ^ w) ++ [n % 2 ^ w]

variable {w : ℕ}

/-! ## Digits -/

@[simp] theorem number_nil : number w [] = 0 := rfl

@[simp] theorem number_concat (digits : List ℕ) (digit : ℕ) :
    number w (digits ++ [digit]) = number w digits * 2 ^ w + digit := by
  rw [number, List.foldl_append]
  rfl

@[simp] theorem length_group (k n : ℕ) : (group w k n).length = k := by
  induction k generalizing n with
  | zero => rfl
  | succ k ih => rw [group, List.length_append, ih, List.length_singleton]

theorem group_lt {k n digit : ℕ} (h : digit ∈ group w k n) : digit < 2 ^ w := by
  induction k generalizing n with
  | zero => cases h
  | succ k ih =>
    rcases List.mem_append.1 h with hinit | hlast
    · exact ih hinit
    · obtain rfl := List.mem_singleton.1 hlast
      exact Nat.mod_lt _ (by positivity)

theorem number_group (k n : ℕ) : number w (group w k n) = n % 2 ^ (w * k) := by
  induction k generalizing n with
  | zero => simp [group, Nat.mod_one]
  | succ k ih =>
    calc number w (group w (k + 1) n)
        = n / 2 ^ w % 2 ^ (w * k) * 2 ^ w + n % 2 ^ w := by rw [group, number_concat, ih]
      _ = n % (2 ^ w * 2 ^ (w * k)) := by rw [Nat.mod_mul]; ring
      _ = n % 2 ^ (w * (k + 1)) := by rw [← pow_add, Nat.mul_succ, Nat.add_comm]

theorem number_lt {digits : List ℕ} (h : ∀ digit ∈ digits, digit < 2 ^ w) : number w digits < 2 ^ (w * digits.length) := by
  induction digits using List.reverseRecOn with
  | nil => simp
  | append_singleton digits digit ih =>
    have hinit := ih fun d hd => h d (List.mem_append_left _ hd)
    have hlast := h digit (by simp)
    rw [number_concat, List.length_append, List.length_singleton, Nat.mul_succ, pow_add]
    calc number w digits * 2 ^ w + digit
        < number w digits * 2 ^ w + 2 ^ w := by omega
      _ = (number w digits + 1) * 2 ^ w := by ring
      _ ≤ 2 ^ (w * digits.length) * 2 ^ w := Nat.mul_le_mul_right _ hinit

theorem group_number {digits : List ℕ} (h : ∀ digit ∈ digits, digit < 2 ^ w) :
    group w digits.length (number w digits) = digits := by
  induction digits using List.reverseRecOn with
  | nil => rfl
  | append_singleton digits digit ih =>
    have hinit := ih fun d hd => h d (List.mem_append_left _ hd)
    have hlast := h digit (by simp)
    have hdiv : (number w digits * 2 ^ w + digit) / 2 ^ w = number w digits := by
      rw [Nat.mul_comm, Nat.mul_add_div (by positivity), Nat.div_eq_of_lt hlast, Nat.add_zero]
    have hmod : (number w digits * 2 ^ w + digit) % 2 ^ w = digit := by
      rw [Nat.mul_comm, Nat.mul_add_mod, Nat.mod_eq_of_lt hlast]
    rw [List.length_append, List.length_singleton, number_concat, group, hdiv, hmod, hinit]

theorem group_xor (k n n' : ℕ) : group w k (n ^^^ n') = List.zipWith (· ^^^ ·) (group w k n) (group w k n') := by
  induction k generalizing n n' with
  | zero => rfl
  | succ k ih =>
    have hdiv : (n ^^^ n') / 2 ^ w = n / 2 ^ w ^^^ n' / 2 ^ w := by
      rw [← Nat.shiftRight_eq_div_pow, ← Nat.shiftRight_eq_div_pow, ← Nat.shiftRight_eq_div_pow, Nat.shiftRight_xor_distrib]
    have hmod : (n ^^^ n') % 2 ^ w = n % 2 ^ w ^^^ n' % 2 ^ w := Nat.xor_mod_two_pow
    rw [group, group, group, hdiv, hmod, ih, List.zipWith_append (by simp)]
    rfl

/-- the first digit -/
theorem group_succ (k n : ℕ) : group w (k + 1) n = n / 2 ^ (w * k) % 2 ^ w :: group w k n := by
  induction k generalizing n with
  | zero => simp [group]
  | succ k ih =>
    have hpow : 2 ^ w * 2 ^ (w * k) = 2 ^ (w * (k + 1)) := by rw [← pow_add, Nat.mul_succ, Nat.add_comm]
    rw [group, ih, Nat.div_div_eq_div_mul, hpow]
    rfl

/-- numbers agree above their lowest bits when their exclusive or is small -/
theorem xor_lt_iff {n n' m : ℕ} : n ^^^ n' < 2 ^ m ↔ n / 2 ^ m = n' / 2 ^ m := by
  have hdiv : (n ^^^ n') / 2 ^ m = n / 2 ^ m ^^^ n' / 2 ^ m := by
    rw [← Nat.shiftRight_eq_div_pow, ← Nat.shiftRight_eq_div_pow, ← Nat.shiftRight_eq_div_pow, Nat.shiftRight_xor_distrib]
  rw [← Nat.div_eq_zero_iff_lt (by positivity), hdiv, Nat.xor_eq_zero_iff]

/-! ## The accumulator -/

/-- the lowest bits of the accumulator are those of `n` -/
def Holds (acc bits n : ℕ) : Prop := acc % 2 ^ bits = n % 2 ^ bits

theorem holds_zero (acc n : ℕ) : Holds acc 0 n := by
  unfold Holds
  rw [pow_zero, Nat.mod_one, Nat.mod_one]

variable {acc bits n : ℕ}

/-- the bits below the top ones -/
theorem Holds.rest (h : Holds acc bits n) {j : ℕ} (hj : j ≤ bits) : Holds acc j n := by
  unfold Holds at *
  rw [← Nat.mod_mod_of_dvd acc (pow_dvd_pow 2 hj), h, Nat.mod_mod_of_dvd n (pow_dvd_pow 2 hj)]

/-- the top `w` bits -/
theorem Holds.top (h : Holds acc bits n) (hw : w ≤ bits) :
    acc / 2 ^ (bits - w) % 2 ^ w = n / 2 ^ (bits - w) % 2 ^ w := by
  unfold Holds at h
  have hpow : 2 ^ bits = 2 ^ (bits - w) * 2 ^ w := by rw [← pow_add, Nat.sub_add_cancel hw]
  rw [hpow] at h
  rw [← Nat.mod_mul_right_div_self, h, Nat.mod_mul_right_div_self]

/-- a digit is shifted into an accumulator of `width` bits -/
theorem Holds.push (h : Holds acc bits n) {width digit : ℕ} (hwidth : bits + w ≤ width) (hdigit : digit < 2 ^ w) :
    Holds ((acc <<< w &&& (2 ^ width - 1)) ||| digit) (bits + w) (n * 2 ^ w + digit) := by
  have hshift : acc <<< w &&& (2 ^ width - 1) = (acc % 2 ^ (width - w)) <<< w := by
    have hpow : 2 ^ width = 2 ^ (width - w) * 2 ^ w := by rw [← pow_add, Nat.sub_add_cancel (by omega)]
    rw [Nat.and_two_pow_sub_one_eq_mod, Nat.shiftLeft_eq, Nat.shiftLeft_eq, hpow, Nat.mul_mod_mul_right]
  have hlow : acc % 2 ^ (width - w) % 2 ^ bits = n % 2 ^ bits := by
    rw [Nat.mod_mod_of_dvd _ (pow_dvd_pow 2 (by omega))]
    exact h
  unfold Holds
  rw [hshift, ← Nat.shiftLeft_add_eq_or_of_lt hdigit, Nat.shiftLeft_eq, Nat.add_comm bits w, pow_add, Nat.mul_comm _ (2 ^ w),
    Nat.mul_comm n, Nat.mod_mul, Nat.mod_mul, Nat.mul_add_mod, Nat.mul_add_mod, Nat.mul_add_div (by positivity),
    Nat.mul_add_div (by positivity), Nat.div_eq_of_lt hdigit, Nat.add_zero, Nat.add_zero, hlow]

/-! ## The bytes of a digit -/

/-- a byte of the top bits, with the part of the mask that belongs to it -/
theorem bytes_shift (acc low y : ℕ) :
    acc >>> (low + 8 * y) &&& ((2 ^ w - 1) >>> (8 * y) &&& 255) = acc / 2 ^ low % 2 ^ w / 256 ^ y % 256 := by
  have hpow : 256 ^ y = 2 ^ (8 * y) := by rw [pow_mul]; norm_num
  calc acc >>> (low + 8 * y) &&& ((2 ^ w - 1) >>> (8 * y) &&& 255)
      = (acc >>> low &&& (2 ^ w - 1)) >>> (8 * y) &&& (2 ^ 8 - 1) := by
        rw [Nat.shiftRight_add, ← Nat.and_assoc, ← Nat.shiftRight_and_distrib]
        rfl
    _ = acc / 2 ^ low % 2 ^ w / 256 ^ y % 256 := by
        rw [Nat.and_two_pow_sub_one_eq_mod, Nat.and_two_pow_sub_one_eq_mod, Nat.shiftRight_eq_div_pow, Nat.shiftRight_eq_div_pow,
          hpow]

/-- the bytes of a digit, each put in with its part of the mask -/
def orBytes (w acc : ℕ) : Bytes → ℕ
  | [] => acc
  | b :: bs => orBytes w (acc ||| (b.toNat &&& ((2 ^ w - 1) >>> (8 * bs.length) &&& 255)) <<< (8 * bs.length)) bs

theorem bytes_mask (acc : ℕ) (bs : Bytes) : orBytes w acc bs = acc ||| BigEndian.value bs % 2 ^ w := by
  induction bs generalizing acc with
  | nil => simp [orBytes]
  | cons b bs ih =>
    have hpow : 256 ^ bs.length = 2 ^ (8 * bs.length) := by rw [pow_mul]; norm_num
    have hlt : BigEndian.value bs < 2 ^ (8 * bs.length) := hpow ▸ BigEndian.value_lt bs
    have hbyte : b.toNat &&& ((2 ^ w - 1) >>> (8 * bs.length) &&& 255) = b.toNat &&& (2 ^ w - 1) >>> (8 * bs.length) := by
      rw [Nat.and_comm _ 255, ← Nat.and_assoc]
      congr 1
      exact (Nat.and_two_pow_sub_one_eq_mod b.toNat 8).trans (Nat.mod_eq_of_lt (UInt8.toNat_lt b))
    have hand : (b.toNat &&& (2 ^ w - 1) >>> (8 * bs.length)) <<< (8 * bs.length) = b.toNat <<< (8 * bs.length) &&&
        (2 ^ w - 1) := by
      apply Nat.eq_of_testBit_eq
      intro i
      by_cases hi : 8 * bs.length ≤ i
      · simp [Nat.testBit_shiftLeft, Nat.testBit_shiftRight, Nat.testBit_and, hi, Bool.and_comm]
      · simp [Nat.testBit_shiftLeft, Nat.testBit_and, hi]
    rw [orBytes, ih, hbyte, hand, BigEndian.value_cons, hpow, ← Nat.shiftLeft_eq, Nat.shiftLeft_add_eq_or_of_lt hlt,
      Nat.or_assoc,
      ← Nat.and_two_pow_sub_one_eq_mod, ← Nat.and_two_pow_sub_one_eq_mod, ← Nat.and_or_distrib_right]

theorem value_zeros (k : ℕ) : BigEndian.value (List.replicate k 0) = 0 := by
  induction k with
  | zero => rfl
  | succ k ih =>
    rw [List.replicate_succ', BigEndian.value_concat, ih]
    rfl

theorem fixed_zero (k : ℕ) : BigEndian.fixed k 0 = List.replicate k 0 := by
  have h := BigEndian.fixed_value (List.replicate k (0 : UInt8))
  rwa [value_zeros, List.length_replicate] at h

theorem fixed_xor (k n n' : ℕ) :
    List.zipWith (· ^^^ ·) (BigEndian.fixed k n) (BigEndian.fixed k n') = BigEndian.fixed k (n ^^^ n') := by
  induction k generalizing n n' with
  | zero => rfl
  | succ k ih =>
    have hdiv : (n ^^^ n') / 256 = n / 256 ^^^ n' / 256 := by
      have h := Nat.shiftRight_xor_distrib (i := 8) (a := n) (b := n')
      simpa only [Nat.shiftRight_eq_div_pow] using h
    have hlast : UInt8.ofNat (n ^^^ n') = UInt8.ofNat n ^^^ UInt8.ofNat n' := by
      apply UInt8.toNat_inj.1
      rw [UInt8.toNat_xor, UInt8.toNat_ofNat', UInt8.toNat_ofNat', UInt8.toNat_ofNat', Nat.xor_mod_two_pow]
    rw [BigEndian.fixed, BigEndian.fixed, BigEndian.fixed, hdiv, hlast, List.zipWith_append (by simp), ih]
    rfl

theorem fixed_eq_map (k n : ℕ) :
    BigEndian.fixed k n = (List.range k).map fun x => UInt8.ofNat (n / 256 ^ (k - x - 1) % 256) := by
  induction k generalizing n with
  | zero => rfl
  | succ k ih =>
    have hlast : UInt8.ofNat (n / 256 ^ (k + 1 - k - 1) % 256) = UInt8.ofNat n := by
      apply UInt8.toNat_inj.1
      simp
    have hinit : (List.range k).map (fun x => UInt8.ofNat (n / 256 / 256 ^ (k - x - 1) % 256)) =
        (List.range k).map fun x => UInt8.ofNat (n / 256 ^ (k + 1 - x - 1) % 256) := by
      apply List.map_congr_left
      intro x hx
      have hexp : k + 1 - x - 1 = k - x - 1 + 1 := by
        have := List.mem_range.1 hx
        omega
      rw [hexp, pow_succ', Nat.div_div_eq_div_mul]
    rw [BigEndian.fixed, ih, List.range_succ, List.map_append, List.map_singleton, hlast, hinit]

end SidechainsSdk.BitGroups
