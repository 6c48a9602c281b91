/-
Natural numbers as big-endian byte strings.

- `value` / `fixed k`: the number a byte string stands for, and the `k` bytes of a number; inverse to each other
  (`value_fixed`, `fixed_value`).
- `NoLeadingZero`: every number has exactly one byte string without leading zeros (`noLeadingZero_unique`): its bytes of
  any wide enough width, the leading zeros dropped (`dropWhile_fixed`).
-/
import SidechainsSdk.Core.Codec

namespace SidechainsSdk.BigEndian

def value (bs : Bytes) : ℕ := bs.foldl (fun n b => n * 256 + b.toNat) 0

/-- the last `k` bytes of `n` -/
def fixed : ℕ → ℕ → Bytes
  | 0, _ => []
  | k + 1, n => fixed k (n / 256) ++ [UInt8.ofNat n]

def isZero (b : UInt8) : Bool := b = 0

/-- no leading zero -/
def NoLeadingZero (bs : Bytes) : Prop := bs.head? ≠ some 0

instance (bs : Bytes) : Decidable (NoLeadingZero bs) := inferInstanceAs (Decidable (bs.head? ≠ some 0))

@[simp] theorem value_nil : value [] = 0 := rfl

@[simp] theorem value_concat (bs : Bytes) (b : UInt8) : value (bs ++ [b]) = value bs * 256 + b.toNat := by
  rw [value, List.foldl_append]
  rfl

theorem value_append (a b : Bytes) : value (a ++ b) = value a * 256 ^ b.length + value b := by
  induction b using List.reverseRecOn with
  | nil => simp
  | append_singleton b x ih =>
    rw [← List.append_assoc, value_concat, value_concat, ih, List.length_append, List.length_singleton, pow_succ]
    ring

@[simp] theorem value_singleton (b : UInt8) : value [b] = b.toNat := by simpa using value_concat [] b

theorem value_cons (b : UInt8) (bs : Bytes) : value (b :: bs) = b.toNat * 256 ^ bs.length + value bs := by
  rw [← List.singleton_append, value_append, value_singleton]

theorem value_lt (bs : Bytes) : value bs < 256 ^ bs.length := by
  induction bs using List.reverseRecOn with
  | nil => simp
  | append_singleton bs b ih =>
    have hb : b.toNat < 256 := UInt8.toNat_lt b
    rw [value_concat, List.length_append, List.length_singleton, pow_succ]
    omega

@[simp] theorem length_fixed (k n : ℕ) : (fixed k n).length = k := by
  induction k generalizing n with
  | zero => rfl
  | succ k ih => rw [fixed, List.length_append, ih, List.length_singleton]

theorem value_fixed (k n : ℕ) : value (fixed k n) = n % 256 ^ k := by
  induction k generalizing n with
  | zero => simp [fixed, Nat.mod_one]
  | succ k ih =>
    have hlast : (UInt8.ofNat n).toNat = n % 256 := by simp
    calc value (fixed (k + 1) n)
        = n / 256 % 256 ^ k * 256 + n % 256 := by rw [fixed, value_concat, ih, hlast]
      _ = n % (256 * 256 ^ k) := by rw [Nat.mod_mul]; ring
      _ = n % 256 ^ (k + 1) := by rw [pow_succ, Nat.mul_comm]

theorem fixed_value (bs : Bytes) : fixed bs.length (value bs) = bs := by
  induction bs using List.reverseRecOn with
  | nil => rfl
  | append_singleton bs b ih =>
    have hb : b.toNat < 256 := UInt8.toNat_lt b
    have hinit : (value bs * 256 + b.toNat) / 256 = value bs := by omega
    have hlast : UInt8.ofNat (value bs * 256 + b.toNat) = b := by
      apply UInt8.toNat_inj.1
      rw [UInt8.toNat_ofNat']
      omega
    rw [List.length_append, List.length_singleton, fixed, value_concat, hinit, hlast, ih]

theorem noLeadingZero_dropWhile (bs : Bytes) : NoLeadingZero (bs.dropWhile isZero) := by
  intro h
  have hnot := List.head?_dropWhile_not isZero bs
  rw [h] at hnot
  exact absurd hnot (by decide)

@[simp] theorem value_dropWhile (bs : Bytes) : value (bs.dropWhile isZero) = value bs := by
  induction bs with
  | nil => rfl
  | cons b bs ih =>
    by_cases hb : b = 0
    · subst hb
      rw [List.dropWhile_cons_of_pos rfl, ih, value_cons]
      simp
    · rw [List.dropWhile_cons_of_neg (by simpa [isZero] using hb)]

/-- without leading zeros the length gives a lower bound too -/
theorem le_value {bs : Bytes} (hm : NoLeadingZero bs) (hne : bs ≠ []) : 256 ^ (bs.length - 1) ≤ value bs := by
  cases bs with
  | nil => exact absurd rfl hne
  | cons b bs =>
    have hb : 1 ≤ b.toNat := by
      by_contra hzero
      have hz : b = 0 := UInt8.toNat_inj.1 (by simpa using hzero)
      exact hm (by rw [hz]; rfl)
    calc 256 ^ ((b :: bs).length - 1)
        = 1 * 256 ^ bs.length := by simp
      _ ≤ b.toNat * 256 ^ bs.length := Nat.mul_le_mul_right _ hb
      _ ≤ value (b :: bs) := by rw [value_cons]; omega

/-- without leading zeros it is not longer than the value needs -/
theorem length_le {bs : Bytes} {k : ℕ} (hm : NoLeadingZero bs) (hk : value bs < 256 ^ k) : bs.length ≤ k := by
  by_cases hne : bs = []
  · simp [hne]
  · have hlt : bs.length - 1 < k := (Nat.pow_lt_pow_iff_right (by norm_num)).1 ((le_value hm hne).trans_lt hk)
    omega

theorem noLeadingZero_unique {a b : Bytes} (ha : NoLeadingZero a) (hb : NoLeadingZero b) (hv : value a = value b) :
    a = b := by
  have hlen : a.length = b.length :=
    le_antisymm (length_le ha (hv ▸ value_lt b)) (length_le hb (hv ▸ value_lt a))
  rw [← fixed_value a, ← fixed_value b, hlen, hv]

/-- the bytes of a number without the leading zeros -/
theorem dropWhile_fixed {bs : Bytes} {k : ℕ} (hm : NoLeadingZero bs) (hk : value bs < 256 ^ k) :
    (fixed k (value bs)).dropWhile isZero = bs := by
  refine noLeadingZero_unique (noLeadingZero_dropWhile _) hm ?_
  rw [value_dropWhile, value_fixed, Nat.mod_eq_of_lt hk]

/-- the bytes of a number without leading zeros -/
def minimal (n : ℕ) : Bytes := (fixed (n.log2 + 1) n).dropWhile isZero

theorem noLeadingZero_minimal (n : ℕ) : NoLeadingZero (minimal n) := noLeadingZero_dropWhile _

theorem value_minimal (n : ℕ) : value (minimal n) = n := by
  have hlt : n < 256 ^ (n.log2 + 1) := calc
    n < 2 ^ (n.log2 + 1) := Nat.lt_log2_self
    _ ≤ 256 ^ (n.log2 + 1) := Nat.pow_le_pow_left (by norm_num) _
  rw [minimal, value_dropWhile, value_fixed, Nat.mod_eq_of_lt hlt]

end SidechainsSdk.BigEndian
