/-
The compact form of difficulty targets (`Utils.decodeCompactBits`, `encodeCompactBits`, `decodeMPI`): one byte for the number of
bytes of the target, three for the first bytes of it, of which the highest bit is the sign.

- `decodeCompactBits_eq`: the formula of the comment in the source, for every compact of 32 bits.
- `encodeCompactBits_eq`: for a target that is not negative the bits of size and mantissa do not meet.
- `compact_bits_truncate`: decoding gives the encoded target back, with its lower bytes cut off; less than one part in 2^15 is
  lost. Encoding is monotone.

The bytes of a big integer are those of its two's complement, with a bit for the sign, so that the mantissa of a target that is
not negative never reaches the bit of the sign, and the branch for it is for negative ones.
-/
import Mathlib.Tactic
import Mathlib.Data.BitVec
import Mathlib.Data.Nat.Size
import SidechainsSdk.Core.BigEndian
import SidechainsSdk.Core.MachineInt

namespace SidechainsSdk.Utils

open MachineInt

def readUint32BE (bytes : Bytes) (offset : ℕ) : ℕ := BigEndian.value ((bytes.drop offset).take 4)

/-- a byte array with a length that it has; `new BigInteger(buf)` after the sign has been cleared -/
def decodeMPI (mpi : Bytes) (hasLength : Bool) : ℤ :=
  let buf := if hasLength then (mpi.drop 4).take (readUint32BE mpi 0) else mpi
  match buf with
  | [] => 0
  | first :: rest =>
    if first &&& 0x80 = 0x80 then -BigEndian.value ((first &&& 0x7f) :: rest) else BigEndian.value (first :: rest)

def decodeCompactBits (compact : ℕ) : ℤ :=
  let size := compact / 2 ^ 24 % 256
  let bytes := (List.replicate (4 + size) (0 : UInt8)).set 3 (UInt8.ofNat size)
  let bytes := if size ≥ 1 then bytes.set 4 (UInt8.ofNat (compact / 2 ^ 16)) else bytes
  let bytes := if size ≥ 2 then bytes.set 5 (UInt8.ofNat (compact / 2 ^ 8)) else bytes
  let bytes := if size ≥ 3 then bytes.set 6 (UInt8.ofNat compact) else bytes
  decodeMPI bytes true

/-- `value.toByteArray().length` -/
def byteLength (value : ℤ) : ℕ := Nat.size (if value < 0 then -value - 1 else value).toNat / 8 + 1

/-- a `long`; `size << 24` is an `int` -/
def encodeCompactBits (value : ℤ) : BitVec 64 :=
  let size := byteLength value
  let result := BitVec.ofInt 64 (if size ≤ 3 then value * 2 ^ (8 * (3 - size)) else value / 2 ^ (8 * (size - 3)))
  let isSet := result &&& 0x00800000#64 ≠ 0
  let result := if isSet then result.sshiftRight 8 else result
  let size := if isSet then size + 1 else size
  result ||| BitVec.ofInt 64 (intOf (size * 2 ^ 24)) ||| if value < 0 then 0x00800000#64 else 0#64

/-! ## Decoding -/

theorem sign_bit (b : UInt8) : b &&& 0x80 = 0x80 ↔ 128 ≤ b.toNat := by
  have hnat : ∀ n : Fin 256, n.val &&& 128 = 128 ↔ 128 ≤ n.val := by decide +kernel
  have hb := hnat ⟨b.toNat, UInt8.toNat_lt b⟩
  rw [← UInt8.toNat_inj, UInt8.toNat_and]
  exact hb

theorem without_sign (b : UInt8) : (b &&& 0x7f).toNat = b.toNat % 128 := by
  rw [UInt8.toNat_and]
  exact Nat.and_two_pow_sub_one_eq_mod b.toNat 7

/-- a byte array with its length in the first four bytes -/
theorem decodeMPI_length {buf : Bytes} (h : buf.length < 256) :
    decodeMPI (0 :: 0 :: 0 :: UInt8.ofNat buf.length :: buf) true = decodeMPI buf false := by
  have hlength : readUint32BE (0 :: 0 :: 0 :: UInt8.ofNat buf.length :: buf) 0 = buf.length := by
    simp [readUint32BE, BigEndian.value]
    omega
  unfold decodeMPI
  simp [hlength]

/-- sign and value of the first bytes of a compact, with zeros after them -/
theorem decodeMPI_cons (first : UInt8) (rest : Bytes) :
    decodeMPI (first :: rest) false = (if first.toNat < 128 then 1 else -1) *
      (first.toNat % 128 * 256 ^ rest.length + BigEndian.value rest : ℕ) := by
  unfold decodeMPI
  simp only [Bool.false_eq_true, if_false, sign_bit, BigEndian.value_cons, without_sign]
  by_cases hsign : 128 ≤ first.toNat
  · rw [if_pos hsign, if_neg (by omega)]
    push_cast
    ring
  · rw [if_neg hsign, if_pos (by omega), Nat.mod_eq_of_lt (by omega)]
    push_cast
    ring

theorem value_zeros (n : ℕ) : BigEndian.value (List.replicate n 0) = 0 := by
  induction n with
  | zero => rfl
  | succ n ih => rw [List.replicate_succ, BigEndian.value_cons, ih]; simp

/-- the bytes that `decodeCompactBits` fills in -/
def filled (compact size : ℕ) : Bytes :=
  [UInt8.ofNat (compact / 2 ^ 16), UInt8.ofNat (compact / 2 ^ 8), UInt8.ofNat compact].take size ++ List.replicate (size - 3) 0

theorem length_filled (compact size : ℕ) : (filled compact size).length = size := by
  simp [filled]
  omega

theorem decodeCompactBits_filled {compact : ℕ} (h : compact < 2 ^ 32) :
    decodeCompactBits compact = decodeMPI (filled compact (compact / 2 ^ 24)) false := by
  have hsize : compact / 2 ^ 24 % 256 = compact / 2 ^ 24 := Nat.mod_eq_of_lt (by omega)
  have hlt : compact / 2 ^ 24 < 256 := by omega
  unfold decodeCompactBits
  rw [hsize]
  generalize compact / 2 ^ 24 = size at hlt
  rw [← decodeMPI_length (by rw [length_filled]; exact hlt), length_filled]
  refine congrArg (fun bytes => decodeMPI bytes true) ?_
  rcases size with _ | _ | _ | n
  · rfl
  · rfl
  · rfl
  · have hlength : 4 + (n + 3) = n + 1 + 1 + 1 + 1 + 1 + 1 + 1 := by omega
    simp [filled, hlength, List.replicate_succ]

/-- **The formula**: sign, and mantissa times 256 to the size less 3. -/
theorem decodeCompactBits_eq {compact : ℕ} (h : compact < 2 ^ 32) :
    decodeCompactBits compact = (if compact % 2 ^ 24 < 2 ^ 23 then 1 else -1) *
      (compact % 2 ^ 23 * 256 ^ (compact / 2 ^ 24) / 2 ^ 24 : ℕ) := by
  have hfirst : (UInt8.ofNat (compact / 2 ^ 16)).toNat = compact / 2 ^ 16 % 256 := by simp
  have hsecond : (UInt8.ofNat (compact / 2 ^ 8)).toNat = compact / 2 ^ 8 % 256 := by simp
  have hthird : (UInt8.ofNat compact).toNat = compact % 256 := by simp
  have hsign : (if (UInt8.ofNat (compact / 2 ^ 16)).toNat < 128 then (1 : ℤ) else -1) =
      if compact % 2 ^ 24 < 2 ^ 23 then 1 else -1 := if_congr (by rw [hfirst]; omega) rfl rfl
  rw [decodeCompactBits_filled h]
  generalize compact / 2 ^ 24 = size
  rcases size with _ | _ | _ | n
  · have hzero : compact % 2 ^ 23 * 256 ^ 0 / 2 ^ 24 = 0 := by omega
    rw [hzero]
    simp [filled, decodeMPI]
  · have hvalue : compact / 2 ^ 16 % 256 % 128 * 256 ^ 0 + 0 = compact % 2 ^ 23 * 256 ^ 1 / 2 ^ 24 := by omega
    have hbytes : filled compact 1 = [UInt8.ofNat (compact / 2 ^ 16)] := rfl
    rw [hbytes, decodeMPI_cons, hsign, hfirst, List.length_nil, BigEndian.value_nil, hvalue]
  · have hvalue : compact / 2 ^ 16 % 256 % 128 * 256 ^ 1 + compact / 2 ^ 8 % 256 = compact % 2 ^ 23 * 256 ^ 2 /
        2 ^ 24 := by omega
    have hbytes : filled compact 2 = [UInt8.ofNat (compact / 2 ^ 16), UInt8.ofNat (compact / 2 ^ 8)] := rfl
    rw [hbytes, decodeMPI_cons, hsign, hfirst, List.length_singleton, BigEndian.value_singleton, hsecond, hvalue]
  · have hbytes : filled compact (n + 3) = UInt8.ofNat (compact / 2 ^ 16) :: UInt8.ofNat (compact / 2 ^ 8) ::
        UInt8.ofNat compact :: List.replicate n 0 := by simp [filled]
    have hmantissa : compact / 2 ^ 16 % 256 % 128 * 65536 + compact / 2 ^ 8 % 256 * 256 + compact % 256 = compact % 2 ^ 23 := by
      omega
    have hshift : compact % 2 ^ 23 * 256 ^ (n + 3) / 2 ^ 24 = compact % 2 ^ 23 * 256 ^ n := by
      rw [pow_add, ← mul_assoc]
      exact Nat.mul_div_cancel _ (by norm_num)
    rw [hbytes, decodeMPI_cons, hsign, hfirst, BigEndian.value_cons, BigEndian.value_cons, value_zeros, hsecond, hthird]
    simp only [List.length_cons, List.length_replicate]
    rw [hshift, ← hmantissa]
    congr 2
    ring

/-! ## Encoding -/

/-- the first three bytes of a number of `size` bytes -/
def mantissa (n size : ℕ) : ℕ := n * 2 ^ 24 / 256 ^ size

theorem byteLength_natCast (n : ℕ) : byteLength n = Nat.size n / 8 + 1 := by
  have hneg : ¬ (n : ℤ) < 0 := by omega
  rw [byteLength, if_neg hneg, Int.toNat_natCast]

/-- the highest bit is free -/
theorem lt_of_byteLength (n : ℕ) : n * 2 < 256 ^ byteLength n := by
  have hsize : n < 2 ^ Nat.size n := Nat.lt_size_self n
  have hle : Nat.size n + 1 ≤ 8 * byteLength n := by
    rw [byteLength_natCast]
    omega
  calc n * 2 < 2 ^ Nat.size n * 2 := by omega
    _ = 2 ^ (Nat.size n + 1) := by rw [pow_succ]
    _ ≤ 2 ^ (8 * byteLength n) := Nat.pow_le_pow_right (by norm_num) hle
    _ = 256 ^ byteLength n := by rw [pow_mul]; norm_num

/-- no byte less would do -/
theorem le_of_byteLength {n : ℕ} (h : 1 < byteLength n) : 256 ^ (byteLength n - 1) ≤ n * 2 := by
  rw [byteLength_natCast] at h ⊢
  have hlt : 8 * (Nat.size n / 8) - 1 < Nat.size n := by omega
  have hpow : 2 ^ (8 * (Nat.size n / 8) - 1) ≤ n := Nat.lt_size.1 hlt
  have hsplit : 8 * (Nat.size n / 8) = 8 * (Nat.size n / 8) - 1 + 1 := by omega
  calc 256 ^ (Nat.size n / 8 + 1 - 1) = 2 ^ (8 * (Nat.size n / 8)) := by rw [pow_mul, Nat.add_sub_cancel]; norm_num
    _ = 2 ^ (8 * (Nat.size n / 8) - 1) * 2 := by rw [← pow_succ, ← hsplit]
    _ ≤ n * 2 := Nat.mul_le_mul_right _ hpow

theorem mantissa_lt (n : ℕ) : mantissa n (byteLength n) < 2 ^ 23 := by
  unfold mantissa
  rw [Nat.div_lt_iff_lt_mul (by positivity)]
  have := lt_of_byteLength n
  omega

/-- the shifts of the source -/
theorem mantissa_eq (n size : ℕ) : (mantissa n size : ℤ) =
    if size ≤ 3 then (n : ℤ) * 2 ^ (8 * (3 - size)) else (n : ℤ) / 2 ^ (8 * (size - 3)) := by
  unfold mantissa
  by_cases h : size ≤ 3
  · have hsplit : 2 ^ 24 = 2 ^ (8 * (3 - size)) * 256 ^ size := by
      rw [show (256 : ℕ) = 2 ^ 8 from rfl, ← pow_mul, ← pow_add]
      congr 1
      omega
    rw [if_pos h, hsplit, ← mul_assoc, Nat.mul_div_cancel _ (by positivity)]
    push_cast
    rfl
  · have hsplit : 256 ^ size = 2 ^ (8 * (size - 3)) * 2 ^ 24 := by
      rw [show (256 : ℕ) = 2 ^ 8 from rfl, ← pow_mul, ← pow_add]
      congr 1
      omega
    rw [if_neg h, hsplit, Nat.mul_div_mul_right _ _ (by norm_num)]
    push_cast
    rfl

theorem and_highest {m : ℕ} (h : m < 2 ^ 23) : m &&& 2 ^ 23 = 0 := by
  apply Nat.eq_of_testBit_eq
  intro i
  rw [Nat.testBit_and, Nat.zero_testBit, Nat.testBit_two_pow]
  by_cases hi : 23 = i
  · rw [← hi, Nat.testBit_lt_two_pow h]
    rfl
  · simp [hi]

/-- **Encoding** a target that is not negative and has at most 127 bytes. -/
theorem encodeCompactBits_eq {n : ℕ} (h : byteLength n ≤ 127) :
    (encodeCompactBits n).toNat = byteLength n * 2 ^ 24 + mantissa n (byteLength n) := by
  have hmantissa := mantissa_lt n
  have hneg : ¬ (n : ℤ) < 0 := by omega
  unfold encodeCompactBits
  simp only [← mantissa_eq, if_neg hneg]
  generalize byteLength n = size at h hmantissa ⊢
  generalize mantissa n size = m at hmantissa ⊢
  have hm : (BitVec.ofInt 64 (m : ℤ)).toNat = m := by
    rw [BitVec.ofInt_natCast, BitVec.toNat_ofNat, Nat.mod_eq_of_lt (by omega)]
  have hunset : BitVec.ofInt 64 (m : ℤ) &&& 0x00800000#64 = 0#64 := by
    apply BitVec.eq_of_toNat_eq
    rw [BitVec.toNat_and, hm]
    exact and_highest hmantissa
  have hsize : (BitVec.ofInt 64 (intOf (size * 2 ^ 24))).toNat = 2 ^ 24 * size := by
    have hint : intOf (size * 2 ^ 24) = ((2 ^ 24 * size : ℕ) : ℤ) := by
      rw [intOf_eq ⟨by omega, by omega⟩]
      push_cast
      ring
    rw [hint, BitVec.ofInt_natCast, BitVec.toNat_ofNat, Nat.mod_eq_of_lt (by omega)]
  have hset : ¬ (BitVec.ofInt 64 (m : ℤ) &&& 0x00800000#64 ≠ 0) := not_not.2 hunset
  rw [if_neg hset, if_neg hset, BitVec.or_zero, BitVec.toNat_or, hm, hsize, Nat.or_comm,
    ← Nat.two_pow_add_eq_or_of_lt (by omega), Nat.mul_comm]

/-- an `int` that is not negative -/
theorem encodeCompactBits_lt {n : ℕ} (h : byteLength n ≤ 127) : (encodeCompactBits n).toNat < 2 ^ 31 := by
  have := mantissa_lt n
  rw [encodeCompactBits_eq h]
  omega

/-- the bytes after the first three are those of the remainder -/
theorem mantissa_of_long {n size : ℕ} (h : 3 ≤ size) : mantissa n size = n / 256 ^ (size - 3) := by
  have hsplit : 256 ^ size = 256 ^ (size - 3) * 2 ^ 24 := by
    have hsize : size = size - 3 + 3 := by omega
    calc 256 ^ size = 256 ^ (size - 3 + 3) := by rw [← hsize]
      _ = 256 ^ (size - 3) * 2 ^ 24 := by rw [pow_add]; rfl
  rw [mantissa, hsplit, Nat.mul_div_mul_right _ _ (by norm_num)]

theorem mantissa_mul (n size : ℕ) : mantissa n size * 256 ^ size / 2 ^ 24 = n - n % 256 ^ (size - 3) := by
  rcases Nat.le_total 3 size with hlong | hshort
  · have hsize : size = size - 3 + 3 := by omega
    have hdiv := Nat.div_add_mod n (256 ^ (size - 3))
    have hpow : 256 ^ size = 256 ^ (size - 3) * 2 ^ 24 := by
      calc 256 ^ size = 256 ^ (size - 3 + 3) := by rw [← hsize]
        _ = 256 ^ (size - 3) * 2 ^ 24 := by rw [pow_add]; rfl
    rw [mantissa_of_long hlong, hpow, ← mul_assoc, Nat.mul_div_cancel _ (by norm_num), mul_comm]
    omega
  · have hdvd : 256 ^ size ∣ n * 2 ^ 24 := by
      have hdvd : 256 ^ size ∣ 256 ^ 3 := pow_dvd_pow _ hshort
      exact Dvd.dvd.mul_left hdvd n
    rw [mantissa, Nat.div_mul_cancel hdvd, Nat.mul_div_cancel _ (by norm_num), Nat.sub_eq_zero_of_le hshort, pow_zero,
      Nat.mod_one,
      Nat.sub_zero]

/-- what decoding gives back -/
def cut (n : ℕ) : ℕ := n - n % 256 ^ (byteLength n - 3)

theorem decodeCompactBits_encode {n : ℕ} (h : byteLength n ≤ 127) :
    decodeCompactBits (encodeCompactBits n).toNat = cut n := by
  have hmantissa := mantissa_lt n
  rw [decodeCompactBits_eq ((encodeCompactBits_lt h).trans (by norm_num)), encodeCompactBits_eq h, cut, ← mantissa_mul]
  generalize byteLength n = size at h hmantissa ⊢
  have hquotient : (size * 2 ^ 24 + mantissa n size) / 2 ^ 24 = size := by omega
  have hremainder : (size * 2 ^ 24 + mantissa n size) % 2 ^ 23 = mantissa n size := by omega
  have hsign : (size * 2 ^ 24 + mantissa n size) % 2 ^ 24 < 2 ^ 23 := by omega
  rw [hquotient, hremainder, if_pos hsign, one_mul]

theorem byteLength_mono {n n' : ℕ} (h : n ≤ n') : byteLength n ≤ byteLength n' := by
  rw [byteLength_natCast, byteLength_natCast]
  have := Nat.size_le_size h
  omega

/-- a longer target has the larger size, and of two with the same size the larger one has the larger mantissa -/
theorem encodeCompactBits_mono {n n' : ℕ} (h : n ≤ n') (hn : byteLength n' ≤ 127) :
    (encodeCompactBits n).toNat ≤ (encodeCompactBits n').toNat := by
  have hsize := byteLength_mono h
  have hmantissa := mantissa_lt n
  rw [encodeCompactBits_eq hn, encodeCompactBits_eq (hsize.trans hn)]
  rcases hsize.lt_or_eq with hlt | heq
  · omega
  · have hle : mantissa n (byteLength n') ≤ mantissa n' (byteLength n') := Nat.div_le_div_right (Nat.mul_le_mul_right _ h)
    rw [heq]
    omega

/-- what is cut off is small -/
theorem cut_off_lt {n : ℕ} (hn : n ≠ 0) : n % 256 ^ (byteLength n - 3) * 2 ^ 15 < n := by
  by_cases hsize : byteLength n ≤ 3
  · rw [Nat.sub_eq_zero_of_le hsize, pow_zero, Nat.mod_one]
    omega
  · have hlow := le_of_byteLength (n := n) (by omega)
    have hsplit : 256 ^ (byteLength n - 1) = 256 ^ (byteLength n - 3) * 2 ^ 16 := by
      have hexp : byteLength n - 1 = byteLength n - 3 + 2 := by omega
      rw [hexp, pow_add]
      rfl
    have hmod : n % 256 ^ (byteLength n - 3) < 256 ^ (byteLength n - 3) := Nat.mod_lt _ (by positivity)
    omega

/-- the first three bytes stay -/
theorem byteLength_cut (n : ℕ) : byteLength (cut n) = byteLength n := by
  have hle : byteLength (cut n) ≤ byteLength n := byteLength_mono (Nat.sub_le _ _)
  by_cases hsize : byteLength n ≤ 3
  · rw [cut, Nat.sub_eq_zero_of_le hsize, pow_zero, Nat.mod_one, Nat.sub_zero]
  · have hlow := le_of_byteLength (n := n) (by omega)
    have hpow : 256 ^ (byteLength n - 1) = 2 ^ 15 * 256 ^ (byteLength n - 3) * 2 := by
      have hexp : byteLength n - 1 = byteLength n - 3 + 2 := by omega
      rw [hexp, pow_add]
      ring
    -- the least number of this size has zeros there
    have hquotient : 2 ^ 15 ≤ n / 256 ^ (byteLength n - 3) := by
      rw [Nat.le_div_iff_mul_le (by positivity)]
      omega
    have hcut : cut n = n / 256 ^ (byteLength n - 3) * 256 ^ (byteLength n - 3) := by
      have := Nat.div_add_mod' n (256 ^ (byteLength n - 3))
      rw [cut]
      omega
    have hcut_le : 256 ^ (byteLength n - 1) ≤ cut n * 2 := by
      rw [hcut, hpow]
      exact Nat.mul_le_mul_right _ (Nat.mul_le_mul_right _ hquotient)
    by_contra hne
    have hlt := lt_of_byteLength (cut n)
    have hmono : 256 ^ byteLength (cut n) ≤ 256 ^ (byteLength n - 1) := Nat.pow_le_pow_right (by norm_num) (by omega)
    omega

theorem encode_cut {n : ℕ} (h : byteLength n ≤ 127) : encodeCompactBits (cut n) = encodeCompactBits n := by
  have hmantissa : mantissa (cut n) (byteLength n) = mantissa n (byteLength n) := by
    rcases Nat.le_total 3 (byteLength n) with hlong | hshort
    · rw [mantissa_of_long hlong, mantissa_of_long hlong, cut]
      have hdiv := Nat.div_add_mod' n (256 ^ (byteLength n - 3))
      have hcut : n - n % 256 ^ (byteLength n - 3) = n / 256 ^ (byteLength n - 3) * 256 ^ (byteLength n - 3) := by omega
      rw [hcut, Nat.mul_div_cancel _ (by positivity)]
    · rw [cut, Nat.sub_eq_zero_of_le hshort, pow_zero, Nat.mod_one, Nat.sub_zero]
  apply BitVec.eq_of_toNat_eq
  rw [encodeCompactBits_eq (by rwa [byteLength_cut]), encodeCompactBits_eq h, byteLength_cut, hmantissa]

/-- **Targets in compact form.** For every target of at most 127 bytes: the compact form is an `Int` that is not negative,
decoding it gives the target with its bytes after the first three cut off, which is less than one part in 2^15 of it; a smaller
target has no larger compact form; and encoding what has been decoded changes nothing. -/
theorem compact_bits_truncate {n : ℕ} (h : byteLength n ≤ 127) :
    (encodeCompactBits n).toNat < 2 ^ 31 ∧
      decodeCompactBits (encodeCompactBits n).toNat = (n - n % 256 ^ (byteLength n - 3) : ℕ) ∧
      (n ≠ 0 → n % 256 ^ (byteLength n - 3) * 2 ^ 15 < n) ∧
      (∀ n' ≤ n, (encodeCompactBits n').toNat ≤ (encodeCompactBits n).toNat) ∧
      encodeCompactBits (decodeCompactBits (encodeCompactBits n).toNat) = encodeCompactBits n := by
  refine ⟨encodeCompactBits_lt h, decodeCompactBits_encode h, cut_off_lt, fun n' hn' => encodeCompactBits_mono hn' h, ?_⟩
  rw [decodeCompactBits_encode h]
  exact encode_cut h

/-- a target with two bytes after the first three -/
theorem compact_bits_of_five_bytes : decodeCompactBits (encodeCompactBits 0x1234567890).toNat = 0x1234560000 :=
  (compact_bits_truncate (n := 0x1234567890) (by decide)).2.1

end SidechainsSdk.Utils
