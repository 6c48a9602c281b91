/-
The indices of an Equihash solution in their minimal form (`Equihash.expandArray`, `compressArray`,
`getIndicesFromMinimal`, `getMinimalFromIndices`): digits of a few bits each, one after the other across the bounds of bytes.

- Both loops move bits through an accumulator of 32 bits, big-endian. `none` stands for a failing assertion or array access.
- `expandArray_eq`, `compressArray_eq`: what they compute, in terms of numbers: the digits of the number that the bytes are,
  each filled up to whole bytes, and the bytes of the number that the digits are.
- `minimal_indices`: the two forms are in one to one correspondence, where the bits fill whole bytes and the products of
  lengths stay within an `Int`.

Products of lengths are taken as `Int`s; positions in an array are natural numbers.
-/
import Mathlib.Tactic
import SidechainsSdk.Core.BitGroups
import SidechainsSdk.Core.MachineInt

namespace SidechainsSdk.Blocks.Equihash

open BitGroups MachineInt

/-! ## The code -/

/-- the loop of `expandArray` over the input, with what has been written before the position `j` -/
def expandLoop (bitLen outWidth bytePad : ℕ) : Bytes → ℕ → ℕ → Bytes → Bytes
  | [], _, _, out => out
  | byte :: rest, accBits, accValue, out =>
    let accValue := (accValue <<< 8 &&& (2 ^ 32 - 1)) ||| byte.toNat
    let accBits := accBits + 8
    -- When we have bitLen or more bits in the accumulator, write the next output element.
    if accBits ≥ bitLen then
      let accBits := accBits - bitLen
      let element := (List.range' bytePad (outWidth - bytePad)).map fun x =>
        UInt8.ofNat (accValue >>> (accBits + 8 * (outWidth - x - 1)) &&&
          ((2 ^ bitLen - 1) >>> (8 * (outWidth - x - 1)) &&& 255))
      expandLoop bitLen outWidth bytePad rest accBits accValue (out ++ (List.replicate bytePad 0 ++ element))
    else expandLoop bitLen outWidth bytePad rest accBits accValue out

def expandArray (input : Bytes) (outLen : ℤ) (bitLen bytePad : ℕ) : Option Bytes :=
  let outWidth := (bitLen + 7) / 8 + bytePad
  if bitLen ≥ 8 ∧ 8 * 4 ≥ 7 + bitLen ∧ outLen = (intOf (8 * outWidth * input.length : ℕ)).tdiv bitLen then
    let out := expandLoop bitLen outWidth bytePad input 0 0 []
    -- a negative length, or an element beyond the end
    if outLen < out.length then none else some (out ++ List.replicate (outLen.toNat - out.length) 0)
  else none

/-- the loop of `compressArray` over the positions of the output, with what is left of the input -/
def compressLoop (bitLen inWidth bytePad : ℕ) : ℕ → ℕ → ℕ → Bytes → Bytes → Option Bytes
  | 0, _, _, _, out => some out
  | i + 1, accBits, accValue, input, out =>
    -- When we have fewer than 8 bits left in the accumulator, read the next input element.
    if accBits < 8 then
      if input.length < inWidth then none
      else
        let accValue := orBytes bitLen (accValue <<< bitLen &&& (2 ^ 32 - 1)) ((input.take inWidth).drop bytePad)
        let accBits := accBits + bitLen - 8
        compressLoop bitLen inWidth bytePad i accBits accValue (input.drop inWidth)
          (out ++ [UInt8.ofNat (accValue >>> accBits &&& 255)])
    else
      let accBits := accBits - 8
      compressLoop bitLen inWidth bytePad i accBits accValue input (out ++ [UInt8.ofNat (accValue >>> accBits &&& 255)])

def compressArray (input : Bytes) (outLen : ℤ) (bitLen bytePad : ℕ) : Option Bytes :=
  let inWidth := (bitLen + 7) / 8 + bytePad
  if bitLen ≥ 8 ∧ 8 * 4 ≥ 7 + bitLen ∧ outLen = (intOf (bitLen * input.length : ℕ)).tdiv (8 * inWidth : ℕ) then
    -- a negative length
    if outLen < 0 then none else compressLoop bitLen inWidth bytePad outLen.toNat 0 0 input []
  else none

/-- `Ints.toByteArray` -/
def toByteArray (x : ℤ) : Bytes := BigEndian.fixed 4 (x % 2 ^ 32).toNat

/-- `BytesUtils.getInt` -/
def getInt (bytes : Bytes) (offset : ℕ) : Option ℤ :=
  if bytes.length < offset + 4 then none else some (intOf (BigEndian.value ((bytes.drop offset).take 4)))

/-- the `Int`s at `i` and after it, as long as `i < lenIndices` -/
def getInts (arr : Bytes) : ℕ → ℕ → Option (List ℤ)
  | 0, _ => some []
  | count + 1, i => do
    let x ← getInt arr i
    let xs ← getInts arr count (i + 4)
    return x :: xs

def getIndicesFromMinimal (minimal : Bytes) (collisionBitLength : ℕ) : Option (List ℤ) :=
  if (collisionBitLength + 1 + 7) / 8 ≤ 4 then do
    let lenIndices := (intOf (8 * 4 * minimal.length : ℕ)).tdiv (collisionBitLength + 1 : ℕ)
    let bytePad := 4 - (collisionBitLength + 1 + 7) / 8
    let arr ← expandArray minimal lenIndices (collisionBitLength + 1) bytePad
    getInts arr ((lenIndices.toNat + 3) / 4) 0
  else none

def getMinimalFromIndices (indices : List ℤ) (collisionBitLength : ℕ) : Option Bytes :=
  if (collisionBitLength + 1 + 7) / 8 ≤ 4 then
    let lenIndices := intOf (indices.length * 4 : ℕ)
    let minLen := (intOf ((collisionBitLength + 1 : ℕ) * lenIndices)).tdiv (8 * 4)
    let bytePad := 4 - (collisionBitLength + 1 + 7) / 8
    -- a negative length, or an index beyond the end
    if lenIndices < (indices.length * 4 : ℕ) then none
    else compressArray (indices.flatMap toByteArray) minLen (collisionBitLength + 1) bytePad
  else none

/-! ## What they compute -/

variable {w pad : ℕ}

/-- a digit, filled up with zeros in front -/
def element (w pad digit : ℕ) : Bytes := List.replicate pad 0 ++ BigEndian.fixed ((w + 7) / 8) digit

theorem element_eq (w pad : ℕ) {digit : ℕ} (h : digit < 2 ^ w) :
    element w pad digit = BigEndian.fixed ((w + 7) / 8 + pad) digit := by
  have hsmall : digit < 256 ^ ((w + 7) / 8) := by
    have hpow : 256 ^ ((w + 7) / 8) = 2 ^ (8 * ((w + 7) / 8)) := by rw [pow_mul]; norm_num
    rw [hpow]
    exact h.trans_le (Nat.pow_le_pow_right (by norm_num) (by omega))
  have hvalue : BigEndian.value (element w pad digit) = digit := by
    rw [element, BigEndian.value_append, value_zeros, Nat.zero_mul, Nat.zero_add, BigEndian.value_fixed, Nat.mod_eq_of_lt hsmall]
  have hlength : (element w pad digit).length = (w + 7) / 8 + pad := by
    rw [element, List.length_append, List.length_replicate, BigEndian.length_fixed, Nat.add_comm]
  rw [← hlength]
  conv_lhs => rw [← BigEndian.fixed_value (element w pad digit), hvalue]

/-- what is written for an element -/
theorem element_written {acc low : ℕ} :
    (List.range' pad ((w + 7) / 8 + pad - pad)).map (fun x => UInt8.ofNat
      (acc >>> (low + 8 * ((w + 7) / 8 + pad - x - 1)) &&& ((2 ^ w - 1) >>> (8 * ((w + 7) / 8 + pad - x - 1)) &&& 255))) =
      BigEndian.fixed ((w + 7) / 8) (acc / 2 ^ low % 2 ^ w) := by
  rw [fixed_eq_map, Nat.add_sub_cancel, List.range'_eq_map_range, List.map_map]
  apply List.map_congr_left
  intro x hx
  have hwidth : (w + 7) / 8 + pad - (pad + x) - 1 = (w + 7) / 8 - x - 1 := by omega
  simp only [Function.comp_apply, hwidth, bytes_shift]

/-- `k` digits and `r` bits make up these bytes -/
def Cut (w : ℕ) (bytes : Bytes) (k r : ℕ) : Prop := 8 * bytes.length = w * k + r ∧ r < w

theorem Cut.unique {bytes : Bytes} {k k' r r' : ℕ} (h : Cut w bytes k r) (h' : Cut w bytes k' r') : k = k' ∧ r = r' := by
  obtain ⟨heq, hlt⟩ := h
  obtain ⟨heq', hlt'⟩ := h'
  have hdiv : ∀ {k r : ℕ}, r < w → (w * k + r) / w = k := by
    intro k r hr
    rw [Nat.mul_add_div (by omega), Nat.div_eq_of_lt hr, Nat.add_zero]
  have hk : k = k' := calc
    k = 8 * bytes.length / w := by rw [heq, hdiv hlt]
    _ = k' := by rw [heq', hdiv hlt']
  subst hk
  omega

/-- the first `k` digits of these bytes, as elements -/
def elements (w pad k r : ℕ) (bytes : Bytes) : Bytes := (group w k (BigEndian.value bytes / 2 ^ r)).flatMap (element w pad)

/-- the digits of the bytes `read` have been written, and their other bits are in the accumulator -/
theorem expandLoop_eq (hw : 8 ≤ w) (hw' : 7 + w ≤ 32) {rest read : Bytes} {accValue k k' r r' : ℕ}
    (hread : Cut w read k r) (hall : Cut w (read ++ rest) k' r') (hacc : Holds accValue r (BigEndian.value read)) :
    expandLoop w ((w + 7) / 8 + pad) pad rest r accValue (elements w pad k r read) = elements w pad k' r' (read ++ rest) := by
  induction rest generalizing read accValue k r with
  | nil =>
    rw [List.append_nil] at hall ⊢
    obtain ⟨rfl, rfl⟩ := hread.unique hall
    rfl
  | cons byte rest ih =>
    obtain ⟨hlength, hr⟩ := hread
    have hvalue : BigEndian.value (read ++ [byte]) = BigEndian.value read * 2 ^ 8 + byte.toNat := BigEndian.value_concat read byte
    have hlength' : 8 * (read ++ [byte]).length = 8 * read.length + 8 := by
      rw [List.length_append, List.length_singleton]
      ring
    have hpush := hacc.push (show r + 8 ≤ 32 by omega) (show byte.toNat < 2 ^ 8 from UInt8.toNat_lt byte)
    rw [← hvalue] at hpush
    -- the bits above do not depend on the last byte
    have hdiv : BigEndian.value (read ++ [byte]) / 2 ^ (r + 8) = BigEndian.value read / 2 ^ r := by
      rw [hvalue, Nat.add_comm r, pow_add, ← Nat.div_div_eq_div_mul]
      congr 1
      have := UInt8.toNat_lt byte
      omega
    have hassoc : read ++ byte :: rest = read ++ [byte] ++ rest := by simp
    rw [hassoc] at hall ⊢
    rw [expandLoop]
    by_cases hfull : r + 8 ≥ w
    · have hwritten : elements w pad (k + 1) (r + 8 - w) (read ++ [byte]) = elements w pad k r read ++
          (List.replicate pad (0 : UInt8) ++ BigEndian.fixed ((w + 7) / 8)
            (((accValue <<< 8 &&& (2 ^ 32 - 1)) ||| byte.toNat) / 2 ^ (r + 8 - w) % 2 ^ w)) := by
        have hinit : BigEndian.value (read ++ [byte]) / 2 ^ (r + 8 - w) / 2 ^ w = BigEndian.value read / 2 ^ r := by
          rw [Nat.div_div_eq_div_mul, ← pow_add, Nat.sub_add_cancel hfull, hdiv]
        rw [elements, group, List.flatMap_append, hinit, hpush.top hfull]
        simp only [List.flatMap_cons, List.flatMap_nil, List.append_nil]
        rfl
      rw [if_pos hfull]
      dsimp only
      rw [element_written, ← hwritten]
      exact ih ⟨by rw [hlength', hlength, Nat.mul_succ]; omega, by omega⟩ hall (hpush.rest (Nat.sub_le _ _))
    · have hwritten : elements w pad k (r + 8) (read ++ [byte]) = elements w pad k r read := by
        rw [elements, hdiv]
        rfl
      rw [if_neg hfull, ← hwritten]
      exact ih ⟨by rw [hlength', hlength]; omega, by omega⟩ hall hpush

/-- a quotient of products that stay within an `Int` -/
theorem tdiv_intOf {n : ℕ} (hn : n < 2 ^ 31) (d : ℕ) : (intOf (n : ℕ)).tdiv (d : ℕ) = (n / d : ℕ) := by
  rw [intOf_eq ⟨by omega, by omega⟩, Int.ofNat_tdiv]

variable (pad) in
/-- **Expanding.** The digits of the number, each in whole bytes, where digits make up the bytes. -/
theorem expandArray_eq (hw : 8 ≤ w) (hw' : 7 + w ≤ 32) {input : Bytes} {k : ℕ} (hlength : 8 * input.length = w * k)
    (hfits : 8 * ((w + 7) / 8 + pad) * input.length < 2 ^ 31) :
    expandArray input (((w + 7) / 8 + pad) * k : ℕ) w pad =
      some ((group w k (BigEndian.value input)).flatMap (BigEndian.fixed ((w + 7) / 8 + pad))) := by
  have hquotient : 8 * ((w + 7) / 8 + pad) * input.length / w = ((w + 7) / 8 + pad) * k := by
    rw [Nat.mul_right_comm, hlength, Nat.mul_assoc, Nat.mul_div_cancel_left _ (by omega), Nat.mul_comm]
  have houtLen : ((((w + 7) / 8 + pad) * k : ℕ) : ℤ) = (intOf (8 * ((w + 7) / 8 + pad) * input.length : ℕ)).tdiv w := by
    rw [tdiv_intOf hfits, hquotient]
  have hloop : expandLoop w ((w + 7) / 8 + pad) pad input 0 0 [] = elements w pad k 0 input := by
    have hall : Cut w ([] ++ input) k 0 := ⟨hlength, by omega⟩
    exact expandLoop_eq hw hw' (show Cut w [] 0 0 from ⟨rfl, by omega⟩) hall (holds_zero 0 _)
  have helements : elements w pad k 0 input = (group w k (BigEndian.value input)).flatMap
      (BigEndian.fixed ((w + 7) / 8 + pad)) := by
    rw [elements, pow_zero, Nat.div_one]
    exact List.flatMap_congr fun digit hdigit => element_eq w pad (group_lt hdigit)
  have hwritten : (elements w pad k 0 input).length = ((w + 7) / 8 + pad) * k := by
    rw [helements, List.length_flatMap]
    simp [Nat.mul_comm]
  unfold expandArray
  dsimp only
  rw [if_pos ⟨hw, hw', houtLen⟩, hloop, hwritten, if_neg (lt_irrefl _), Int.toNat_natCast, Nat.sub_self, List.replicate_zero,
    List.append_nil, helements]

/-- the next byte of the output -/
theorem byte_written {accValue r n o : ℕ} (hacc : Holds accValue r n) (hr : 8 ≤ r) :
    BigEndian.fixed o (n / 2 ^ r) ++ [UInt8.ofNat (accValue >>> (r - 8) &&& 255)] = BigEndian.fixed (o + 1)
      (n / 2 ^ (r - 8)) := by
  have hinit : n / 2 ^ (r - 8) / 256 = n / 2 ^ r := by
    rw [Nat.div_div_eq_div_mul, show 256 = 2 ^ 8 from rfl, ← pow_add, Nat.sub_add_cancel hr]
  have hbyte : accValue >>> (r - 8) &&& 255 = n / 2 ^ (r - 8) % 2 ^ 8 := by
    rw [← hacc.top hr, ← Nat.shiftRight_eq_div_pow]
    exact Nat.and_two_pow_sub_one_eq_mod _ 8
  have hlast : UInt8.ofNat (n / 2 ^ (r - 8) % 2 ^ 8) = UInt8.ofNat (n / 2 ^ (r - 8)) := by
    apply UInt8.toNat_inj.1
    simp
  rw [BigEndian.fixed, hinit, hbyte, hlast]

/-- what is read of an element -/
theorem element_read {acc digit : ℕ} (hdigit : digit < 2 ^ w) (rest : Bytes) :
    orBytes w acc (((BigEndian.fixed ((w + 7) / 8 + pad) digit ++ rest).take ((w + 7) / 8 + pad)).drop pad) = acc ||| digit := by
  have htake : (BigEndian.fixed ((w + 7) / 8 + pad) digit ++ rest).take ((w + 7) / 8 + pad) = element w pad digit := by
    rw [element_eq w pad hdigit, List.take_append_of_le_length (by simp), List.take_of_length_le (by simp)]
  have hdrop : (element w pad digit).drop pad = BigEndian.fixed ((w + 7) / 8) digit := List.drop_left' (by simp)
  have hvalue : BigEndian.value (BigEndian.fixed ((w + 7) / 8) digit) % 2 ^ w = digit := by
    have hpow : 256 ^ ((w + 7) / 8) = 2 ^ (8 * ((w + 7) / 8)) := by rw [pow_mul]; norm_num
    rw [BigEndian.value_fixed, hpow, Nat.mod_mod_of_dvd _ (pow_dvd_pow 2 (by omega)), Nat.mod_eq_of_lt hdigit]
  rw [htake, hdrop, bytes_mask, hvalue]

/-- the digits `read` are in the accumulator, as far as their bits have not been written -/
theorem compressLoop_eq (hw : 8 ≤ w) (hw' : 7 + w ≤ 32) {i o r accValue : ℕ} {read rest : List ℕ}
    (hrest : ∀ digit ∈ rest, digit < 2 ^ w) (hbits : 8 * o + r = w * read.length)
    (hall : 8 * (o + i) = w * (read ++ rest).length) (hacc : Holds accValue r (number w read)) :
    compressLoop w ((w + 7) / 8 + pad) pad i r accValue (rest.flatMap (BigEndian.fixed ((w + 7) / 8 + pad)))
        (BigEndian.fixed o (number w read / 2 ^ r)) = some (BigEndian.fixed (o + i) (number w (read ++ rest))) := by
  induction i generalizing o r accValue read rest with
  | zero =>
    rw [List.length_append, Nat.add_zero, Nat.mul_add w] at hall
    have hr : r = 0 := by omega
    have hnil : rest = [] := by
      have hzero : w * rest.length = 0 := by omega
      exact List.length_eq_zero_iff.1 ((Nat.mul_eq_zero.1 hzero).resolve_left (by omega))
    subst hr hnil
    simp [compressLoop]
  | succ i ih =>
    rw [compressLoop]
    by_cases hfew : r < 8
    · obtain _ | ⟨digit, rest⟩ := rest
      · rw [List.append_nil] at hall
        omega
      · have hdigit := hrest digit (by simp)
        have hlength : ¬ (BigEndian.fixed ((w + 7) / 8 + pad) digit ++ rest.flatMap
            (BigEndian.fixed ((w + 7) / 8 + pad))).length <
            (w + 7) / 8 + pad := by simp
        have hpush := hacc.push (show r + w ≤ 32 by omega) hdigit
        have hvalue : number w (read ++ [digit]) = number w read * 2 ^ w + digit := number_concat read digit
        rw [← hvalue] at hpush
        have hdiv : number w (read ++ [digit]) / 2 ^ (r + w) = number w read / 2 ^ r := by
          rw [hvalue, Nat.add_comm r, pow_add, ← Nat.div_div_eq_div_mul, Nat.mul_comm, Nat.mul_add_div (by positivity),
            Nat.div_eq_of_lt hdigit, Nat.add_zero]
        have hassoc : read ++ digit :: rest = read ++ [digit] ++ rest := by simp
        rw [if_pos hfew, List.flatMap_cons, if_neg hlength, List.drop_left' (by simp), element_read hdigit, ← hdiv]
        dsimp only
        rw [byte_written hpush (by omega), hassoc, ← Nat.add_assoc, Nat.add_right_comm]
        refine ih (fun d hd => hrest d (List.mem_cons_of_mem _ hd)) ?_ ?_ (hpush.rest (Nat.sub_le _ _))
        · rw [List.length_append, List.length_singleton, Nat.mul_succ w]
          omega
        · rw [← hassoc, ← hall]
          ring
    · rw [if_neg hfew]
      dsimp only
      rw [byte_written hacc (by omega), ← Nat.add_assoc, Nat.add_right_comm]
      exact ih hrest (by omega) (by omega) (hacc.rest (Nat.sub_le _ _))

variable (pad) in
/-- **Compressing.** The bytes of the number, where the digits make up bytes. -/
theorem compressArray_eq (hw : 8 ≤ w) (hw' : 7 + w ≤ 32) {digits : List ℕ} {o : ℕ}
    (hdigits : ∀ digit ∈ digits, digit < 2 ^ w)
    (hlength : 8 * o = w * digits.length) (hfits : w * (digits.length * ((w + 7) / 8 + pad)) < 2 ^ 31) :
    compressArray (digits.flatMap (BigEndian.fixed ((w + 7) / 8 + pad))) o w
      pad = some (BigEndian.fixed o (number w digits)) := by
  have hinput : (digits.flatMap (BigEndian.fixed ((w + 7) / 8 + pad))).length = digits.length * ((w + 7) / 8 + pad) := by
    rw [List.length_flatMap]
    simp
  have houtLen : (o : ℤ) =
      (intOf (w * (digits.flatMap (BigEndian.fixed ((w + 7) / 8 + pad))).length : ℕ)).tdiv (8 * ((w + 7) / 8 + pad) : ℕ) := by
    rw [hinput, tdiv_intOf hfits, ← Nat.mul_assoc, ← hlength, Nat.mul_right_comm, Nat.mul_div_cancel_left _ (by omega)]
  unfold compressArray
  dsimp only
  rw [if_pos ⟨hw, hw', houtLen⟩, if_neg (by omega), Int.toNat_natCast]
  have hall : 8 * (0 + o) = w * ([] ++ digits).length := by simpa using hlength
  have hloop : compressLoop w ((w + 7) / 8 + pad) pad o 0 0 (digits.flatMap (BigEndian.fixed ((w + 7) / 8 + pad)))
      (BigEndian.fixed 0 (number w [] / 2 ^ 0)) = some (BigEndian.fixed (0 + o) (number w ([] ++ digits))) :=
    compressLoop_eq hw hw' hdigits (by simp) hall (holds_zero 0 _)
  rwa [Nat.zero_add, List.nil_append] at hloop

/-! ## Indices -/

theorem toByteArray_natCast {x : ℕ} (h : x < 2 ^ 31) : toByteArray x = BigEndian.fixed 4 x := by
  unfold toByteArray
  congr 1
  omega

theorem getInt_fixed {arr rest : Bytes} {i x : ℕ} (h : x < 2 ^ 31) (hdrop : arr.drop i = BigEndian.fixed 4 x ++ rest) :
    getInt arr i = some (x : ℤ) := by
  have hlength : (arr.drop i).length = 4 + rest.length := by rw [hdrop, List.length_append, BigEndian.length_fixed]
  rw [List.length_drop] at hlength
  have hvalue : BigEndian.value (BigEndian.fixed 4 x) = x := by
    rw [BigEndian.value_fixed, Nat.mod_eq_of_lt (by norm_num; omega)]
  rw [getInt, if_neg (by omega), hdrop, List.take_append_of_le_length (by simp), List.take_of_length_le (by simp), hvalue,
    intOf_eq ⟨by omega, by omega⟩]

theorem getInts_fixed {arr rest : Bytes} {i : ℕ} {xs : List ℕ} (h : ∀ x ∈ xs, x < 2 ^ 31)
    (hdrop : arr.drop i = xs.flatMap (BigEndian.fixed 4) ++ rest) :
      getInts arr xs.length i = some (xs.map (Nat.cast : ℕ → ℤ)) := by
  induction xs generalizing i with
  | nil => rfl
  | cons x xs ih =>
    rw [List.flatMap_cons, List.append_assoc] at hdrop
    have hnext : arr.drop (i + 4) = xs.flatMap (BigEndian.fixed 4) ++ rest := by
      rw [← List.drop_drop, hdrop, List.drop_left' (by simp)]
    rw [List.length_cons, getInts, getInt_fixed (h x (by simp)) hdrop, ih (fun y hy => h y (List.mem_cons_of_mem _ hy)) hnext]
    rfl

/-- the indices in a minimal form -/
def indicesOf (c : ℕ) (minimal : Bytes) (k : ℕ) : List ℕ := group (c + 1) k (BigEndian.value minimal)

theorem getIndicesFromMinimal_eq {c : ℕ} (hc : 7 ≤ c) (hc' : c ≤ 24) {minimal : Bytes} {k : ℕ}
    (hlength : 8 * minimal.length = (c + 1) * k) (hfits : 8 * 4 * minimal.length < 2 ^ 31) :
    getIndicesFromMinimal minimal c = some ((indicesOf c minimal k).map (Nat.cast : ℕ → ℤ)) := by
  have hwidth : (c + 1 + 7) / 8 + (4 - (c + 1 + 7) / 8) = 4 := by omega
  have hlenIndices : (intOf (8 * 4 * minimal.length : ℕ)).tdiv (c + 1 : ℕ) = (4 * k : ℕ) := by
    rw [tdiv_intOf hfits, Nat.mul_right_comm, hlength, Nat.mul_assoc, Nat.mul_div_cancel_left _ (by omega), Nat.mul_comm]
  have hexpand := expandArray_eq (4 - (c + 1 + 7) / 8) (show 8 ≤ c + 1 by omega) (by omega) hlength
      (by rw [hwidth]; exact hfits)
  rw [hwidth] at hexpand
  have hcount : (4 * k + 3) / 4 = (indicesOf c minimal k).length := by
    rw [indicesOf, length_group]
    omega
  have hlt : ∀ x ∈ indicesOf c minimal k, x < 2 ^ 31 :=
    fun x hx => (group_lt hx).trans_le (Nat.pow_le_pow_right (by norm_num) (by omega))
  unfold getIndicesFromMinimal
  rw [if_pos (by omega)]
  dsimp only
  rw [hlenIndices, hexpand, Int.toNat_natCast, hcount]
  have hdrop : ((indicesOf c minimal k).flatMap (BigEndian.fixed 4)).drop 0 =
      (indicesOf c minimal k).flatMap (BigEndian.fixed 4) ++ [] := by simp
  exact getInts_fixed hlt hdrop

theorem getMinimalFromIndices_eq {c : ℕ} (hc : 7 ≤ c) (hc' : c ≤ 24) {indices : List ℕ} {o : ℕ}
    (hindices : ∀ index ∈ indices, index < 2 ^ (c + 1)) (hlength : 8 * o = (c + 1) * indices.length)
    (hfits : 8 * 4 * o < 2 ^ 31) :
    getMinimalFromIndices (indices.map (Nat.cast : ℕ → ℤ)) c = some (BigEndian.fixed o (number (c + 1) indices)) := by
  have hwidth : (c + 1 + 7) / 8 + (4 - (c + 1 + 7) / 8) = 4 := by omega
  have hbytes : (indices.map (Nat.cast : ℕ → ℤ)).flatMap toByteArray = indices.flatMap (BigEndian.fixed 4) := by
    rw [List.flatMap_map]
    exact List.flatMap_congr fun index hindex =>
      toByteArray_natCast ((hindices index hindex).trans_le (Nat.pow_le_pow_right (by norm_num) (by omega)))
  have hproduct : (c + 1) * (indices.length * 4) = 8 * 4 * o := by
    rw [← Nat.mul_assoc, ← hlength]
    ring
  have hcount : indices.length * 4 ≤ (c + 1) * (indices.length * 4) := Nat.le_mul_of_pos_left _ (by omega)
  have hlenIndices : intOf (indices.length * 4 : ℕ) = (indices.length * 4 : ℕ) := intOf_eq ⟨by omega, by omega⟩
  have hminLen : (intOf ((c + 1 : ℕ) * ((indices.length * 4 : ℕ) : ℤ))).tdiv (8 * 4) = o := by
    rw [← Nat.cast_mul, hproduct, show (8 * 4 : ℤ) = ((8 * 4 : ℕ) : ℤ) from rfl, tdiv_intOf hfits,
      Nat.mul_div_cancel_left _ (by norm_num)]
  have hcompress := compressArray_eq (4 - (c + 1 + 7) / 8) (show 8 ≤ c + 1 by omega) (by omega) hindices hlength
    (by rw [hwidth, hproduct]; exact hfits)
  rw [hwidth] at hcompress
  unfold getMinimalFromIndices
  rw [if_pos (by omega), hbytes]
  dsimp only
  rw [List.length_map, hlenIndices, if_neg (lt_irrefl _), hminLen, hcompress]

/-- **The minimal form of indices.** For every number of bits that the assertions allow, and so many indices that their bits make
up whole bytes, of which four times as many bits are an `Int`: indices have a minimal form, of this length, and are read back from
it; and every byte string of this length is the minimal form of the indices that are read from it. -/
theorem minimal_indices {c k o : ℕ} (hc : 7 ≤ c) (hc' : c ≤ 24) (hlength : 8 * o = (c + 1) * k)
    (hfits : 8 * 4 * o < 2 ^ 31) :
    (∀ indices : List ℕ, indices.length = k → (∀ index ∈ indices, index < 2 ^ (c + 1)) →
      ∃ minimal, getMinimalFromIndices (indices.map (Nat.cast : ℕ → ℤ)) c = some minimal ∧ minimal.length = o ∧
        getIndicesFromMinimal minimal c = some (indices.map (Nat.cast : ℕ → ℤ))) ∧
      ∀ minimal : Bytes, minimal.length = o →
        ∃ indices : List ℕ, getIndicesFromMinimal minimal c = some (indices.map (Nat.cast : ℕ → ℤ)) ∧
          indices.length = k ∧
          (∀ index ∈ indices, index < 2 ^ (c + 1)) ∧
            getMinimalFromIndices (indices.map (Nat.cast : ℕ → ℤ)) c = some minimal := by
  constructor
  · rintro indices rfl hindices
    refine ⟨_, getMinimalFromIndices_eq hc hc' hindices hlength hfits, BigEndian.length_fixed _ _, ?_⟩
    have hnumber : number (c + 1) indices < 256 ^ o := by
      have hpow : 256 ^ o = 2 ^ (8 * o) := by rw [pow_mul]; norm_num
      rw [hpow, hlength]
      exact number_lt hindices
    have hbytes : (BigEndian.fixed o (number (c + 1) indices)).length = o := BigEndian.length_fixed _ _
    rw [getIndicesFromMinimal_eq hc hc' (by rw [hbytes]; exact hlength) (by rw [hbytes]; exact hfits), indicesOf,
      BigEndian.value_fixed, Nat.mod_eq_of_lt hnumber, group_number hindices]
  · rintro minimal rfl
    have hindices : ∀ index ∈ indicesOf c minimal k, index < 2 ^ (c + 1) := fun index hindex => group_lt hindex
    have hcount : (indicesOf c minimal k).length = k := length_group _ _
    refine ⟨indicesOf c minimal k, getIndicesFromMinimal_eq hc hc' hlength hfits, hcount, hindices, ?_⟩
    have hvalue : BigEndian.value minimal < 2 ^ ((c + 1) * k) := by
      rw [← hlength, pow_mul]
      exact BigEndian.value_lt minimal
    rw [getMinimalFromIndices_eq hc hc' hindices (by rw [hcount]; exact hlength) hfits, indicesOf, number_group,
      Nat.mod_eq_of_lt hvalue, BigEndian.fixed_value]

/-- eight indices of nine bits -/
theorem minimal_indices_nine_bits :
    ∃ minimal, getMinimalFromIndices [2, 511, 0, 256, 77, 3, 128, 1] 8 = some minimal ∧ minimal.length = 9 ∧
      getIndicesFromMinimal minimal 8 = some [2, 511, 0, 256, 77, 3, 128, 1] :=
  (minimal_indices (c := 8) (k := 8) (o := 9) (by decide) (by decide) rfl (by decide)).1 [2, 511, 0, 256, 77, 3, 128, 1] rfl
    (by decide)

end SidechainsSdk.Blocks.Equihash
