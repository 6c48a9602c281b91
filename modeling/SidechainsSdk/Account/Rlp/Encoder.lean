/-
RLP trees and `RlpStreamEncoder`: a byte below 0x80 stands for itself, every other string and every list is a header with
the length of what follows. Lengths above 55 are written big-endian, without leading zeros, behind the header byte.
-/
import SidechainsSdk.Core.BigEndian

namespace SidechainsSdk.Account.Rlp

open BigEndian

/-- `RlpString` and `RlpList` -/
inductive RlpType where
  | rlpString (bytes : Bytes)
  | rlpList (values : List RlpType)

/-- induction over a tree, with the hypothesis for all values of a list -/
@[elab_as_elim]
theorem RlpType.tree_induction {P : RlpType → Prop} (rlpString : ∀ bytes, P (.rlpString bytes))
    (rlpList : ∀ values, (∀ v ∈ values, P v) → P (.rlpList values)) (t : RlpType) : P t :=
  @RlpType.rec P (fun values => ∀ v ∈ values, P v) rlpString rlpList (by simp)
    (fun _ _ hv hvs => List.forall_mem_cons.2 ⟨hv, hvs⟩) t

def OFFSET_SHORT_STRING : ℕ := 0x80

def OFFSET_LONG_STRING : ℕ := 0xb7

def OFFSET_SHORT_LIST : ℕ := 0xc0

def OFFSET_LONG_LIST : ℕ := 0xf7

/-- the four bytes of an int -/
def toByteArray (value : ℕ) : Bytes := fixed 4 value

def toMinimalByteArray (value : ℕ) : Bytes := (toByteArray value).dropWhile isZero

/-- the header of `length` bytes, of a string or a list by its offset -/
def header (offset length : ℕ) : Bytes :=
  if length ≤ 55 then [UInt8.ofNat (offset + length)]
  else UInt8.ofNat (offset + 0x37 + (toMinimalByteArray length).length) :: toMinimalByteArray length

def encodeString (bytesValue : Bytes) : Bytes :=
  match bytesValue with
  | [b] => if b < 0x80 then [b] else header OFFSET_SHORT_STRING 1 ++ [b]
  | bytesValue => header OFFSET_SHORT_STRING bytesValue.length ++ bytesValue

def encodeNestedList (inWriter : Bytes) : Bytes := header OFFSET_SHORT_LIST inWriter.length ++ inWriter

/-- `encodeList`, over the bytes its entries were encoded to -/
def encodeList : List Bytes → Bytes
  | [] => [UInt8.ofNat OFFSET_SHORT_LIST]
  | entries => encodeNestedList entries.flatten

mutual

def encode : RlpType → Bytes
  | .rlpString bytes => encodeString bytes
  | .rlpList values => encodeList (encodeAll values)

def encodeAll : List RlpType → List Bytes
  | [] => []
  | entry :: values => encode entry :: encodeAll values

end

theorem encodeAll_eq (values : List RlpType) : encodeAll values = values.map encode := by
  induction values with
  | nil => rfl
  | cons v vs ih => rw [encodeAll, ih, List.map_cons]

theorem encode_list_eq (values : List RlpType) :
    encode (.rlpList values) = encodeNestedList (values.flatMap encode) := by
  rw [encode, encodeAll_eq]
  cases values <;> rfl

theorem noLeadingZero_toMinimalByteArray (n : ℕ) : NoLeadingZero (toMinimalByteArray n) := noLeadingZero_dropWhile _

theorem value_toMinimalByteArray_mod (n : ℕ) : value (toMinimalByteArray n) = n % 256 ^ 4 := by
  rw [toMinimalByteArray, value_dropWhile, toByteArray, value_fixed]

theorem value_toMinimalByteArray {n : ℕ} (hn : n < 2 ^ 32) : value (toMinimalByteArray n) = n := by
  rw [value_toMinimalByteArray_mod]
  exact Nat.mod_eq_of_lt hn

theorem length_toMinimalByteArray_le (n : ℕ) : (toMinimalByteArray n).length ≤ 4 := by
  refine length_le (noLeadingZero_toMinimalByteArray n) ?_
  rw [value_toMinimalByteArray_mod]
  exact Nat.mod_lt _ (by norm_num)

/-- the only byte string of the value without leading zeros -/
theorem toMinimalByteArray_value {bs : Bytes} (hm : NoLeadingZero bs) (hv : value bs < 2 ^ 32) :
    toMinimalByteArray (value bs) = bs := dropWhile_fixed hm hv

theorem length_toMinimalByteArray_pos {n : ℕ} (hpos : 0 < n) (hn : n < 2 ^ 32) :
    0 < (toMinimalByteArray n).length := by
  rw [List.length_pos_iff]
  intro hnil
  have hv := value_toMinimalByteArray hn
  rw [hnil, value_nil] at hv
  omega

theorem header_short {offset length : ℕ} (h : length ≤ 55) : header offset length = [UInt8.ofNat (offset + length)] :=
  if_pos h

theorem header_long {offset length : ℕ} (h : 55 < length) : header offset length =
    UInt8.ofNat (offset + 0x37 + (toMinimalByteArray length).length) :: toMinimalByteArray length :=
  if_neg (by omega)

theorem header_ne_nil (offset length : ℕ) : header offset length ≠ [] := by
  unfold header
  split_ifs <;> simp

theorem encodeString_byte {b : UInt8} (h : b < 0x80) : encodeString [b] = [b] := if_pos h

theorem encodeString_header {bytes : Bytes} (h : ¬ (bytes.length = 1 ∧ value bytes < OFFSET_SHORT_STRING)) :
    encodeString bytes = header OFFSET_SHORT_STRING bytes.length ++ bytes := by
  match bytes with
  | [] => rfl
  | [b] =>
    have hb : ¬ b < 0x80 := by
      intro hlt
      exact h ⟨rfl, by simpa [OFFSET_SHORT_STRING] using UInt8.lt_iff_toNat_lt.1 hlt⟩
    exact if_neg hb
  | _ :: _ :: _ => rfl

theorem encode_ne_nil (t : RlpType) : encode t ≠ [] := by
  cases t with
  | rlpString bytes =>
    by_cases h : bytes.length = 1 ∧ value bytes < OFFSET_SHORT_STRING
    · obtain ⟨b, rfl⟩ := List.length_eq_one_iff.1 h.1
      have hb : b < 0x80 := UInt8.lt_iff_toNat_lt.2 (by simpa [OFFSET_SHORT_STRING] using h.2)
      rw [encode, encodeString_byte hb]
      exact List.cons_ne_nil _ _
    · rw [encode, encodeString_header h]
      exact List.append_ne_nil_of_left_ne_nil (header_ne_nil _ _) _
  | rlpList values =>
    rw [encode_list_eq]
    exact List.append_ne_nil_of_left_ne_nil (header_ne_nil _ _) _

theorem length_encode_pos (t : RlpType) : 0 < (encode t).length := List.length_pos_iff.2 (encode_ne_nil t)

end SidechainsSdk.Account.Rlp
