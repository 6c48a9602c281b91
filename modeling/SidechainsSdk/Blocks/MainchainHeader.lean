/-
`MainchainHeader` and its serializer. A header keeps the bytes it was read from; it is serialized as these bytes, and read
again from them.

- Offsets in a byte array are natural numbers here; the source refuses negative ones.
- A header may end within its solution: `slice` cuts at the end of the array, so the solution may be shorter than its length
  says.

`create_own`: a header made by `create` from the middle of an array is made again from its own bytes. `MainchainHeader` is
such a header, and its serializer reads back what it writes (`reads_parse`).
-/
import Mathlib.Tactic
import SidechainsSdk.Core.BigEndian
import SidechainsSdk.Core.MachineInt
import SidechainsSdk.Utils.MerkleTree

namespace SidechainsSdk.Blocks

open MachineInt Reader

/-! ## Reading numbers from byte arrays -/

inductive HeaderException where
  | illegalArgument (message : String)
deriving DecidableEq

/-- `bytes.slice(start, stop)` -/
def slice (bytes : Bytes) (start stop : ℕ) : Bytes := (bytes.take stop).drop start

/-- `count` bytes from `offset` on, the last one first -/
def getReversed (count : ℕ) (bytes : Bytes) (offset : ℕ) : Except HeaderException ℕ :=
  if bytes.length < offset + count then .error (.illegalArgument "Value is out of array bounds")
  else .ok (BigEndian.value (slice bytes offset (offset + count)).reverse)

def getReversedShort (bytes : Bytes) (offset : ℕ) : Except HeaderException ℕ := getReversed 2 bytes offset

def getReversedInt (bytes : Bytes) (offset : ℕ) : Except HeaderException ℤ :=
  (getReversed 4 bytes offset).map fun value => intOf value

def getReversedLong (bytes : Bytes) (offset : ℕ) : Except HeaderException ℤ :=
  (getReversed 8 bytes offset).map fun value => longOf value

structure CompactSize where
  value : ℕ
  size : ℕ

def CompactSize.MAX_SERIALIZED_COMPACT_SIZE : ℕ := 0x02000000

def nonCanonical : HeaderException := .illegalArgument "CompactSize: non-canonical value"

/-- the value with its size, before it is compared with the largest one -/
def readCompactSize (bytes : Bytes) (offset : ℕ) : Except HeaderException CompactSize :=
  if bytes.length < offset + 1 then .error (.illegalArgument "CompactSize: Value is out of array bounds")
  else
    let first := bytes.getD offset 0
    if first = 253 then do
      let value ← getReversedShort bytes (offset + 1)
      if value < 253 then .error nonCanonical else .ok ⟨value, 3⟩
    else if first = 254 then do
      -- `& 0xFFFFFFFFL` takes the four bytes as they are
      let value ← getReversed 4 bytes (offset + 1)
      if value < 0x10000 then .error nonCanonical else .ok ⟨value, 5⟩
    else if first = 255 then do
      let value ← getReversedLong bytes (offset + 1)
      if value < 0x100000000 then .error nonCanonical else .ok ⟨value.toNat, 9⟩
    else .ok ⟨first.toNat, 1⟩

def getCompactSize (bytes : Bytes) (offset : ℕ) : Except HeaderException CompactSize := do
  let size ← readCompactSize bytes offset
  if CompactSize.MAX_SERIALIZED_COMPACT_SIZE < size.value then
    .error (.illegalArgument "CompactSize: size too large")
  else .ok size

/-! ## Headers -/

structure HeaderFields where
  mainchainHeaderBytes : Bytes
  version : ℤ
  hashPrevBlock : Bytes
  hashMerkleRoot : Bytes
  hashScTxsCommitment : Bytes
  time : ℤ
  bits : ℤ
  nonce : Bytes
  solution : Bytes

def HEADER_MIN_SIZE : ℕ := 140

open Utils (reverseBytes)

def create (headerBytes : Bytes) (offset : ℕ) : Except HeaderException HeaderFields :=
  if headerBytes.length - offset < HEADER_MIN_SIZE then .error (.illegalArgument "Input data corrupted.")
  else do
    let version ← getReversedInt headerBytes offset
    let hashPrevBlock := reverseBytes (slice headerBytes (offset + 4) (offset + 36))
    let merkleRoot := reverseBytes (slice headerBytes (offset + 36) (offset + 68))
    let hashScTxsCommitment := reverseBytes (slice headerBytes (offset + 68) (offset + 100))
    let time ← getReversedInt headerBytes (offset + 100)
    let bits ← getReversedInt headerBytes (offset + 104)
    let nonce := reverseBytes (slice headerBytes (offset + 108) (offset + 140))
    let solutionLength ← getCompactSize headerBytes (offset + 140)
    let solutionOffset := offset + 140 + solutionLength.size
    let solution := slice headerBytes solutionOffset (solutionOffset + solutionLength.value)
    pure ⟨slice headerBytes offset (solutionOffset + solutionLength.value), version, hashPrevBlock, merkleRoot,
      hashScTxsCommitment, time, bits, nonce, solution⟩

/-! ### A part of an array -/

section Window

variable {bytes : Bytes} {offset stop : ℕ}

/-- reading inside a part of an array -/
theorem slice_window (bytes : Bytes) (offset stop : ℕ) {i j : ℕ} (h : offset + j ≤ stop) :
    slice (slice bytes offset stop) i j = slice bytes (offset + i) (offset + j) := by
  have hmin : min (offset + j) stop = offset + j := min_eq_left h
  rw [slice, slice, slice, List.take_drop, List.take_take, hmin, List.drop_drop]

theorem length_slice (bytes : Bytes) (start stop : ℕ) : (slice bytes start stop).length = min stop bytes.length - start := by
  rw [slice, List.length_drop, List.length_take]

theorem getD_slice (bytes : Bytes) {offset stop i : ℕ} (h : offset + i < stop) :
    (slice bytes offset stop).getD i 0 = bytes.getD (offset + i) 0 := by
  rw [List.getD_eq_getElem?_getD, List.getD_eq_getElem?_getD, slice, List.getElem?_drop, List.getElem?_take, if_pos h]

theorem getReversed_window (bytes : Bytes) {offset stop count i : ℕ} (hcount : 0 < count) (h : offset + i + count ≤ stop) :
    getReversed count (slice bytes offset stop) i = getReversed count bytes (offset + i) := by
  have hlength : (slice bytes offset stop).length < i + count ↔ bytes.length < offset + i + count := by
    rw [length_slice]
    omega
  have hwindow : slice (slice bytes offset stop) i (i + count) = slice bytes (offset + i) (offset + i + count) := by
    rw [slice_window bytes offset stop (by omega), ← Nat.add_assoc]
  rw [getReversed, getReversed, hwindow]
  exact if_congr hlength rfl rfl

/-- how many bytes a size takes, by its first byte -/
def sizeOfFirst (first : UInt8) : ℕ := if first = 253 then 3 else if first = 254 then 5 else if first = 255 then 9 else 1

theorem readCompactSize_size {bytes : Bytes} {offset : ℕ} {size : CompactSize}
    (h : readCompactSize bytes offset = .ok size) :
    offset + 1 ≤ bytes.length ∧ size.size = sizeOfFirst (bytes.getD offset 0) := by
  have hchecked : ∀ {α : Type} {x : Except HeaderException α} {p : α → Prop} [DecidablePred p] {f : α → CompactSize}
      {n : ℕ},
      (∀ a, (f a).size = n) → (x >>= fun a => if p a then .error nonCanonical else .ok (f a)) = .ok size →
        size.size = n := by
    intro α x p _ f n hf hx
    obtain ⟨a, -, ha⟩ := Fallible.bind_ok hx
    by_cases hp : p a
    · rw [if_pos hp] at ha
      cases ha
    · rw [if_neg hp] at ha
      injection ha with ha
      rw [← ha]
      exact hf a
  unfold readCompactSize at h
  by_cases hshort : bytes.length < offset + 1
  · rw [if_pos hshort] at h
    cases h
  · rw [if_neg hshort] at h
    refine ⟨by omega, ?_⟩
    simp only at h
    generalize bytes.getD offset 0 = first at h
    unfold sizeOfFirst
    by_cases h253 : first = 253
    · rw [if_pos h253] at h ⊢
      exact hchecked (fun _ => rfl) h
    · rw [if_neg h253] at h ⊢
      by_cases h254 : first = 254
      · rw [if_pos h254] at h ⊢
        exact hchecked (fun _ => rfl) h
      · rw [if_neg h254] at h ⊢
        by_cases h255 : first = 255
        · rw [if_pos h255] at h ⊢
          exact hchecked (fun _ => rfl) h
        · rw [if_neg h255] at h ⊢
          injection h with h
          rw [← h]

/-- a size that lies within a part of an array is read from the part -/
theorem readCompactSize_window {bytes : Bytes} {offset stop i : ℕ} {size : CompactSize}
    (hsize : readCompactSize bytes (offset + i) = .ok size) (h : offset + i + size.size ≤ stop) :
    readCompactSize (slice bytes offset stop) i = .ok size := by
  obtain ⟨hlength, hfirst⟩ := readCompactSize_size hsize
  rw [hfirst] at h
  unfold sizeOfFirst at h
  have hstop : offset + i < stop := by
    split_ifs at h <;> omega
  have hlength' : ¬ (slice bytes offset stop).length < i + 1 := by
    rw [length_slice]
    omega
  unfold readCompactSize at hsize ⊢
  rw [if_neg (by omega)] at hsize
  rw [if_neg hlength', getD_slice bytes hstop]
  simp only at hsize ⊢
  generalize bytes.getD (offset + i) 0 = first at hsize h ⊢
  by_cases h253 : first = 253
  · rw [if_pos h253] at hsize h ⊢
    rw [getReversedShort, getReversed_window bytes (by decide) (by omega)]
    exact hsize
  · rw [if_neg h253] at hsize h ⊢
    by_cases h254 : first = 254
    · rw [if_pos h254] at hsize h ⊢
      rw [getReversed_window bytes (by decide) (by omega)]
      exact hsize
    · rw [if_neg h254] at hsize h ⊢
      by_cases h255 : first = 255
      · rw [if_pos h255] at hsize h ⊢
        rw [getReversedLong, getReversed_window bytes (by decide) (by omega)]
        exact hsize
      · rw [if_neg h255] at hsize ⊢
        exact hsize

end Window

/-- what `create` has read -/
theorem create_ok {bytes : Bytes} {offset : ℕ} {header : HeaderFields} (h : create bytes offset = .ok header) :
    ∃ version time bits size, getReversedInt bytes offset = .ok version ∧ getReversedInt bytes (offset + 100) = .ok time ∧
      getReversedInt bytes (offset + 104) = .ok bits ∧ getCompactSize bytes (offset + 140) = .ok size ∧
      header = ⟨slice bytes offset (offset + 140 + size.size + size.value), version,
        reverseBytes (slice bytes (offset + 4) (offset + 36)), reverseBytes (slice bytes (offset + 36) (offset + 68)),
        reverseBytes (slice bytes (offset + 68) (offset + 100)), time, bits,
        reverseBytes (slice bytes (offset + 108) (offset + 140)),
        slice bytes (offset + 140 + size.size) (offset + 140 + size.size + size.value)⟩ := by
  unfold create at h
  by_cases hshort : bytes.length - offset < HEADER_MIN_SIZE
  · rw [if_pos hshort] at h
    cases h
  · rw [if_neg hshort] at h
    obtain ⟨version, hversion, h⟩ := Fallible.bind_ok h
    obtain ⟨time, htime, h⟩ := Fallible.bind_ok h
    obtain ⟨bits, hbits, h⟩ := Fallible.bind_ok h
    obtain ⟨size, hsize, h⟩ := Fallible.bind_ok h
    injection h with h
    exact ⟨version, time, bits, size, hversion, htime, hbits, hsize, h.symm⟩

/-- **A header is made again from its own bytes**, wherever it was read. -/
theorem create_own {bytes : Bytes} {offset : ℕ} {header : HeaderFields} (h : create bytes offset = .ok header) :
    create header.mainchainHeaderBytes 0 = .ok header := by
  obtain ⟨version, time, bits, size, hversion, htime, hbits, hsize, rfl⟩ := create_ok h
  obtain ⟨raw, hraw, hlarge⟩ := Fallible.bind_ok hsize
  have hsame : raw = size := by
    by_cases hmax : CompactSize.MAX_SERIALIZED_COMPACT_SIZE < raw.value
    · rw [if_pos hmax] at hlarge
      cases hlarge
    · rw [if_neg hmax] at hlarge
      injection hlarge
  subst hsame
  obtain ⟨hlength, hfirst⟩ := readCompactSize_size hraw
  set stop := offset + 140 + raw.size + raw.value with hstop
  have hpositive : 1 ≤ raw.size := by
    rw [hfirst, sizeOfFirst]
    split_ifs <;> omega
  have hlong : ¬ (slice bytes offset stop).length - 0 < HEADER_MIN_SIZE := by
    rw [length_slice]
    unfold HEADER_MIN_SIZE
    omega
  have hint : ∀ i, offset + i + 4 ≤ stop → getReversedInt (slice bytes offset stop) (0 + i) = getReversedInt bytes
      (offset + i) := by
    intro i hi
    rw [getReversedInt, getReversedInt, Nat.zero_add, getReversed_window bytes (by decide) hi]
  have hpart : ∀ i j, offset + j ≤ stop → slice (slice bytes offset stop) (0 + i) (0 + j) =
      slice bytes (offset + i) (offset + j) := by
    intro i j hj
    rw [Nat.zero_add, Nat.zero_add, slice_window bytes offset stop hj]
  have hcompact : getCompactSize (slice bytes offset stop) (0 + 140) = .ok raw := by
    rw [Nat.zero_add, getCompactSize, readCompactSize_window hraw (by omega)]
    exact hlarge
  have hversion' : getReversedInt (slice bytes offset stop) 0 = .ok version := (hint 0 (by omega)).trans hversion
  have hwhole : slice (slice bytes offset stop) 0 (0 + 140 + raw.size + raw.value) = slice bytes offset stop := by
    have hwindow := hpart 0 (140 + raw.size + raw.value) (by omega)
    have hend : offset + (140 + raw.size + raw.value) = stop := by omega
    rw [hend] at hwindow
    simpa [Nat.add_assoc] using hwindow
  have hsolution : slice (slice bytes offset stop) (0 + 140 + raw.size) (0 + 140 + raw.size + raw.value) =
      slice bytes (offset + 140 + raw.size) stop := by
    have hwindow := hpart (140 + raw.size) (140 + raw.size + raw.value) (by omega)
    have hend : offset + (140 + raw.size + raw.value) = stop := by omega
    rw [hend] at hwindow
    simpa [Nat.add_assoc] using hwindow
  rw [create, if_neg hlong, hversion', hint 100 (by omega), htime, hint 104 (by omega), hbits, hcompact]
  show Except.ok _ = Except.ok _
  rw [hwhole, hsolution, hpart 4 36 (by omega), hpart 36 68 (by omega), hpart 68 100 (by omega),
    hpart 108 140 (by omega)]

/-- a header that was read: its bytes give it again -/
structure MainchainHeader extends HeaderFields where
  created : create mainchainHeaderBytes 0 = .ok toHeaderFields

theorem MainchainHeader.ext_bytes {h h' : MainchainHeader} (heq : h.mainchainHeaderBytes = h'.mainchainHeaderBytes) :
    h = h' := by
  have hcreated := h.created
  rw [heq, h'.created] at hcreated
  cases h
  cases h'
  injection hcreated with hfields
  subst hfields
  rfl

/-- a header read from the middle of an array -/
def MainchainHeader.ofCreate {bytes : Bytes} {offset : ℕ} {header : HeaderFields} (h : create bytes offset = .ok header) :
    MainchainHeader := ⟨header, create_own h⟩

def MainchainHeader.hash (doubleSHA256 : Bytes → Bytes) (header : MainchainHeader) : Bytes :=
  reverseBytes (doubleSHA256 header.mainchainHeaderBytes)

/-- `equals` compares hashes -/
def MainchainHeader.equals (doubleSHA256 : Bytes → Bytes) (header header' : MainchainHeader) : Bool :=
  header.hash doubleSHA256 = header'.hash doubleSHA256

/-! ## The serializer -/

/-- the integers of the writer and the reader, as the library documents them: what is put is got back -/
structure VLQ where
  putInt : ℤ → Bytes
  getInt : Reader ℤ
  putLong : Int64 → Bytes
  getLong : Reader Int64
  reads_putInt : ∀ n, IsInt n → Reads getInt (putInt n) n
  reads_putLong : ∀ n, Reads getLong (putLong n) n

/-- the length of an array or a list is an `Int` -/
theorem VLQ.reads_length (vlq : VLQ) {n : ℕ} (h : n < 2 ^ 31) : Reads vlq.getInt (vlq.putInt n) n := by
  refine vlq.reads_putInt n ⟨?_, ?_⟩
  · omega
  · exact_mod_cast h

namespace MainchainHeader

def serialize (vlq : VLQ) (header : MainchainHeader) : Bytes :=
  vlq.putInt header.mainchainHeaderBytes.length ++ header.mainchainHeaderBytes

/-- `MainchainHeader.create(headerBytes, 0).get` -/
def get (headerBytes : Bytes) : Reader MainchainHeader :=
  match h : create headerBytes 0 with
  | .ok _ => pure (ofCreate h)
  | .error _ => failure

def parse (vlq : VLQ) : Reader MainchainHeader := do
  let length ← vlq.getInt
  let headerBytes ← bytes length
  get headerBytes

theorem reads_parse (vlq : VLQ) {header : MainchainHeader} (h : header.mainchainHeaderBytes.length < 2 ^ 31) :
    Reads (parse vlq) (header.serialize vlq) header := by
  refine (vlq.reads_length h).bind ?_
  have hget : Reads (get header.mainchainHeaderBytes) [] header := by
    unfold get
    split
    · rename_i fields hfields
      have hsame : fields = header.toHeaderFields := Except.ok.inj (hfields.symm.trans header.created)
      have hheader : ofCreate hfields = header := ext_bytes (congrArg HeaderFields.mainchainHeaderBytes hsame)
      rw [hheader]
      exact reads_pure header
    · rename_i e he
      rw [header.created] at he
      cases he
  have hread := (reads_bytes header.mainchainHeaderBytes).bind hget
  rw [List.append_nil] at hread
  exact hread

end MainchainHeader

end SidechainsSdk.Blocks
