/-
`RlpStreamDecoder`. The decoder takes items off a stream. It works out the end of a list from the number of consumed
bytes: it stops where the count is that of the list's header, or where the stream ends.

The reader is the bytes still to come and the position; its `consumed` counts from another point than its `position`, and
as it is only compared with itself one counter stands for both. Each pass of the loop takes a byte, so a budget of one
pass more than there are bytes is never used up (`decode_genuine`).

- `decode_encode`: from the encoding of a tree and anything behind it, decoding takes off the encoding and returns the
  tree.
-/
import SidechainsSdk.Core.Fallible
import SidechainsSdk.Account.Rlp.Encoder

namespace SidechainsSdk.Account.Rlp

open BigEndian Fallible

structure ByteReader where
  position : ℕ
  rest : Bytes

namespace ByteReader

def remaining (r : ByteReader) : ℕ := r.rest.length

/-- `bytes` have been taken off `r`, and `r'` is left -/
def Consumed (r : ByteReader) (bytes : Bytes) (r' : ByteReader) : Prop :=
  r.rest = bytes ++ r'.rest ∧ r'.position = r.position + bytes.length

end ByteReader

open ByteReader

inductive DecodeError where
  /-- RLP invalid parameters while decoding -/
  | invalidParameters
  /-- RLP length mismatch: remaining bytes in stream reader -/
  | lengthMismatch (remaining wanted : ℕ)
  /-- RLP bad encoding: 1 byte value not minimally encoded -/
  | oneByteNotMinimal
  /-- RLP bad encoding: strlen is too small for this encoding -/
  | tooSmall (length : ℕ)
  /-- RLP length encoding is not minimal -/
  | lengthNotMinimal
  /-- RLP too many bytes to decode -/
  | tooManyBytes
  /-- the exception of a reader without bytes -/
  | underflow
  /-- RLP wrong encoding at stream pos -/
  | wrongEncoding (position : ℕ) (cause : DecodeError)
  | outOfBudget

/-- an exception of the source -/
def DecodeError.Genuine : DecodeError → Prop
  | .wrongEncoding _ cause => cause.Genuine
  | .outOfBudget => False
  | _ => True

abbrev Decoding (α : Type) := Fallible DecodeError ByteReader α

def getUByte : Decoding ℕ := do
  let reader ← get
  match reader.rest with
  | [] => throw .underflow
  | b :: rest =>
    modify fun _ => { position := reader.position + 1, rest }
    pure b.toNat

def peekByte : Decoding UInt8 := do
  let reader ← get
  getOrThrow reader.rest.head? .underflow

def getBytes (n : ℕ) : Decoding Bytes := do
  let reader ← get
  throwIf (reader.remaining < n) .underflow
  modify fun _ => { position := reader.position + n, rest := reader.rest.drop n }
  pure (reader.rest.take n)

/-- the loop of `calcLength`; a length of eight bytes with the highest bit set, negative as a long, is above every int
here, and refused with the same exception -/
def addBytes : ℕ → ℕ → Decoding ℕ
  | 0, length => pure length
  | pow + 1, length => do
    let b ← getUByte
    addBytes pow (length + b * 256 ^ pow)

def INTEGER_MAX_VALUE : ℕ := 2 ^ 31 - 1

def calcLength (lengthOfLength : ℕ) : Decoding ℕ := do
  if 1 < lengthOfLength then
    let initialByteValue ← peekByte
    throwIf (initialByteValue = 0) .lengthNotMinimal
  let length ← addBytes lengthOfLength 0
  throwIf (INTEGER_MAX_VALUE < length) .tooManyBytes
  pure length

/-- the bytes of a string, when there are so many -/
def getChecked (strLen : ℕ) : Decoding Bytes := do
  let reader ← get
  throwIf (reader.remaining < strLen) (.lengthMismatch reader.remaining strLen)
  getBytes strLen

/-- one pass of the loop of `traverse`, which is called for the lists inside -/
def readItem (traverse : ℤ → Decoding (List RlpType)) : Decoding RlpType := do
  let first ← getUByte
  if first < OFFSET_SHORT_STRING then
    pure (.rlpString [UInt8.ofNat first])
  else if first = OFFSET_SHORT_STRING then
    pure (.rlpString [])
  else if first ≤ OFFSET_LONG_STRING then do
    let strLen := first - OFFSET_SHORT_STRING
    let rlpData ← getChecked strLen
    throwIf (strLen = 1 ∧ value rlpData < OFFSET_SHORT_STRING) .oneByteNotMinimal
    pure (.rlpString rlpData)
  else if first < OFFSET_SHORT_LIST then do
    let strLen ← calcLength (first - OFFSET_LONG_STRING)
    throwIf (strLen < 56) (.tooSmall strLen)
    let rlpData ← getChecked strLen
    pure (.rlpString rlpData)
  else if first ≤ OFFSET_LONG_LIST then do
    let newLevelList ← traverse (first - OFFSET_SHORT_LIST : ℕ)
    pure (.rlpList newLevelList)
  else do
    let listLen ← calcLength (first - OFFSET_LONG_LIST)
    throwIf (listLen < 56) (.tooSmall listLen)
    let newLevelList ← traverse listLen
    pure (.rlpList newLevelList)

/-- an exception is wrapped with the position where it was thrown -/
def wrapping {α : Type} (x : Decoding α) : Decoding α := ExceptT.mk fun reader =>
  match exec x reader with
  | (.ok a, reader') => (.ok a, reader')
  | (.error e, reader') => (.error (.wrongEncoding reader'.position e), reader')

/-- `traverse` around its loop, which is given the position at its start -/
def traverse (loop : ℕ → Decoding (List RlpType)) (levelBytesToRead : ℤ) : Decoding (List RlpType) :=
  wrapping do
    let reader ← get
    if reader.remaining = 0 then
      pure []
    else do
      throwIf ((reader.remaining : ℤ) < levelBytesToRead) .invalidParameters
      loop reader.position

/-- the reading of the start level, or of an inner level, is complete -/
def levelComplete (levelBytesToRead : ℤ) (startLevelConsumedBytes consumedBytes : ℕ) : Prop :=
  if levelBytesToRead < 0 then startLevelConsumedBytes < consumedBytes
  else startLevelConsumedBytes + levelBytesToRead = consumedBytes

instance (level : ℤ) (start consumed : ℕ) : Decidable (levelComplete level start consumed) :=
  inferInstanceAs (Decidable (ite _ _ _))

/-- the loop of `traverse`, with at most `budget` passes on each level -/
def loop : ℕ → ℤ → ℕ → Decoding (List RlpType)
  | 0, _, _ => throw .outOfBudget
  | budget + 1, levelBytesToRead, startLevelConsumedBytes => do
    let reader ← get
    if reader.remaining = 0 ∨ levelComplete levelBytesToRead startLevelConsumedBytes reader.position then
      pure []
    else do
      let item ← readItem fun level => traverse (loop budget level) level
      let rlpList ← loop budget levelBytesToRead startLevelConsumedBytes
      pure (item :: rlpList)

def decode : Decoding (List RlpType) := do
  let reader ← get
  traverse (loop (reader.remaining + 1) (-1)) (-1)

/-! ## The parts of the reader -/

section Parts

variable {α : Type} {p : ℕ} {x : Bytes} {r r' : ByteReader}

theorem exec_getUByte (b : UInt8) : exec getUByte ⟨p, b :: x⟩ = (.ok b.toNat, ⟨p + 1, x⟩) := rfl

theorem exec_getUByte_bind (b : UInt8) (f : ℕ → Decoding α) :
    exec (getUByte >>= f) ⟨p, b :: x⟩ = exec (f b.toNat) ⟨p + 1, x⟩ := exec_bind_of_ok (exec_getUByte b)

theorem exec_peekByte_bind (b : UInt8) (f : UInt8 → Decoding α) :
    exec (peekByte >>= f) ⟨p, b :: x⟩ = exec (f b) ⟨p, b :: x⟩ :=
  exec_bind_of_ok (show exec peekByte ⟨p, b :: x⟩ = (.ok b, ⟨p, b :: x⟩) from rfl)

theorem exec_getChecked (bs : Bytes) :
    exec (getChecked bs.length) ⟨p, bs ++ x⟩ = (.ok bs, ⟨p + bs.length, x⟩) := by
  have hle : ¬ remaining ⟨p, bs ++ x⟩ < bs.length := by simp [remaining]
  rw [getChecked, exec_get_bind, exec_throwIf_neg_bind hle, getBytes, exec_get_bind, exec_throwIf_neg_bind hle,
    exec_modify_bind, exec_pure]
  simp

theorem exec_addBytes (bs : Bytes) (n : ℕ) :
    exec (addBytes bs.length n) ⟨p, bs ++ x⟩ = (.ok (n + value bs), ⟨p + bs.length, x⟩) := by
  induction bs generalizing n p with
  | nil => rfl
  | cons b bs ih =>
    rw [List.cons_append, List.length_cons, addBytes, exec_getUByte_bind, ih, value_cons, Nat.add_assoc n,
      Nat.add_assoc p, Nat.add_comm 1]

/-- a length is read from bytes without leading zeros, and is an int -/
theorem exec_calcLength_ok {bs : Bytes} (hne : bs ≠ []) {n : ℕ} :
    exec (calcLength bs.length) ⟨p, bs ++ x⟩ = (.ok n, r) ↔
      (1 < bs.length → NoLeadingZero bs) ∧ value bs ≤ INTEGER_MAX_VALUE ∧ n = value bs ∧
        r = ⟨p + bs.length, x⟩ := by
  have hrest : exec (do
        let length ← addBytes bs.length 0
        throwIf (INTEGER_MAX_VALUE < length) .tooManyBytes
        pure length) ⟨p, bs ++ x⟩ = (.ok n, r) ↔
      value bs ≤ INTEGER_MAX_VALUE ∧ n = value bs ∧ r = ⟨p + bs.length, x⟩ := by
    rw [exec_bind_of_ok (exec_addBytes bs 0), exec_throwIf_bind_ok, exec_pure, Nat.zero_add, Prod.mk.injEq,
      Except.ok.injEq, not_lt, eq_comm, @eq_comm _ _ r]
  by_cases hlen : 1 < bs.length
  · obtain ⟨b, bs, rfl⟩ := List.exists_cons_of_ne_nil hne
    have hmin : NoLeadingZero (b :: bs) ↔ ¬ b = 0 := by simp [NoLeadingZero]
    rw [calcLength, if_pos hlen, List.cons_append, exec_peekByte_bind, exec_throwIf_bind_ok, hmin, ← List.cons_append,
      hrest]
    exact and_congr_left fun _ => ⟨fun h _ => h, fun h => h hlen⟩
  · rw [calcLength, if_neg hlen]
    exact hrest.trans ⟨fun h => ⟨fun h1 => absurd h1 hlen, h⟩, And.right⟩

end Parts

/-! ## One item, by its header -/

section Items

variable {p n : ℕ} {x y bs lb : Bytes} {r : ByteReader} {t : RlpType} {traverse : ℤ → Decoding (List RlpType)}

/-- a length in the form the encoder writes it -/
def WrittenLength (lb : Bytes) : Prop :=
  55 < value lb ∧ value lb ≤ INTEGER_MAX_VALUE ∧ lb = toMinimalByteArray (value lb)

/-- what is checked about a length: that it is written as the encoder writes it -/
theorem checked_length_iff (hne : lb ≠ []) :
    ((1 < lb.length → NoLeadingZero lb) ∧ value lb ≤ INTEGER_MAX_VALUE ∧ ¬ value lb < 56) ↔ WrittenLength lb := by
  constructor
  · rintro ⟨hzero, hmax, hmin⟩
    have hno : NoLeadingZero lb := by
      by_cases hlen : 1 < lb.length
      · exact hzero hlen
      · obtain ⟨b, bs, rfl⟩ := List.exists_cons_of_ne_nil hne
        obtain rfl : bs = [] := List.length_eq_zero_iff.1 (by rw [List.length_cons] at hlen; omega)
        rintro hb
        obtain rfl : b = 0 := by simpa using hb
        exact hmin (by decide)
    have hlt : value lb < 2 ^ 32 := hmax.trans_lt (by norm_num [INTEGER_MAX_VALUE])
    exact ⟨by omega, hmax, (toMinimalByteArray_value hno hlt).symm⟩
  · rintro ⟨hmin, hmax, heq⟩
    exact ⟨fun _ => heq ▸ noLeadingZero_toMinimalByteArray _, hmax, by omega⟩

theorem writtenLength_toMinimalByteArray (hlong : 55 < n) (hmax : n ≤ INTEGER_MAX_VALUE) :
    WrittenLength (toMinimalByteArray n) := by
  have hv : value (toMinimalByteArray n) = n :=
    value_toMinimalByteArray (hmax.trans_lt (by norm_num [INTEGER_MAX_VALUE]))
  rw [WrittenLength, hv]
  exact ⟨hlong, hmax, rfl⟩

theorem offsets : OFFSET_SHORT_STRING = 0x80 ∧ OFFSET_LONG_STRING = 0xb7 ∧ OFFSET_SHORT_LIST = 0xc0 ∧
    OFFSET_LONG_LIST = 0xf7 := ⟨rfl, rfl, rfl, rfl⟩

/-- the number of a header byte -/
theorem toNat_header (h : n < 256) : (UInt8.ofNat n).toNat = n := UInt8.toNat_ofNat_of_lt h

theorem readItem_byte {b : UInt8} (h : b < 0x80) :
    exec (readItem traverse) ⟨p, b :: x⟩ = (.ok (.rlpString [b]), ⟨p + 1, x⟩) := by
  have hb : b.toNat < OFFSET_SHORT_STRING := UInt8.lt_iff_toNat_lt.1 h
  rw [readItem, exec_getUByte_bind, if_pos hb, UInt8.ofNat_toNat, exec_pure]

theorem readItem_shortString_ok (h : bs.length ≤ 55) :
    exec (readItem traverse) ⟨p, UInt8.ofNat (OFFSET_SHORT_STRING + bs.length) :: (bs ++ x)⟩ = (.ok t, r) ↔
      ¬ (bs.length = 1 ∧ value bs < OFFSET_SHORT_STRING) ∧ t = .rlpString bs ∧ r = ⟨p + 1 + bs.length, x⟩ := by
  obtain ⟨h1, h2, h3, h4⟩ := offsets
  rw [readItem, exec_getUByte_bind, toNat_header (by omega), if_neg (by omega)]
  by_cases hnil : bs = []
  · subst hnil
    simp [@eq_comm _ t, @eq_comm _ r]
  · have hlen : 0 < bs.length := List.length_pos_iff.2 hnil
    rw [if_neg (by omega), if_pos (by omega), Nat.add_sub_cancel_left, exec_bind_of_ok (exec_getChecked bs),
      exec_throwIf_bind_ok, exec_pure, Prod.mk.injEq, Except.ok.injEq, @eq_comm _ t, @eq_comm _ r]

theorem readItem_longString_ok (hne : lb ≠ []) (h8 : lb.length ≤ 8) (hv : value lb = bs.length) :
    exec (readItem traverse) ⟨p, UInt8.ofNat (OFFSET_LONG_STRING + lb.length) :: (lb ++ (bs ++ x))⟩ = (.ok t, r) ↔
      WrittenLength lb ∧ t = .rlpString bs ∧ r = ⟨p + 1 + lb.length + bs.length, x⟩ := by
  have hlen : 0 < lb.length := List.length_pos_iff.2 hne
  obtain ⟨h1, h2, h3, h4⟩ := offsets
  rw [readItem, exec_getUByte_bind, toNat_header (by omega), if_neg (by omega), if_neg (by omega), if_neg (by omega),
    if_pos (by omega), Nat.add_sub_cancel_left, exec_bind_ok,
    ← checked_length_iff hne]
  constructor
  · rintro ⟨n, r1, hcalc, h⟩
    obtain ⟨hzero, hmax, rfl, rfl⟩ := (exec_calcLength_ok hne).1 hcalc
    obtain ⟨hmin, h⟩ := exec_throwIf_bind_ok.1 h
    rw [hv, exec_bind_of_ok (exec_getChecked bs), exec_pure] at h
    cases h
    exact ⟨⟨hzero, hmax, hmin⟩, rfl, rfl⟩
  · rintro ⟨⟨hzero, hmax, hmin⟩, rfl, rfl⟩
    refine ⟨value lb, _, (exec_calcLength_ok hne).2 ⟨hzero, hmax, rfl, rfl⟩, exec_throwIf_bind_ok.2 ⟨hmin, ?_⟩⟩
    rw [hv, exec_bind_of_ok (exec_getChecked bs), exec_pure]

theorem readItem_shortList_ok (h : n ≤ 55) :
    exec (readItem traverse) ⟨p, UInt8.ofNat (OFFSET_SHORT_LIST + n) :: y⟩ = (.ok t, r) ↔
      ∃ values, exec (traverse n) ⟨p + 1, y⟩ = (.ok values, r) ∧ t = .rlpList values := by
  obtain ⟨h1, h2, h3, h4⟩ := offsets
  rw [readItem, exec_getUByte_bind, toNat_header (by omega), if_neg (by omega), if_neg (by omega), if_neg (by omega),
    if_neg (by omega), if_pos (by omega),
    Nat.add_sub_cancel_left, exec_bind_ok]
  constructor
  · rintro ⟨values, r1, htraverse, h⟩
    cases h
    exact ⟨values, htraverse, rfl⟩
  · rintro ⟨values, htraverse, rfl⟩
    exact ⟨values, r, htraverse, rfl⟩

theorem readItem_longList_ok (hne : lb ≠ []) (h8 : lb.length ≤ 8) :
    exec (readItem traverse) ⟨p, UInt8.ofNat (OFFSET_LONG_LIST + lb.length) :: (lb ++ y)⟩ = (.ok t, r) ↔
      WrittenLength lb ∧
        ∃ values, exec (traverse (value lb)) ⟨p + 1 + lb.length, y⟩ = (.ok values, r) ∧ t = .rlpList values := by
  have hlen : 0 < lb.length := List.length_pos_iff.2 hne
  obtain ⟨h1, h2, h3, h4⟩ := offsets
  rw [readItem, exec_getUByte_bind, toNat_header (by omega), if_neg (by omega), if_neg (by omega), if_neg (by omega),
    if_neg (by omega), if_neg (by omega),
    Nat.add_sub_cancel_left, exec_bind_ok, ← checked_length_iff hne]
  constructor
  · rintro ⟨n, r1, hcalc, h⟩
    obtain ⟨hzero, hmax, rfl, rfl⟩ := (exec_calcLength_ok hne).1 hcalc
    obtain ⟨hmin, h⟩ := exec_throwIf_bind_ok.1 h
    obtain ⟨values, r2, htraverse, h⟩ := exec_bind_ok.1 h
    cases h
    exact ⟨⟨hzero, hmax, hmin⟩, values, htraverse, rfl⟩
  · rintro ⟨⟨hzero, hmax, hmin⟩, values, htraverse, rfl⟩
    refine ⟨value lb, _, (exec_calcLength_ok hne).2 ⟨hzero, hmax, rfl, rfl⟩, exec_throwIf_bind_ok.2 ⟨hmin, ?_⟩⟩
    exact exec_bind_ok.2 ⟨values, r, htraverse, rfl⟩

end Items

/-! ## Levels -/

section Levels

variable {p start budget : ℕ} {level : ℤ} {x : Bytes} {r r' : ByteReader} {t : RlpType} {values : List RlpType}

theorem exec_wrapping_ok {α : Type} {x : Decoding α} {a : α} :
    exec (wrapping x) r = (.ok a, r') ↔ exec x r = (.ok a, r') := by
  have hexec : exec (wrapping x) r = match exec x r with
      | (.ok a, reader') => (.ok a, reader')
      | (.error e, reader') => (.error (.wrongEncoding reader'.position e), reader') := rfl
  rw [hexec]
  rcases exec x r with ⟨_ | _, r1⟩ <;> simp

theorem exec_traverse_nil {loop : ℕ → Decoding (List RlpType)} (h : r.rest = []) :
    exec (traverse loop level) r = (.ok [], r) := by
  have hzero : r.remaining = 0 := by rw [remaining, h, List.length_nil]
  rw [traverse, exec_wrapping_ok, exec_get_bind, if_pos hzero, exec_pure]

theorem exec_traverse_ok {loop : ℕ → Decoding (List RlpType)} (h : r.rest ≠ []) :
    exec (traverse loop level) r = (.ok values, r') ↔
      level ≤ r.remaining ∧ exec (loop r.position) r = (.ok values, r') := by
  have hpos : ¬ r.remaining = 0 := by rwa [remaining, List.length_eq_zero_iff]
  rw [traverse, exec_wrapping_ok, exec_get_bind, if_neg hpos, exec_throwIf_bind_ok, not_lt]

theorem exec_loop_stop (h : r.rest = [] ∨ levelComplete level start r.position) :
    exec (loop (budget + 1) level start) r = (.ok [], r) := by
  have hstop : r.remaining = 0 ∨ levelComplete level start r.position := by rwa [remaining, List.length_eq_zero_iff]
  rw [loop, exec_get_bind, if_pos hstop, exec_pure]

/-- the item read in a pass of the loop with this budget for what follows -/
abbrev readNext (budget : ℕ) : Decoding RlpType := readItem fun level => traverse (loop budget level) level

theorem exec_loop_ok (hrest : r.rest ≠ []) (hlevel : ¬ levelComplete level start r.position) :
    exec (loop (budget + 1) level start) r = (.ok values, r') ↔
      ∃ t ts r1, exec (readNext budget) r = (.ok t, r1) ∧ exec (loop budget level start) r1 = (.ok ts, r') ∧
        values = t :: ts := by
  have hgo : ¬ (r.remaining = 0 ∨ levelComplete level start r.position) := by
    rw [remaining, List.length_eq_zero_iff]
    exact not_or.2 ⟨hrest, hlevel⟩
  rw [loop, exec_get_bind, if_neg hgo, exec_bind_ok]
  constructor
  · rintro ⟨t, r1, hitem, h⟩
    obtain ⟨ts, r2, hloop, h⟩ := exec_bind_ok.1 h
    cases h
    exact ⟨t, ts, r1, hitem, hloop, rfl⟩
  · rintro ⟨t, ts, r1, hitem, hloop, rfl⟩
    exact ⟨t, r1, hitem, exec_bind_ok.2 ⟨ts, r', hloop, rfl⟩⟩

/-- an inner level is complete where the position is at its end -/
theorem levelComplete_inner (n start position : ℕ) : levelComplete n start position ↔ position = start + n := by
  rw [levelComplete, if_neg (by omega)]
  omega

/-- the start level is complete once the position has moved -/
theorem levelComplete_start (start position : ℕ) : levelComplete (-1) start position ↔ start < position := by
  rw [levelComplete, if_pos (by decide)]

end Levels

/-! ## The budget -/

section Budget

variable {α β : Type} {d e b : ℕ}

/-- with at most `b` bytes left the computation ends with a result, having taken at least `d` of them, or with an
exception of the source -/
def Ends (d b : ℕ) (x : Decoding α) : Prop :=
  ∀ r, r.remaining ≤ b → FailsOnly DecodeError.Genuine (exec x r).1 ∧
    ∀ a r', exec x r = (.ok a, r') → r'.remaining + d ≤ r.remaining

theorem Ends.bind {x : Decoding α} {f : α → Decoding β} (hx : Ends d (b + d) x) (hf : ∀ a, Ends e b (f a)) :
    Ends (d + e) (b + d) (x >>= f) := by
  intro r hr
  obtain ⟨hgenuine, htaken⟩ := hx r hr
  constructor
  · rw [failsOnly_exec_bind]
    refine ⟨hgenuine, fun a r1 h1 => (hf a r1 ?_).1⟩
    have h := htaken a r1 h1
    omega
  · intro c r' h
    obtain ⟨a, r1, h1, h2⟩ := exec_bind_ok.1 h
    have hleft := htaken a r1 h1
    have hright := (hf a r1 (by omega)).2 c r' h2
    omega

theorem Ends.bind_zero {x : Decoding α} {f : α → Decoding β} (hx : Ends 0 b x) (hf : ∀ a, Ends 0 b (f a)) :
    Ends 0 b (x >>= f) := hx.bind hf

theorem ends_pure (a : α) : Ends 0 b (pure a) := by
  rintro r -
  refine ⟨trivial, fun c r' h => ?_⟩
  cases h
  exact le_rfl

theorem ends_throw {e : DecodeError} (he : e.Genuine) : Ends d b (throw e : Decoding α) := by
  rintro r -
  refine ⟨he, fun c r' h => ?_⟩
  cases h

theorem ends_throwIf {c : Prop} [Decidable c] {e : DecodeError} (he : e.Genuine) : Ends 0 b (throwIf c e) := by
  unfold throwIf
  split_ifs
  · exact ends_throw he
  · exact ends_pure ()

theorem ends_get_bind {f : ByteReader → Decoding α} (hf : ∀ r, Ends d b (f r)) : Ends d b (get >>= f) := by
  intro r hr
  rw [exec_get_bind]
  exact hf r r hr

theorem ends_getUByte : Ends 1 b getUByte := by
  rintro ⟨p, _ | ⟨c, x⟩⟩ -
  · exact ⟨trivial, fun a r' h => by cases h⟩
  · refine ⟨trivial, fun a r' h => ?_⟩
    cases h
    exact le_rfl

theorem ends_peekByte : Ends 0 b peekByte := by
  rintro ⟨p, _ | ⟨c, x⟩⟩ -
  · exact ⟨trivial, fun a r' h => by cases h⟩
  · refine ⟨trivial, fun a r' h => ?_⟩
    cases h
    exact le_rfl

theorem ends_getBytes (n : ℕ) : Ends 0 b (getBytes n) := by
  rintro r -
  by_cases hn : r.remaining < n
  · have hexec : exec (getBytes n) r = (.error .underflow, r) := by
      rw [getBytes, exec_get_bind, exec_throwIf_pos_bind hn]
    rw [hexec]
    exact ⟨trivial, fun a r' h => by cases h⟩
  · have hexec : exec (getBytes n) r = (.ok (r.rest.take n), ⟨r.position + n, r.rest.drop n⟩) := by
      rw [getBytes, exec_get_bind, exec_throwIf_neg_bind hn, exec_modify_bind, exec_pure]
    rw [hexec]
    refine ⟨trivial, fun a r' h => ?_⟩
    cases h
    rw [remaining, remaining, List.length_drop]
    omega

theorem ends_getChecked (n : ℕ) : Ends 0 b (getChecked n) :=
  ends_get_bind fun r => (ends_throwIf (show DecodeError.Genuine (.lengthMismatch r.remaining n) from trivial)).bind_zero
    fun _ => ends_getBytes n

theorem Ends.weaken {x : Decoding α} (h : Ends d b x) : Ends 0 b x := fun r hr =>
  ⟨(h r hr).1, fun a r' hok => (Nat.le_add_right _ d).trans ((h r hr).2 a r' hok)⟩

theorem ends_addBytes (k n : ℕ) : Ends 0 b (addBytes k n) := by
  induction k generalizing n with
  | zero => exact ends_pure n
  | succ k ih => exact ends_getUByte.weaken.bind_zero fun c => ih (n + c * 256 ^ k)

theorem ends_calcLength (k : ℕ) : Ends 0 b (calcLength k) := by
  have hrest : Ends 0 b (do
      let length ← addBytes k 0
      throwIf (INTEGER_MAX_VALUE < length) .tooManyBytes
      pure length) :=
    (ends_addBytes k 0).bind_zero fun n =>
      (ends_throwIf (show DecodeError.tooManyBytes.Genuine from trivial)).bind_zero fun _ => ends_pure n
  unfold calcLength
  split_ifs
  · exact ends_peekByte.bind_zero fun c =>
      (ends_throwIf (show DecodeError.lengthNotMinimal.Genuine from trivial)).bind_zero fun _ => hrest
  · exact hrest

theorem ends_readItem {traverse : ℤ → Decoding (List RlpType)} (h : ∀ level, Ends 0 b (traverse level)) :
    Ends 1 (b + 1) (readItem traverse) := by
  refine ends_getUByte.bind (e := 0) fun first => ?_
  split_ifs
  · exact ends_pure _
  · exact ends_pure _
  · exact (ends_getChecked _).bind_zero fun data =>
      (ends_throwIf (show DecodeError.oneByteNotMinimal.Genuine from trivial)).bind_zero fun _ => ends_pure _
  · exact (ends_calcLength _).bind_zero fun n =>
      (ends_throwIf (show DecodeError.Genuine (.tooSmall n) from trivial)).bind_zero fun _ =>
        (ends_getChecked n).bind_zero fun data => ends_pure _
  · exact (h _).bind_zero fun values => ends_pure _
  · exact (ends_calcLength _).bind_zero fun n =>
      (ends_throwIf (show DecodeError.Genuine (.tooSmall n) from trivial)).bind_zero fun _ =>
        (h n).bind_zero fun values => ends_pure _

theorem ends_wrapping {x : Decoding α} (h : Ends 0 b x) : Ends 0 b (wrapping x) := by
  intro r hr
  obtain ⟨hgenuine, htaken⟩ := h r hr
  refine ⟨?_, fun a r' hok => htaken a r' (exec_wrapping_ok.1 hok)⟩
  have hexec : exec (wrapping x) r = match exec x r with
      | (.ok a, reader') => (.ok a, reader')
      | (.error e, reader') => (.error (.wrongEncoding reader'.position e), reader') := rfl
  rw [hexec]
  rcases hx : exec x r with ⟨e | a, r1⟩
  · rw [hx] at hgenuine
    exact hgenuine
  · trivial

theorem ends_traverse {loop : ℕ → Decoding (List RlpType)} (h : ∀ start, Ends 0 b (loop start)) (level : ℤ) :
    Ends 0 b (traverse loop level) := by
  refine ends_wrapping (ends_get_bind fun r => ?_)
  split_ifs
  · exact ends_pure []
  · exact (ends_throwIf (show DecodeError.invalidParameters.Genuine from trivial)).bind_zero fun _ => h r.position

/-- a budget above the number of bytes is not used up -/
theorem ends_loop (b : ℕ) (level : ℤ) (start : ℕ) : Ends 0 b (loop (b + 1) level start) := by
  induction b generalizing level start with
  | zero =>
    intro r hr
    have hstop : exec (loop 1 level start) r = (.ok [], r) :=
      exec_loop_stop (.inl (List.length_eq_zero_iff.1 (Nat.le_zero.1 hr)))
    rw [hstop]
    refine ⟨trivial, fun a r' h => ?_⟩
    cases h
    exact le_rfl
  | succ b ih =>
    rw [loop]
    refine ends_get_bind fun r => ?_
    split_ifs
    · exact ends_pure []
    · have hitem : Ends 1 (b + 1) (readNext (b + 1)) := ends_readItem fun level => ends_traverse (ih level) level
      exact (hitem.bind fun item => (ih level start).bind_zero fun rlpList => ends_pure _).weaken

/-- what is thrown from `decode` is an exception of the source -/
theorem decode_genuine (r : ByteReader) : FailsOnly DecodeError.Genuine (exec decode r).1 := by
  rw [decode, exec_get_bind]
  exact (ends_traverse (ends_loop r.remaining (-1)) (-1) r le_rfl).1

end Budget

/-! ## Decoding undoes encoding -/

section RoundTrip

variable {p start budget : ℕ} {x : Bytes}

/-- from its encoding, and whatever follows, the tree is read -/
def ReadBack (t : RlpType) (budget : ℕ) : Prop :=
  ∀ p x, exec (readNext budget) ⟨p, encode t ++ x⟩ = (.ok t, ⟨p + (encode t).length, x⟩)

theorem loop_values {values : List RlpType} (hread : ∀ t ∈ values, ∀ budget, (encode t).length ≤ budget →
    ReadBack t budget)
    (hbudget : (values.flatMap encode).length < budget) {n : ℕ} (hend : p + (values.flatMap encode).length = start + n) :
    exec (loop budget n start) ⟨p, values.flatMap encode ++ x⟩ =
      (.ok values, ⟨p + (values.flatMap encode).length, x⟩) := by
  induction values generalizing p budget with
  | nil =>
    obtain ⟨budget, rfl⟩ := Nat.exists_eq_succ_of_ne_zero (Nat.ne_of_gt hbudget)
    exact exec_loop_stop (.inr ((levelComplete_inner n start p).2 hend))
  | cons t ts ih =>
    obtain ⟨budget, rfl⟩ := Nat.exists_eq_succ_of_ne_zero (Nat.ne_of_gt (Nat.zero_lt_of_lt hbudget))
    have hpos := length_encode_pos t
    rw [List.flatMap_cons, List.length_append] at hend hbudget
    have hgo : ¬ levelComplete n start p := by
      rw [levelComplete_inner]
      omega
    have hfirst := hread t List.mem_cons_self budget (by omega) p (ts.flatMap encode ++ x)
    have hrest : exec (loop budget n start) ⟨p + (encode t).length, ts.flatMap encode ++ x⟩ =
        (.ok ts, ⟨p + (encode t).length + (ts.flatMap encode).length, x⟩) :=
      ih (fun v hv => hread v (List.mem_cons_of_mem _ hv)) (by omega) (by omega)
    rw [List.flatMap_cons, List.append_assoc, List.length_append, ← Nat.add_assoc]
    exact (exec_loop_ok (by simp [encode_ne_nil]) hgo).2 ⟨t, ts, _, hfirst, hrest, rfl⟩

theorem readBack_string {bytes : Bytes} (hmax : (encode (.rlpString bytes)).length ≤ INTEGER_MAX_VALUE) (budget : ℕ) :
    ReadBack (.rlpString bytes) budget := by
  intro p x
  rw [encode] at hmax ⊢
  by_cases hbyte : bytes.length = 1 ∧ value bytes < OFFSET_SHORT_STRING
  · obtain ⟨b, rfl⟩ := List.length_eq_one_iff.1 hbyte.1
    have hb : b < 0x80 := UInt8.lt_iff_toNat_lt.2 (by simpa [OFFSET_SHORT_STRING] using hbyte.2)
    rw [encodeString_byte hb]
    exact readItem_byte hb
  · rw [encodeString_header hbyte] at hmax ⊢
    by_cases hshort : bytes.length ≤ 55
    · rw [header_short hshort]
      refine (readItem_shortString_ok hshort).2 ⟨hbyte, rfl, ?_⟩
      rw [List.length_append, List.length_singleton, Nat.add_assoc p]
    · have hlong : 55 < bytes.length := by omega
      have hlen : bytes.length ≤ INTEGER_MAX_VALUE := by
        rw [List.length_append] at hmax
        omega
      have hlt : bytes.length < 2 ^ 32 := hlen.trans_lt (by norm_num [INTEGER_MAX_VALUE])
      have h4 := length_toMinimalByteArray_le bytes.length
      have hne := List.length_pos_iff.1 (length_toMinimalByteArray_pos (by omega) hlt)
      rw [header_long hlong, List.cons_append, List.cons_append, List.append_assoc]
      refine (readItem_longString_ok hne (by omega) (value_toMinimalByteArray hlt)).2
        ⟨writtenLength_toMinimalByteArray hlong hlen, rfl, ?_⟩
      rw [List.length_cons, List.length_append]
      congr 1
      omega

theorem traverse_values {values : List RlpType}
    (hread : ∀ t ∈ values, ∀ budget, (encode t).length ≤ budget → ReadBack t budget) {n : ℕ}
    (hn : n = (values.flatMap encode).length) (hbudget : n < budget) :
    exec (traverse (loop budget n) n) ⟨p, values.flatMap encode ++ x⟩ = (.ok values, ⟨p + n, x⟩) := by
  subst hn
  by_cases hnil : values.flatMap encode ++ x = []
  · obtain ⟨hpayload, rfl⟩ := List.append_eq_nil_iff.1 hnil
    have hvalues : values = [] :=
      List.eq_nil_iff_forall_not_mem.2 fun t ht => encode_ne_nil t (List.flatMap_eq_nil_iff.1 hpayload t ht)
    subst hvalues
    exact exec_traverse_nil rfl
  · refine (exec_traverse_ok hnil).2 ⟨?_, loop_values hread hbudget rfl⟩
    simp [remaining]

theorem readBack_list {values : List RlpType}
    (hread : ∀ t ∈ values, ∀ budget, (encode t).length ≤ budget → ReadBack t budget)
    (hmax : (encode (.rlpList values)).length ≤ INTEGER_MAX_VALUE)
    (hbudget : (encode (.rlpList values)).length ≤ budget) : ReadBack (.rlpList values) budget := by
  intro p x
  rw [encode_list_eq, encodeNestedList] at hmax hbudget ⊢
  rw [List.append_assoc]
  rw [List.length_append] at hmax hbudget ⊢
  have hpos := List.length_pos_iff.2 (header_ne_nil OFFSET_SHORT_LIST (values.flatMap encode).length)
  have hinner : (values.flatMap encode).length < budget := by omega
  by_cases hshort : (values.flatMap encode).length ≤ 55
  · rw [header_short hshort]
    refine (readItem_shortList_ok hshort).2 ⟨values, ?_, rfl⟩
    rw [List.length_singleton, ← Nat.add_assoc]
    exact traverse_values hread rfl hinner
  · have hlong : 55 < (values.flatMap encode).length := by omega
    have hlen : (values.flatMap encode).length ≤ INTEGER_MAX_VALUE := by omega
    have hlt : (values.flatMap encode).length < 2 ^ 32 := hlen.trans_lt (by norm_num [INTEGER_MAX_VALUE])
    have h4 := length_toMinimalByteArray_le (values.flatMap encode).length
    have hne := List.length_pos_iff.1 (length_toMinimalByteArray_pos (by omega) hlt)
    rw [header_long hlong]
    refine (readItem_longList_ok hne (by omega)).2 ⟨writtenLength_toMinimalByteArray hlong hlen, values, ?_, rfl⟩
    rw [value_toMinimalByteArray hlt, traverse_values hread rfl hinner, List.length_cons]
    congr 2
    omega

theorem readBack (t : RlpType) (hmax : (encode t).length ≤ INTEGER_MAX_VALUE) (budget : ℕ)
    (hbudget : (encode t).length ≤ budget) : ReadBack t budget := by
  induction t using RlpType.tree_induction generalizing budget with
  | rlpString bytes => exact readBack_string hmax budget
  | rlpList values ih =>
    refine readBack_list (fun t ht => ih t ht ?_) hmax hbudget
    have hle : (encode t).length ≤ (values.flatMap encode).length := by
      rw [List.length_flatMap]
      exact List.le_sum_of_mem (List.mem_map_of_mem ht)
    rw [encode_list_eq, encodeNestedList, List.length_append] at hmax
    omega

/-- what is read back is also decoded, as the one item of the result -/
theorem exec_decode_of_readBack {t : RlpType} (hread : ∀ budget, (encode t).length ≤ budget → ReadBack t budget) :
    exec decode ⟨p, encode t ++ x⟩ = (.ok [t], ⟨p + (encode t).length, x⟩) := by
  have hpos := length_encode_pos t
  have hne : encode t ++ x ≠ [] := List.append_ne_nil_of_left_ne_nil (encode_ne_nil t) x
  have hremaining : remaining ⟨p, encode t ++ x⟩ = (encode t).length + x.length := List.length_append
  have hfirst := hread ((encode t).length + x.length) (by omega) p x
  -- after the item the level is complete: the position has moved
  have hrest : exec (loop ((encode t).length + x.length) (-1) p) ⟨p + (encode t).length, x⟩ =
      (.ok [], ⟨p + (encode t).length, x⟩) := by
    obtain ⟨n, hn⟩ := Nat.exists_eq_succ_of_ne_zero (show (encode t).length + x.length ≠ 0 by omega)
    rw [hn]
    exact exec_loop_stop (.inr ((levelComplete_start _ _).2 (Nat.lt_add_of_pos_right hpos)))
  rw [decode, exec_get_bind, hremaining, exec_traverse_ok hne]
  refine ⟨by omega, (exec_loop_ok hne ?_).2 ⟨t, [], _, hfirst, hrest, rfl⟩⟩
  rw [levelComplete_start]
  exact Nat.lt_irrefl p

/-- From the encoding of any tree, as long as a byte array can be, and anything behind it, decoding takes off exactly the
encoding and returns the list of this one tree. -/
theorem decode_encode (t : RlpType) (hsize : (encode t).length < 2 ^ 31) (p : ℕ) (x : Bytes) :
    exec decode ⟨p, encode t ++ x⟩ = (.ok [t], ⟨p + (encode t).length, x⟩) :=
  exec_decode_of_readBack fun budget hbudget => readBack t (Nat.le_pred_of_lt hsize) budget hbudget

theorem decode_encode_nested :
    (encode (.rlpList [.rlpString [1], .rlpList []])).length < 2 ^ 31 ∧
      exec decode ⟨0, [0xc2, 0x01, 0xc0, 0x07]⟩ = (.ok [.rlpList [.rlpString [1], .rlpList []]], ⟨3, [0x07]⟩) :=
  ⟨by decide, decode_encode (.rlpList [.rlpString [1], .rlpList []]) (by decide) 0 [0x07]⟩

end RoundTrip

end SidechainsSdk.Account.Rlp
