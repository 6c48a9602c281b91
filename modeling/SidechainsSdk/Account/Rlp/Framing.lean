/-
What `RlpStreamDecoder` accepts.

`Framed` is the grammar of complete items: behind a header are as many bytes as it says, and those behind the header of a
list are complete items again. It asks nothing of the headers being the shortest ones; that is what the decoder checks.
It does not check the frames: a list whose bytes are missing is taken as it is at the end of the stream, and an item that
runs over the end of its list is taken whole, with all that follows it.

- `readNext_framed`: from a complete item the decoder takes off this item, and the item is the encoding of the tree.
- `consumes_encoding_iff`: so the bytes taken off are the encoding of the tree exactly where the stream starts with a
  complete item.
-/
import SidechainsSdk.Account.Rlp.Decoder

namespace SidechainsSdk.Account.Rlp

open BigEndian Fallible ByteReader

inductive Framed : Bytes → Prop where
  | byte (b : UInt8) (hb : b < 0x80) : Framed [b]
  | shortString (bytes : Bytes) (hlen : bytes.length ≤ 55) :
    Framed (UInt8.ofNat (OFFSET_SHORT_STRING + bytes.length) :: bytes)
  | longString (lb bytes : Bytes) (hne : lb ≠ []) (h8 : lb.length ≤ 8) (hvalue : value lb = bytes.length) :
    Framed (UInt8.ofNat (OFFSET_LONG_STRING + lb.length) :: (lb ++ bytes))
  | shortList (items : List Bytes) (hitems : ∀ item ∈ items, Framed item) (hlen : items.flatten.length ≤ 55) :
    Framed (UInt8.ofNat (OFFSET_SHORT_LIST + items.flatten.length) :: items.flatten)
  | longList (lb : Bytes) (items : List Bytes) (hitems : ∀ item ∈ items, Framed item) (hne : lb ≠ [])
    (h8 : lb.length ≤ 8) (hvalue : value lb = items.flatten.length) :
    Framed (UInt8.ofNat (OFFSET_LONG_LIST + lb.length) :: (lb ++ items.flatten))

theorem Framed.ne_nil {item : Bytes} (h : Framed item) : item ≠ [] := by cases h <;> exact List.cons_ne_nil _ _

/-! ## What the encoder writes is framed -/

theorem framed_string {bytes : Bytes} (hmax : bytes.length ≤ INTEGER_MAX_VALUE) : Framed (encodeString bytes) := by
  by_cases hbyte : bytes.length = 1 ∧ value bytes < OFFSET_SHORT_STRING
  · obtain ⟨b, rfl⟩ := List.length_eq_one_iff.1 hbyte.1
    have hb : b < 0x80 := UInt8.lt_iff_toNat_lt.2 (by simpa [OFFSET_SHORT_STRING] using hbyte.2)
    rw [encodeString_byte hb]
    exact .byte b hb
  · rw [encodeString_header hbyte]
    by_cases hshort : bytes.length ≤ 55
    · rw [header_short hshort]
      exact .shortString bytes hshort
    · have hlt : bytes.length < 2 ^ 32 := hmax.trans_lt (by norm_num [INTEGER_MAX_VALUE])
      have hne := List.length_pos_iff.1 (length_toMinimalByteArray_pos (show 0 < bytes.length by omega) hlt)
      have h4 := length_toMinimalByteArray_le bytes.length
      rw [header_long (by omega)]
      exact .longString _ bytes hne (by omega) (value_toMinimalByteArray hlt)

theorem framed_nestedList {items : List Bytes} (hitems : ∀ item ∈ items, Framed item)
    (hmax : items.flatten.length ≤ INTEGER_MAX_VALUE) : Framed (encodeNestedList items.flatten) := by
  rw [encodeNestedList]
  by_cases hshort : items.flatten.length ≤ 55
  · rw [header_short hshort]
    exact .shortList items hitems hshort
  · have hlt : items.flatten.length < 2 ^ 32 := hmax.trans_lt (by norm_num [INTEGER_MAX_VALUE])
    have hne := List.length_pos_iff.1 (length_toMinimalByteArray_pos (show 0 < items.flatten.length by omega) hlt)
    have h4 := length_toMinimalByteArray_le items.flatten.length
    rw [header_long (by omega)]
    exact .longList _ items hitems hne (by omega) (value_toMinimalByteArray hlt)

theorem framed_encode (t : RlpType) (hmax : (encode t).length ≤ INTEGER_MAX_VALUE) : Framed (encode t) := by
  induction t using RlpType.tree_induction with
  | rlpString bytes =>
    have hle : bytes.length ≤ (encode (.rlpString bytes)).length := by
      rw [encode]
      unfold encodeString
      split
      · split_ifs <;> simp
      · simp
    exact framed_string (hle.trans hmax)
  | rlpList values ih =>
    rw [encode_list_eq, List.flatMap_def] at hmax ⊢
    have hlen : (values.map encode).flatten.length ≤ INTEGER_MAX_VALUE := by
      rw [encodeNestedList, List.length_append] at hmax
      omega
    refine framed_nestedList (List.forall_mem_map.2 fun t ht => ih t ht ?_) hlen
    have hle : (encode t).length ≤ (values.map encode).flatten.length := by
      rw [List.length_flatten]
      exact List.le_sum_of_mem (List.mem_map_of_mem (List.mem_map_of_mem ht))
    exact hle.trans hlen

/-! ## What the decoder makes of framed bytes -/

/-- the tree read at the start of `item` is the one it encodes, and what follows is left -/
def ReadsCanonically (item : Bytes) : Prop :=
  ∀ budget p x t r, exec (readNext budget) ⟨p, item ++ x⟩ = (.ok t, r) → encode t = item ∧ r = ⟨p + item.length, x⟩

section Items

variable {items : List Bytes} {budget n start p : ℕ} {x : Bytes} {values : List RlpType} {r : ByteReader}

theorem loop_items (hitems : ∀ item ∈ items, Framed item) (hread : ∀ item ∈ items, ReadsCanonically item)
    (hend : p + items.flatten.length = start + n)
    (h : exec (loop budget n start) ⟨p, items.flatten ++ x⟩ = (.ok values, r)) :
    values.map encode = items ∧ r = ⟨p + items.flatten.length, x⟩ := by
  induction items generalizing p budget values with
  | nil =>
    cases budget with
    | zero => cases h
    | succ budget =>
      have hstop : exec (loop (budget + 1) n start) ⟨p, x⟩ = (.ok [], ⟨p, x⟩) :=
        exec_loop_stop (.inr ((levelComplete_inner n start p).2 hend))
      cases hstop.symm.trans h
      exact ⟨rfl, rfl⟩
  | cons item items ih =>
    cases budget with
    | zero => cases h
    | succ budget =>
      have hne := (hitems item List.mem_cons_self).ne_nil
      have hpos := List.length_pos_iff.2 hne
      rw [List.flatten_cons, List.length_append] at hend
      have hgo : ¬ levelComplete n start p := by
        rw [levelComplete_inner]
        omega
      rw [List.flatten_cons, List.append_assoc] at h
      obtain ⟨t, ts, r1, hfirst, hrest, rfl⟩ :=
        (exec_loop_ok (List.append_ne_nil_of_left_ne_nil hne _) hgo).1 h
      obtain ⟨ht, rfl⟩ := hread item List.mem_cons_self budget p _ t r1 hfirst
      obtain ⟨hts, hr⟩ := ih (fun i hi => hitems i (List.mem_cons_of_mem _ hi))
        (fun i hi => hread i (List.mem_cons_of_mem _ hi)) (by omega) hrest
      rw [List.map_cons, ht, hts, hr, List.flatten_cons, List.length_append, Nat.add_assoc]
      exact ⟨rfl, rfl⟩

theorem traverse_items (hitems : ∀ item ∈ items, Framed item) (hread : ∀ item ∈ items, ReadsCanonically item)
    (hn : n = items.flatten.length)
    (h : exec (traverse (loop budget n) n) ⟨p, items.flatten ++ x⟩ = (.ok values, r)) :
    values.map encode = items ∧ r = ⟨p + n, x⟩ := by
  subst hn
  by_cases hnil : items.flatten ++ x = []
  · obtain ⟨hpayload, rfl⟩ := List.append_eq_nil_iff.1 hnil
    have hnone : items = [] :=
      List.eq_nil_iff_forall_not_mem.2 fun i hi => (hitems i hi).ne_nil (List.flatten_eq_nil_iff.1 hpayload i hi)
    subst hnone
    cases (exec_traverse_nil rfl).symm.trans h
    exact ⟨rfl, rfl⟩
  · exact loop_items hitems hread rfl ((exec_traverse_ok hnil).1 h).2

end Items

theorem readNext_framed {item : Bytes} (h : Framed item) : ReadsCanonically item := by
  induction h with
  | byte b hb =>
    intro budget p x t r hexec
    cases (readItem_byte hb).symm.trans hexec
    exact ⟨encodeString_byte hb, rfl⟩
  | shortString bytes hlen =>
    intro budget p x t r hexec
    obtain ⟨hbyte, rfl, rfl⟩ := (readItem_shortString_ok hlen).1 hexec
    rw [encode, encodeString_header hbyte, header_short hlen, List.length_cons, Nat.add_assoc, Nat.add_comm 1]
    exact ⟨rfl, rfl⟩
  | longString lb bytes hne h8 hvalue =>
    intro budget p x t r hexec
    rw [List.cons_append, List.append_assoc] at hexec
    obtain ⟨⟨hlong, hmax, hlb⟩, rfl, rfl⟩ := (readItem_longString_ok hne h8 hvalue).1 hexec
    rw [hvalue] at hlong hlb
    have hbyte : ¬ (bytes.length = 1 ∧ value bytes < OFFSET_SHORT_STRING) := fun hone => by omega
    rw [encode, encodeString_header hbyte, header_long hlong, ← hlb, List.length_cons, List.length_append]
    refine ⟨rfl, ?_⟩
    congr 1
    omega
  | shortList items hitems hlen ih =>
    intro budget p x t r hexec
    obtain ⟨values, htraverse, rfl⟩ := (readItem_shortList_ok hlen).1 hexec
    obtain ⟨hvalues, rfl⟩ := traverse_items hitems ih rfl htraverse
    rw [encode_list_eq, List.flatMap_def, hvalues, encodeNestedList, header_short hlen, List.length_cons, Nat.add_assoc,
      Nat.add_comm 1]
    exact ⟨rfl, rfl⟩
  | longList lb items hitems hne h8 hvalue ih =>
    intro budget p x t r hexec
    rw [List.cons_append, List.append_assoc] at hexec
    obtain ⟨⟨hlong, hmax, hlb⟩, values, htraverse, rfl⟩ := (readItem_longList_ok hne h8).1 hexec
    obtain ⟨hvalues, rfl⟩ := traverse_items hitems ih hvalue htraverse
    rw [hvalue] at hlong hlb
    rw [encode_list_eq, List.flatMap_def, hvalues, encodeNestedList, header_long hlong, ← hlb, List.length_cons,
      List.length_append, hvalue]
    refine ⟨rfl, ?_⟩
    congr 1
    omega

/-! ## Decoding -/

theorem exec_loop_nil {budget start : ℕ} {level : ℤ} {r r' : ByteReader}
    (h : exec (loop budget level start) r = (.ok [], r')) : r' = r := by
  cases budget with
  | zero => cases h
  | succ budget =>
    by_cases hstop : r.rest = [] ∨ levelComplete level start r.position
    · cases (exec_loop_stop hstop).symm.trans h
      rfl
    · obtain ⟨hrest, hlevel⟩ := not_or.1 hstop
      obtain ⟨t, ts, r1, -, -, hnil⟩ := (exec_loop_ok hrest hlevel).1 h
      cases hnil

/-- the one tree of a result is that of the first pass -/
theorem exec_decode_single {r r' : ByteReader} {t : RlpType} (h : exec decode r = (.ok [t], r')) :
    exec (readNext r.remaining) r = (.ok t, r') := by
  rw [decode, exec_get_bind] at h
  by_cases hrest : r.rest = []
  · cases (exec_traverse_nil hrest).symm.trans h
  · have hgo : ¬ levelComplete (-1) r.position r.position := by
      rw [levelComplete_start]
      exact Nat.lt_irrefl _
    obtain ⟨-, hloop⟩ := (exec_traverse_ok hrest).1 h
    obtain ⟨u, ts, r1, hfirst, hnext, hvalues⟩ := (exec_loop_ok hrest hgo).1 hloop
    cases hvalues
    obtain rfl := exec_loop_nil hnext
    exact hfirst

theorem exec_decode_framed {r r' : ByteReader} {t : RlpType} {item x : Bytes} (hframed : Framed item)
    (hrest : r.rest = item ++ x) (h : exec decode r = (.ok [t], r')) :
    encode t = item ∧ r' = ⟨r.position + item.length, x⟩ := by
  have hread := exec_decode_single h
  have hr : r = ⟨r.position, item ++ x⟩ := by rw [← hrest]
  rw [hr] at hread
  exact readNext_framed hframed _ _ _ _ _ hread

/-- Wherever decoding returns one tree, the bytes it has taken off are the encoding of this tree if and only if the bytes
of the reader, no more than an array can have, start with a complete item. -/
theorem consumes_encoding_iff (r r' : ByteReader) (t : RlpType) (hsize : r.remaining < 2 ^ 31)
    (hdecode : exec decode r = (.ok [t], r')) :
    Consumed r (encode t) r' ↔ ∃ item x, Framed item ∧ r.rest = item ++ x := by
  constructor
  · rintro ⟨hrest, -⟩
    refine ⟨encode t, r'.rest, framed_encode t ?_, hrest⟩
    have hle : (encode t).length ≤ r.remaining := by
      rw [remaining, hrest, List.length_append]
      exact Nat.le_add_right _ _
    norm_num [INTEGER_MAX_VALUE]
    omega
  · rintro ⟨item, x, hframed, hrest⟩
    obtain ⟨ht, rfl⟩ := exec_decode_framed hframed hrest hdecode
    rw [ht]
    exact ⟨hrest, rfl⟩

/-- a list of one byte, complete -/
theorem framed_list_byte : Framed [0xc1, 0x05] :=
  .shortList [[0x05]] (by simpa using Framed.byte 5 (by decide)) (by decide)

theorem consumes_encoding_list_byte :
    remaining ⟨0, [0xc1, 0x05]⟩ < 2 ^ 31 ∧ Consumed ⟨0, [0xc1, 0x05]⟩ (encode (.rlpList [.rlpString [5]]))
      ⟨2, []⟩ :=
  ⟨by decide, (consumes_encoding_iff ⟨0, [0xc1, 0x05]⟩ ⟨2, []⟩ _ (by decide) rfl).2
    ⟨[0xc1, 0x05], [], framed_list_byte, rfl⟩⟩

/-- The header of a list of one byte, without the byte, is read as the empty list; and a list whose item of three bytes
runs over its end after one is read as if it were closed behind the item. -/
theorem unframed_accepted :
    (exec decode ⟨0, [0xc1]⟩ = (.ok [.rlpList []], ⟨1, []⟩) ∧ ¬ Consumed ⟨0, [0xc1]⟩ (encode (.rlpList []))
      ⟨1, []⟩) ∧
      exec decode ⟨0, [0xc1, 0x82, 0x01, 0x02]⟩ = (.ok [.rlpList [.rlpString [1, 2]]], ⟨4, []⟩) ∧
        ¬ Consumed ⟨0, [0xc1, 0x82, 0x01, 0x02]⟩ (encode (.rlpList [.rlpString [1, 2]])) ⟨4, []⟩ := by
  refine ⟨⟨rfl, fun h => absurd h.1 (by decide)⟩, rfl, fun h => absurd h.1 (by decide)⟩

end SidechainsSdk.Account.Rlp
