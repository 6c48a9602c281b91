/-
The undo record of one version (`storage/leveldb/ChangeSet.scala`) and its byte form.

The serializer writes through the writer of the serialization library, whose variable-length unsigned integers are a
parameter (`VLQ`). Lengths are Java `Int`s: an array that would be longer is not built, and the serialization fails.

- `parse_toBytes`: what `toBytes` writes, `parse` reads back.
- `writeAt_revertBatch_changes`: reverting the changes an update made gives the contents before it, whatever it inserted,
  overwrote and removed.
-/
import Mathlib.Tactic
import SidechainsSdk.Core.Codec
import SidechainsSdk.Core.WriteBatch
import SidechainsSdk.Core.Fallible

namespace SidechainsSdk.Storage

open Reader WriteOp

/-- exceptions of the storage classes -/
inductive StorageException where
  | illegalKeySize
  | outOfMemory
  | illegalVersionIdSize
  | versionIdAlreadyUsed
  | inconsistentState
  | versionNotFound
  | versionUsedAsKey
  | duplicateKeyInUpdate
  | duplicateKeyInRemove
  | versionAlreadyExist
  | rollbackToNonExistVersion
  | backendFailure
  deriving DecidableEq, Repr

/-- the variable-length integers of the writer and the reader -/
class VLQ where
  putUInt : ℕ → Bytes
  getUInt : Reader ℕ
  reads_putUInt : ∀ n < 2 ^ 32, Reads getUInt (putUInt n) n

/-- seven bits to a byte, the lowest first; the high bit says that more follow -/
def putULong : ℕ → ℕ → Bytes
  | 0, n => [UInt8.ofNat n]
  | fuel + 1, n => if n < 128 then [UInt8.ofNat n] else UInt8.ofNat (n % 128 + 128) :: putULong fuel (n / 128)

def getULong : ℕ → Reader ℕ
  | 0 => byte
  | fuel + 1 => do
    let b ← byte
    if b < 128 then pure b
    else do
      let rest ← getULong fuel
      pure (b - 128 + 128 * rest)

theorem reads_putULong (fuel n : ℕ) (hn : n < 128 ^ (fuel + 1)) : Reads (getULong fuel) (putULong fuel n) n := by
  induction fuel generalizing n with
  | zero => exact reads_byte n (by omega)
  | succ fuel ih =>
    unfold putULong getULong
    split_ifs with hlt
    · have hlast : Reads (if n < 128 then pure n else do
          let rest ← getULong fuel
          pure (n - 128 + 128 * rest)) [] n := by
        rw [if_pos hlt]
        exact reads_pure n
      exact (reads_byte n (by omega)).bind hlast
    · have hmod : n % 128 < 128 := Nat.mod_lt _ (by decide)
      have hdiv : n / 128 < 128 ^ (fuel + 1) := Nat.div_lt_of_lt_mul (by rwa [← pow_succ'])
      have hmore : ¬ n % 128 + 128 < 128 := by omega
      have hrest := (ih (n / 128) hdiv).map fun rest => n % 128 + 128 - 128 + 128 * rest
      have hval : n % 128 + 128 - 128 + 128 * (n / 128) = n := by omega
      rw [hval] at hrest
      refine (reads_byte (n % 128 + 128) (by omega)).bind ?_
      rw [if_neg hmore]
      exact hrest

/-- the encoding of the library's writer: at most ten bytes -/
instance : VLQ where
  putUInt := putULong 9
  getUInt := getULong 9
  reads_putUInt := fun n hn => reads_putULong 9 n (hn.trans (by norm_num))

/-- the signed integers of the writer: an unsigned one, with the sign in the lowest bit -/
def zigZag (x : ℤ) : ℕ := if 0 ≤ x then (2 * x).toNat else (-2 * x - 1).toNat

def unZigZag (n : ℕ) : ℤ := if n % 2 = 0 then (n / 2 : ℕ) else -((n / 2 : ℕ) + 1 : ℤ)

theorem unZigZag_zigZag (x : ℤ) : unZigZag (zigZag x) = x := by
  unfold unZigZag zigZag
  split_ifs <;> omega

theorem reads_zigZag {x : ℤ} (hlow : -2 ^ 63 ≤ x) (hhigh : x < 2 ^ 63) :
    Reads (getULong 9 >>= fun n => pure (unZigZag n)) (putULong 9 (zigZag x)) x := by
  have hlt : zigZag x < 128 ^ 10 := by
    unfold zigZag
    split_ifs <;> omega
  have h := (reads_putULong 9 (zigZag x) hlt).map unZigZag
  rwa [unZigZag_zigZag] at h

/-- a Java array cannot be longer than `Int.MaxValue` -/
def javaArray (bs : Bytes) : Except StorageException Bytes :=
  if bs.length < 2 ^ 31 then .ok bs else .error .outOfMemory

/-- `Long.toInt` of an unsigned 32-bit number -/
def toInt (n : ℕ) : ℤ := if n < 2 ^ 31 then n else (n : ℤ) - 2 ^ 32

structure ChangeSet where
  insertedKeys : List Bytes
  removed : List (Bytes × Bytes)
  altered : List (Bytes × Bytes)
  deriving DecidableEq, Repr

abbrev DB := Std.ExtTreeMap Bytes Bytes

namespace ChangeSet

section Serializer

variable [VLQ]

def putKey (k : Bytes) : Bytes := UInt8.ofNat k.length :: k

def putPair (kv : Bytes × Bytes) : Bytes := putKey kv.1 ++ (VLQ.putUInt kv.2.length ++ kv.2)

/-- `require(k.length <= 255, "Illegal key size")`, before each key is written -/
def keysFit (cs : ChangeSet) : Bool :=
  cs.insertedKeys.all (·.length ≤ 255) && cs.removed.all (·.1.length ≤ 255) && cs.altered.all (·.1.length ≤ 255)

def serialize (cs : ChangeSet) : Bytes :=
  (VLQ.putUInt cs.insertedKeys.length ++ cs.insertedKeys.flatMap putKey) ++
    ((VLQ.putUInt cs.removed.length ++ cs.removed.flatMap putPair) ++
      (VLQ.putUInt cs.altered.length ++ cs.altered.flatMap putPair))

def toBytes (cs : ChangeSet) : Except StorageException Bytes :=
  if cs.keysFit then javaArray cs.serialize else .error .illegalKeySize

def getKey : Reader Bytes := do
  let len ← byte
  bytes len

def getPair : Reader (Bytes × Bytes) := do
  let k ← getKey
  let vLen ← VLQ.getUInt
  let v ← bytes (toInt vLen)
  pure (k, v)

/-- a count, then so many items -/
def getCounted {α : Type} (item : Reader α) : Reader (List α) := do
  let qty ← VLQ.getUInt
  repeated item (toInt qty).toNat

def parse : Reader ChangeSet := do
  let insertedKeys ← getCounted getKey
  let removed ← getCounted getPair
  let altered ← getCounted getPair
  pure ⟨insertedKeys, removed, altered⟩

def parseBytesTry (bs : Bytes) : Option ChangeSet := (parse.run bs).map Prod.fst

omit [VLQ] in
theorem toInt_of_lt {n : ℕ} (h : n < 2 ^ 31) : toInt n = n := if_pos h

omit [VLQ] in
theorem reads_getKey {k : Bytes} (hk : k.length ≤ 255) : Reads getKey (putKey k) k :=
  (reads_byte k.length (by omega)).bind (reads_bytes k)

theorem reads_getPair {kv : Bytes × Bytes} (hk : kv.1.length ≤ 255) (hv : kv.2.length < 2 ^ 31) :
    Reads getPair (putPair kv) kv := by
  have hvalue : Reads (bytes (toInt kv.2.length)) kv.2 kv.2 := by
    rw [toInt_of_lt hv]
    exact reads_bytes kv.2
  have hlen := VLQ.reads_putUInt kv.2.length (by omega)
  exact (reads_getKey hk).bind (hlen.bind (hvalue.map fun v => (kv.1, v)))

theorem reads_getCounted {α : Type} {item : Reader α} {enc : α → Bytes} {l : List α} (hlen : l.length < 2 ^ 31)
    (h : ∀ a ∈ l, Reads item (enc a) a) :
    Reads (getCounted item) (VLQ.putUInt l.length ++ l.flatMap enc) l := by
  refine (VLQ.reads_putUInt l.length (by omega)).bind ?_
  rw [toInt_of_lt hlen, Int.toNat_natCast]
  exact reads_repeated h

omit [VLQ] in
theorem length_le_flatMap {α : Type} {enc : α → Bytes} (henc : ∀ a, 0 < (enc a).length) (l : List α) :
    l.length ≤ (l.flatMap enc).length := by
  induction l with
  | nil => simp
  | cons a l ih =>
    have ha := henc a
    simp only [List.flatMap_cons, List.length_append, List.length_cons]
    omega

omit [VLQ] in
theorem length_le_of_mem_flatMap {α : Type} {enc : α → Bytes} {l : List α} {a : α} (ha : a ∈ l) :
    (enc a).length ≤ (l.flatMap enc).length := by
  obtain ⟨l₁, l₂, rfl⟩ := List.append_of_mem ha
  simp only [List.flatMap_append, List.flatMap_cons, List.length_append]
  omega

/-- a counted list of pairs in an array is read back -/
theorem reads_pairs {l : List (Bytes × Bytes)} (hkeys : l.all (·.1.length ≤ 255))
    (hsize : (l.flatMap putPair).length < 2 ^ 31) :
    Reads (getCounted getPair) (VLQ.putUInt l.length ++ l.flatMap putPair) l := by
  have hlen : l.length ≤ (l.flatMap putPair).length := length_le_flatMap (by simp [putPair, putKey]) l
  refine reads_getCounted (by omega) ?_
  intro kv hkv
  have hkey : kv.1.length ≤ 255 := by simpa using List.all_eq_true.1 hkeys kv hkv
  have hpair : (putPair kv).length ≤ (l.flatMap putPair).length := length_le_of_mem_flatMap hkv
  refine reads_getPair hkey ?_
  simp only [putPair, List.length_append] at hpair
  omega

/-- **Round trip.** What was serialized is parsed back. -/
theorem parse_toBytes {cs : ChangeSet} {bs : Bytes} (h : cs.toBytes = .ok bs) : parseBytesTry bs = some cs := by
  unfold toBytes at h
  split_ifs at h with hfit
  unfold javaArray at h
  split_ifs at h with hsize
  cases h
  simp only [keysFit, Bool.and_eq_true] at hfit
  obtain ⟨⟨hinserted, hremoved⟩, haltered⟩ := hfit
  simp only [serialize, List.length_append] at hsize
  have hkeys : Reads (getCounted getKey) (VLQ.putUInt cs.insertedKeys.length ++ cs.insertedKeys.flatMap putKey)
      cs.insertedKeys := by
    have hlen : cs.insertedKeys.length ≤ (cs.insertedKeys.flatMap putKey).length :=
      length_le_flatMap (by simp [putKey]) _
    refine reads_getCounted (by omega) ?_
    intro k hk
    exact reads_getKey (by simpa using List.all_eq_true.1 hinserted k hk)
  have hparse : Reads parse cs.serialize cs := by
    refine hkeys.bind ?_
    refine (reads_pairs hremoved (by omega)).bind ?_
    exact (reads_pairs haltered (by omega)).map (ChangeSet.mk cs.insertedKeys cs.removed)
  have hrun := hparse []
  rw [List.append_nil] at hrun
  rw [parseBytesTry, hrun]
  rfl

end Serializer

/-- what an update will insert, remove and overwrite in `db` -/
def changes (db : DB) (toInsert : List (Bytes × Bytes)) (toRemove : List Bytes) : ChangeSet where
  insertedKeys := (toInsert.filter fun x => db[x.1]?.isNone).map Prod.fst
  removed := toRemove.filterMap fun k => db[k]?.map fun v => (k, v)
  altered := toInsert.filterMap fun x => db[x.1]?.map fun oldValue => (x.1, oldValue)

/-- the writes of an update to the data -/
def updateBatch (toInsert : List (Bytes × Bytes)) (toRemove : List Bytes) : List (WriteOp Bytes Bytes) :=
  toInsert.map (fun x => put x.1 x.2) ++ toRemove.map delete

/-- the writes that undo a change set -/
def revertBatch (cs : ChangeSet) : List (WriteOp Bytes Bytes) :=
  cs.insertedKeys.map delete ++ cs.removed.map (fun x => put x.1 x.2) ++ cs.altered.map fun x => put x.1 x.2

/-- the keys an update names -/
def updateKeys (toInsert : List (Bytes × Bytes)) (toRemove : List Bytes) : List Bytes :=
  toInsert.map Prod.fst ++ toRemove

theorem key_mem_updateBatch {toInsert : List (Bytes × Bytes)} {toRemove : List Bytes} {op : WriteOp Bytes Bytes}
    (h : op ∈ updateBatch toInsert toRemove) : op.key ∈ updateKeys toInsert toRemove := by
  simp only [updateBatch, updateKeys, List.mem_append, List.mem_map] at h ⊢
  rcases h with ⟨x, hx, rfl⟩ | ⟨k, hk, rfl⟩
  · exact .inl ⟨x, hx, rfl⟩
  · exact .inr hk

/-- the undo writes put back what was there, at keys the update named -/
theorem mem_revertBatch {db : DB} {toInsert : List (Bytes × Bytes)} {toRemove : List Bytes}
    {op : WriteOp Bytes Bytes} (h : op ∈ (changes db toInsert toRemove).revertBatch) :
    op.key ∈ updateKeys toInsert toRemove ∧ op.value = db[op.key]? := by
  simp only [revertBatch, changes, List.mem_append, List.mem_map, List.mem_filter, List.mem_filterMap,
    Option.map_eq_some_iff, updateKeys] at h ⊢
  rcases h with (⟨k, ⟨x, ⟨hx, hnone⟩, rfl⟩, rfl⟩ | ⟨kv, ⟨k, hk, v, hv, rfl⟩, rfl⟩) | ⟨kv,
    ⟨x, hx, v, hv, rfl⟩, rfl⟩
  · exact ⟨.inl ⟨x, hx, rfl⟩, (Option.isNone_iff_eq_none.1 hnone).symm⟩
  · exact ⟨.inr hk, hv.symm⟩
  · exact ⟨.inl ⟨x, hx, rfl⟩, hv.symm⟩

/-- a key that the undo leaves alone was not written, or was removed and not there -/
theorem writeAt_updateBatch_of_not_reverted {db : DB} {toInsert : List (Bytes × Bytes)} {toRemove : List Bytes}
    {k : Bytes} (h : ¬ ∃ op ∈ (changes db toInsert toRemove).revertBatch, op.key = k) :
    writeAt (updateBatch toInsert toRemove) k db[k]? = db[k]? := by
  have hinsert : ∀ x ∈ toInsert, x.1 ≠ k := by
    intro x hx hk
    cases hdb : db[x.1]? with
    | none =>
      refine h ⟨delete x.1, ?_, hk⟩
      simp only [revertBatch, changes, List.mem_append, List.mem_map, List.mem_filter]
      exact .inl (.inl ⟨x.1, ⟨x, ⟨hx, by rw [hdb]; rfl⟩, rfl⟩, rfl⟩)
    | some v =>
      refine h ⟨put x.1 v, ?_, hk⟩
      simp only [revertBatch, changes, List.mem_append, List.mem_map, List.mem_filterMap, Option.map_eq_some_iff]
      exact .inr ⟨(x.1, v), ⟨x, hx, v, hdb, rfl⟩, rfl⟩
  have hremove : ∀ k' ∈ toRemove, k' = k → db[k]? = none := by
    intro k' hk' hk
    subst hk
    by_contra hsome
    obtain ⟨v, hv⟩ := Option.ne_none_iff_exists'.1 hsome
    refine h ⟨put k' v, ?_, rfl⟩
    simp only [revertBatch, changes, List.mem_append, List.mem_map, List.mem_filterMap, Option.map_eq_some_iff]
    exact .inl (.inr ⟨(k', v), ⟨k', hk', v, hv, rfl⟩, rfl⟩)
  have hsame : ∀ op ∈ updateBatch toInsert toRemove, op.key = k → op.value = db[k]? := by
    intro op hop hk
    simp only [updateBatch, List.mem_append, List.mem_map] at hop
    rcases hop with ⟨x, hx, rfl⟩ | ⟨k', hk', rfl⟩
    · exact absurd hk (hinsert x hx)
    · exact (hremove k' hk' hk).symm
  rw [writeAt_of_forall hsame, ite_self]

/-- **Undo.** At every key the undo writes lead back from the contents after the update to those before. -/
theorem writeAt_revertBatch_changes (db : DB) (toInsert : List (Bytes × Bytes)) (toRemove : List Bytes) (k : Bytes) :
    writeAt (changes db toInsert toRemove).revertBatch k (writeAt (updateBatch toInsert toRemove) k db[k]?) = db[k]? := by
  have hback : ∀ op ∈ (changes db toInsert toRemove).revertBatch, op.key = k → op.value = db[k]? := by
    intro op hop hk
    rw [← hk]
    exact (mem_revertBatch hop).2
  rw [writeAt_of_forall hback]
  split_ifs with hex
  · rfl
  · exact writeAt_updateBatch_of_not_reverted hex

end ChangeSet

end SidechainsSdk.Storage
