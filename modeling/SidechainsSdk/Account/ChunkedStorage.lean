/-
Byte strings of any length in the storage of an account (`StateDbAccountStateView`): the length of a string is stored at
its key, its 32-byte chunks at keys hashed from the key and the index of the chunk.

- The state database is a map from addresses and slots to values of 32 bytes; a slot never written holds zero, and a slot
  that holds zero is not stored.
- The hash is a parameter. `CollisionFree` says of the keys in use that the chunk keys are different from each other and
  from the keys.
- Exceptions come before the first write only: a view may be read-only, a key not 32 bytes long, the stored length not an
  `Int`. So a call that throws leaves the view as it was.

`Holds` relates the storage to the map of byte strings it stands for; a chunk index beyond the end of a string holds zero.
`Holds.updateAccountStorageBytes` is one write, `run_refines` any calls.
-/
import Mathlib.Tactic
import SidechainsSdk.Account.Types
import SidechainsSdk.Core.BigEndian
import SidechainsSdk.Core.Chunks
import SidechainsSdk.Core.MachineInt

namespace SidechainsSdk.Account.ChunkedStorage

open Chunks MachineInt

/-! ## The state database -/

abbrev HashLength : ℕ := 32

structure Hash where
  toBytes : Bytes
  length_eq : toBytes.length = HashLength
deriving DecidableEq

namespace Hash

def ZERO : Hash := ⟨List.replicate HashLength 0, List.length_replicate⟩

theorem ext_toBytes {h h' : Hash} (heq : h.toBytes = h'.toBytes) : h = h' := by
  cases h
  cases h'
  cases heq
  rfl

end Hash

inductive StorageException where
  | writeProtection (message : String)
  -- `new Hash(bytes)`
  | hashLength (length : ℕ)
  -- `intValueExact`
  | outOfIntRange
deriving DecidableEq

/-- `new Hash(bytes)` -/
def newHash (bytes : Bytes) : Except StorageException Hash :=
  if h : bytes.length = HashLength then .ok ⟨bytes, h⟩ else .error (.hashLength bytes.length)

theorem newHash_toBytes (h : Hash) : newHash h.toBytes = .ok h := dif_pos h.length_eq

/-- what the storage functions use of the view -/
structure StateDbAccountStateView where
  storage : Address → Hash → Hash
  readOnly : Bool

/-- `stateDb.setStorage` -/
def setStorage (storage : Address → Hash → Hash) (address : Address) (slot value : Hash) : Address → Hash → Hash :=
  fun address' slot' => if address' = address ∧ slot' = slot then value else storage address' slot'

def getAccountStorage (view : StateDbAccountStateView) (address : Address) (key : Bytes) :
    Except StorageException Bytes := do
  let slot ← newHash key
  pure (view.storage address slot).toBytes

def updateAccountStorage (view : StateDbAccountStateView) (address : Address) (key value : Bytes) :
    Except StorageException StateDbAccountStateView := do
  if view.readOnly then
    throw (.writeProtection "invalid write access to storage")
  let slot ← newHash key
  let content ← newHash value
  pure { view with storage := setStorage view.storage address slot content }

def removeAccountStorage (view : StateDbAccountStateView) (address : Address) (key : Bytes) :
    Except StorageException StateDbAccountStateView := updateAccountStorage view address key Hash.ZERO.toBytes

/-! ## Byte strings -/

/-- `BigIntegerUtil.toUint256Bytes` of a number that is not negative -/
def toUint256Bytes (number : ℕ) : Bytes :=
  let padded := List.replicate 32 0
  let bytes := BigEndian.minimal number
  overwrite bytes padded (padded.length - bytes.length)

/-- `new BigInteger(1, bytes).intValueExact()` -/
def intValueExact (bytes : Bytes) : Except StorageException ℕ :=
  if BigEndian.value bytes < 2 ^ 31 then .ok (BigEndian.value bytes) else .error .outOfIntRange

def chunkKeySalt : Bytes :=
  [0xfa, 0x09, 0x42, 0x8d, 0xd8, 0x12, 0x1e, 0xa5, 0x73, 0x27, 0xc9, 0xf2, 0x1a, 0xf7, 0x4f, 0xfa, 0xd8, 0xbf, 0xd5, 0xe6,
    0xe3, 0x9d, 0xc3, 0xdc, 0x6c, 0x53, 0x24, 0x1a, 0x85, 0xec, 0x5b, 0x0d]

section Bytes

variable (keccak256 : Bytes → Hash)

def getChunkKey (key : Bytes) (chunkIndex : ℕ) : Bytes :=
  (keccak256 (chunkKeySalt ++ key ++ toUint256Bytes chunkIndex)).toBytes

/-- the chunks of so many bytes, as `Int`s are added and divided -/
def chunkCount (length : ℕ) : ℕ := ((intOf (length + HashLength - 1)).tdiv HashLength).toNat

def getAccountStorageBytes (view : StateDbAccountStateView) (address : Address) (key : Bytes) :
    Except StorageException Bytes := do
  let length ← intValueExact (← getAccountStorage view address key)
  let data := List.replicate length 0
  (List.range (chunkCount length)).foldlM (fun data chunkIndex => do
    let chunk ← getAccountStorage view address (getChunkKey keccak256 key chunkIndex)
    pure (overwrite chunk data (chunkIndex * HashLength))) data

def slice (value : Bytes) (start stop : ℕ) : Bytes := (value.take stop).drop start

/-- `0 until n by 32` -/
def chunkStarts (n : ℕ) : List ℕ := (List.range ((n + HashLength - 1) / HashLength)).map (· * HashLength)

def updateAccountStorageBytes (view : StateDbAccountStateView) (address : Address) (key value : Bytes) :
    Except StorageException StateDbAccountStateView := do
  if view.readOnly then
    throw (.writeProtection "invalid write access to storage")
  let oldLength ← intValueExact (← getAccountStorage view address key)
  let newLength := value.length
  let view ← updateAccountStorage view address key (toUint256Bytes newLength)
  (chunkStarts (max newLength oldLength)).foldlM (fun view start =>
    let chunkIndex := start / HashLength
    let chunkKey := getChunkKey keccak256 key chunkIndex
    if start < newLength then
      updateAccountStorage view address chunkKey (padTo HashLength 0 (slice value start (intOf (start + HashLength)).toNat))
    else
      removeAccountStorage view address chunkKey) view

def removeAccountStorageBytes (view : StateDbAccountStateView) (address : Address) (key : Bytes) :
    Except StorageException StateDbAccountStateView := updateAccountStorageBytes keccak256 view address key []

end Bytes

/-- a loop in which no step throws -/
theorem foldlM_ok {ε α β : Type} {f : β → α → Except ε β} {g : β → α → β} {P : β → Prop} {l : List α}
    (hstep : ∀ x, P x → ∀ a ∈ l, f x a = .ok (g x a) ∧ P (g x a)) {x : β} (hx : P x) :
    l.foldlM f x = .ok (l.foldl g x) := by
  induction l generalizing x with
  | nil => rfl
  | cons a l ih =>
    obtain ⟨hfirst, hP⟩ := hstep x hx a List.mem_cons_self
    rw [List.foldlM_cons, hfirst]
    exact ih (fun y hy b hb => hstep y hy b (List.mem_cons_of_mem a hb)) hP

/-! ## Numbers in 32 bytes -/

theorem length_toUint256Bytes (number : ℕ) : (toUint256Bytes number).length = HashLength := by
  rw [toUint256Bytes, length_overwrite, List.length_replicate]

theorem value_zeros (k : ℕ) : BigEndian.value (List.replicate k 0) = 0 := by
  induction k with
  | zero => rfl
  | succ k ih =>
    rw [List.replicate_succ, BigEndian.value_cons, ih]
    simp

theorem value_toUint256Bytes {number : ℕ} (h : number < 256 ^ 32) : BigEndian.value (toUint256Bytes number) = number := by
  have hlength : (BigEndian.minimal number).length ≤ 32 :=
    BigEndian.length_le (BigEndian.noLeadingZero_minimal number) (by rw [BigEndian.value_minimal]; exact h)
  have htake : (BigEndian.minimal number).take (32 - (32 - (BigEndian.minimal number).length)) =
      BigEndian.minimal number := List.take_of_length_le (by omega)
  have hend : 32 - (BigEndian.minimal number).length + (BigEndian.minimal number).length = 32 := by omega
  rw [toUint256Bytes]
  simp only [overwrite, List.length_replicate, htake, hend, List.take_replicate, List.drop_replicate, Nat.sub_self,
    List.replicate_zero, List.append_nil]
  rw [BigEndian.value_append, value_zeros, zero_mul, zero_add, BigEndian.value_minimal]

/-- an `Int` that is not negative is read back -/
theorem intValueExact_toUint256Bytes {n : ℕ} (h : n < 2 ^ 31) : intValueExact (toUint256Bytes n) = .ok n := by
  have hvalue : BigEndian.value (toUint256Bytes n) = n := value_toUint256Bytes (h.trans (by norm_num))
  rw [intValueExact, hvalue, if_pos h]

theorem toUint256Bytes_zero : toUint256Bytes 0 = Hash.ZERO.toBytes := by decide

/-! ## What the storage stands for -/

section Holds

variable (keccak256 : Bytes → Hash)

def lengthValue (length : ℕ) : Hash := ⟨toUint256Bytes length, length_toUint256Bytes length⟩

def chunkSlot (key : Hash) (i : ℕ) : Hash := keccak256 (chunkKeySalt ++ key.toBytes ++ toUint256Bytes i)

def chunkValue (value : Bytes) (i : ℕ) : Hash := ⟨chunk HashLength 0 value i, length_chunk HashLength 0 value i⟩

theorem chunkValue_beyond {value : Bytes} {i : ℕ} (h : value.length ≤ i * HashLength) : chunkValue value i = Hash.ZERO :=
  Hash.ext_toBytes (chunk_beyond 0 h)

/-- strings have less than so many bytes, and so not more chunks than `maxChunks` -/
def maxLength : ℕ := 2 ^ 30

def maxChunks : ℕ := 2 ^ 25

/-- of the keys in use: no two chunks have the same slot, and no chunk that of a key -/
structure CollisionFree (keys : Set Hash) : Prop where
  injective : ∀ key ∈ keys, ∀ key' ∈ keys, ∀ i < maxChunks, ∀ i' < maxChunks,
    chunkSlot keccak256 key i = chunkSlot keccak256 key' i' → key = key' ∧ i = i'
  apart : ∀ key ∈ keys, ∀ key' ∈ keys, ∀ i < maxChunks, chunkSlot keccak256 key i ≠ key'

/-- the storage stands for the strings `strings` at the keys -/
structure Holds (keys : Set Hash) (storage : Address → Hash → Hash) (strings : Address → Hash → Bytes) : Prop where
  short : ∀ address, ∀ key ∈ keys, (strings address key).length < maxLength
  length : ∀ address, ∀ key ∈ keys, storage address key = lengthValue (strings address key).length
  chunks : ∀ address, ∀ key ∈ keys, ∀ i < maxChunks,
    storage address (chunkSlot keccak256 key i) = chunkValue (strings address key) i

/-- nothing written at the keys or their chunks -/
def Unwritten (keys : Set Hash) (storage : Address → Hash → Hash) : Prop :=
  ∀ address, ∀ key ∈ keys, storage address key = Hash.ZERO ∧
    ∀ i < maxChunks, storage address (chunkSlot keccak256 key i) = Hash.ZERO

theorem holds_unwritten {keys : Set Hash} {storage : Address → Hash → Hash} (h : Unwritten keccak256 keys storage) :
    Holds keccak256 keys storage fun _ _ => [] where
  short := fun _ _ _ => by decide
  length := by
    intro address key hkey
    rw [(h address key hkey).1]
    exact Hash.ext_toBytes toUint256Bytes_zero.symm
  chunks := by
    intro address key hkey i hi
    rw [(h address key hkey).2 i hi, chunkValue_beyond (Nat.zero_le _)]

/-! ### One call -/

theorem getAccountStorage_eq (view : StateDbAccountStateView) (address : Address) (slot : Hash) :
    getAccountStorage view address slot.toBytes = .ok (view.storage address slot).toBytes := by
  rw [getAccountStorage, newHash_toBytes]
  rfl

theorem updateAccountStorage_eq {view : StateDbAccountStateView} (hwritable : view.readOnly = false) (address : Address)
    (slot value : Hash) : updateAccountStorage view address slot.toBytes value.toBytes =
      .ok { view with storage := setStorage view.storage address slot value } := by
  rw [updateAccountStorage, newHash_toBytes, newHash_toBytes, hwritable]
  rfl

theorem setStorage_self (storage : Address → Hash → Hash) (address : Address) (slot value : Hash) :
    setStorage storage address slot value address slot = value := if_pos ⟨rfl, rfl⟩

theorem setStorage_of_ne (storage : Address → Hash → Hash) {address address' : Address} {slot slot' : Hash} (value : Hash)
    (h : address' = address → slot' ≠ slot) : setStorage storage address slot value address' slot' =
      storage address' slot' := if_neg fun hboth => h hboth.1 hboth.2

/-- **Reading** a string. -/
theorem Holds.get {keys : Set Hash} {view : StateDbAccountStateView} {strings : Address → Hash → Bytes}
    (h : Holds keccak256 keys view.storage strings) (address : Address) {key : Hash} (hkey : key ∈ keys) :
    getAccountStorageBytes keccak256 view address key.toBytes = .ok (strings address key) := by
  set value := strings address key with hvalue
  have hshort : value.length < 2 ^ 30 := h.short address key hkey
  have hlength : intValueExact (view.storage address key).toBytes = .ok value.length := by
    rw [h.length address key hkey]
    exact intValueExact_toUint256Bytes (hshort.trans (by norm_num))
  have hcount : chunkCount value.length = (value.length + 31) / 32 := by
    have hsum : ((value.length : ℕ) : ℤ) + HashLength - 1 = ((value.length + 31 : ℕ) : ℤ) := by
      push_cast
      ring
    have hint : intOf ((value.length : ℤ) + HashLength - 1) = ((value.length + 31 : ℕ) : ℤ) := by
      rw [hsum, intOf_eq]
      constructor <;> push_cast <;> omega
    rw [chunkCount, hint, Int.tdiv_eq_ediv_of_nonneg (by positivity)]
    norm_cast
  -- every chunk is read at its slot
  have hloop : ∀ data, (List.range (chunkCount value.length)).foldlM (fun data chunkIndex => do
      let chunk ← getAccountStorage view address (getChunkKey keccak256 key.toBytes chunkIndex)
      pure (overwrite chunk data (chunkIndex * HashLength))) data =
        Except.ok (assemble HashLength (fun i => (view.storage address (chunkSlot keccak256 key i)).toBytes) data
          (chunkCount value.length)) := by
    intro data
    refine foldlM_ok (P := fun _ => True) ?_ trivial
    intro data _ i _
    refine ⟨?_, trivial⟩
    have hread := getAccountStorage_eq view address (chunkSlot keccak256 key i)
    rw [chunkSlot, ← getChunkKey] at hread
    rw [hread]
    rfl
  have hchunks : ∀ i < chunkCount value.length, (view.storage address (chunkSlot keccak256 key i)).toBytes =
      chunk HashLength 0 value i := by
    intro i hi
    have hmax : i < maxChunks := by
      rw [hcount] at hi
      unfold maxChunks
      omega
    rw [h.chunks address key hkey i hmax]
    rfl
  rw [getAccountStorageBytes, getAccountStorage_eq]
  show (do
    let length ← intValueExact (view.storage address key).toBytes
    _ : Except StorageException Bytes) = _
  rw [hlength]
  show (List.range (chunkCount value.length)).foldlM _ (List.replicate value.length 0) = _
  have hall : value.length ≤ chunkCount value.length * 32 := by
    rw [hcount]
    omega
  rw [hloop, assemble_congr hchunks, assemble_all 0 hall]

/-- the `i`-th chunk of `value`, written at its slot -/
def writeChunk (address : Address) (key : Hash) (value : Bytes) (view : StateDbAccountStateView) (i : ℕ) :
    StateDbAccountStateView :=
  { view with storage := setStorage view.storage address (chunkSlot keccak256 key i) (chunkValue value i) }

def writeChunks (address : Address) (key : Hash) (value : Bytes) (view : StateDbAccountStateView) (n : ℕ) :
    StateDbAccountStateView := (List.range n).foldl (writeChunk keccak256 address key value) view

theorem writeChunks_succ (address : Address) (key : Hash) (value : Bytes) (view : StateDbAccountStateView) (n : ℕ) :
    writeChunks keccak256 address key value view (n + 1) =
      writeChunk keccak256 address key value (writeChunks keccak256 address key value view n) n := by
  rw [writeChunks, List.range_succ, List.foldl_append]
  rfl

theorem writeChunks_readOnly (address : Address) (key : Hash) (value : Bytes) (view : StateDbAccountStateView) (n : ℕ) :
    (writeChunks keccak256 address key value view n).readOnly = view.readOnly := by
  induction n with
  | zero => rfl
  | succ n ih =>
    rw [writeChunks_succ]
    exact ih

/-- other slots, and other addresses, are left alone -/
theorem writeChunks_of_ne {address address' : Address} {key slot : Hash} {value : Bytes} {view : StateDbAccountStateView}
    {n : ℕ} (h : address' = address → ∀ i < n, slot ≠ chunkSlot keccak256 key i) :
    (writeChunks keccak256 address key value view n).storage address' slot = view.storage address' slot := by
  induction n with
  | zero => rfl
  | succ n ih =>
    rw [writeChunks_succ, ← ih fun ha i hi => h ha i (by omega)]
    exact setStorage_of_ne _ _ fun ha => h ha n (by omega)

theorem writeChunks_chunk {keys : Set Hash} (hfree : CollisionFree keccak256 keys) {address : Address} {key : Hash}
    (hkey : key ∈ keys) {value : Bytes} {view : StateDbAccountStateView} {n i : ℕ} (hn : n ≤ maxChunks) (hi : i < n) :
    (writeChunks keccak256 address key value view n).storage address (chunkSlot keccak256 key i) = chunkValue value i := by
  induction n with
  | zero => omega
  | succ n ih =>
    rw [writeChunks_succ]
    by_cases hlast : i = n
    · subst hlast
      exact setStorage_self _ _ _ _
    · have hne : chunkSlot keccak256 key i ≠ chunkSlot keccak256 key n := by
        intro heq
        exact hlast (hfree.injective key hkey key hkey i (by omega) n (by omega) heq).2
      have hearlier := ih (by omega) (by omega)
      rw [← hearlier]
      exact setStorage_of_ne _ _ fun _ => hne

/-- **Writing** a string: its length, and one chunk after the other as far as the longer of the old and the new string
reaches. -/
theorem Holds.updateAccountStorageBytes_eq {keys : Set Hash} {view : StateDbAccountStateView}
    {strings : Address → Hash → Bytes} (h : Holds keccak256 keys view.storage strings) (hwritable : view.readOnly = false)
    (address : Address) {key : Hash} (hkey : key ∈ keys) {value : Bytes} (hvalue : value.length < maxLength) :
    updateAccountStorageBytes keccak256 view address key.toBytes value =
      .ok (writeChunks keccak256 address key value
        { view with storage := setStorage view.storage address key (lengthValue value.length) }
        ((max value.length (strings address key).length + 31) / 32)) := by
  have hshort : (strings address key).length < 2 ^ 30 := h.short address key hkey
  have hnew : value.length < 2 ^ 30 := hvalue
  have hlength : intValueExact (view.storage address key).toBytes = .ok (strings address key).length := by
    rw [h.length address key hkey]
    exact intValueExact_toUint256Bytes (hshort.trans (by norm_num))
  set written : StateDbAccountStateView :=
    { view with storage := setStorage view.storage address key (lengthValue value.length) }
  have hwritten : written.readOnly = false := hwritable
  rw [updateAccountStorageBytes, hwritable, getAccountStorage_eq]
  show (do
    let oldLength ← intValueExact (view.storage address key).toBytes
    _ : Except StorageException StateDbAccountStateView) = _
  rw [hlength]
  show (do
    let view ← updateAccountStorage view address key.toBytes (lengthValue value.length).toBytes
    _ : Except StorageException StateDbAccountStateView) = _
  rw [updateAccountStorage_eq hwritable]
  show (chunkStarts (max value.length (strings address key).length)).foldlM _ _ = _
  rw [chunkStarts, List.foldlM_map]
  refine foldlM_ok (P := fun view : StateDbAccountStateView => view.readOnly = false) ?_ hwritten
  intro view' hwritable' i _
  refine ⟨?_, hwritable'⟩
  have hindex : i * HashLength / HashLength = i := Nat.mul_div_cancel i (by norm_num)
  simp only [hindex]
  by_cases hin : i * HashLength < value.length
  · -- a chunk of the new string
    have hstop : (intOf ((i * HashLength : ℕ) + HashLength)).toNat = i * HashLength + HashLength := by
      have hin' : i * 32 < value.length := hin
      have hint : intOf (((i * 32 : ℕ) : ℤ) + 32) = ((i * 32 + 32 : ℕ) : ℤ) := by
        push_cast
        rw [intOf_eq]
        constructor <;> omega
      show (intOf (((i * 32 : ℕ) : ℤ) + 32)).toNat = i * 32 + 32
      rw [hint, Int.toNat_natCast]
    have hslice : padTo HashLength 0 (slice value (i * HashLength) (i * HashLength + HashLength)) =
        (chunkValue value i).toBytes := by
      rw [slice, List.drop_take, Nat.add_sub_cancel_left]
      rfl
    rw [if_pos hin, hstop, hslice]
    exact updateAccountStorage_eq hwritable' address (chunkSlot keccak256 key i) (chunkValue value i)
  · -- a chunk that only the old string had
    have hzero : chunkValue value i = Hash.ZERO := chunkValue_beyond (by omega)
    rw [if_neg hin, removeAccountStorage, writeChunk, hzero]
    exact updateAccountStorage_eq hwritable' address (chunkSlot keccak256 key i) Hash.ZERO

/-- a slot that is no key in use and no chunk of one -/
def Foreign (keys : Set Hash) (slot : Hash) : Prop :=
  slot ∉ keys ∧ ∀ key ∈ keys, ∀ i < maxChunks, slot ≠ chunkSlot keccak256 key i

/-- `strings` with another string at one key -/
def put (strings : Address → Hash → Bytes) (address : Address) (key : Hash) (value : Bytes) : Address → Hash → Bytes :=
  fun address' key' => if address' = address ∧ key' = key then value else strings address' key'

/-- after one write the storage stands for the strings with the new one, and foreign slots are as they were -/
theorem Holds.updateAccountStorageBytes {keys : Set Hash} (hfree : CollisionFree keccak256 keys)
    {view : StateDbAccountStateView} {strings : Address → Hash → Bytes} (h : Holds keccak256 keys view.storage strings)
    (hwritable : view.readOnly = false) (address : Address) {key : Hash} (hkey : key ∈ keys) {value : Bytes}
    (hvalue : value.length < maxLength) :
    ∃ view', updateAccountStorageBytes keccak256 view address key.toBytes value = .ok view' ∧
      Holds keccak256 keys view'.storage (put strings address key value) ∧ view'.readOnly = view.readOnly ∧
      ∀ address' slot, Foreign keccak256 keys slot → view'.storage address' slot = view.storage address' slot := by
  have hshort : (strings address key).length < 2 ^ 30 := h.short address key hkey
  have hnew : value.length < 2 ^ 30 := hvalue
  set written : StateDbAccountStateView :=
    { view with storage := setStorage view.storage address key (lengthValue value.length) } with hwritten
  set n := (max value.length (strings address key).length + 31) / 32 with hn
  have hmax : n ≤ maxChunks := by
    unfold maxChunks
    omega
  refine ⟨_, h.updateAccountStorageBytes_eq keccak256 hwritable address hkey hvalue, ⟨?_, ?_, ?_⟩,
    writeChunks_readOnly keccak256 address key value written n, ?_⟩
  · intro address' key' hkey'
    unfold put
    split_ifs
    · exact hvalue
    · exact h.short address' key' hkey'
  · -- the length: no chunk is written at a key
    intro address' key' hkey'
    rw [writeChunks_of_ne keccak256 fun _ i hi heq => hfree.apart key hkey key' hkey' i (by omega) heq.symm]
    unfold put
    by_cases hsame : address' = address ∧ key' = key
    · rw [if_pos hsame, hsame.1, hsame.2]
      exact setStorage_self _ _ _ _
    · rw [if_neg hsame, ← h.length address' key' hkey']
      exact setStorage_of_ne _ _ fun ha hk => hsame ⟨ha, hk⟩
  · -- the chunks: beyond both lengths they are zero before and after
    intro address' key' hkey' i hi
    have hkept : written.storage address' (chunkSlot keccak256 key' i) = chunkValue (strings address' key') i := by
      rw [← h.chunks address' key' hkey' i hi]
      exact setStorage_of_ne _ _ fun _ => hfree.apart key' hkey' key hkey i hi
    unfold put
    by_cases hsame : address' = address ∧ key' = key
    · obtain ⟨rfl, rfl⟩ := hsame
      rw [if_pos ⟨rfl, rfl⟩]
      by_cases hin : i < n
      · exact writeChunks_chunk keccak256 hfree hkey hmax hin
      · have hold : (strings address' key').length ≤ i * 32 := by omega
        have hbeyond : value.length ≤ i * 32 := by omega
        have hne : address' = address' → ∀ i' < n, chunkSlot keccak256 key' i ≠ chunkSlot keccak256 key' i' := by
          intro _ i' hi' heq
          have hindex := (hfree.injective key' hkey key' hkey i hi i' (by omega) heq).2
          omega
        rw [writeChunks_of_ne keccak256 hne, hkept, chunkValue_beyond hold, chunkValue_beyond hbeyond]
    · rw [if_neg hsame, ← hkept]
      refine writeChunks_of_ne keccak256 ?_
      intro ha i' hi' heq
      exact hsame ⟨ha, (hfree.injective key' hkey' key hkey i hi i' (by omega) heq).1⟩
  · intro address' slot hforeign
    rw [writeChunks_of_ne keccak256 fun _ i hi => hforeign.2 key hkey i (by omega)]
    exact setStorage_of_ne _ _ fun _ heq => hforeign.1 (heq ▸ hkey)

/-! ## Any calls -/

inductive StorageCall where
  | updateAccountStorageBytes (address : Address) (key value : Bytes)
  | removeAccountStorageBytes (address : Address) (key : Bytes)
  | enableWriteProtection
  | disableWriteProtection

/-- one call; a call that throws has changed nothing -/
def call (view : StateDbAccountStateView) : StorageCall → StateDbAccountStateView
  | .updateAccountStorageBytes address key value =>
    match ChunkedStorage.updateAccountStorageBytes keccak256 view address key value with
    | .ok view' => view'
    | .error _ => view
  | .removeAccountStorageBytes address key =>
    match ChunkedStorage.removeAccountStorageBytes keccak256 view address key with
    | .ok view' => view'
    | .error _ => view
  | .enableWriteProtection => { view with readOnly := true }
  | .disableWriteProtection => { view with readOnly := false }

/-- what the calls are for: a map of byte strings that may be protected -/
structure StringMap where
  strings : Address → Hash → Bytes
  readOnly : Bool

namespace StringMap

/-- the last string written; a key is 32 bytes long -/
def write (m : StringMap) (address : Address) (key value : Bytes) : StringMap :=
  if h : key.length = HashLength then
    if m.readOnly then m else { m with strings := put m.strings address ⟨key, h⟩ value }
  else m

def call (m : StringMap) : StorageCall → StringMap
  | .updateAccountStorageBytes address key value => m.write address key value
  | .removeAccountStorageBytes address key => m.write address key []
  | .enableWriteProtection => { m with readOnly := true }
  | .disableWriteProtection => { m with readOnly := false }

end StringMap

/-- a call is about keys in use and strings that are not too long -/
def Within (keys : Set Hash) : StorageCall → Prop
  | .updateAccountStorageBytes _ key value => (∀ h, ⟨key, h⟩ ∈ keys) ∧ value.length < maxLength
  | .removeAccountStorageBytes _ key => ∀ h, ⟨key, h⟩ ∈ keys
  | _ => True

/-- a view and the map of strings it stands for -/
structure Refines (keys : Set Hash) (view : StateDbAccountStateView) (m : StringMap) : Prop where
  holds : Holds keccak256 keys view.storage m.strings
  readOnly : view.readOnly = m.readOnly

/-- the exceptions before the first write -/
theorem updateAccountStorageBytes_error {view : StateDbAccountStateView} {key : Bytes}
    (h : view.readOnly = true ∨ key.length ≠ HashLength) (address : Address) (value : Bytes) :
    ∃ e, updateAccountStorageBytes keccak256 view address key value = .error e := by
  unfold ChunkedStorage.updateAccountStorageBytes
  by_cases hreadOnly : view.readOnly = true
  · exact ⟨.writeProtection "invalid write access to storage", by rw [hreadOnly]; rfl⟩
  · have hkey : newHash key = .error (.hashLength key.length) := dif_neg (h.resolve_left hreadOnly)
    rw [getAccountStorage, hkey, Bool.eq_false_iff.2 hreadOnly]
    exact ⟨_, rfl⟩

/-- a write, thrown or not -/
theorem Refines.write {keys : Set Hash} (hfree : CollisionFree keccak256 keys) {view : StateDbAccountStateView}
    {m : StringMap} (h : Refines keccak256 keys view m) (address : Address) {key value : Bytes}
    (hkey : ∀ h, ⟨key, h⟩ ∈ keys) (hvalue : value.length < maxLength) :
    Refines keccak256 keys (call keccak256 view (.updateAccountStorageBytes address key value)) (m.write address key value) ∧
      ∀ address' slot, Foreign keccak256 keys slot →
        (call keccak256 view (.updateAccountStorageBytes address key value)).storage address' slot =
          view.storage address' slot := by
  have hreadOnly := h.readOnly
  by_cases hthrows : view.readOnly = true ∨ key.length ≠ HashLength
  · obtain ⟨e, he⟩ := updateAccountStorageBytes_error keccak256 hthrows address value
    have hsame : m.write address key value = m := by
      unfold StringMap.write
      obtain hprotected | hlength := hthrows
      · simp [← hreadOnly, hprotected]
      · simp [hlength]
    simp only [call, he, hsame]
    exact ⟨h, fun _ _ _ => trivial⟩
  · rw [not_or, not_not] at hthrows
    obtain ⟨hwritable, hlength⟩ := hthrows
    have hwritable : view.readOnly = false := Bool.eq_false_iff.2 hwritable
    obtain ⟨view', hupdate, hholds, hkept, hforeign⟩ :=
      h.holds.updateAccountStorageBytes keccak256 hfree hwritable address (hkey hlength) hvalue
    have hwrite : m.write address key value = { m with strings := put m.strings address ⟨key, hlength⟩ value } := by
      rw [StringMap.write, dif_pos hlength, ← hreadOnly, hwritable]
      rfl
    simp only [call, hupdate, hwrite]
    exact ⟨⟨hholds, hkept.trans hreadOnly⟩, hforeign⟩

/-- **One call.** -/
theorem Refines.call {keys : Set Hash} (hfree : CollisionFree keccak256 keys) {view : StateDbAccountStateView}
    {m : StringMap} (h : Refines keccak256 keys view m) {op : StorageCall} (hop : Within keys op) :
    Refines keccak256 keys (call keccak256 view op) (m.call op) ∧
      ∀ address slot, Foreign keccak256 keys slot →
        (ChunkedStorage.call keccak256 view op).storage address slot = view.storage address slot := by
  cases op with
  | updateAccountStorageBytes address key value => exact h.write keccak256 hfree address hop.1 hop.2
  | removeAccountStorageBytes address key => exact h.write keccak256 hfree address hop (by decide)
  | enableWriteProtection => exact ⟨⟨h.holds, rfl⟩, fun _ _ _ => rfl⟩
  | disableWriteProtection => exact ⟨⟨h.holds, rfl⟩, fun _ _ _ => rfl⟩

theorem run_refines {keys : Set Hash} (hfree : CollisionFree keccak256 keys) (ops : List StorageCall)
    (hops : ∀ op ∈ ops, Within keys op) {view : StateDbAccountStateView} {m : StringMap}
    (h : Refines keccak256 keys view m) :
    Refines keccak256 keys (ops.foldl (call keccak256) view) (ops.foldl StringMap.call m) ∧
      ∀ address slot, Foreign keccak256 keys slot →
        (ops.foldl (call keccak256) view).storage address slot = view.storage address slot := by
  induction ops generalizing view m with
  | nil => exact ⟨h, fun _ _ _ => rfl⟩
  | cons op ops ih =>
    obtain ⟨hone, hforeign⟩ := h.call keccak256 hfree (hops op List.mem_cons_self)
    obtain ⟨hrest, hforeign'⟩ := ih (fun op' hop' => hops op' (List.mem_cons_of_mem op hop')) hone
    exact ⟨hrest, fun address slot hslot => (hforeign' address slot hslot).trans (hforeign address slot hslot)⟩

/-- **A map of byte strings.** After any calls, `getAccountStorageBytes` returns the last string written to a key, or the
empty one; the slots beyond the end of the string hold zero, all of them if the string is empty; foreign slots are as they
were before the first call. -/
theorem chunks_are_strings {keys : Set Hash} (hfree : CollisionFree keccak256 keys) {view : StateDbAccountStateView}
    (hunwritten : Unwritten keccak256 keys view.storage) (ops : List StorageCall) (hops : ∀ op ∈ ops, Within keys op) :
    let view' := ops.foldl (call keccak256) view
    let strings := (ops.foldl StringMap.call ⟨fun _ _ => [], view.readOnly⟩).strings
    (∀ address, ∀ key ∈ keys,
      getAccountStorageBytes keccak256 view' address key.toBytes = .ok (strings address key) ∧
      (∀ i < maxChunks, (strings address key).length ≤ i * HashLength →
        view'.storage address (chunkSlot keccak256 key i) = Hash.ZERO) ∧
      (strings address key = [] → view'.storage address key = Hash.ZERO)) ∧
    ∀ address slot, Foreign keccak256 keys slot → view'.storage address slot = view.storage address slot := by
  intro view' strings
  have hstart : Refines keccak256 keys view ⟨fun _ _ => [], view.readOnly⟩ :=
    ⟨holds_unwritten keccak256 hunwritten, rfl⟩
  obtain ⟨⟨hholds, -⟩, hforeign⟩ := run_refines keccak256 hfree ops hops hstart
  refine ⟨?_, hforeign⟩
  intro address key hkey
  refine ⟨hholds.get keccak256 address hkey, ?_, ?_⟩
  · intro i hi hbeyond
    rw [hholds.chunks address key hkey i hi]
    exact chunkValue_beyond hbeyond
  · intro hempty
    have hlength := hholds.length address key hkey
    change view'.storage address key = lengthValue (strings address key).length at hlength
    rw [hlength, hempty]
    exact Hash.ext_toBytes toUint256Bytes_zero

end Holds

/-- a hash for examples: the index of the chunk, from one on -/
def indexHash (bytes : Bytes) : Hash := lengthValue (BigEndian.value (bytes.drop 64) + 1)

theorem indexHash_collisionFree : CollisionFree indexHash {Hash.ZERO} := by
  have hslot : ∀ i < maxChunks, chunkSlot indexHash Hash.ZERO i = lengthValue (i + 1) := by
    intro i hi
    have hdrop : (chunkKeySalt ++ Hash.ZERO.toBytes ++ toUint256Bytes i).drop 64 = toUint256Bytes i :=
      List.drop_left' (by rfl)
    rw [chunkSlot, indexHash, hdrop, value_toUint256Bytes (hi.trans (by decide))]
  have hvalue : ∀ i < maxChunks, BigEndian.value (chunkSlot indexHash Hash.ZERO i).toBytes = i + 1 := by
    intro i hi
    have hsmall : i + 1 < 256 ^ 32 := by
      have hle : i + 1 ≤ maxChunks := hi
      exact lt_of_le_of_lt hle (by decide)
    rw [hslot i hi]
    exact value_toUint256Bytes hsmall
  constructor
  · rintro key rfl key' rfl i hi i' hi' heq
    have hsum : i + 1 = i' + 1 := by rw [← hvalue i hi, heq, hvalue i' hi']
    exact ⟨rfl, by omega⟩
  · rintro key rfl key' rfl i hi heq
    have hzero : BigEndian.value Hash.ZERO.toBytes = 0 := by decide
    have hsum : i + 1 = 0 := by rw [← hvalue i hi, heq, hzero]
    omega

/-- a string that ends in a zero byte, written over a longer one -/
theorem chunks_are_strings_sample :
    getAccountStorageBytes indexHash
      ([.updateAccountStorageBytes 7 Hash.ZERO.toBytes [1, 2, 3, 4], .updateAccountStorageBytes 7 Hash.ZERO.toBytes [5, 0]].foldl
        (call indexHash) ⟨fun _ _ => Hash.ZERO, false⟩) 7 Hash.ZERO.toBytes = .ok [5, 0] :=
  ((@chunks_are_strings indexHash {Hash.ZERO} indexHash_collisionFree ⟨fun _ _ => Hash.ZERO, false⟩
    (fun _ _ _ => ⟨rfl, fun _ _ => rfl⟩)
    [.updateAccountStorageBytes 7 Hash.ZERO.toBytes [1, 2, 3, 4], .updateAccountStorageBytes 7 Hash.ZERO.toBytes [5, 0]]
    (by simp [Within, Hash.ZERO, maxLength])).1 7 Hash.ZERO rfl).1

end SidechainsSdk.Account.ChunkedStorage
