/-
The cache of the account mempool (`TxCache`): all pooled transactions by id, in a doubly linked list by arrival, with the
sizes of the whole pool and of its non-executable part.

- A reference to a `TxMetaInfo` is the id under which it is cached. The source holds references to the objects; the two
  differ only if an id is added that is cached already, or if a reference outlives its entry, and neither happens.
- The clock is read when an entry is made and when a time-out is checked; `Time.now n` is its `n`-th reading.
- Slot counters are `Int` in the source and `ℤ` here: they stay below the number of slots in memory.

`Repr c es` says that the cache holds the entries `es`, from the oldest to the youngest. The specifications of the
operations are on this list: `add` appends, `remove` filters, `promoteTransaction` and `demoteTransaction` set a status, and
the iterator returns the next non-executable entry of the part that is left.
-/
import Mathlib.Tactic
import SidechainsSdk.Account.Types
import SidechainsSdk.Core.LinkedList

namespace SidechainsSdk.Account.Mempool

open LinkedList

/-! ## Transactions -/

/-- an id is a hash in hexadecimal -/
abbrev ModifierId := ℕ

/-- what the mempool reads of an `EthereumTransaction`; ids are hashes and taken as injective -/
class AccountTransaction (Tx : Type) where
  idOf : Tx → ModifierId
  getFrom : Tx → Address
  getNonce : Tx → ℤ
  size : Tx → ℕ
  maxCost : Tx → ℤ
  getMaxFeePerGas : Tx → ℤ
  getMaxPriorityFeePerGas : Tx → ℤ
  id_injective : Function.Injective idOf

open AccountTransaction

/-- transactions for examples: the digits of the id are the sender, the nonce and the fee -/
structure DigitsTx where
  id : ModifierId
deriving DecidableEq

instance : AccountTransaction DigitsTx where
  idOf := DigitsTx.id
  getFrom := fun tx => BitVec.ofNat 160 (tx.id / 100)
  getNonce := fun tx => ((tx.id / 10 % 10 : ℕ) : ℤ)
  size := fun _ => 100
  maxCost := fun tx => tx.id % 10
  getMaxFeePerGas := fun tx => tx.id % 10
  getMaxPriorityFeePerGas := fun tx => tx.id % 10
  id_injective := by
    intro x y hid
    cases x
    cases y
    exact congrArg DigitsTx.mk hid

inductive TxExecutableStatus where
  | EXEC
  | NON_EXEC
deriving DecidableEq

inductive MempoolException where
  | txOversized (account : Address) (txSize : ℕ)
  | nonceGapTooWide (txId : ModifierId) (txNonce stateNonce : ℤ)
  | transactionReplaceUnderpriced (txId : ModifierId)
  | accountMemPoolOutOfBound (txId : ModifierId)
  -- `NoSuchElementException`, with the expression that throws it
  | noSuchElement (expression : String)
  | illegalState (message : String)
  -- a reference to an entry that is not cached any more
  | danglingReference (txId : ModifierId)
  -- a loop that has not ended after as many iterations as there are entries
  | endlessLoop
deriving DecidableEq

def TxSlotSize : ℕ := 32 * 1024

def MaxNumOfSlotsForTx : ℕ := 4

def MaxTxSize : ℕ := MaxNumOfSlotsForTx * TxSlotSize

def sizeToSlot (numOfBytes : ℕ) : ℕ := (numOfBytes + TxSlotSize - 1) / TxSlotSize

variable {Tx : Type} [AccountTransaction Tx]

def txSizeInSlot (tx : Tx) : ℤ := sizeToSlot (size tx)

theorem txSizeInSlot_nonneg (tx : Tx) : 0 ≤ txSizeInSlot tx := Int.natCast_nonneg _

/-- a transaction that is not oversized takes at most four slots -/
theorem txSizeInSlot_le {tx : Tx} (h : size tx ≤ MaxTxSize) : txSizeInSlot tx ≤ MaxNumOfSlotsForTx := by
  have hslot : sizeToSlot (size tx) ≤ MaxNumOfSlotsForTx := by
    unfold sizeToSlot MaxTxSize MaxNumOfSlotsForTx TxSlotSize at *
    omega
  unfold txSizeInSlot
  exact_mod_cast hslot

/-! ## The cache -/

/-- the life time of an entry, and the readings of the system clock -/
structure Time where
  txLifetime : ℕ
  now : ℕ → ℕ

/-- a cached transaction -/
structure TxInfo (Tx : Type) where
  tx : Tx
  executableStatus : TxExecutableStatus
  deadline : ℕ

/-- the entry of a transaction, with its links -/
abbrev TxMetaInfo (Tx : Type) := Node ModifierId (TxInfo Tx)

structure TxCache (Tx : Type) where
  all : AList fun _ : ModifierId => TxMetaInfo Tx
  sizeInSlots : ℤ
  nonExecSizeInSlots : ℤ
  oldestTx : Option ModifierId
  youngestTx : Option ModifierId
  clockReads : ℕ

namespace TxCache

def empty : TxCache Tx := ⟨∅, 0, 0, none, none, 0⟩

def add (time : Time) (tx : Tx) (execStatus : TxExecutableStatus) (c : TxCache Tx) :
    Except MempoolException (TxCache Tx) :=
  let txInfo : TxMetaInfo Tx := ⟨⟨tx, execStatus, time.now c.clockReads + time.txLifetime⟩, none, none⟩
  let txSize := txSizeInSlot tx
  let c := { c with
    all := c.all.insert (idOf tx) txInfo
    clockReads := c.clockReads + 1
    sizeInSlots := c.sizeInSlots + txSize
    nonExecSizeInSlots :=
      if execStatus = TxExecutableStatus.NON_EXEC then c.nonExecSizeInSlots + txSize else c.nonExecSizeInSlots }
  if c.oldestTx = none then .ok { c with oldestTx := some (idOf tx), youngestTx := some (idOf tx) }
  else match c.youngestTx with
    | none => .error (.noSuchElement "tmp.get")
    | some tmp => .ok { c with
        youngestTx := some (idOf tx)
        all := modifyNode (modifyNode c.all (idOf tx) fun info => { info with older := some tmp }) tmp
          fun info => { info with younger := some (idOf tx) } }

def remove (txId : ModifierId) (c : TxCache Tx) : Option Tx × TxCache Tx :=
  match c.all.lookup txId with
  | none => (none, c)
  | some txInfo =>
    let c := { c with all := c.all.erase txId }
    let c := match txInfo.older, txInfo.younger with
      | none, none => { c with oldestTx := none, youngestTx := none }
      | none, some younger => { c with
          oldestTx := some younger
          all := modifyNode c.all younger fun info => { info with older := none } }
      | some older, none => { c with
          youngestTx := some older
          all := modifyNode c.all older fun info => { info with younger := none } }
      | some older, some younger => { c with
          all := modifyNode (modifyNode c.all older fun info => { info with younger := some younger }) younger
            fun info => { info with older := some older } }
    let txSize := txSizeInSlot txInfo.value.tx
    (some txInfo.value.tx, { c with
      sizeInSlots := c.sizeInSlots - txSize
      nonExecSizeInSlots :=
        if txInfo.value.executableStatus = .NON_EXEC then c.nonExecSizeInSlots - txSize else c.nonExecSizeInSlots })

def setExecutableStatus (status : TxExecutableStatus) (info : TxMetaInfo Tx) : TxMetaInfo Tx :=
  { info with value := { info.value with executableStatus := status } }

def promoteTransaction (txId : ModifierId) (c : TxCache Tx) : Except MempoolException (Tx × TxCache Tx) :=
  match c.all.lookup txId with
  | some txInfo => .ok (txInfo.value.tx, { c with
      all := modifyNode c.all txId (setExecutableStatus .EXEC)
      nonExecSizeInSlots := c.nonExecSizeInSlots - txSizeInSlot txInfo.value.tx })
  | none => .error (.illegalState "Trying to promote a non existent transaction")

def demoteTransaction (txId : ModifierId) (c : TxCache Tx) : TxCache Tx :=
  match c.all.lookup txId with
  | some txInfo => { c with
      all := modifyNode c.all txId (setExecutableStatus .NON_EXEC)
      nonExecSizeInSlots := c.nonExecSizeInSlots + txSizeInSlot txInfo.value.tx }
  | none => c

def getTransaction (txId : ModifierId) (c : TxCache Tx) : Option Tx := (c.all.lookup txId).map fun info => info.value.tx

/-- `apply`: the transaction, or an exception -/
def apply (txId : ModifierId) (c : TxCache Tx) : Except MempoolException Tx :=
  match c.all.lookup txId with
  | some txInfo => .ok txInfo.value.tx
  | none => .error (.noSuchElement "all(txId)")

def contains (txId : ModifierId) (c : TxCache Tx) : Bool := (c.all.lookup txId).isSome

/-- all entries, in the order of the map -/
def infos (c : TxCache Tx) : List (TxInfo Tx) := c.all.entries.map fun entry => entry.2.value

def values (c : TxCache Tx) : List Tx := c.infos.map TxInfo.tx

def cacheSize (c : TxCache Tx) : ℕ := c.all.entries.length

def getOldestTransactionInfo (c : TxCache Tx) : Except MempoolException (Option (TxMetaInfo Tx)) :=
  match c.oldestTx with
  | none => .ok none
  | some txId => match c.all.lookup txId with
    | some txInfo => .ok (some txInfo)
    | none => .error (.danglingReference txId)

/-! ### `NonExecTransactionIterator` -/

/-- the first non-executable entry from a reference on; the fuel is spent on entries -/
def findNext (c : TxCache Tx) : ℕ → Option ModifierId → Except MempoolException (Option (TxMetaInfo Tx))
  | _, none => .ok none
  | 0, some _ => .error .endlessLoop
  | fuel + 1, some txId =>
    match c.all.lookup txId with
    | none => .error (.danglingReference txId)
    | some txInfo =>
      if txInfo.value.executableStatus = .NON_EXEC then .ok (some txInfo) else findNext c fuel txInfo.younger

/-- `next` of an iterator that stands at `nextElem`: the transaction and where the iterator stands then -/
def next (c : TxCache Tx) (nextElem : Option ModifierId) : Except MempoolException (Tx × Option ModifierId) :=
  match findNext c c.cacheSize nextElem with
  | .error e => .error e
  | .ok none => .error (.noSuchElement "nonExecIter.next")
  | .ok (some txInfo) => .ok (txInfo.value.tx, txInfo.younger)

/-! ## What the cache holds -/

/-- the entries with their ids -/
def listed (es : List (TxInfo Tx)) : List (ModifierId × TxInfo Tx) := es.map fun e => (idOf e.tx, e)

def slots (es : List (TxInfo Tx)) : ℤ := (es.map fun e => txSizeInSlot e.tx).sum

def nonExecSlots (es : List (TxInfo Tx)) : ℤ := slots (es.filter fun e => e.executableStatus = .NON_EXEC)

/-- the cache holds the entries `es`, from the oldest to the youngest -/
structure Repr (c : TxCache Tx) (es : List (TxInfo Tx)) : Prop where
  nodup : (es.map fun e => idOf e.tx).Nodup
  lookup : ∀ txId, c.all.lookup txId = nodes none (listed es) none txId
  oldest : c.oldestTx = headKey (listed es) none
  youngest : c.youngestTx = lastKey none (listed es)
  size : c.sizeInSlots = slots es
  nonExecSize : c.nonExecSizeInSlots = nonExecSlots es

theorem repr_empty : Repr (empty : TxCache Tx) [] where
  nodup := List.nodup_nil
  lookup := fun _ => rfl
  oldest := rfl
  youngest := rfl
  size := rfl
  nonExecSize := rfl

theorem listed_keys (es : List (TxInfo Tx)) : (listed es).map Prod.fst = es.map fun e => idOf e.tx := by
  simp [listed, Function.comp_def]

theorem listed_append (l₁ l₂ : List (TxInfo Tx)) : listed (l₁ ++ l₂) = listed l₁ ++ listed l₂ := List.map_append

@[simp] theorem slots_nil : slots ([] : List (TxInfo Tx)) = 0 := rfl

@[simp] theorem slots_cons (e : TxInfo Tx) (es : List (TxInfo Tx)) : slots (e :: es) = txSizeInSlot e.tx + slots es :=
  List.sum_cons

@[simp] theorem slots_append (l₁ l₂ : List (TxInfo Tx)) : slots (l₁ ++ l₂) = slots l₁ + slots l₂ := by
  simp [slots]

@[simp] theorem nonExecSlots_append (l₁ l₂ : List (TxInfo Tx)) :
    nonExecSlots (l₁ ++ l₂) = nonExecSlots l₁ + nonExecSlots l₂ := by
  simp [nonExecSlots]

theorem nonExecSlots_cons (e : TxInfo Tx) (es : List (TxInfo Tx)) :
    nonExecSlots (e :: es) =
      (if e.executableStatus = .NON_EXEC then txSizeInSlot e.tx else 0) + nonExecSlots es := by
  unfold nonExecSlots
  by_cases he : e.executableStatus = .NON_EXEC
  · simp [he]
  · simp [he]

/-! ### Entries and lookups -/

/-- the part before and the part after an entry do not have its id -/
theorem split_of_mem {es : List (TxInfo Tx)} (h : (es.map fun e => idOf e.tx).Nodup) {e : TxInfo Tx} (he : e ∈ es) :
    ∃ l₁ l₂, es = l₁ ++ e :: l₂ ∧ (∀ x ∈ l₁, idOf x.tx ≠ idOf e.tx) ∧ ∀ x ∈ l₂,
      idOf x.tx ≠ idOf e.tx := by
  obtain ⟨l₁, l₂, rfl⟩ := List.append_of_mem he
  rw [List.map_append, List.map_cons, List.nodup_append, List.nodup_cons] at h
  obtain ⟨-, ⟨h₂, -⟩, h₁⟩ := h
  refine ⟨l₁, l₂, rfl, ?_, ?_⟩
  · intro x hx
    exact h₁ _ (List.mem_map_of_mem hx) _ List.mem_cons_self
  · intro x hx heq
    exact h₂ (heq ▸ List.mem_map_of_mem hx)

theorem eq_of_id {es : List (TxInfo Tx)} (h : (es.map fun e => idOf e.tx).Nodup) {e e' : TxInfo Tx} (he : e ∈ es)
    (he' : e' ∈ es) (heq : idOf e.tx = idOf e'.tx) : e = e' := List.inj_on_of_nodup_map h he he' heq

section Lookups

variable {c : TxCache Tx} {es : List (TxInfo Tx)} (h : Repr c es)

include h

theorem Repr.lookup_of_mem {e : TxInfo Tx} (he : e ∈ es) :
    ∃ info, c.all.lookup (idOf e.tx) = some info ∧ info.value = e := by
  obtain ⟨l₁, l₂, rfl, h₁, -⟩ := split_of_mem h.nodup he
  have hmem : idOf e.tx ∉ (listed l₁).map Prod.fst := by
    rw [listed_keys]
    intro hmem
    obtain ⟨x, hx, heq⟩ := List.mem_map.1 hmem
    exact h₁ x hx heq
  rw [h.lookup, listed_append]
  exact ⟨_, nodes_mid none none (listed l₁) (listed l₂) e hmem, rfl⟩

theorem Repr.lookup_none {txId : ModifierId} (hid : ∀ e ∈ es, idOf e.tx ≠ txId) : c.all.lookup txId = none := by
  rw [h.lookup]
  refine nodes_of_not_mem none none _ ?_
  rw [listed_keys]
  intro hmem
  obtain ⟨e, he, heq⟩ := List.mem_map.1 hmem
  exact hid e he heq

/-- an entry is found under its own id, and nothing else is found -/
theorem Repr.mem_of_lookup {txId : ModifierId} {info : TxMetaInfo Tx} (hinfo : c.all.lookup txId = some info) :
    info.value ∈ es ∧ idOf info.value.tx = txId := by
  by_cases hid : ∃ e ∈ es, idOf e.tx = txId
  · obtain ⟨e, he, rfl⟩ := hid
    obtain ⟨info', hinfo', rfl⟩ := h.lookup_of_mem he
    rw [hinfo'] at hinfo
    injection hinfo with hinfo
    rw [← hinfo]
    exact ⟨he, rfl⟩
  · push Not at hid
    rw [h.lookup_none hid] at hinfo
    cases hinfo

theorem Repr.apply_of_mem {e : TxInfo Tx} (he : e ∈ es) : c.apply (idOf e.tx) = .ok e.tx := by
  obtain ⟨info, hinfo, rfl⟩ := h.lookup_of_mem he
  rw [apply, hinfo]

theorem Repr.getTransaction_of_mem {e : TxInfo Tx} (he : e ∈ es) : c.getTransaction (idOf e.tx) = some e.tx := by
  obtain ⟨info, hinfo, rfl⟩ := h.lookup_of_mem he
  rw [getTransaction, hinfo]
  rfl

theorem Repr.contains_iff (txId : ModifierId) : c.contains txId ↔ ∃ e ∈ es, idOf e.tx = txId := by
  unfold contains
  constructor
  · intro hsome
    obtain ⟨info, hinfo⟩ := Option.isSome_iff_exists.1 hsome
    exact ⟨info.value, h.mem_of_lookup hinfo⟩
  · intro hmem
    obtain ⟨e, he, rfl⟩ := hmem
    obtain ⟨info, hinfo, -⟩ := h.lookup_of_mem he
    simp [hinfo]

/-- the map has exactly the entries of the list -/
theorem Repr.infos_perm : c.infos.Perm es := by
  have hes : es.Nodup := List.Nodup.of_map _ h.nodup
  have hkey : ∀ entry ∈ c.all.entries, idOf entry.2.value.tx = entry.1 := by
    intro entry hentry
    exact (h.mem_of_lookup (AList.mem_lookup_iff.2 hentry)).2
  have hinfos : c.infos.Nodup := by
    have hids : (c.infos.map fun e => idOf e.tx).Nodup := by
      have heq : (c.infos.map fun e => idOf e.tx) = c.all.keys := by
        unfold infos AList.keys List.keys
        rw [List.map_map]
        exact List.map_congr_left hkey
      rw [heq]
      exact c.all.keys_nodup
    exact List.Nodup.of_map _ hids
  refine (List.perm_ext_iff_of_nodup hinfos hes).2 ?_
  intro e
  constructor
  · intro he
    obtain ⟨entry, hentry, rfl⟩ := List.mem_map.1 he
    exact (h.mem_of_lookup (AList.mem_lookup_iff.2 hentry)).1
  · intro he
    obtain ⟨info, hinfo, rfl⟩ := h.lookup_of_mem he
    exact List.mem_map.2 ⟨⟨_, info⟩, AList.mem_lookup_iff.1 hinfo, rfl⟩

theorem Repr.cacheSize_eq : c.cacheSize = es.length := by
  have hlength := h.infos_perm.length_eq
  rw [← hlength, infos, List.length_map]
  rfl

end Lookups

/-! ### The operations on the list of entries -/

def withoutId (txId : ModifierId) (es : List (TxInfo Tx)) : List (TxInfo Tx) := es.filter fun e => idOf e.tx ≠ txId

def setStatus (txId : ModifierId) (status : TxExecutableStatus) (es : List (TxInfo Tx)) : List (TxInfo Tx) :=
  es.map fun e => if idOf e.tx = txId then { e with executableStatus := status } else e

theorem withoutId_split {l₁ l₂ : List (TxInfo Tx)} {e : TxInfo Tx} (h₁ : ∀ x ∈ l₁, idOf x.tx ≠ idOf e.tx)
    (h₂ : ∀ x ∈ l₂, idOf x.tx ≠ idOf e.tx) : withoutId (idOf e.tx) (l₁ ++ e :: l₂) = l₁ ++ l₂ := by
  have hl₁ : l₁.filter (fun x => idOf x.tx ≠ idOf e.tx) = l₁ := List.filter_eq_self.2 (by simpa using h₁)
  have hl₂ : l₂.filter (fun x => idOf x.tx ≠ idOf e.tx) = l₂ := List.filter_eq_self.2 (by simpa using h₂)
  rw [withoutId, List.filter_append, hl₁, List.filter_cons_of_neg (by simp), hl₂]

theorem setStatus_split {l₁ l₂ : List (TxInfo Tx)} {e : TxInfo Tx} (h₁ : ∀ x ∈ l₁, idOf x.tx ≠ idOf e.tx)
    (h₂ : ∀ x ∈ l₂, idOf x.tx ≠ idOf e.tx) (status : TxExecutableStatus) :
    setStatus (idOf e.tx) status (l₁ ++ e :: l₂) = l₁ ++ { e with executableStatus := status } :: l₂ := by
  have hself : ∀ l : List (TxInfo Tx), (∀ x ∈ l, idOf x.tx ≠ idOf e.tx) →
      (l.map fun x => if idOf x.tx = idOf e.tx then { x with executableStatus := status } else x) = l := by
    intro l hl
    conv_rhs => rw [← List.map_id l]
    refine List.map_congr_left ?_
    intro x hx
    exact if_neg (hl x hx)
  rw [setStatus, List.map_append, List.map_cons, hself l₁ h₁, hself l₂ h₂, if_pos rfl]

theorem setStatus_txs (txId : ModifierId) (status : TxExecutableStatus) (es : List (TxInfo Tx)) :
    (setStatus txId status es).map TxInfo.tx = es.map TxInfo.tx := by
  rw [setStatus, List.map_map]
  refine List.map_congr_left ?_
  intro e _
  show (if idOf e.tx = txId then { e with executableStatus := status } else e).tx = e.tx
  split_ifs <;> rfl

section Operations

variable {c : TxCache Tx} {es : List (TxInfo Tx)} (h : Repr c es)

include h

theorem Repr.add (time : Time) (tx : Tx) (status : TxExecutableStatus) (hfresh : ∀ e ∈ es, idOf e.tx ≠ idOf tx) :
    ∃ c' deadline, c.add time tx status = .ok c' ∧ Repr c' (es ++ [⟨tx, status, deadline⟩]) := by
  have hfresh' : idOf tx ∉ (listed es).map Prod.fst := by
    rw [listed_keys]
    intro hmem
    obtain ⟨e, he, heq⟩ := List.mem_map.1 hmem
    exact hfresh e he heq
  set entry : TxInfo Tx := ⟨tx, status, time.now c.clockReads + time.txLifetime⟩ with hentry
  have hnodup : ((es ++ [entry]).map fun e => idOf e.tx).Nodup := by
    rw [List.map_append, List.nodup_append]
    refine ⟨h.nodup, List.nodup_singleton _, ?_⟩
    intro a ha b hb heq
    obtain ⟨e, he, rfl⟩ := List.mem_map.1 ha
    rw [List.map_singleton, List.mem_singleton] at hb
    exact hfresh e he (heq.trans hb)
  have hsize : c.sizeInSlots + txSizeInSlot tx = slots (es ++ [entry]) := by
    simp [h.size, hentry]
  have hnonExec : (if status = TxExecutableStatus.NON_EXEC then c.nonExecSizeInSlots + txSizeInSlot tx
      else c.nonExecSizeInSlots) = nonExecSlots (es ++ [entry]) := by
    rw [nonExecSlots_append, nonExecSlots_cons, h.nonExecSize]
    split_ifs <;> simp [nonExecSlots, hentry]
  unfold TxCache.add
  cases hyoungest : c.youngestTx with
  | none =>
    have hes : listed es = [] := lastKey_eq_none (h.youngest ▸ hyoungest)
    have hold : c.oldestTx = none := by rw [h.oldest, hes]; rfl
    refine ⟨_, _, if_pos hold, hnodup, ?_, ?_, ?_, hsize, hnonExec⟩
    · intro txId
      rw [listed_append, hes]
      by_cases hid : txId = idOf tx
      · subst hid
        simp [listed, nodes, headKey]
      · rw [AList.lookup_insert_ne hid, h.lookup, hes]
        simp [listed, nodes, hid]
    · rw [listed_append, hes]
      rfl
    · rw [listed_append, hes]
      rfl
  | some tmp =>
    have hlast : lastKey none (listed es) = some tmp := h.youngest ▸ hyoungest
    have hmem : tmp ∈ (listed es).map Prod.fst := lastKey_mem hlast
    have htmp : tmp ≠ idOf tx := fun heq => hfresh' (heq ▸ hmem)
    have hold : c.oldestTx ≠ none := by
      intro hnone
      have hes : listed es = [] := headKey_eq_none (h.oldest ▸ hnone)
      rw [hes] at hlast
      cases hlast
    refine ⟨_, _, if_neg hold, hnodup, ?_, ?_, ?_, hsize, hnonExec⟩
    · intro txId
      have htarget : nodes none (listed (es ++ [entry])) none txId =
          if txId ∈ (listed es).map Prod.fst then nodes none (listed es) (some (idOf tx)) txId
          else nodes (some tmp) [(idOf tx, entry)] none txId := by
        rw [listed_append, nodes_append, hlast]
        rfl
      rw [htarget]
      by_cases hid : txId = idOf tx
      · subst hid
        rw [if_neg hfresh', lookup_modifyNode, if_neg htmp.symm, lookup_modifyNode, if_pos rfl]
        simp [nodes, headKey, hentry]
      · rw [lookup_modifyNode, lookup_modifyNode, if_neg hid, AList.lookup_insert_ne hid, h.lookup]
        by_cases hmem' : txId ∈ (listed es).map Prod.fst
        · rw [if_pos hmem', nodes_next none none (some (idOf tx)) _ (by rw [listed_keys]; exact h.nodup), hlast]
          by_cases heq : txId = tmp
          · simp [heq]
          · simp [heq, Ne.symm heq]
        · have hne : txId ≠ tmp := fun heq => hmem' (heq ▸ hmem)
          rw [if_neg hmem', if_neg hne, nodes_of_not_mem none none _ hmem']
          simp [nodes, hid]
    · show c.oldestTx = _
      rw [h.oldest, listed_append, headKey_append]
      cases hes : listed es with
      | nil => rw [hes] at hlast; cases hlast
      | cons x l => rfl
    · rw [listed_append, lastKey_append]
      rfl

theorem Repr.nodup_split {l₁ l₂ : List (TxInfo Tx)} {e : TxInfo Tx} (hes : es = l₁ ++ e :: l₂) :
    ((l₁ ++ l₂).map fun e => idOf e.tx).Nodup := by
  have hsub : (l₁ ++ l₂).Sublist (l₁ ++ e :: l₂) := (List.sublist_cons_self e l₂).append_left l₁
  exact (hes ▸ h.nodup).sublist (hsub.map _)

omit h in
/-- the four cases of the source in one: the entry is unlinked, and the ends move where it was one -/
theorem remove_eq {txId : ModifierId} {txInfo : TxMetaInfo Tx} (hlookup : c.all.lookup txId = some txInfo) :
    c.remove txId = (some txInfo.value.tx, { c with
      all := unlink c.all txId txInfo.older txInfo.younger
      oldestTx := if txInfo.older = none then txInfo.younger else c.oldestTx
      youngestTx := if txInfo.younger = none then txInfo.older else c.youngestTx
      sizeInSlots := c.sizeInSlots - txSizeInSlot txInfo.value.tx
      nonExecSizeInSlots :=
        if txInfo.value.executableStatus = .NON_EXEC then c.nonExecSizeInSlots - txSizeInSlot txInfo.value.tx
        else c.nonExecSizeInSlots }) := by
  simp only [TxCache.remove, hlookup]
  obtain ⟨value, younger, older⟩ := txInfo
  cases older <;> cases younger <;> rfl

theorem Repr.remove {e : TxInfo Tx} (he : e ∈ es) :
    ∃ c', c.remove (idOf e.tx) = (some e.tx, c') ∧ Repr c' (withoutId (idOf e.tx) es) := by
  obtain ⟨l₁, l₂, hes, h₁, h₂⟩ := split_of_mem h.nodup he
  have hlisted : listed es = listed l₁ ++ (idOf e.tx, e) :: listed l₂ := by
    rw [hes, listed_append]
    rfl
  have hkeys : ((listed l₁ ++ (idOf e.tx, e) :: listed l₂).map Prod.fst).Nodup := by
    rw [← hlisted, listed_keys]
    exact h.nodup
  have hbefore : idOf e.tx ∉ (listed l₁).map Prod.fst := by
    rw [listed_keys]
    intro hmem
    obtain ⟨x, hx, heq⟩ := List.mem_map.1 hmem
    exact h₁ x hx heq
  have hmid : c.all.lookup (idOf e.tx) = some ⟨e, headKey (listed l₂) none, lastKey none (listed l₁)⟩ := by
    rw [h.lookup, hlisted]
    exact nodes_mid none none _ _ e hbefore
  -- the neighbours of the entry are different ones
  have hne : ∀ o, lastKey none (listed l₁) = some o → headKey (listed l₂) none ≠ some o := by
    intro o hold hyoung
    rw [List.map_append, List.nodup_append] at hkeys
    exact hkeys.2.2 o (lastKey_mem hold) o (List.mem_cons_of_mem _ (headKey_mem hyoung)) rfl
  rw [hes, withoutId_split h₁ h₂]
  refine ⟨_, remove_eq hmid, h.nodup_split hes, ?_, ?_, ?_, ?_, ?_⟩
  · intro txId
    rw [listed_append, nodes_remove none none _ _ _ hkeys, ← hlisted, ← h.lookup]
    exact lookup_unlink c.all _ hne txId
  · rw [listed_append, headKey_remove _ _ (idOf e.tx, e), ← hlisted, ← h.oldest]
  · rw [listed_append, lastKey_remove _ _ (idOf e.tx, e), ← hlisted, ← h.youngest]
  · show c.sizeInSlots - txSizeInSlot e.tx = _
    rw [h.size, hes, slots_append, slots_append, slots_cons]
    ring
  · show (if e.executableStatus = TxExecutableStatus.NON_EXEC then c.nonExecSizeInSlots - txSizeInSlot e.tx
      else c.nonExecSizeInSlots) = _
    rw [h.nonExecSize, hes, nonExecSlots_append, nonExecSlots_append, nonExecSlots_cons]
    split_ifs <;> ring

theorem Repr.remove_absent {txId : ModifierId} (hid : ∀ e ∈ es, idOf e.tx ≠ txId) : c.remove txId = (none, c) := by
  rw [TxCache.remove, h.lookup_none hid]

/-- a status set in place, with the counter adjusted -/
theorem Repr.setStatus {e : TxInfo Tx} (status : TxExecutableStatus) {nonExecSize : ℤ}
    (hsize : nonExecSize = nonExecSlots (setStatus (idOf e.tx) status es)) :
    Repr { c with all := modifyNode c.all (idOf e.tx) (setExecutableStatus status), nonExecSizeInSlots := nonExecSize }
      (TxCache.setStatus (idOf e.tx) status es) := by
  set g : ModifierId → TxInfo Tx → TxInfo Tx :=
    fun txId info => if txId = idOf e.tx then { info with executableStatus := status } else info with hg
  have hlisted : listed (TxCache.setStatus (idOf e.tx) status es) = (listed es).map fun x => (x.1, g x.1 x.2) := by
    simp only [listed, TxCache.setStatus, List.map_map]
    refine List.map_congr_left ?_
    intro x _
    by_cases hx : idOf x.tx = idOf e.tx
    · simp [hg, hx]
    · simp [hg, hx]
  have hids : (TxCache.setStatus (idOf e.tx) status es).map (fun x => idOf x.tx) = es.map fun x => idOf x.tx := by
    have htxs := congrArg (List.map idOf) (setStatus_txs (idOf e.tx) status es)
    simpa [Function.comp_def] using htxs
  refine ⟨hids ▸ h.nodup, ?_, ?_, ?_, ?_, hsize⟩
  · intro txId
    rw [hlisted, nodes_map, ← h.lookup, lookup_modifyNode]
    by_cases hid : txId = idOf e.tx
    · simp only [hg, if_pos hid]
      rfl
    · simp [hg, hid]
  · rw [hlisted, headKey_map]
    exact h.oldest
  · rw [hlisted, lastKey_map]
    exact h.youngest
  · show c.sizeInSlots = _
    have hslots : slots (TxCache.setStatus (idOf e.tx) status es) = slots es := by
      have htxs := congrArg (fun l => (List.map txSizeInSlot l).sum) (setStatus_txs (idOf e.tx) status es)
      simpa [slots, Function.comp_def] using htxs
    rw [h.size, hslots]

theorem Repr.promoteTransaction {e : TxInfo Tx} (he : e ∈ es) (hstatus : e.executableStatus = .NON_EXEC) :
    ∃ c', c.promoteTransaction (idOf e.tx) = .ok (e.tx, c') ∧ Repr c' (TxCache.setStatus (idOf e.tx) .EXEC es) := by
  obtain ⟨info, hinfo, rfl⟩ := h.lookup_of_mem he
  simp only [TxCache.promoteTransaction, hinfo]
  refine ⟨_, rfl, h.setStatus .EXEC ?_⟩
  obtain ⟨l₁, l₂, rfl, h₁, h₂⟩ := split_of_mem h.nodup he
  rw [h.nonExecSize, setStatus_split h₁ h₂]
  simp only [nonExecSlots_append, nonExecSlots_cons, hstatus, reduceCtorEq, if_false, if_true]
  ring

theorem Repr.demoteTransaction {e : TxInfo Tx} (he : e ∈ es) (hstatus : e.executableStatus = .EXEC) :
    Repr (c.demoteTransaction (idOf e.tx)) (TxCache.setStatus (idOf e.tx) .NON_EXEC es) := by
  obtain ⟨info, hinfo, rfl⟩ := h.lookup_of_mem he
  simp only [TxCache.demoteTransaction, hinfo]
  refine h.setStatus .NON_EXEC ?_
  obtain ⟨l₁, l₂, rfl, h₁, h₂⟩ := split_of_mem h.nodup he
  rw [h.nonExecSize, setStatus_split h₁ h₂]
  simp only [nonExecSlots_append, nonExecSlots_cons, hstatus, reduceCtorEq, if_false, if_true]
  ring

theorem Repr.getOldestTransactionInfo : c.getOldestTransactionInfo = .ok none ∧ es = [] ∨
    ∃ e l info, es = e :: l ∧ c.getOldestTransactionInfo = .ok (some info) ∧ info.value = e := by
  unfold TxCache.getOldestTransactionInfo
  rw [h.oldest]
  cases es with
  | nil => exact .inl ⟨rfl, rfl⟩
  | cons e l =>
    obtain ⟨info, hinfo, hvalue⟩ := h.lookup_of_mem List.mem_cons_self
    refine .inr ⟨e, l, info, rfl, ?_, hvalue⟩
    have hhead : headKey (listed (e :: l)) none = some (idOf e.tx) := rfl
    simp only [hhead, hinfo]

/-! ### The iterator -/

theorem Repr.lookup_split {l₁ l₂ : List (TxInfo Tx)} {e : TxInfo Tx} (hes : es = l₁ ++ e :: l₂) :
    c.all.lookup (idOf e.tx) = some ⟨e, headKey (listed l₂) none, lastKey none (listed l₁)⟩ := by
  subst hes
  have h₁ : idOf e.tx ∉ (listed l₁).map Prod.fst := by
    rw [listed_keys]
    intro hmem
    have hnodup := h.nodup
    rw [List.map_append, List.nodup_append] at hnodup
    exact hnodup.2.2 _ hmem _ List.mem_cons_self rfl
  rw [h.lookup, listed_append]
  exact nodes_mid none none (listed l₁) (listed l₂) e h₁

/-- from the first entry of `l ++ e :: l₂`, with only executable entries in `l`, the iterator finds `e` -/
theorem Repr.findNext {l₁ l l₂ : List (TxInfo Tx)} {e : TxInfo Tx} (hes : es = l₁ ++ (l ++ e :: l₂))
    (hl : ∀ x ∈ l, x.executableStatus ≠ .NON_EXEC) (he : e.executableStatus = .NON_EXEC) {fuel : ℕ}
    (hfuel : l.length < fuel) :
    ∃ info, c.findNext fuel (headKey (listed (l ++ e :: l₂)) none) = .ok (some info) ∧ info.value = e ∧
      info.younger = headKey (listed l₂) none := by
  induction l generalizing l₁ fuel with
  | nil =>
    obtain ⟨fuel, rfl⟩ : ∃ n, fuel = n + 1 := ⟨fuel - 1, by simp at hfuel; omega⟩
    have hlookup := h.lookup_split hes
    have hhead : headKey (listed ([] ++ e :: l₂)) none = some (idOf e.tx) := rfl
    rw [hhead, TxCache.findNext, hlookup]
    exact ⟨_, if_pos he, rfl, rfl⟩
  | cons x l ih =>
    obtain ⟨fuel, rfl⟩ : ∃ n, fuel = n + 1 := ⟨fuel - 1, by simp at hfuel; omega⟩
    have hsplit : es = l₁ ++ x :: (l ++ e :: l₂) := by simpa using hes
    have hnext : es = (l₁ ++ [x]) ++ (l ++ e :: l₂) := by simpa using hes
    have hrest : l.length < fuel := by simpa using hfuel
    have hlookup := h.lookup_split hsplit
    have hhead : headKey (listed (x :: l ++ e :: l₂)) none = some (idOf x.tx) := rfl
    have hx : x.executableStatus ≠ .NON_EXEC := hl x List.mem_cons_self
    obtain ⟨info, hfind, hinfo⟩ := ih hnext (fun y hy => hl y (List.mem_cons_of_mem _ hy)) hrest
    refine ⟨info, ?_, hinfo⟩
    rw [hhead, TxCache.findNext, hlookup]
    simp only [hx, if_false]
    exact hfind

/-- with only executable entries left, the iterator finds nothing -/
theorem Repr.findNext_none {l₁ l : List (TxInfo Tx)} (hes : es = l₁ ++ l)
    (hl : ∀ x ∈ l, x.executableStatus ≠ .NON_EXEC) {fuel : ℕ} (hfuel : l.length ≤ fuel) :
    c.findNext fuel (headKey (listed l) none) = .ok none := by
  induction l generalizing l₁ fuel with
  | nil => cases fuel <;> rfl
  | cons x l ih =>
    obtain ⟨fuel, rfl⟩ : ∃ n, fuel = n + 1 := ⟨fuel - 1, by simp at hfuel; omega⟩
    have hlookup := h.lookup_split hes
    have hhead : headKey (listed (x :: l)) none = some (idOf x.tx) := rfl
    have hx : x.executableStatus ≠ .NON_EXEC := hl x List.mem_cons_self
    rw [hhead, TxCache.findNext, hlookup]
    simp only [hx, if_false]
    have hnext : es = (l₁ ++ [x]) ++ l := by simpa using hes
    exact ih hnext (fun y hy => hl y (List.mem_cons_of_mem _ hy)) (by simpa using hfuel)

/-- the iterator at the start of `l ++ e :: r`, with only executable entries in `l`, returns `e` -/
theorem Repr.next_of_split {l₁ l r : List (TxInfo Tx)} {e : TxInfo Tx} (hes : es = l₁ ++ (l ++ e :: r))
    (hl : ∀ x ∈ l, x.executableStatus ≠ .NON_EXEC) (he : e.executableStatus = .NON_EXEC) :
    c.next (headKey (listed (l ++ e :: r)) none) = .ok (e.tx, headKey (listed r) none) := by
  have hfuel : l.length < c.cacheSize := by
    rw [h.cacheSize_eq, hes]
    simp
    omega
  obtain ⟨info, hfind, hvalue, hyounger⟩ := h.findNext hes hl he hfuel
  rw [TxCache.next, hfind]
  simp only [hvalue, hyounger]

omit h [AccountTransaction Tx] in
/-- the first non-executable entry of a list, if it has one -/
theorem split_nonExec (l : List (TxInfo Tx)) : (∀ x ∈ l, x.executableStatus ≠ .NON_EXEC) ∨
    ∃ l₁ e r, l = l₁ ++ e :: r ∧ (∀ x ∈ l₁, x.executableStatus ≠ .NON_EXEC) ∧
      e.executableStatus = .NON_EXEC := by
  induction l with
  | nil => exact .inl (by simp)
  | cons y l ih =>
    by_cases hy : y.executableStatus = .NON_EXEC
    · exact .inr ⟨[], y, l, rfl, by simp, hy⟩
    · obtain hl | ⟨l₁, e, r, rfl, hl, he⟩ := ih
      · exact .inl (List.forall_mem_cons.2 ⟨hy, hl⟩)
      · exact .inr ⟨y :: l₁, e, r, rfl, List.forall_mem_cons.2 ⟨hy, hl⟩, he⟩

/-- the iterator at the start of `l₂` returns the first non-executable entry of it and then stands behind that entry -/
theorem Repr.next {l₁ l₂ : List (TxInfo Tx)} (hes : es = l₁ ++ l₂) (hnonExec : 0 < nonExecSlots l₂) :
    ∃ l e r, l₂ = l ++ e :: r ∧ (∀ x ∈ l, x.executableStatus ≠ .NON_EXEC) ∧ e.executableStatus = .NON_EXEC ∧
      c.next (headKey (listed l₂) none) = .ok (e.tx, headKey (listed r) none) := by
  obtain hnone | ⟨l, e, r, rfl, hl, he⟩ := split_nonExec l₂
  · have hfilter : l₂.filter (fun e => e.executableStatus = .NON_EXEC) = [] :=
      List.filter_eq_nil_iff.2 (by simpa using hnone)
    rw [nonExecSlots, hfilter] at hnonExec
    exact absurd hnonExec (lt_irrefl _)
  · exact ⟨l, e, r, rfl, hl, he, h.next_of_split hes hl he⟩

end Operations

end TxCache

end SidechainsSdk.Account.Mempool
