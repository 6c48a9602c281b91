/-
The UTXO mempool (`utxo/mempool/SidechainMemoryPool.scala`): transactions are put if their fee rate suffices and they spend
no box that a pooled transaction spends; in a full pool the transactions of lowest fee rate make room.

The mempool object is changed in place, except by `filter`, which makes a new one with the same settings.
-/
import Mathlib.Tactic
import SidechainsSdk.Core.Contracts
import SidechainsSdk.Core.MachineInt
import SidechainsSdk.Utxo.Mempool.MempoolMap

namespace SidechainsSdk.Utxo.Mempool

open Fallible MachineInt BoxTransaction

structure MempoolSettings where
  maxSize : ℤ
  minFeeRate : ℤ

/-- the product is an `Int` -/
def MempoolSettings.maxPoolSizeBytes (s : MempoolSettings) : ℤ := intOf (intOf (s.maxSize * 1024) * 1024)

section Model

variable {τ ι : Type} [LinearOrder ι] [BoxTransaction τ ι]

/-- `DefaultTransactionIncompatibilityChecker` -/
def isDefaultCompatible (newTx : τ) (currentTxs : List τ) : Bool :=
  (closedBoxIds newTx).all fun closedBoxId => currentTxs.all fun tx => !(closedBoxIds tx).contains closedBoxId

/-- the checker of the transaction; all of them ask the default one first -/
def isTransactionCompatible (newTx : τ) (currentTxs : List τ) : Bool :=
  isDefaultCompatible newTx currentTxs && extraCompatible newTx currentTxs

namespace SidechainMemoryPool

/-- the pooled transactions -/
def unconfirmedTxs (m : MempoolMap τ ι) : List τ := m.values.map SidechainMemoryPoolEntry.unconfirmedTx

/-- the loop of `addWithSizeCheck`: how many entries have to go, or `none` if the new entry cannot be inserted.
`entriesLeft` is the size of the pool minus `removingEntriesNum`. -/
def makeRoom (maxPoolSizeBytes usedSizeBytes : ℤ) (mempoolEntries : List (SidechainMemoryPoolEntry τ))
    (entry : SidechainMemoryPoolEntry τ) :
    (entriesLeft removingEntriesNum : ℕ) → (removingEntriesSize : ℤ) → Except MempoolException (Option ℕ)
  | entriesLeft, removingEntriesNum, removingEntriesSize =>
    if usedSizeBytes - removingEntriesSize + entry.getSize > maxPoolSizeBytes then
      match entriesLeft with
      | 0 => .ok none
      | entriesLeft + 1 =>
        match mempoolEntries[removingEntriesNum]? with
        | none => .error .indexOutOfBounds
        | some lowest =>
          if lowest.getFeeRate > entry.getFeeRate then .ok none
          else makeRoom maxPoolSizeBytes usedSizeBytes mempoolEntries entry entriesLeft (removingEntriesNum + 1)
            (removingEntriesSize + size lowest.unconfirmedTx)
    else .ok (some removingEntriesNum)

variable (settings : MempoolSettings)

def addWithSizeCheck (entry : SidechainMemoryPoolEntry τ) : Fallible MempoolException (MempoolMap τ ι) Bool := do
  let m ← get
  let mempoolEntries ← orThrow (m.takeLowest m.size)
  match ← orThrow (makeRoom settings.maxPoolSizeBytes m.usedPoolSizeBytes mempoolEntries entry m.size 0 0) with
  | none => pure false
  | some removingEntriesNum =>
    modify fun m => (mempoolEntries.take removingEntriesNum).foldl (fun m e => m.remove e.txid) m
    modify (MempoolMap.add entry)
    pure true

/-- `put` of one transaction; a `Failure` is an exception here -/
def put (tx : τ) : Fallible MempoolException (MempoolMap τ ι) Unit := do
  let entry : SidechainMemoryPoolEntry τ := ⟨tx⟩
  let m ← get
  throwIf (entry.getFeeRate < settings.minFeeRate) .feeLessThanMinFeeRate
  throwIf (¬ (isMemoryPoolCompatible tx && isTransactionCompatible tx (unconfirmedTxs m))) .incompatibleTransaction
  let added ← addWithSizeCheck settings entry
  throwIf (added = false) .mempoolFull

/-- the last loop of `put` and of `putWithoutCheck`, in which the result of `addWithSizeCheck` is not looked at -/
def addEach : List τ → Fallible MempoolException (MempoolMap τ ι) Unit
  | [] => pure ()
  | t :: txs => do
    let entry : SidechainMemoryPoolEntry τ := ⟨t⟩
    if entry.getFeeRate ≥ settings.minFeeRate then
      let _ ← addWithSizeCheck settings entry
      addEach txs
    else addEach txs

/-- the loop over `txs.tails` -/
def compatibleTails : List τ → Bool
  | [] => true
  | t :: txs => isMemoryPoolCompatible t && isTransactionCompatible t txs && compatibleTails txs

def putAll (txs : List τ) : Fallible MempoolException (MempoolMap τ ι) Unit := do
  throwIf (compatibleTails txs = false) .incompatibleTransaction
  let m ← get
  throwIf (¬ (txs.all fun t => isTransactionCompatible t (unconfirmedTxs m))) .incompatibleTransaction
  addEach settings txs

/-- the first loop of `putWithoutCheck` -/
def txToRemove : List τ → List τ
  | [] => []
  | t :: txs => if isTransactionCompatible t txs then txToRemove txs else t :: txToRemove txs

/-- transactions are compared by their ids -/
def without (removed txs : List τ) : List τ :=
  txs.filter fun t => BoxTransaction.id t ∉ removed.map BoxTransaction.id

def putWithoutCheck (txs : List τ) : Fallible MempoolException (MempoolMap τ ι) Unit := do
  let compatibleTxs := without (txToRemove txs) txs
  let m ← get
  let incompatibleTxs := compatibleTxs.filter fun t => !isTransactionCompatible t (unconfirmedTxs m)
  addEach settings (without incompatibleTxs compatibleTxs)

def remove (tx : τ) : Fallible MempoolException (MempoolMap τ ι) Unit :=
  modify (MempoolMap.remove (BoxTransaction.id tx))

def filter (condition : τ → Bool) : Fallible MempoolException (MempoolMap τ ι) Unit :=
  modify fun m => .ofValues (m.values.filter fun ele => condition ele.unconfirmedTx)

/-- `filter` with a list of transactions -/
def filterOut (txs : List τ) : Fallible MempoolException (MempoolMap τ ι) Unit :=
  filter fun t => !(txs.any fun t' => BoxTransaction.id t' = BoxTransaction.id t)

def createEmptyMempool : MempoolMap τ ι := .ofValues []

/-- the calls -/
inductive Call (τ : Type) where
  | put (tx : τ)
  | putAll (txs : List τ)
  | putWithoutCheck (txs : List τ)
  | remove (tx : τ)
  | filter (condition : τ → Bool)
  | filterOut (txs : List τ)

def Call.exec : Call τ → Fallible MempoolException (MempoolMap τ ι) Unit
  | .put tx => SidechainMemoryPool.put settings tx
  | .putAll txs => SidechainMemoryPool.putAll settings txs
  | .putWithoutCheck txs => SidechainMemoryPool.putWithoutCheck settings txs
  | .remove tx => SidechainMemoryPool.remove tx
  | .filter condition => SidechainMemoryPool.filter condition
  | .filterOut txs => SidechainMemoryPool.filterOut txs

/-- the mempools after any calls, failed ones included -/
inductive Reachable : MempoolMap τ ι → Prop where
  | empty : Reachable createEmptyMempool
  | step {m : MempoolMap τ ι} (call : Call τ) : Reachable m → Reachable (exec (call.exec settings) m).2

end SidechainMemoryPool

end Model

end SidechainsSdk.Utxo.Mempool
