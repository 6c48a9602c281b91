/-
The account mempool (`MempoolMap`): pooled transactions grouped by account, executable or not, and ordered by nonce.

The methods are computations on the pool that may throw (`Pool`); an exception keeps what was changed before it. A `Try` whose
failure nobody looks at is `attempt`. The state of the chain is read through `getNonce` and `getBalance`.

- `add`: a new transaction, or one with a higher fee for an occupied nonce; promotes the followers of a filled gap.
- `remove`: demotes the followers. `freeMempoolSlots`, `freeNonExecSubpoolSlots`, `removeTimedoutTransactions` remove the
  oldest ones.
- `updateMemPool`: after blocks were rejected and applied, account by account: `updateAccount`,
  `updateAccountWithRevertedNonce`.

The maps of an account are mutable in the source and are written back here. Limits are `Int` there, with checks in the
settings that make them positive, and natural numbers here. The order in which accounts are updated is that of hash maps.
-/
import Mathlib.Tactic
import SidechainsSdk.Core.Contracts
import SidechainsSdk.Core.Grouping
import SidechainsSdk.Account.Mempool.TxCache

namespace SidechainsSdk.Account.Mempool

open AccountTransaction Fallible

abbrev TxIdByNonceMap := Std.TreeMap ℤ ModifierId

structure AccountMempoolSettings extends Time where
  maxNonceGap : ℕ
  maxAccountSlots : ℕ
  maxMemPoolSlots : ℕ
  maxNonExecMemPoolSlots : ℕ

/-- settings for examples -/
def smallSettings : AccountMempoolSettings where
  txLifetime := 10
  now := id
  maxNonceGap := 16
  maxAccountSlots := 16
  maxMemPoolSlots := 100
  maxNonExecMemPoolSlots := 50

structure MempoolMap (Tx : Type) where
  txCache : TxCache Tx
  executableTxs : AList fun _ : Address => TxIdByNonceMap
  nonExecutableTxs : AList fun _ : Address => TxIdByNonceMap
  nonces : AList fun _ : Address => ℤ

abbrev Pool (Tx α : Type) := Fallible MempoolException (MempoolMap Tx) α

variable {Tx : Type} [AccountTransaction Tx]

namespace MempoolMap

def empty : MempoolMap Tx := ⟨TxCache.empty, ∅, ∅, ∅⟩

def withCache (txCache : TxCache Tx) (m : MempoolMap Tx) : MempoolMap Tx := { m with txCache := txCache }

def withNonces (nonces : AList fun _ : Address => ℤ) (m : MempoolMap Tx) : MempoolMap Tx := { m with nonces := nonces }

/-- `nonces.put` -/
def putNonce (account : Address) (nonce : ℤ) (m : MempoolMap Tx) : MempoolMap Tx :=
  m.withNonces (m.nonces.insert account nonce)

/-! ## The maps of an account -/

def txs (m : MempoolMap Tx) : TxExecutableStatus → AList fun _ : Address => TxIdByNonceMap
  | .EXEC => m.executableTxs
  | .NON_EXEC => m.nonExecutableTxs

def setTxs (m : MempoolMap Tx) : TxExecutableStatus → (AList fun _ : Address => TxIdByNonceMap) → MempoolMap Tx
  | .EXEC, txs => { m with executableTxs := txs }
  | .NON_EXEC, txs => { m with nonExecutableTxs := txs }

/-- the transactions of an account with a status, by nonce; empty if the account has no map -/
def txsOf (m : MempoolMap Tx) (status : TxExecutableStatus) (account : Address) : TxIdByNonceMap :=
  ((m.txs status).lookup account).getD ∅

/-- `put` into the map of an account, made if it is not there -/
def putTx (status : TxExecutableStatus) (account : Address) (nonce : ℤ) (txId : ModifierId) (m : MempoolMap Tx) :
    MempoolMap Tx :=
  m.setTxs status ((m.txs status).insert account ((m.txsOf status account).insert nonce txId))

/-- `remove` from the map of an account -/
def removeTx (status : TxExecutableStatus) (account : Address) (nonce : ℤ) (m : MempoolMap Tx) : MempoolMap Tx :=
  match (m.txs status).lookup account with
  | some txs => m.setTxs status ((m.txs status).insert account (txs.erase nonce))
  | none => m

/-- an empty map of an account is removed -/
def dropEmptyMap (status : TxExecutableStatus) (account : Address) (m : MempoolMap Tx) : MempoolMap Tx :=
  match (m.txs status).lookup account with
  | some txs => if txs.isEmpty then m.setTxs status ((m.txs status).erase account) else m
  | none => m

def other : TxExecutableStatus → TxExecutableStatus
  | .EXEC => .NON_EXEC
  | .NON_EXEC => .EXEC

/-- the same after a removal: with the last map of the account its expected nonce goes, too -/
def dropEmptyAccount (status : TxExecutableStatus) (account : Address) (m : MempoolMap Tx) : MempoolMap Tx :=
  match (m.txs status).lookup account with
  | some txs =>
    if txs.isEmpty then
      let m := m.setTxs status ((m.txs status).erase account)
      if (m.txs (other status)).lookup account = none then m.withNonces (m.nonces.erase account) else m
    else m
  | none => m

end MempoolMap

open MempoolMap

/-! ## The cache as a part of the pool -/

variable (settings : AccountMempoolSettings)

def cacheAdd (tx : Tx) (execStatus : TxExecutableStatus) : Pool Tx Unit := do
  let m ← get
  let txCache ← orThrow (m.txCache.add settings.toTime tx execStatus)
  modify (withCache txCache)

def cacheRemove (txId : ModifierId) : Pool Tx (Option Tx) := do
  let m ← get
  let (tx, txCache) := m.txCache.remove txId
  modify (withCache txCache)
  return tx

def cachePromote (txId : ModifierId) : Pool Tx Tx := do
  let m ← get
  let (tx, txCache) ← orThrow (m.txCache.promoteTransaction txId)
  modify (withCache txCache)
  return tx

def cacheDemote (txId : ModifierId) : Pool Tx Unit :=
  modify fun m => m.withCache (m.txCache.demoteTransaction txId)

def cacheApply (txId : ModifierId) : Pool Tx Tx := do
  let m ← get
  orThrow (m.txCache.apply txId)

/-! ## Reading the pool -/

def maxAllowedNonceGap : ℤ := settings.maxNonceGap - 1

def getMaxAcceptableNonce (stateNonce : ℤ) : ℤ := stateNonce + maxAllowedNonceGap settings

def findTxWithSameNonce (m : MempoolMap Tx) (account : Address) (nonce : ℤ) : Except MempoolException (Option Tx) :=
  match (m.txsOf .EXEC account)[nonce]? with
  | some txId => some <$> m.txCache.apply txId
  | none => match (m.txsOf .NON_EXEC account)[nonce]? with
    | some txId => some <$> m.txCache.apply txId
    | none => .ok none

def getAccountSlots (m : MempoolMap Tx) (account : Address) : Except MempoolException ℤ :=
  ((m.txsOf .EXEC account).toList ++ (m.txsOf .NON_EXEC account).toList).foldlM (fun sum entry => do
    let tx ← m.txCache.apply entry.2
    return sum + txSizeInSlot tx) 0

def getMempoolSizeInSlots (m : MempoolMap Tx) : ℤ := m.txCache.sizeInSlots

def getNonExecSubpoolSizeInSlots (m : MempoolMap Tx) : ℤ := m.txCache.nonExecSizeInSlots

def canPayHigherFee (newTx oldTx : Tx) : Bool :=
  getMaxFeePerGas oldTx < getMaxFeePerGas newTx ∧ getMaxPriorityFeePerGas oldTx < getMaxPriorityFeePerGas newTx

/-! ## Removing transactions -/

/-- one iteration of the loop that demotes the followers of a removed transaction -/
def demoteNext (account : Address) (nextNonce : ℤ) : Pool Tx (ForInStep ℤ) := do
  let m ← get
  match (m.txsOf .EXEC account)[nextNonce]? with
  | none => return .done nextNonce
  | some demotedTxId => do
    modify (removeTx .EXEC account nextNonce)
    cacheDemote demotedTxId
    modify (putTx .NON_EXEC account nextNonce demotedTxId)
    return .yield (nextNonce + 1)

def remove (tx : Tx) : Pool Tx Unit := do
  let removed ← cacheRemove (idOf tx)
  if removed.isSome then do
    let m ← get
    match m.nonces.lookup (getFrom tx) with
    | none => throw (.noSuchElement "nonces(ethTransaction.getFrom)")
    | some expectedNonce =>
      if expectedNonce < getNonce tx then
        if (m.nonExecutableTxs.lookup (getFrom tx)).isSome then do
          modify (removeTx .NON_EXEC (getFrom tx) (getNonce tx))
          modify (dropEmptyAccount .NON_EXEC (getFrom tx))
        else pure ()
      else
        if (m.executableTxs.lookup (getFrom tx)).isSome then do
          modify (removeTx .EXEC (getFrom tx) (getNonce tx))
          modify (putNonce (getFrom tx) (getNonce tx))
          let _ ← loop .endlessLoop (demoteNext (getFrom tx)) ((m.txsOf .EXEC (getFrom tx)).size + 1) (getNonce tx + 1)
          modify (dropEmptyAccount .EXEC (getFrom tx))
        else pure ()
  else pure ()

/-- one iteration of `freeMempoolSlots` -/
def freeOldest (_ : Unit) : Pool Tx (ForInStep Unit) := do
  let m ← get
  match ← orThrow m.txCache.getOldestTransactionInfo with
  | none => throw (.noSuchElement "oldestTx.get")
  | some oldestTx => do
    attempt (remove oldestTx.value.tx)
    let m ← get
    return if settings.maxMemPoolSlots < getMempoolSizeInSlots m then .yield () else .done ()

def freeMempoolSlots : Pool Tx Unit := do
  let m ← get
  loop .endlessLoop (freeOldest settings) (m.txCache.cacheSize + 1) ()

/-- one iteration of `freeNonExecSubpoolSlots`, with the iterator at `nextElem` -/
def freeNextNonExec (nextElem : Option ModifierId) : Pool Tx (ForInStep (Option ModifierId)) := do
  let m ← get
  let (oldestTx, nextElem) ← orThrow (m.txCache.next nextElem)
  attempt (remove oldestTx)
  let m ← get
  return if settings.maxNonExecMemPoolSlots < getNonExecSubpoolSizeInSlots m then .yield nextElem else .done nextElem

def freeNonExecSubpoolSlots : Pool Tx Unit := do
  let m ← get
  let _ ← loop .endlessLoop (freeNextNonExec settings) (m.txCache.cacheSize + 1) m.txCache.oldestTx
  return ()

/-- one iteration of `removeTimedoutTransactions` -/
def removeIfTimedOut (_ : Unit) : Pool Tx (ForInStep Unit) := do
  let m ← get
  match ← orThrow m.txCache.getOldestTransactionInfo with
  | none => return .done ()
  | some oldestTxInfo => do
    modify fun m => m.withCache { m.txCache with clockReads := m.txCache.clockReads + 1 }
    if oldestTxInfo.value.deadline < settings.now m.txCache.clockReads then do
      attempt (remove oldestTxInfo.value.tx)
      return .yield ()
    else return .done ()

def removeTimedoutTransactions : Pool Tx Unit := do
  let m ← get
  loop .endlessLoop (removeIfTimedOut settings) (m.txCache.cacheSize + 1) ()

def removeFromMempool (tx : Tx) : Pool Tx Unit := do
  remove tx
  let m ← get
  if settings.maxNonExecMemPoolSlots < getNonExecSubpoolSizeInSlots m then freeNonExecSubpoolSlots settings else pure ()

def checkMempoolSize : Pool Tx Unit := do
  let m ← get
  if settings.maxNonExecMemPoolSlots < getNonExecSubpoolSizeInSlots m then freeNonExecSubpoolSlots settings else pure ()
  let m ← get
  if settings.maxMemPoolSlots < getMempoolSizeInSlots m then do
    freeMempoolSlots settings
    let m ← get
    if settings.maxNonExecMemPoolSlots < getNonExecSubpoolSizeInSlots m then freeNonExecSubpoolSlots settings
    else pure ()
  else pure ()

/-! ## Adding a transaction -/

def addNewTransaction (tx : Tx) (execStatus : TxExecutableStatus) : Pool Tx Unit := do
  cacheAdd settings tx execStatus
  modify (putTx execStatus (getFrom tx) (getNonce tx) (idOf tx))

def replaceTransaction (existingTxId : ModifierId) (newTx : Tx) (execStatus : TxExecutableStatus) : Pool Tx Unit := do
  let _ ← cacheRemove existingTxId
  cacheAdd settings newTx execStatus
  modify (putTx execStatus (getFrom newTx) (getNonce newTx) (idOf newTx))

/-- one iteration of the loop that promotes the followers of a new executable transaction -/
def promoteNext (account : Address) (next : ℤ × List Tx) : Pool Tx (ForInStep (ℤ × List Tx)) := do
  let m ← get
  match (m.txsOf .NON_EXEC account)[next.1]? with
  | none => return .done next
  | some promotedTxId => do
    modify (removeTx .NON_EXEC account next.1)
    modify (putTx .EXEC account next.1 promotedTxId)
    let promotedTx ← cachePromote promotedTxId
    return .yield (next.1 + 1, next.2 ++ [promotedTx])

def addNewExecTransaction (tx : Tx) (expectedNonce : ℤ) : Pool Tx (List Tx) := do
  addNewTransaction settings tx .EXEC
  let m ← get
  let next ← loop .endlessLoop (promoteNext (getFrom tx)) ((m.txsOf .NON_EXEC (getFrom tx)).size + 1)
    (expectedNonce + 1, [tx])
  modify (dropEmptyMap .NON_EXEC (getFrom tx))
  modify (putNonce (getFrom tx) next.1)
  return next.2

def addOrReplaceNonExecTransaction (tx : Tx) (txToReplaceOpt : Option Tx) : Pool Tx (List Tx) := do
  match txToReplaceOpt with
  | some txToReplace => replaceTransaction settings (idOf txToReplace) tx .NON_EXEC
  | none => addNewTransaction settings tx .NON_EXEC
  return []

def replaceExecTransaction (tx : Tx) (txToReplaceOpt : Option Tx) : Pool Tx (List Tx) := do
  let m ← get
  throwIf (m.executableTxs.lookup (getFrom tx) = none) (.noSuchElement "executableTxs(account)")
  match txToReplaceOpt with
  | some txToReplace => do
    replaceTransaction settings (idOf txToReplace) tx .EXEC
    return [txToReplace]
  | none => throw (.noSuchElement "txToReplaceOpt.get")

/-- the slots of the transaction that is replaced -/
def numOfSlotsOfTxToReplace (txToReplaceOpt : Option Tx) : ℤ :=
  match txToReplaceOpt with
  | some txToReplace => txSizeInSlot txToReplace
  | none => 0

/-- `add` once the transaction is accepted -/
def addAccepted (tx : Tx) (txToReplaceOpt : Option Tx) (expectedNonce : ℤ) : Pool Tx (List Tx) := do
  modify (putNonce (getFrom tx) expectedNonce)
  let promotedTxs ←
    if expectedNonce = getNonce tx then addNewExecTransaction settings tx expectedNonce
    else if expectedNonce < getNonce tx then addOrReplaceNonExecTransaction settings tx txToReplaceOpt
    else replaceExecTransaction settings tx txToReplaceOpt
  checkMempoolSize settings
  return promotedTxs

def add (stateReader : Address → ℤ) (tx : Tx) : Pool Tx (List Tx) := do
  let m ← get
  if m.txCache.contains (idOf tx) then return []
  else do
    let account := getFrom tx
    throwIf (MaxTxSize < size tx) (.txOversized account (size tx))
    let stateNonce := stateReader account
    throwIf (getMaxAcceptableNonce settings stateNonce < getNonce tx)
      (.nonceGapTooWide (idOf tx) (getNonce tx) stateNonce)
    let txToReplaceOpt ← orThrow (findTxWithSameNonce m account (getNonce tx))
    throwIf (∃ txToReplace ∈ txToReplaceOpt, ¬ canPayHigherFee tx txToReplace)
      (.transactionReplaceUnderpriced (idOf tx))
    let additionalSlots := max (txSizeInSlot tx - numOfSlotsOfTxToReplace txToReplaceOpt) 0
    let accountSlotsNumber ← orThrow (getAccountSlots m account)
    throwIf (settings.maxAccountSlots < accountSlotsNumber + additionalSlots) (.accountMemPoolOutOfBound (idOf tx))
    -- `nonces.getOrElseUpdate(account, stateNonce)`
    addAccepted settings tx txToReplaceOpt ((m.nonces.lookup account).getD stateNonce)

/-! ## Updating an account after a change of the chain -/

/-- the variables with which the maps of an account are built anew -/
structure Rebuild where
  newExecTxs : TxIdByNonceMap := ∅
  newNonExecTxs : TxIdByNonceMap := ∅
  haveBecomeNonExecutable : Bool := false
  maxNonceGapExceeded : Bool := false
  currAccountSlots : ℤ := 0

/-- `destMap.put`; `destMap` is `newNonExecTxs` once `haveBecomeNonExecutable` is set -/
def Rebuild.put (v : Rebuild) (nonce : ℤ) (txId : ModifierId) : Rebuild :=
  if v.haveBecomeNonExecutable then { v with newNonExecTxs := v.newNonExecTxs.insert nonce txId }
  else { v with newExecTxs := v.newExecTxs.insert nonce txId }

section Reverted

variable (balance maxAcceptableNonce : ℤ)

/-- the first loop of `updateAccountWithRevertedNonce`: the transactions of the rejected blocks -/
def reinjectTx (v : Rebuild × List (Tx × TxExecutableStatus)) (tx : Tx) : Rebuild × List (Tx × TxExecutableStatus) :=
  let txSizeInSlots := txSizeInSlot tx
  if v.1.maxNonceGapExceeded then v
  else if getNonce tx ≤ maxAcceptableNonce then
    if maxCost tx ≤ balance ∧ txSizeInSlots ≤ MaxNumOfSlotsForTx ∧
        v.1.currAccountSlots + txSizeInSlots ≤ settings.maxAccountSlots then
      let txStatus := if v.1.haveBecomeNonExecutable then .NON_EXEC else .EXEC
      ({ v.1.put (getNonce tx) (idOf tx) with currAccountSlots := v.1.currAccountSlots + txSizeInSlots },
        (tx, txStatus) :: v.2)
    else ({ v.1 with haveBecomeNonExecutable := true }, v.2)
  else ({ v.1 with maxNonceGapExceeded := true }, v.2)

/-- the second loop: the executable transactions; once the nonce gap is exceeded all are removed -/
def revertExecTx (v : Rebuild) (entry : ℤ × ModifierId) : Pool Tx Rebuild :=
  if ¬ v.maxNonceGapExceeded ∧ entry.1 ≤ maxAcceptableNonce then do
    let tx ← cacheApply entry.2
    if maxCost tx ≤ balance ∧ v.currAccountSlots + txSizeInSlot tx ≤ settings.maxAccountSlots then do
      if v.haveBecomeNonExecutable then cacheDemote entry.2 else pure ()
      return { v.put entry.1 entry.2 with currAccountSlots := v.currAccountSlots + txSizeInSlot tx }
    else do
      let _ ← cacheRemove entry.2
      return { v with haveBecomeNonExecutable := true }
  else do
    let _ ← cacheRemove entry.2
    return { v with maxNonceGapExceeded := true }

/-- the third loop: the non-executable transactions -/
def revertNonExecTx (v : Rebuild) (entry : ℤ × ModifierId) : Pool Tx Rebuild :=
  if ¬ v.maxNonceGapExceeded ∧ entry.1 ≤ maxAcceptableNonce then do
    let tx ← cacheApply entry.2
    if maxCost tx ≤ balance ∧ v.currAccountSlots + txSizeInSlot tx ≤ settings.maxAccountSlots then do
      return { v with
        newNonExecTxs := v.newNonExecTxs.insert entry.1 entry.2
        currAccountSlots := v.currAccountSlots + txSizeInSlot tx }
    else do
      let _ ← cacheRemove entry.2
      return v
  else do
    let _ ← cacheRemove entry.2
    return { v with maxNonceGapExceeded := true }

end Reverted

/-- `executableTxs.remove(account)` and the same for the other map -/
def takeTxs (status : TxExecutableStatus) (account : Address) : Pool Tx TxIdByNonceMap := do
  let m ← get
  modify fun m => m.setTxs status ((m.txs status).erase account)
  return m.txsOf status account

def putIfNonEmpty (status : TxExecutableStatus) (account : Address) (newTxs : TxIdByNonceMap) (m : MempoolMap Tx) :
    MempoolMap Tx :=
  if newTxs.isEmpty then m else m.setTxs status ((m.txs status).insert account newTxs)

/-- the nonce after the last executable transaction -/
def nextExecNonce (newExecTxs : TxIdByNonceMap) (stateNonce : ℤ) : ℤ :=
  match newExecTxs.maxKey? with
  | some lastKey => lastKey + 1
  | none => stateNonce

def updateAccountWithRevertedNonce (getBalance : Address → ℤ) (account : Address) (txsFromRejectedBlocks : List Tx) :
    Pool Tx (List Tx) := do
  let balance := getBalance account
  match txsFromRejectedBlocks.head? with
  | none => throw (.noSuchElement "txsFromRejectedBlocks.head")
  | some head => do
    let stateNonce := getNonce head
    let maxAcceptableNonce := getMaxAcceptableNonce settings stateNonce
    let (v, txsToReinject) := txsFromRejectedBlocks.foldl (reinjectTx settings balance maxAcceptableNonce) ({}, [])
    txsToReinject.forM fun entry => cacheAdd settings entry.1 entry.2
    let execTxs ← takeTxs .EXEC account
    let v ← execTxs.toList.foldlM (revertExecTx settings balance maxAcceptableNonce) v
    let nonExecTxs ← takeTxs .NON_EXEC account
    let v ← nonExecTxs.toList.foldlM (revertNonExecTx settings balance maxAcceptableNonce) v
    modify (putNonce account (nextExecNonce v.newExecTxs stateNonce))
    modify (putIfNonEmpty .EXEC account v.newExecTxs)
    modify (putIfNonEmpty .NON_EXEC account v.newNonExecTxs)
    return (txsToReinject.filter fun entry => entry.2 = .EXEC).map Prod.fst

def existRejectedTxsWithValidNonce (rejectedTxs : List Tx) (expectedNonce : ℤ) : Bool :=
  match rejectedTxs.getLast? with
  | some last => expectedNonce ≤ getNonce last
  | none => false

/-- the first loop of `updateAccount`: the executable transactions -/
def updateExecTx (balance newExpectedNonce : ℤ) (v : Rebuild) (entry : ℤ × ModifierId) : Pool Tx Rebuild :=
  if entry.1 < newExpectedNonce then do
    let _ ← cacheRemove entry.2
    return v
  else do
    let tx ← cacheApply entry.2
    if maxCost tx ≤ balance then do
      if v.haveBecomeNonExecutable then cacheDemote entry.2 else pure ()
      return v.put entry.1 entry.2
    else do
      let _ ← cacheRemove entry.2
      return { v with haveBecomeNonExecutable := true }

/-- the second loop: the non-executable transactions, with the expected nonce and the promoted transactions -/
def updateNonExecTx (balance : ℤ) (v : Rebuild × ℤ × List Tx) (entry : ℤ × ModifierId) :
    Pool Tx (Rebuild × ℤ × List Tx) :=
  let (v, newExpectedNonce, promotedTxs) := v
  if entry.1 < newExpectedNonce then do
    let _ ← cacheRemove entry.2
    return (v, newExpectedNonce, promotedTxs)
  else do
    let tx ← cacheApply entry.2
    if maxCost tx ≤ balance then
      if entry.1 = newExpectedNonce then do
        let promotedTx ← cachePromote entry.2
        return ({ v with newExecTxs := v.newExecTxs.insert entry.1 entry.2 }, newExpectedNonce + 1,
          promotedTxs ++ [promotedTx])
      else
        return ({ v with newNonExecTxs := v.newNonExecTxs.insert entry.1 entry.2 }, newExpectedNonce, promotedTxs)
    else do
      let _ ← cacheRemove entry.2
      return (v, newExpectedNonce, promotedTxs)

/-- the part of `updateAccount` without transactions to put back -/
def updateAccountWithNewNonce (getBalance : Address → ℤ) (account : Address) (newExpectedNonce : ℤ) :
    Pool Tx (List Tx) := do
  let balance := getBalance account
  let execTxs ← takeTxs .EXEC account
  let v ← execTxs.toList.foldlM (updateExecTx balance newExpectedNonce) {}
  let nonExecTxs ← takeTxs .NON_EXEC account
  let (v, newExpectedNonce, promotedTxs) ← nonExecTxs.toList.foldlM (updateNonExecTx balance)
    (v, nextExecNonce v.newExecTxs newExpectedNonce, [])
  if v.newExecTxs.isEmpty ∧ v.newNonExecTxs.isEmpty then
    modify fun m => m.withNonces (m.nonces.erase account)
  else do
    modify (putNonce account newExpectedNonce)
    modify (putIfNonEmpty .EXEC account v.newExecTxs)
    modify (putIfNonEmpty .NON_EXEC account v.newNonExecTxs)
  return promotedTxs

def updateAccount (getBalance : Address → ℤ) (account : Address) (nonceOfTheLatestAppliedTx : ℤ)
    (txsFromRejectedBlocks : List Tx) : Pool Tx (List Tx) :=
  let newExpectedNonce := nonceOfTheLatestAppliedTx + 1
  if existRejectedTxsWithValidNonce txsFromRejectedBlocks newExpectedNonce then
    updateAccountWithRevertedNonce settings getBalance account
      (txsFromRejectedBlocks.dropWhile fun tx => getNonce tx < newExpectedNonce)
  else updateAccountWithNewNonce getBalance account newExpectedNonce

/-! ## Blocks -/

/-- the nonce of the last transaction of every account in the applied blocks -/
def appliedTxNoncesByAccount (appliedTxs : List Tx) : AList fun _ : Address => ℤ :=
  appliedTxs.foldl (fun nonces tx => nonces.insert (getFrom tx) (getNonce tx)) ∅

/-- an account with transactions in the rejected blocks; its entry in the nonces of the applied blocks is used up -/
def updateRejectedAccount (getBalance : Address → ℤ) (v : (AList fun _ : Address => ℤ) × List Tx)
    (rejected : Address × List Tx) : Pool Tx ((AList fun _ : Address => ℤ) × List Tx) := do
  let promotedTxs ← match v.1.lookup rejected.1 with
    | some latestNonce => updateAccount settings getBalance rejected.1 latestNonce rejected.2
    | none => updateAccountWithRevertedNonce settings getBalance rejected.1 rejected.2
  return (v.1.erase rejected.1, v.2 ++ promotedTxs)

def updateAppliedAccount (getBalance : Address → ℤ) (newExecTxs : List Tx) (applied : (_ : Address) × ℤ) :
    Pool Tx (List Tx) := do
  let promotedTxs ← updateAccount settings getBalance applied.1 applied.2 []
  return newExecTxs ++ promotedTxs

/-- the iteration orders of the two hash maps -/
structure UpdateOrder (Tx : Type) where
  rejected : HashOrder (Address × List Tx)
  applied : HashOrder ((_ : Address) × ℤ)

/-- a block is given by its transactions -/
def updateMemPool (order : UpdateOrder Tx) (getBalance : Address → ℤ) (rejectedBlocks appliedBlocks : List (List Tx)) :
    Pool Tx (List Tx) := do
  let rejectedTransactionsByAccount := order.rejected.iterate (Grouping.groupBy getFrom rejectedBlocks.flatten)
  let (applied, newExecTxs) ← rejectedTransactionsByAccount.foldlM (updateRejectedAccount settings getBalance)
    (appliedTxNoncesByAccount appliedBlocks.flatten, [])
  let newExecTxs ← (order.applied.iterate applied.entries).foldlM (updateAppliedAccount settings getBalance) newExecTxs
  removeTimedoutTransactions settings
  checkMempoolSize settings
  return newExecTxs

end SidechainsSdk.Account.Mempool
