/-
The state of the UTXO sidechain (`SidechainState`): validation of a block and its application.

A block is validated against the current contents of the storages, turned into boxes to remove and boxes to append, and
applied to the application state, the UTXO merkle tree, the state storage and the storage of forger boxes, in this order.
Each storage is a stack of versions of its contents, and an update of it is atomic.

- `validate`, `changes`, `applyChanges`, `applyModifier`, `getFeePayments`: the code, with its checks in order.
- `Applied`, `applyModifier_ok`: what an accepted block has passed and written.

What comes from libraries and from the application is a parameter (`Externals`): hashes, signatures, the fork table, the
merkle tree and the callbacks of the application state. A backend may refuse an update for reasons of its own (`fails`),
among them keys that occur twice. The numbers printed in messages follow the source; ids are printed as numbers.
-/
import Mathlib.Tactic
import SidechainsSdk.Core.Fallible
import SidechainsSdk.Core.MachineInt
import SidechainsSdk.Core.Snapshots
import SidechainsSdk.Utxo.Ledger

namespace SidechainsSdk.Utxo

open Fallible Ledger
open Withdrawals (WithdrawalEpochInfo)
open Withdrawals.WithdrawalEpochUtils (isEpochLastIndex hasReachedCertificateSubmissionWindowEnd)

/-! ## State and parameters -/

/-- how many versions a storage keeps, and which updates fail inside it -/
structure Backend (α : Type) where
  keep : ℕ
  keep_pos : 0 < keep
  fails : Snapshots ModifierId α → ModifierId → α → Bool

/-- `σ` is the application state with its own storages, `τ` the contents of the merkle tree storage -/
structure SidechainState (σ τ : Type) where
  version : ModifierId
  applicationState : σ
  utxoMerkleTree : Snapshots ModifierId τ
  stateStorage : Snapshots ModifierId StateContents
  forgerBoxStorage : Snapshots ModifierId Boxes

/-- `MandatorySidechainFork`, as far as it is read -/
structure SidechainFork where
  backwardTransferLimitEnabled : Bool
  openStakeTransactionEnabled : Bool
  coinBoxMinAmount : ℤ
deriving DecidableEq, Repr

/-- code of libraries and of the application -/
structure Externals (σ τ : Type) where
  timeStampToEpochNumber : ℤ → Except String ℕ
  getSidechainFork : ℕ → SidechainFork
  getNewBoxNonce : SidechainTransaction → Proposition → ℕ → ℕ
  transactionSemanticValidity : SidechainTransaction → Except String Unit
  isValidProof : ℕ → Proposition → SidechainTransaction → Bool
  getMsgToSignForKeyUpdate : KeyRotationProofType → ℕ → ℤ → ℕ
  isValidSignature : ℕ → ℕ → ℕ → Bool
  reconstructUtxoMerkleTreeRoot : ℕ → ℕ → Hash
  calculateFeePaymentBoxNonce : ℤ → ℕ → ℕ
  /-- the id of a Zen box: a hash of its class, proposition, value and nonce -/
  zenBoxId : Proposition → ℤ → ℕ → BoxId
  feePaymentsTransactionId : List Box → Hash
  /-- `SidechainStateUtxoMerkleTreeStorage.update` up to the write, and the root of the tree -/
  updateTree : τ → List Box → List BoxId → Except String τ
  getMerkleTreeRoot : τ → Hash
  /-- the callbacks; `onApplyChanges` may fail after it has changed something -/
  validateBlock : SidechainState σ τ → SidechainBlock → Except String Unit
  validateTransaction : SidechainState σ τ → BoxTransaction → Except String Unit
  onApplyChanges : SidechainState σ τ → ModifierId → List Box → List BoxId → Except String Unit × σ
  treeBackend : Backend τ
  stateBackend : Backend StateContents
  forgerBoxBackend : Backend Boxes

namespace SidechainState

variable {σ τ : Type} (params : NetworkParams) (env : Externals σ τ) (s : SidechainState σ τ)

def contents : StateContents := s.stateStorage.current

def getWithdrawalEpochInfo : WithdrawalEpochInfo := s.contents.withdrawalEpochInfo.getD ⟨0, 0⟩

def hasCeased : Bool := s.contents.hasCeased

def closedBox (boxId : BoxId) : Option Box := (s.contents.boxes.lookup boxId).or (s.forgerBoxStorage.current.lookup boxId)

def withdrawalRequests (withdrawalEpoch : ℤ) : List Box := s.contents.withdrawalRequests withdrawalEpoch

def certifiersKeys (withdrawalEpoch : ℤ) : Option CertifiersKeys :=
  if withdrawalEpoch = -1 then some ⟨params.signersPublicKeys, params.mastersPublicKeys⟩
  else s.contents.certifiersKeys withdrawalEpoch

/-! ## Validation of transactions -/

def MAX_TRANSACTION_SIZE : ℕ := 500000

def MAX_MC2SC_AGGREGATED_TRANSACTION_SIZE : ℕ := 2 * 1024 * 1024

def MAX_WITHDRAWAL_BOXES_ALLOWED : ℕ := 3999

/-- the loop over the new boxes in `SidechainTransaction.semanticValidity`: the box with index `i`, with the value of the
coins before it -/
def checkOutputBox (tx : SidechainTransaction) (coinsCumulatedValue : ℤ) (i : ℕ) (box : Box) : Except String ℤ := do
  failIf (box.nonce ≠ env.getNewBoxNonce tx box.proposition i)
    s!"Transaction [{tx.id}] is semantically invalid: output box [{i}] nonce is invalid"
  if box.isCoinsBox ∨ box.isWithdrawalRequestBox then
    let withdrawalThreshold := ZenCoinsUtils.getMinDustThreshold ZenCoinsUtils.MC_DEFAULT_FEE_RATE
    failIf (box.isWithdrawalRequestBox ∧ box.value < withdrawalThreshold)
      (s!"Transaction [{tx.id}] is semantically invalid: Withdrawal request box [{i}] value is below the " ++
       s!"threshhold[{withdrawalThreshold}].")
    failIf (¬ ZenCoinsUtils.isValidMoneyRange box.value)
      s!"Transaction [{tx.id}] is semantically invalid: output coin box [{i}] value is out of range."
    let coinsCumulatedValue := Long.add coinsCumulatedValue box.value
    failIf (¬ ZenCoinsUtils.isValidMoneyRange coinsCumulatedValue)
      s!"Transaction [{tx.id}] is semantically invalid: output coin boxes total value is out of range."
    return coinsCumulatedValue
  else
    failIf (box.value < 0) s!"Transaction [{tx.id}] is semantically invalid: output non-coin box [{i}] value is negative."
    return coinsCumulatedValue

def checkOutputBoxes (tx : SidechainTransaction) : ℤ → ℕ → List Box → Except String Unit
  | _, _, [] => .ok ()
  | coinsCumulatedValue, i, box :: boxes => do
    let coinsCumulatedValue ← checkOutputBox env tx coinsCumulatedValue i box
    checkOutputBoxes tx coinsCumulatedValue (i + 1) boxes

def semanticValidity : BoxTransaction → Except String Unit
  | .aggregated tx => do
    failIf (tx.version ≠ 1) s!"Transaction [{tx.id}] is semantically invalid: unsupported version number."
    failIf (MAX_MC2SC_AGGREGATED_TRANSACTION_SIZE < tx.size) s!"Transaction is too large: {tx.size}"
  | .sidechain tx => do
    failIf (MAX_TRANSACTION_SIZE < tx.size) "Transaction is too large."
    failIf (tx.unlockers.length ≠ (BoxTransaction.sidechain tx).boxIdsToOpen.length)
      s!"Transaction [{tx.id}] is semantically invalid: inputs double spend found."
    checkOutputBoxes env tx 0 0 tx.newBoxes
    failIf (tx.fee < 0) s!"Transaction [{tx.id}] is semantically invalid: fee is negative."
    let numberOfWithdrawalRequestBoxes := tx.newBoxes.countP Box.isWithdrawalRequestBox
    failIf (MAX_WITHDRAWAL_BOXES_ALLOWED < numberOfWithdrawalRequestBoxes)
      (s!"Exceed the maximum withdrawal request boxes per epoch ([{numberOfWithdrawalRequestBoxes}] out of " ++
       s!"[{MAX_WITHDRAWAL_BOXES_ALLOWED}])")
    env.transactionSemanticValidity tx

def isForgingOpen : Bool :=
  !params.restrictForgers || decide (params.allowedForgersList.length / 2 < (s.contents.forgerIndexes.getD []).sum)

def validateOpenStake (consensusEpochNumber : ℕ) (forgerIndex : ℤ) (inputId : BoxId) : Except String Unit := do
  failIf (¬ (env.getSidechainFork consensusEpochNumber).openStakeTransactionEnabled)
    "OpenStakeTransaction is still not allowed in this consensus epoch!"
  failIf (s.isForgingOpen params)
    "OpenStakeTransactions are not allowed because the forger operation has already been opened!"
  failIf (params.allowedForgersList.length ≤ forgerIndex ∨ forgerIndex < 0)
    "ForgerIndex in OpenStakeTransaction is out of bound!"
  match s.contents.forgerIndexes with
  | none => .error "Forger list was not found in the Storage!"
  | some forgerIndexes =>
    failIf (forgerIndexes.length ≤ forgerIndex) "OpenStakeTransaction forgerIndex out of bound!"
    failIf (forgerIndexes[forgerIndex.toNat]? = some 1) "Forger already opened the stake!"
    match s.contents.boxes.lookup inputId with
    | none => .error "Input box not found!"
    | some closedBox =>
      failIf (some closedBox.proposition ≠ (params.allowedForgersList[forgerIndex.toNat]?).map Prod.fst)
        "OpenStakeTransaction input doesn't match the forgerIndex!"

/-- `validateWithWithdrawalEpoch` for a key rotation. An index equal to the number of keys passes the check of the range
and fails on the access. -/
def validateKeyRotation (withdrawalEpoch : ℤ) (keyRotationProof : KeyRotationProof) (newKeySignature : ℕ) :
    Except String Unit := do
  failIf (params.circuitType = .naiveThresholdSignatureCircuit)
    "CertificateKeyRotationTransaction is not allowed with this kind of circuit!"
  match s.certifiersKeys params (withdrawalEpoch - 1) with
  | none => .error "None.get"
  | some oldCertifiersKeys =>
    let messageToSign := env.getMsgToSignForKeyUpdate keyRotationProof.keyType keyRotationProof.newKey withdrawalEpoch
    failIf (keyRotationProof.index < 0 ∨ oldCertifiersKeys.masterKeys.length < keyRotationProof.index)
      "Key index in CertificateKeyRotationTransaction is out of range!"
    match oldCertifiersKeys.signingKeys[keyRotationProof.index.toNat]?,
        oldCertifiersKeys.masterKeys[keyRotationProof.index.toNat]? with
    | some signingKey, some masterKey =>
      failIf (¬ env.isValidSignature keyRotationProof.signingKeySignature signingKey messageToSign)
        "Signing key signature in CertificateKeyRotationTransaction is not valid!"
      failIf (¬ env.isValidSignature keyRotationProof.masterKeySignature masterKey messageToSign)
        "Master key signature in CertificateKeyRotationTransaction is not valid!"
      failIf (¬ env.isValidSignature newKeySignature keyRotationProof.newKey messageToSign)
        "New key signature in CertificateKeyRotationTransaction is not valid!"
    | _, _ => .error "index out of bounds"

/-- the loop over the unlockers, with the amount of the coins before -/
def openBoxes (tx : SidechainTransaction) : ℤ → List BoxUnlocker → Except String ℤ
  | closedCoinsBoxesAmount, [] => .ok closedCoinsBoxesAmount
  | closedCoinsBoxesAmount, u :: unlockers =>
    match s.closedBox u.closedBoxId with
    | none => .error s!"Box {u.closedBoxId} is not found in state"
    | some box => do
      failIf (¬ env.isValidProof u.boxKey box.proposition tx) "Box unlocking proof is invalid."
      openBoxes tx (if box.isCoinsBox then Long.add closedCoinsBoxesAmount box.value else closedCoinsBoxesAmount) unlockers

def validateWithFork (tx : SidechainTransaction) (consensusEpochNumber : ℕ) : Except String Unit :=
  let coinBoxMinAmount := (env.getSidechainFork consensusEpochNumber).coinBoxMinAmount
  match (tx.newBoxes.filter fun box => box.isCoinsBox ∨ box.isWithdrawalRequestBox).find?
    fun coinBox => coinBox.value < coinBoxMinAmount with
  | some coinBox => .error
    (s!"Transaction [{tx.id}] is semantically invalid: Coin box value [{coinBox.value}] is below the " ++
     s!"threshold[{coinBoxMinAmount}].")
  | none => .ok ()

/-- the checks that only a transaction of the sidechain has to pass -/
def validateSidechainTransaction (tx : SidechainTransaction) (consensusEpochNumber : ℕ) (withdrawalEpoch : ℤ) :
    Except String Unit := do
  match tx.kind with
  | .openStake forgerIndex inputId => s.validateOpenStake params env consensusEpochNumber forgerIndex inputId
  | _ => pure ()
  let closedCoinsBoxesAmount ← s.openBoxes env tx 0 tx.unlockers
  match tx.kind with
  | .keyRotation proof newKeySignature => s.validateKeyRotation params env withdrawalEpoch proof newKeySignature
  | _ => pure ()
  validateWithFork env tx consensusEpochNumber
  let newCoinsBoxesAmount :=
    Long.sum ((tx.newBoxes.filter fun box => box.isCoinsBox ∨ box.isWithdrawalRequestBox).map Box.value)
  failIf (closedCoinsBoxesAmount ≠ Long.add newCoinsBoxesAmount tx.fee)
    (s!"Amounts sum of CoinsBoxes is incorrect. ClosedBox amount - {closedCoinsBoxesAmount}, NewBoxesAmount - " ++
     s!"{newCoinsBoxesAmount}, Fee - {tx.fee}")
  failIf (¬ s.isForgingOpen params ∧ ∃ box ∈ tx.newBoxes, ∃ keys ∈ box.forgerKeys, keys ∉ params.allowedForgersList)
    "This publicKey is not allowed to forge!"

def validateTransaction (consensusEpochNumber : ℕ) (withdrawalEpoch : ℤ) (tx : BoxTransaction) : Except String Unit := do
  semanticValidity env tx
  match tx with
  | .aggregated _ => pure ()
  | .sidechain tx => s.validateSidechainTransaction params env tx consensusEpochNumber withdrawalEpoch
  env.validateTransaction s tx

/-! ## The limit of withdrawal requests -/

def getAlreadyMinedWithdrawalRequestBoxesInCurrentEpoch : ℕ := (s.withdrawalRequests s.getWithdrawalEpochInfo.epoch).length

/-- the product is one of `Int`s -/
def getAllowedWithdrawalRequestBoxes (numberOfMainchainBlockReferenceInBlock : ℕ) : Except String ℤ := do
  let index := s.getWithdrawalEpochInfo.lastEpochIndex + numberOfMainchainBlockReferenceInBlock
  failIf (params.withdrawalEpochLength = 1) "/ by zero"
  return min (params.maxWBsAllowed : ℤ)
    ((MachineInt.intOf (params.maxWBsAllowed * index : ℕ)).tdiv (params.withdrawalEpochLength - 1))

/-- the loop over the transactions, with the number of requests before -/
def countWithdrawalBoxes (allowedWBs : ℤ) : ℕ → List BoxTransaction → Except String Unit
  | _, [] => .ok ()
  | blockWBs, tx :: txs => do
    let blockWBs := blockWBs + tx.newBoxes.countP Box.isWithdrawalRequestBox
    failIf (allowedWBs < blockWBs) "Exceeded the maximum number of WithdrawalBoxes allowed!"
    countWithdrawalBoxes allowedWBs blockWBs txs

def checkWithdrawalBoxesAllowed (mod : SidechainBlock) : Except String Unit := do
  let allowedWBs ← s.getAllowedWithdrawalRequestBoxes params mod.mainchainBlockReferencesData.length
  countWithdrawalBoxes allowedWBs s.getAlreadyMinedWithdrawalRequestBoxesInCurrentEpoch mod.transactions

/-! ## Validation of blocks -/

/-- the forger indexes of the transactions that open a stake -/
def getRestrictForgerIndexToUpdate (txs : List SidechainTransaction) : List ℤ :=
  txs.filterMap fun tx =>
    match tx.kind with
    | .openStake forgerIndex _ => some forgerIndex
    | _ => none

/-- the proofs of the key rotations -/
def keyRotationProofs (txs : List SidechainTransaction) : List KeyRotationProof :=
  txs.filterMap fun tx =>
    match tx.kind with
    | .keyRotation proof _ => some proof
    | _ => none

def getKeyRotationProofsToAdd (txs : List SidechainTransaction) : List KeyRotationProof :=
  match params.circuitType with
  | .naiveThresholdSignatureCircuit => []
  | .naiveThresholdSignatureCircuitWithKeyRotation => keyRotationProofs txs

def validateBlockTransactionsMutuality (mod : SidechainBlock) : Except String Unit := do
  failIf (¬ (mod.transactions.map BoxTransaction.id).Nodup) s!"Block {mod.id} contains duplicated transactions"
  failIf (¬ (mod.transactions.flatMap BoxTransaction.boxIdsToOpen).Nodup)
    s!"Block {mod.id} contains duplicated input boxes to open"
  let consensusEpochNumber ← env.timeStampToEpochNumber mod.timestamp
  failIf ((env.getSidechainFork consensusEpochNumber).openStakeTransactionEnabled ∧
      ¬ (getRestrictForgerIndexToUpdate mod.sidechainTransactions).Nodup)
    s!"Block {mod.id} contains OpenStakeTransactions with duplicated forgerIndex"
  failIf (params.circuitType = .naiveThresholdSignatureCircuitWithKeyRotation ∧
      ¬ ((keyRotationProofs mod.sidechainTransactions).map fun proof => (proof.keyType, proof.index)).Nodup)
    s!"Block {mod.id} contains multiple KeyRotationTransactions pointing to the same key"
  if (env.getSidechainFork consensusEpochNumber).backwardTransferLimitEnabled then
    s.checkWithdrawalBoxesAllowed params mod
  else pure ()

/-- the numbers of custom fields of a certificate, by circuit (`CommonCircuit`) -/
def CUSTOM_FIELDS_NUMBER_WITH_DISABLED_CSW_WITH_KEY_ROTATION : ℕ := 32

def CUSTOM_FIELDS_NUMBER_WITH_ENABLED_CSW : ℕ := 2

def CUSTOM_FIELDS_NUMBER_WITH_DISABLED_CSW_NO_KEY_ROTATION : ℕ := 0

/-- its second argument in the source is not used -/
def validateTopQualityCertificate (topQualityCertificate : WithdrawalEpochCertificate) : Except String Unit := do
  let certReferencedEpochNumber := topQualityCertificate.epochNumber
  let expectedWithdrawalRequests := s.withdrawalRequests certReferencedEpochNumber
  failIf (topQualityCertificate.backwardTransferOutputs.length ≠ expectedWithdrawalRequests.length)
    (s!"Epoch {certReferencedEpochNumber} top quality certificate backward transfers number " ++
     s!"{topQualityCertificate.backwardTransferOutputs.length} is different than expected " ++
     s!"{expectedWithdrawalRequests.length}. Node's active chain is the fork from MC perspective.")
  failIf (∃ p ∈ topQualityCertificate.backwardTransferOutputs.zip expectedWithdrawalRequests,
      p.1.amount ≠ p.2.value ∨ p.1.pubKeyHash ≠ p.2.proposition)
    (s!"Epoch {certReferencedEpochNumber} top quality certificate backward transfers data is different than expected. " ++
     "Node's active chain is the fork from MC perspective.")
  let fields := topQualityCertificate.fieldElementCertificateFields
  if params.circuitType = .naiveThresholdSignatureCircuitWithKeyRotation then
    failIf (fields.length ≠ CUSTOM_FIELDS_NUMBER_WITH_DISABLED_CSW_WITH_KEY_ROTATION)
      (s!"Top quality certificate should contain exactly {CUSTOM_FIELDS_NUMBER_WITH_DISABLED_CSW_WITH_KEY_ROTATION} custom " ++
       "fields when ceased sidechain withdrawal is disabled and key rotation enabled.")
  else if params.isCSWEnabled then
    failIf (fields.length ≠ CUSTOM_FIELDS_NUMBER_WITH_ENABLED_CSW)
      s!"Top quality certificate should contain exactly {CUSTOM_FIELDS_NUMBER_WITH_ENABLED_CSW} custom fields."
    match s.contents.utxoMerkleTreeRoots certReferencedEpochNumber with
    | none => .error s!"There is no utxo merkle tree root stored for the referenced epoch {certReferencedEpochNumber}."
    | some expectedMerkleTreeRoot =>
      failIf (expectedMerkleTreeRoot ≠ env.reconstructUtxoMerkleTreeRoot (fields.getD 0 0) (fields.getD 1 0))
        (s!"Epoch {certReferencedEpochNumber} top quality certificate utxo merkle tree root data is different than " ++
         "expected. Node's active chain is the fork from MC perspective.")
  else
    failIf (fields.length ≠ CUSTOM_FIELDS_NUMBER_WITH_DISABLED_CSW_NO_KEY_ROTATION)
      (s!"Top quality certificate should contain exactly {CUSTOM_FIELDS_NUMBER_WITH_DISABLED_CSW_NO_KEY_ROTATION} custom " ++
       "fields when ceased sidechain withdrawal is disabled.")

/-- the certificates that a block makes the state check -/
def certificatesToValidate (mod : SidechainBlock) (modWithdrawalEpochInfo : WithdrawalEpochInfo) :
    List WithdrawalEpochCertificate :=
  if params.isNonCeasing then
    mod.mainchainBlockReferencesData.filterMap MainchainBlockReferenceData.topQualityCertificate
  else if hasReachedCertificateSubmissionWindowEnd modWithdrawalEpochInfo s.getWithdrawalEpochInfo
      params.withdrawalEpochLength then
    (mod.topQualityCertificateOpt.or (s.contents.topQualityCertificates (modWithdrawalEpochInfo.epoch - 1))).toList
  else []

/-! ## Fee payments -/

/-- the share of a block's fee for its forger: `new BigDecimal(fee).multiply(0.7).longValue()` -/
def forgerBlockFee (fee : ℤ) : ℤ := (fee * 7).tdiv 10

/-- the part of the fees that is shared, and what the forgers get in the order of the blocks -/
def poolFee (infos : List BlockFeeInfo) : ℤ :=
  infos.foldl (fun pool info => Long.add pool (Long.sub info.fee (forgerBlockFee info.fee))) 0

def forgersRewards (infos : List BlockFeeInfo) : List (Proposition × ℤ) :=
  let pool := poolFee infos
  let forgerPoolFee := pool.tdiv infos.length
  let rest := pool.tmod infos.length
  infos.mapIdx fun index info =>
    (info.forgerRewardKey,
      Long.add (Long.add (forgerBlockFee info.fee) forgerPoolFee) (if (index : ℤ) < rest then 1 else 0))

/-- the payments to the same forger taken together -/
def aggregateRewards (rewards : List (Proposition × ℤ)) : List (Proposition × ℤ) :=
  let forgerKeys := (rewards.map Prod.fst).reverse.dedup.reverse
  forgerKeys.map fun key => (key, Long.sum ((rewards.filter fun r => r.1 = key).map Prod.snd))

def feePaymentBox (withdrawalEpochNumber : ℤ) (index : ℕ) (reward : Proposition × ℤ) : Box :=
  let nonce := env.calculateFeePaymentBoxNonce withdrawalEpochNumber index
  ⟨env.zenBoxId reward.1 reward.2 nonce, nonce, reward.1, reward.2, .zen⟩

/-- the boxes that pay for the blocks with these fees -/
def feePaymentBoxes (withdrawalEpochNumber : ℤ) (infos : List BlockFeeInfo) : List Box :=
  ((aggregateRewards (forgersRewards infos)).mapIdx (feePaymentBox env withdrawalEpochNumber)).filter fun box => 0 < box.value

def getFeePayments (withdrawalEpochNumber : ℤ) (blockToAppendFeeInfo : Option BlockFeeInfo) : List Box :=
  let blockFeeInfoSeq := s.contents.blockFeeInfos withdrawalEpochNumber ++ blockToAppendFeeInfo.toList
  if blockFeeInfoSeq.isEmpty then [] else feePaymentBoxes env withdrawalEpochNumber blockFeeInfoSeq

/-- `FeePaymentsUtils.DEFAULT_FEE_PAYMENTS_HASH` -/
def DEFAULT_FEE_PAYMENTS_HASH : Hash := 0

def calculateFeePaymentsHash (feePayments : List Box) : Hash :=
  if feePayments.isEmpty then DEFAULT_FEE_PAYMENTS_HASH else env.feePaymentsTransactionId feePayments

/-- the hash that a block with this epoch info has to carry -/
def expectedFeePaymentsHash (mod : SidechainBlock) (modWithdrawalEpochInfo : WithdrawalEpochInfo) : Hash :=
  if isEpochLastIndex modWithdrawalEpochInfo params.withdrawalEpochLength then
    calculateFeePaymentsHash env (s.getFeePayments env modWithdrawalEpochInfo.epoch (some mod.feeInfo))
  else DEFAULT_FEE_PAYMENTS_HASH

/-- `validate(mod)` -/
def validate (mod : SidechainBlock) : Except String Unit := do
  failIf (s.version ≠ mod.parentId)
    s!"requirement failed: Incorrect state version!: {mod.parentId} found, {s.version} expected"
  failIf s.hasCeased s!"Can't apply Block {mod.id}, because the sidechain has ceased."
  let consensusEpochNumber ← env.timeStampToEpochNumber mod.timestamp
  let modWithdrawalEpochInfo ← Withdrawals.WithdrawalEpochUtils.getWithdrawalEpochInfo
    mod.mainchainBlockReferencesData.length s.getWithdrawalEpochInfo params.withdrawalEpochLength
  s.validateBlockTransactionsMutuality params env mod
  mod.transactions.forM (s.validateTransaction params env consensusEpochNumber modWithdrawalEpochInfo.epoch)
  (s.certificatesToValidate params mod modWithdrawalEpochInfo).forM (s.validateTopQualityCertificate params env)
  failIf (mod.feePaymentsHash ≠ s.expectedFeePaymentsHash params env mod modWithdrawalEpochInfo)
    (if isEpochLastIndex modWithdrawalEpochInfo params.withdrawalEpochLength then
      (s!"Block {mod.id} has feePaymentsHash different to expected one: " ++
       s!"{s.expectedFeePaymentsHash params env mod modWithdrawalEpochInfo}")
    else s!"Block {mod.id} has feePaymentsHash {mod.feePaymentsHash} defined when no fee payments expected.")
  env.validateBlock s mod

/-! ## Application of blocks -/

structure BoxStateChanges where
  toRemove : List BoxId
  toAppend : List Box
deriving DecidableEq, Repr

def changes (mod : SidechainBlock) : BoxStateChanges where
  toRemove := mod.transactions.flatMap fun tx => tx.unlockers.map BoxUnlocker.closedBoxId
  toAppend := mod.transactions.flatMap BoxTransaction.newBoxes

/-- the key with index `i` at the end of an epoch: the rotated one, or that of the epoch before -/
def actualKey (epoch : ℤ) (keyType : KeyRotationProofType) (keys : List ℕ) (i : ℕ) : Except String ℕ :=
  match s.contents.keyRotationProofs epoch i keyType with
  | some keyRotationProof => .ok keyRotationProof.newKey
  | none => (keys[i]?).elim (.error s!"{i}") .ok

def actualCertifiersKeys (epoch : ℤ) (keys : CertifiersKeys) : Except String CertifiersKeys := do
  let signerKeys ← (List.range keys.signingKeys.length).mapM (s.actualKey epoch .signing keys.signingKeys)
  let masterKeys ← (List.range keys.signingKeys.length).mapM (s.actualKey epoch .master keys.masterKeys)
  return ⟨signerKeys, masterKeys⟩

/-- a new version of a storage; nothing changes if it fails -/
def write {α : Type} (backend : Backend α) (version : ModifierId) (new : α) :
    Fallible String (Snapshots ModifierId α) Unit := do
  let storage ← get
  throwIf (version ∈ storage.versions) "requirement failed: Version id is already used"
  throwIf (backend.fails storage version new) "storage update failed"
  modify fun storage => storage.push backend.keep version new

/-- the arguments of `applyChanges` besides the changes -/
structure BlockData where
  newVersion : ModifierId
  withdrawalEpochInfo : WithdrawalEpochInfo
  consensusEpoch : ℕ
  topQualityCertificateOpt : Option WithdrawalEpochCertificate
  blockFeeInfo : BlockFeeInfo
  forgerListIndexes : List ℤ
  keyRotationProofsToAdd : List KeyRotationProof

def scHasCeased (d : BlockData) : Bool :=
  !params.isNonCeasing &&
    (hasReachedCertificateSubmissionWindowEnd d.withdrawalEpochInfo s.getWithdrawalEpochInfo params.withdrawalEpochLength &&
      (d.topQualityCertificateOpt.or (s.contents.topQualityCertificates (d.withdrawalEpochInfo.epoch - 1))).isNone)

/-- the boxes of the block, and with the last block of an epoch the payments of its fees -/
def boxesToAppend (cs : BoxStateChanges) (d : BlockData) : List Box :=
  if isEpochLastIndex d.withdrawalEpochInfo params.withdrawalEpochLength then
    cs.toAppend ++ s.getFeePayments env d.withdrawalEpochInfo.epoch (some d.blockFeeInfo)
  else cs.toAppend

/-- the keys to store; there are none if the epoch is not over -/
def certifiersKeysToStore (d : BlockData) : Except String (Option CertifiersKeys) :=
  if isEpochLastIndex d.withdrawalEpochInfo params.withdrawalEpochLength ∧
      params.circuitType = .naiveThresholdSignatureCircuitWithKeyRotation then
    match s.certifiersKeys params (d.withdrawalEpochInfo.epoch - 1) with
    | none => .error "None.get"
    | some keys => (s.actualCertifiersKeys d.withdrawalEpochInfo.epoch keys).map some
  else .ok none

/-- the arguments of `stateStorage.update` -/
def stateUpdate (cs : BoxStateChanges) (d : BlockData) (utxoMerkleTreeRootOpt : Option Hash)
    (certifiersKeysOption : Option CertifiersKeys) : StateContents.Update where
  version := d.newVersion
  withdrawalEpochInfo := d.withdrawalEpochInfo
  boxUpdateList := (s.boxesToAppend params env cs d).filter fun box => !box.isForgerBox && !box.isWithdrawalRequestBox
  boxIdsRemoveSet := cs.toRemove
  withdrawalRequestAppendSeq := (s.boxesToAppend params env cs d).filter Box.isWithdrawalRequestBox
  consensusEpoch := d.consensusEpoch
  topQualityCertificateOpt := d.topQualityCertificateOpt
  blockFeeInfo := d.blockFeeInfo
  utxoMerkleTreeRootOpt := utxoMerkleTreeRootOpt
  scHasCeased := s.scHasCeased params d
  forgerListIndexes := d.forgerListIndexes
  keyRotationProofs := d.keyRotationProofsToAdd
  certifiersKeysOption := certifiersKeysOption

end SidechainState

open SidechainState

section Apply

variable {σ τ : Type} (params : NetworkParams) (env : Externals σ τ)

/-- computations on the state -/
abbrev Step (σ τ : Type) := Fallible String (SidechainState σ τ)

/-- the callback of the application state -/
def onApplyChanges (version : ModifierId) (toAppend : List Box) (toRemove : List BoxId) : Step σ τ Unit :=
  ExceptT.mk fun s =>
    ((env.onApplyChanges s version toAppend toRemove).1,
      { s with applicationState := (env.onApplyChanges s version toAppend toRemove).2 })

/-- `utxoMerkleTreeProvider.update`: with ceased sidechain withdrawals disabled there is no tree -/
def updateUtxoMerkleTree (version : ModifierId) (toAppend : List Box) (toRemove : List BoxId) : Step σ τ Unit := do
  if params.isCSWEnabled then
    let s ← get
    let leaves ← orThrow (env.updateTree s.utxoMerkleTree.current (toAppend.filter Box.isCoinsBox) toRemove)
    onPart SidechainState.utxoMerkleTree (fun t s => { s with utxoMerkleTree := t })
      (SidechainState.write env.treeBackend version leaves)
  else pure ()

def updateStateStorage (u : StateContents.Update) : Step σ τ Unit := do
  let s ← get
  throwIf (¬ s.contents.indexesInBounds u) "Forger index to update is out of bound!"
  onPart SidechainState.stateStorage (fun t s => { s with stateStorage := t })
    (SidechainState.write env.stateBackend u.version (s.contents.update params u))

def updateForgerBoxStorage (version : ModifierId) (forgerBoxesToAppend : List Box) (toRemove : List BoxId) : Step σ τ Unit := do
  let s ← get
  onPart SidechainState.forgerBoxStorage (fun t s => { s with forgerBoxStorage := t })
    (SidechainState.write env.forgerBoxBackend version (s.forgerBoxStorage.current.update forgerBoxesToAppend toRemove))

/-- with a failure the stores stay as they are at that point -/
def applyChanges (cs : BoxStateChanges) (d : BlockData) : Step σ τ Unit := do
  let s ← get
  let actualCertifiersKeys ← orThrow (s.certifiersKeysToStore params d)
  let boxes := s.boxesToAppend params env cs d
  onApplyChanges env d.newVersion boxes cs.toRemove
  updateUtxoMerkleTree params env d.newVersion boxes cs.toRemove
  let updated ← get
  let utxoMerkleTreeRootOpt :=
    if isEpochLastIndex d.withdrawalEpochInfo params.withdrawalEpochLength ∧ params.isCSWEnabled then
      some (env.getMerkleTreeRoot updated.utxoMerkleTree.current)
    else none
  updateStateStorage params env (s.stateUpdate params env cs d utxoMerkleTreeRootOpt actualCertifiersKeys)
  updateForgerBoxStorage env d.newVersion (boxes.filter Box.isForgerBox) cs.toRemove
  modify fun s => { s with version := d.newVersion }

/-- what `applyModifier` hands to `applyChanges` -/
def blockData (mod : SidechainBlock) (withdrawalEpochInfo : WithdrawalEpochInfo) (consensusEpoch : ℕ) : BlockData where
  newVersion := mod.id
  withdrawalEpochInfo := withdrawalEpochInfo
  consensusEpoch := consensusEpoch
  topQualityCertificateOpt := mod.topQualityCertificateOpt
  blockFeeInfo := mod.feeInfo
  forgerListIndexes := getRestrictForgerIndexToUpdate mod.sidechainTransactions
  keyRotationProofsToAdd := getKeyRotationProofsToAdd params mod.sidechainTransactions

def applyModifier (mod : SidechainBlock) : Step σ τ Unit := do
  let s ← get
  orThrow (s.validate params env mod)
  let withdrawalEpochInfo ← orThrow (Withdrawals.WithdrawalEpochUtils.getWithdrawalEpochInfo
    mod.mainchainBlockReferencesData.length s.getWithdrawalEpochInfo params.withdrawalEpochLength)
  let consensusEpoch ← orThrow (env.timeStampToEpochNumber mod.timestamp)
  applyChanges params env (changes mod) (blockData params mod withdrawalEpochInfo consensusEpoch)

/-! ## What an accepted block has passed and written -/

variable {params env}

theorem write_ok {α : Type} {backend : Backend α} {version : ModifierId} {new : α} {t t' : Snapshots ModifierId α} {u : Unit}
    (h : exec (SidechainState.write backend version new) t = (.ok u, t')) :
    version ∉ t.versions ∧ t' = t.push backend.keep version new := by
  simp only [SidechainState.write, exec_get_bind, exec_throwIf_bind_ok, exec_modify, Prod.mk.injEq, true_and] at h
  obtain ⟨hversion, -, rfl⟩ := h
  exact ⟨hversion, rfl⟩

theorem onApplyChanges_ok {version : ModifierId} {toAppend : List Box} {toRemove : List BoxId} {s s' : SidechainState σ τ}
    {u : Unit} (h : exec (onApplyChanges env version toAppend toRemove) s = (.ok u, s')) :
    s' = { s with applicationState := (env.onApplyChanges s version toAppend toRemove).2 } :=
  (Prod.mk.inj h).2.symm

theorem updateUtxoMerkleTree_ok {version : ModifierId} {toAppend : List Box} {toRemove : List BoxId}
    {s s' : SidechainState σ τ} {u : Unit}
    (h : exec (updateUtxoMerkleTree params env version toAppend toRemove) s = (.ok u, s')) :
    s' = { s with utxoMerkleTree := s'.utxoMerkleTree } := by
  unfold updateUtxoMerkleTree at h
  split_ifs at h with hcsw
  · simp only [exec_get_bind, exec_orThrow_bind_ok, exec_onPart_ok] at h
    obtain ⟨leaves, -, t, -, rfl⟩ := h
    rfl
  · obtain ⟨-, rfl⟩ := Prod.mk.inj h
    rfl

theorem updateStateStorage_ok {v : StateContents.Update} {s s' : SidechainState σ τ} {u : Unit}
    (h : exec (updateStateStorage params env v) s = (.ok u, s')) :
    s' = { s with stateStorage :=
      s.stateStorage.push env.stateBackend.keep v.version (s.contents.update params v) } := by
  simp only [updateStateStorage, exec_get_bind, exec_throwIf_bind_ok, exec_onPart_ok] at h
  obtain ⟨-, t, ht, rfl⟩ := h
  rw [(write_ok ht).2]

theorem updateStateStorage_contents {v : StateContents.Update} {s s' : SidechainState σ τ} {u : Unit}
    (h : exec (updateStateStorage params env v) s = (.ok u, s')) : s'.contents = s.contents.update params v := by
  rw [updateStateStorage_ok h]
  exact Snapshots.current_push env.stateBackend.keep_pos _ _ _

theorem updateForgerBoxStorage_ok {version : ModifierId} {toAppend : List Box} {toRemove : List BoxId}
    {s s' : SidechainState σ τ} {u : Unit} (h : exec (updateForgerBoxStorage env version toAppend toRemove) s = (.ok u, s')) :
    s' = { s with forgerBoxStorage :=
      s.forgerBoxStorage.push env.forgerBoxBackend.keep version (s.forgerBoxStorage.current.update toAppend toRemove) } := by
  simp only [updateForgerBoxStorage, exec_get_bind, exec_onPart_ok] at h
  obtain ⟨t, ht, rfl⟩ := h
  rw [(write_ok ht).2]

/-- what a validated block has passed -/
structure Validated (params : NetworkParams) (env : Externals σ τ) (s : SidechainState σ τ) (mod : SidechainBlock)
    (info : WithdrawalEpochInfo) (consensusEpoch : ℕ) : Prop where
  version_eq : s.version = mod.parentId
  mutuality : s.validateBlockTransactionsMutuality params env mod = .ok ()
  transactions : ∀ tx ∈ mod.transactions, s.validateTransaction params env consensusEpoch info.epoch tx = .ok ()
  feePaymentsHash_eq : mod.feePaymentsHash = s.expectedFeePaymentsHash params env mod info

theorem validate_ok {s : SidechainState σ τ} {mod : SidechainBlock} {info : WithdrawalEpochInfo} {consensusEpoch : ℕ}
    (hepoch : env.timeStampToEpochNumber mod.timestamp = .ok consensusEpoch)
    (hinfo : Withdrawals.WithdrawalEpochUtils.getWithdrawalEpochInfo mod.mainchainBlockReferencesData.length
      s.getWithdrawalEpochInfo params.withdrawalEpochLength = .ok info)
    (h : s.validate params env mod = .ok ()) : Validated params env s mod info consensusEpoch := by
  simp only [SidechainState.validate, hepoch, hinfo, bind_ok_iff, failIf_ok, Except.ok.injEq, exists_eq_left'] at h
  obtain ⟨⟨⟩, hversion, ⟨⟩, -, ⟨⟩, hmutuality, ⟨⟩, htransactions, ⟨⟩, -, ⟨⟩, hhash, -⟩ := h
  exact ⟨not_not.1 hversion, hmutuality, forM_ok.1 htransactions, not_not.1 hhash⟩

/-- with the limit enabled -/
theorem Validated.withdrawalBoxesAllowed {s : SidechainState σ τ} {mod : SidechainBlock} {info : WithdrawalEpochInfo}
    {consensusEpoch : ℕ} (h : Validated params env s mod info consensusEpoch)
    (hepoch : env.timeStampToEpochNumber mod.timestamp = .ok consensusEpoch)
    (hlimit : (env.getSidechainFork consensusEpoch).backwardTransferLimitEnabled) :
    s.checkWithdrawalBoxesAllowed params mod = .ok () := by
  have hmutuality := h.mutuality
  simp only [validateBlockTransactionsMutuality, bind_ok_iff, failIf_ok, hepoch, Except.ok.injEq,
    exists_eq_left', hlimit, if_true] at hmutuality
  obtain ⟨⟨⟩, -, ⟨⟩, -, ⟨⟩, -, ⟨⟩, -, hallowed⟩ := hmutuality
  exact hallowed

/-- a block has been accepted in `s` and has led to `s'` -/
structure Applied (params : NetworkParams) (env : Externals σ τ) (s : SidechainState σ τ) (mod : SidechainBlock)
    (s' : SidechainState σ τ) (info : WithdrawalEpochInfo) (consensusEpoch : ℕ) : Prop where
  info_eq : Withdrawals.WithdrawalEpochUtils.getWithdrawalEpochInfo mod.mainchainBlockReferencesData.length
    s.getWithdrawalEpochInfo params.withdrawalEpochLength = .ok info
  epoch_eq : env.timeStampToEpochNumber mod.timestamp = .ok consensusEpoch
  validated : s.validate params env mod = .ok ()
  version_eq : s'.version = mod.id
  contents_eq : ∃ root keys, s'.contents = s.contents.update params
    (s.stateUpdate params env (changes mod) (blockData params mod info consensusEpoch) root keys)
  forgerBoxes_eq : s'.forgerBoxStorage.current = s.forgerBoxStorage.current.update
    ((s.boxesToAppend params env (changes mod) (blockData params mod info consensusEpoch)).filter Box.isForgerBox)
    (changes mod).toRemove

theorem applyChanges_ok {cs : BoxStateChanges} {d : BlockData} {s s' : SidechainState σ τ} {u : Unit}
    (h : exec (applyChanges params env cs d) s = (.ok u, s')) :
    s'.version = d.newVersion ∧
      (∃ root keys, s.certifiersKeysToStore params d = .ok keys ∧
        s'.contents = s.contents.update params (s.stateUpdate params env cs d root keys)) ∧
      s'.forgerBoxStorage.current =
        s.forgerBoxStorage.current.update ((s.boxesToAppend params env cs d).filter Box.isForgerBox) cs.toRemove := by
  simp only [applyChanges, exec_get_bind, exec_orThrow_bind_ok] at h
  obtain ⟨keys, hkeys, h⟩ := h
  simp only [exec_bind_ok] at h
  obtain ⟨⟨⟩, s1, happ, ⟨⟩, s2, htree, s2', s2'', hget, ⟨⟩, s3, hstate, ⟨⟩, s4, hforger, hversion⟩ := h
  obtain ⟨h1, rfl⟩ := Prod.mk.inj hget
  obtain rfl := Except.ok.inj h1
  obtain rfl := onApplyChanges_ok happ
  have hs2 := updateUtxoMerkleTree_ok htree
  have hs3 := updateStateStorage_ok hstate
  have hs4 := updateForgerBoxStorage_ok hforger
  obtain ⟨-, rfl⟩ := Prod.mk.inj hversion
  have hcontents : s2.contents = s.contents := by
    rw [hs2]
    rfl
  have hforgers : s3.forgerBoxStorage = s.forgerBoxStorage := by
    rw [hs3, hs2]
  have hcontents3 := updateStateStorage_contents hstate
  refine ⟨rfl, ?_, ?_⟩
  · have hcontents4 : s4.contents = s3.contents := by
      rw [hs4]
      rfl
    rw [hcontents3, hcontents] at hcontents4
    exact ⟨_, keys, hkeys, hcontents4⟩
  · show s4.forgerBoxStorage.current = _
    rw [hs4, ← hforgers]
    exact Snapshots.current_push env.forgerBoxBackend.keep_pos _ _ _

/-- the accepted block, with the keys of the certifiers that have been stored -/
theorem applyModifier_stored {mod : SidechainBlock} {s s' : SidechainState σ τ} {u : Unit}
    (h : exec (applyModifier params env mod) s = (.ok u, s')) :
    ∃ info consensusEpoch, Applied params env s mod s' info consensusEpoch ∧
      ∃ root keys, s.certifiersKeysToStore params (blockData params mod info consensusEpoch) = .ok keys ∧
        s'.contents = s.contents.update params
          (s.stateUpdate params env (changes mod) (blockData params mod info consensusEpoch) root keys) := by
  simp only [applyModifier, exec_get_bind, exec_orThrow_bind_ok] at h
  obtain ⟨⟨⟩, hvalid, info, hinfo, consensusEpoch, hepoch, h⟩ := h
  obtain ⟨hversion, ⟨root, keys, hkeys, hcontents⟩, hforger⟩ := applyChanges_ok h
  exact ⟨info, consensusEpoch, ⟨hinfo, hepoch, hvalid, hversion, ⟨root, keys, hcontents⟩, hforger⟩, root, keys, hkeys,
    hcontents⟩

theorem applyModifier_ok {mod : SidechainBlock} {s s' : SidechainState σ τ} {u : Unit}
    (h : exec (applyModifier params env mod) s = (.ok u, s')) :
    ∃ info consensusEpoch, Applied params env s mod s' info consensusEpoch := by
  obtain ⟨info, consensusEpoch, happlied, -⟩ := applyModifier_stored h
  exact ⟨info, consensusEpoch, happlied⟩

/-! ## Runs -/

/-- the block as `WithdrawalEpochValidator` sees it -/
def epochBlock (mod : SidechainBlock) : Withdrawals.Block SidechainTransaction where
  id := toString mod.id
  mainchainBlockReferencesData := mod.mainchainBlockReferencesData.map fun data =>
    ⟨data.sidechainRelatedAggregatedTransaction.map fun tx => tx.mc2scTransactionsOutputs.map MainchainOutput.epochOutput⟩
  sidechainTransactions := mod.sidechainTransactions

/-- `WithdrawalEpochValidator.validate`, as far as it is about epochs: the genesis block, on no block, has one reference -/
def AcceptedByHistory (params : NetworkParams) (parent : WithdrawalEpochInfo) (mod : SidechainBlock) : Prop :=
  Withdrawals.WithdrawalEpochValidator.validateBlock params.withdrawalEpochLength (epochBlock mod) (some parent) = .ok () ∨
    parent = ⟨0, 0⟩ ∧ mod.mainchainBlockReferencesData.length = 1

/-- a block and the states before and after it -/
structure Transition (σ τ : Type) where
  before : SidechainState σ τ
  block : SidechainBlock
  after : SidechainState σ τ

/-- the history and the state have accepted the block -/
structure Transition.Accepted (params : NetworkParams) (env : Externals σ τ) (t : Transition σ τ) : Prop where
  byHistory : AcceptedByHistory params t.before.getWithdrawalEpochInfo t.block
  byState : exec (applyModifier params env t.block) t.before = (.ok (), t.after)

/-- accepted blocks one after the other, from the state `start` -/
def Run (params : NetworkParams) (env : Externals σ τ) : SidechainState σ τ → List (Transition σ τ) → Prop
  | _, [] => True
  | start, t :: ts => t.before = start ∧ t.Accepted params env ∧ Run params env t.after ts

/-- the epoch info of a block that the history accepts: in the epoch of its parent, or the first one of the next epoch -/
inductive EpochCases (L : ℕ) (parent : WithdrawalEpochInfo) (refs : ℕ) (info : WithdrawalEpochInfo) : Prop where
  | next (hparent : parent.lastEpochIndex = L) (hrefs : refs ≤ L) (hinfo : info = ⟨parent.epoch + 1, refs⟩)
  | same (hparent : parent.lastEpochIndex ≠ L) (hrefs : parent.lastEpochIndex + refs ≤ L)
      (hinfo : info = ⟨parent.epoch, parent.lastEpochIndex + refs⟩)

theorem epoch_cases {params : NetworkParams} {parent info : WithdrawalEpochInfo} {mod : SidechainBlock}
    (hL : 0 < params.withdrawalEpochLength) (h : AcceptedByHistory params parent mod)
    (hinfo : Withdrawals.WithdrawalEpochUtils.getWithdrawalEpochInfo mod.mainchainBlockReferencesData.length parent
      params.withdrawalEpochLength = .ok info) :
    EpochCases params.withdrawalEpochLength parent mod.mainchainBlockReferencesData.length info := by
  have hlength : (epochBlock mod).mainchainBlockReferencesData.length = mod.mainchainBlockReferencesData.length := by
    simp [epochBlock]
  rcases h with hvalid | ⟨rfl, hone⟩
  · have hinfo' := hinfo
    rw [← hlength] at hinfo'
    have hcases := Withdrawals.accept_cases (s := ⟨parent, epochBlock mod, info⟩) ⟨hvalid, hinfo'⟩
    rcases hcases with ⟨hparent, hrefs, heq⟩ | ⟨hparent, hrefs, heq, -⟩
    · simp only [Withdrawals.Step.refs, hlength] at hrefs heq
      exact .next hparent hrefs heq
    · simp only [Withdrawals.Step.refs, hlength] at hrefs heq
      exact .same hparent hrefs heq
  · have hsame : Withdrawals.WithdrawalEpochUtils.getWithdrawalEpochInfo mod.mainchainBlockReferencesData.length ⟨0, 0⟩
        params.withdrawalEpochLength = .ok ⟨0, 0 + mod.mainchainBlockReferencesData.length⟩ :=
      Withdrawals.getWithdrawalEpochInfo_same (by simp only; omega) (by simp only; omega)
    rw [hsame] at hinfo
    exact .same (by simp only; omega) (by simp only; omega) (Except.ok.inj hinfo).symm

theorem Applied.getWithdrawalEpochInfo_eq {s s' : SidechainState σ τ} {mod : SidechainBlock} {info : WithdrawalEpochInfo}
    {consensusEpoch : ℕ} (h : Applied params env s mod s' info consensusEpoch) : s'.getWithdrawalEpochInfo = info := by
  obtain ⟨root, keys, hcontents⟩ := h.contents_eq
  rw [SidechainState.getWithdrawalEpochInfo, hcontents]
  rfl

end Apply

/-! ## A sample -/

/-- keeps ten versions and never fails -/
theorem ten_pos : 0 < 10 := by decide

def sampleBackend (α : Type) : Backend α := ⟨10, ten_pos, fun _ _ _ => false⟩

/-- an application without a state of its own and without a merkle tree. The nonce of a box is its index, the key to a box
its proposition. -/
def sampleExternals : Externals Unit Unit where
  timeStampToEpochNumber _ := .ok 1
  getSidechainFork _ := ⟨true, false, 0⟩
  getNewBoxNonce _ _ i := i
  transactionSemanticValidity _ := .ok ()
  isValidProof key proposition _ := key = proposition
  getMsgToSignForKeyUpdate _ _ _ := 0
  isValidSignature _ _ _ := true
  reconstructUtxoMerkleTreeRoot _ _ := 0
  calculateFeePaymentBoxNonce epoch index := epoch.toNat + 1000 * index
  zenBoxId proposition value nonce := 2 ^ proposition * 3 ^ value.toNat * 5 ^ nonce
  feePaymentsTransactionId boxes := (boxes.map Box.id).sum + 1
  updateTree t _ _ := .ok t
  getMerkleTreeRoot _ := 0
  validateBlock _ _ := .ok ()
  validateTransaction _ _ := .ok ()
  onApplyChanges _ _ _ _ := (.ok (), ())
  treeBackend := sampleBackend Unit
  stateBackend := sampleBackend StateContents
  forgerBoxBackend := sampleBackend Boxes

/-- epochs of three mainchain blocks -/
def sampleParams : NetworkParams where
  withdrawalEpochLength := 3
  isNonCeasing := false
  isCSWEnabled := false
  circuitType := .naiveThresholdSignatureCircuit
  signersPublicKeys := []
  mastersPublicKeys := []
  restrictForgers := false
  allowedForgersList := []
  maxWBsAllowed := 3999

/-- before the genesis block, whose parent is block 0 -/
def sampleState : SidechainState Unit Unit := ⟨0, (), ⟨(), []⟩, ⟨StateContents.empty, []⟩, ⟨∅, []⟩⟩

/-- a reference with these outputs -/
def sampleReference (id : TransactionId) (outputs : List MainchainOutput) : MainchainBlockReferenceData :=
  ⟨some ⟨id, 1, 100, outputs⟩, none⟩

def sampleGenesis : SidechainBlock := ⟨1, 0, 0, 7, [sampleReference 1 [.sidechainCreation 1 0 7 500 7 7]], [], 0⟩

/-- the block applied to the state -/
def sampleTransition (before : SidechainState Unit Unit) (block : SidechainBlock) : Transition Unit Unit :=
  ⟨before, block, (exec (applyModifier sampleParams sampleExternals block) before).2⟩

/-- blocks applied one after the other -/
def sampleTransitions : SidechainState Unit Unit → List SidechainBlock → List (Transition Unit Unit)
  | _, [] => []
  | s, block :: blocks => sampleTransition s block :: sampleTransitions (sampleTransition s block).after blocks

theorem sampleTransitions_run {s : SidechainState Unit Unit} {blocks : List SidechainBlock}
    (h : ∀ t ∈ sampleTransitions s blocks, AcceptedByHistory sampleParams t.before.getWithdrawalEpochInfo t.block ∧
      (exec (applyModifier sampleParams sampleExternals t.block) t.before).1 = .ok ()) :
    Run sampleParams sampleExternals s (sampleTransitions s blocks) := by
  induction blocks generalizing s with
  | nil => trivial
  | cons block blocks ih =>
    obtain ⟨⟨hhistory, hstate⟩, hrest⟩ := List.forall_mem_cons.1 h
    exact ⟨rfl, ⟨hhistory, Prod.ext hstate rfl⟩, ih hrest⟩

end SidechainsSdk.Utxo
