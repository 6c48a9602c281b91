/-
What the state of the UTXO sidechain is made of: boxes, transactions and blocks, and the contents of the state storage with
its update (`SidechainStateStorage`).

The contents stand for the entries under their keys, which do not collide. A counted family of records (the withdrawal
requests and the block fees of an epoch) is the list that is read back up to the counter. A storage writes the new entries
of an update and then deletes the removed keys, so that of a key in both lists nothing is left.

Amounts are `Long`s: integers, of which sums wrap around.
-/
import Mathlib.Tactic
import SidechainsSdk.Core.AssocMap
import SidechainsSdk.Withdrawals.Epochs

namespace SidechainsSdk.Utxo.Ledger

open Withdrawals (WithdrawalEpochInfo)

abbrev BoxId := ℕ
abbrev Proposition := ℕ
abbrev TransactionId := ℕ
abbrev ModifierId := ℕ
abbrev Hash := ℕ

/-! Arithmetic of `Long`. -/

namespace Long

/-- the value a `Long` takes -/
def wrap (x : ℤ) : ℤ := x.bmod (2 ^ 64)

def add (x y : ℤ) : ℤ := wrap (x + y)

def sub (x y : ℤ) : ℤ := wrap (x - y)

def sum (l : List ℤ) : ℤ := l.foldl add 0

end Long

namespace ZenCoinsUtils

def COIN : ℤ := 100000000

def MAX_MONEY : ℤ := 21000000 * COIN

def MC_DEFAULT_FEE_RATE : ℤ := 100

/-- `floor` of a quotient that is not negative -/
def getMinDustThreshold (feeRate : ℤ) : ℤ := 3 * ((34 + 148) * feeRate / 1000)

def isValidMoneyRange (value : ℤ) : Bool := 0 ≤ value ∧ value ≤ MAX_MONEY

end ZenCoinsUtils

/-! Boxes and transactions. -/

/-- the classes of boxes; a custom box is a coins box or not -/
inductive BoxKind where
  | zen
  | forger (blockSignProposition vrfPubKey : ℕ)
  | withdrawalRequest
  | custom (coins : Bool)
deriving DecidableEq, Repr

structure Box where
  id : BoxId
  nonce : ℕ
  proposition : Proposition
  value : ℤ
  kind : BoxKind
deriving DecidableEq, Repr

namespace Box

def isCoinsBox (b : Box) : Bool :=
  match b.kind with
  | .zen | .forger _ _ => true
  | .withdrawalRequest => false
  | .custom coins => coins

def isForgerBox (b : Box) : Bool :=
  match b.kind with
  | .forger _ _ => true
  | _ => false

def isWithdrawalRequestBox (b : Box) : Bool := b.kind = .withdrawalRequest

/-- `blockSignProposition` and `vrfPubKey` of a forger box -/
def forgerKeys (b : Box) : Option (ℕ × ℕ) :=
  match b.kind with
  | .forger blockSignProposition vrfPubKey => some (blockSignProposition, vrfPubKey)
  | _ => none

end Box

structure BoxUnlocker where
  closedBoxId : BoxId
  boxKey : ℕ
deriving DecidableEq, Repr

inductive KeyRotationProofType where
  | signing
  | master
deriving DecidableEq, Repr

structure KeyRotationProof where
  keyType : KeyRotationProofType
  index : ℤ
  newKey : ℕ
  signingKeySignature : ℕ
  masterKeySignature : ℕ
deriving DecidableEq, Repr

/-- the classes that the state tells apart -/
inductive TransactionKind where
  | openStake (forgerIndex : ℤ) (inputId : BoxId)
  | keyRotation (proof : KeyRotationProof) (newKeySignature : ℕ)
  | other
deriving DecidableEq, Repr

/-- `size` is the number of bytes of its serialization -/
structure SidechainTransaction where
  id : TransactionId
  kind : TransactionKind
  size : ℕ
  unlockers : List BoxUnlocker
  newBoxes : List Box
  fee : ℤ
deriving DecidableEq, Repr

/-- `SidechainRelatedMainchainOutput` with its box -/
inductive MainchainOutput where
  | forwardTransfer (id nonce : ℕ) (proposition : Proposition) (amount : ℤ)
  | sidechainCreation (id nonce : ℕ) (proposition : Proposition) (amount : ℤ) (blockSignProposition vrfPubKey : ℕ)
deriving DecidableEq, Repr

def MainchainOutput.getBox : MainchainOutput → Box
  | forwardTransfer id nonce proposition amount => ⟨id, nonce, proposition, amount, .zen⟩
  | sidechainCreation id nonce proposition amount blockSign vrf => ⟨id, nonce, proposition, amount, .forger blockSign vrf⟩

/-- as the epochs of blocks are validated -/
def MainchainOutput.epochOutput : MainchainOutput → Withdrawals.MainchainOutput
  | forwardTransfer .. => .forwardTransfer
  | sidechainCreation .. => .sidechainCreation

structure MC2SCAggregatedTransaction where
  id : TransactionId
  version : ℕ
  size : ℕ
  mc2scTransactionsOutputs : List MainchainOutput
deriving DecidableEq, Repr

/-- the transactions of a block -/
inductive BoxTransaction where
  | aggregated (tx : MC2SCAggregatedTransaction)
  | sidechain (tx : SidechainTransaction)
deriving DecidableEq, Repr

namespace BoxTransaction

def id : BoxTransaction → TransactionId
  | aggregated tx => tx.id
  | sidechain tx => tx.id

def unlockers : BoxTransaction → List BoxUnlocker
  | aggregated _ => []
  | sidechain tx => tx.unlockers

def newBoxes : BoxTransaction → List Box
  | aggregated tx => tx.mc2scTransactionsOutputs.map MainchainOutput.getBox
  | sidechain tx => tx.newBoxes

def fee : BoxTransaction → ℤ
  | aggregated _ => 0
  | sidechain tx => tx.fee

/-- a set: each id once -/
def boxIdsToOpen (tx : BoxTransaction) : List BoxId := (tx.unlockers.map BoxUnlocker.closedBoxId).dedup

end BoxTransaction

/-! Blocks. -/

structure BackwardTransferOutput where
  amount : ℤ
  pubKeyHash : ℕ
deriving DecidableEq, Repr

structure WithdrawalEpochCertificate where
  epochNumber : ℤ
  backwardTransferOutputs : List BackwardTransferOutput
  fieldElementCertificateFields : List ℕ
deriving DecidableEq, Repr

structure MainchainBlockReferenceData where
  sidechainRelatedAggregatedTransaction : Option MC2SCAggregatedTransaction
  topQualityCertificate : Option WithdrawalEpochCertificate
deriving DecidableEq, Repr

structure BlockFeeInfo where
  fee : ℤ
  forgerRewardKey : Proposition
deriving DecidableEq, Repr

structure SidechainBlock where
  id : ModifierId
  parentId : ModifierId
  timestamp : ℤ
  forgerPublicKey : Proposition
  mainchainBlockReferencesData : List MainchainBlockReferenceData
  sidechainTransactions : List SidechainTransaction
  feePaymentsHash : Hash
deriving DecidableEq, Repr

namespace SidechainBlock

variable (b : SidechainBlock)

def transactions : List BoxTransaction :=
  (b.mainchainBlockReferencesData.filterMap MainchainBlockReferenceData.sidechainRelatedAggregatedTransaction).map .aggregated ++
    b.sidechainTransactions.map .sidechain

def feeInfo : BlockFeeInfo := ⟨Long.sum (b.transactions.map BoxTransaction.fee), b.forgerPublicKey⟩

/-- the last one that the references carry -/
def topQualityCertificateOpt : Option WithdrawalEpochCertificate :=
  (b.mainchainBlockReferencesData.filterMap MainchainBlockReferenceData.topQualityCertificate).getLast?

end SidechainBlock

/-! Parameters. -/

inductive CircuitType where
  | naiveThresholdSignatureCircuit
  | naiveThresholdSignatureCircuitWithKeyRotation
deriving DecidableEq, Repr

/-- the fields of `NetworkParams` that the state reads -/
structure NetworkParams where
  withdrawalEpochLength : ℕ
  isNonCeasing : Bool
  isCSWEnabled : Bool
  circuitType : CircuitType
  signersPublicKeys : List ℕ
  mastersPublicKeys : List ℕ
  restrictForgers : Bool
  allowedForgersList : List (ℕ × ℕ)
  maxWBsAllowed : ℕ
deriving DecidableEq, Repr

/-! The state storage. -/

structure CertifiersKeys where
  signingKeys : List ℕ
  masterKeys : List ℕ
deriving DecidableEq, Repr

abbrev Boxes := AList fun _ : BoxId => Box

/-- the boxes under their ids: the new ones are written, then the removed ones deleted -/
def Boxes.update (boxes : Boxes) (toAppend : List Box) (toRemove : List BoxId) : Boxes :=
  toRemove.foldl (fun s id => s.erase id) (toAppend.foldl (fun s b => s.insert b.id b) boxes)

/-- the entries of a version -/
structure StateContents where
  boxes : Boxes
  withdrawalEpochInfo : Option WithdrawalEpochInfo
  withdrawalRequests : ℤ → List Box
  certifiersKeys : ℤ → Option CertifiersKeys
  keyRotationProofs : ℤ → ℤ → KeyRotationProofType → Option KeyRotationProof
  topQualityCertificates : ℤ → Option WithdrawalEpochCertificate
  lastCertificateReferencedEpoch : Option ℤ
  lastCertificateSidechainBlockId : Option ModifierId
  blockFeeInfos : ℤ → List BlockFeeInfo
  utxoMerkleTreeRoots : ℤ → Option Hash
  hasCeased : Bool
  consensusEpochNumber : Option ℕ
  forgerIndexes : Option (List ℕ)

namespace StateContents

/-- a storage without entries -/
def empty : StateContents where
  boxes := ∅
  withdrawalEpochInfo := none
  withdrawalRequests _ := []
  certifiersKeys _ := none
  keyRotationProofs _ _ _ := none
  topQualityCertificates _ := none
  lastCertificateReferencedEpoch := none
  lastCertificateSidechainBlockId := none
  blockFeeInfos _ := []
  utxoMerkleTreeRoots _ := none
  hasCeased := false
  consensusEpochNumber := none
  forgerIndexes := none

/-- boxes and nothing else, which is what a node that restores a backup starts with -/
def restored (boxes : Boxes) : StateContents := { empty with boxes := boxes }

/-- the arguments of `SidechainStateStorage.update` -/
structure Update where
  version : ModifierId
  withdrawalEpochInfo : WithdrawalEpochInfo
  boxUpdateList : List Box
  boxIdsRemoveSet : List BoxId
  withdrawalRequestAppendSeq : List Box
  consensusEpoch : ℕ
  topQualityCertificateOpt : Option WithdrawalEpochCertificate
  blockFeeInfo : BlockFeeInfo
  utxoMerkleTreeRootOpt : Option Hash
  scHasCeased : Bool
  forgerListIndexes : List ℤ
  keyRotationProofs : List KeyRotationProof
  certifiersKeysOption : Option CertifiersKeys

variable (params : NetworkParams) (s : StateContents) (u : Update)

def isWithdrawalEpochSwitched : Bool :=
  match s.withdrawalEpochInfo with
  | some storedEpochInfo => storedEpochInfo.epoch ≠ u.withdrawalEpochInfo.epoch
  | none => false

/-- the epochs that a new certificate makes outdated, in a sidechain that does not cease -/
def outdatedByCertificate (epoch : ℤ) : Bool :=
  match u.topQualityCertificateOpt with
  | some certificate =>
    params.isNonCeasing ∧ s.lastCertificateReferencedEpoch.getD (-1) + 1 ≤ epoch ∧ epoch < certificate.epochNumber
  | none => false

/-- the epoch `behind` epochs before a new one is outdated in a sidechain that can cease -/
def outdatedByEpoch (behind : ℤ) (epoch : ℤ) : Bool :=
  !params.isNonCeasing ∧ s.isWithdrawalEpochSwitched u ∧ epoch = u.withdrawalEpochInfo.epoch - behind

/-- `ForgerList.updateIndexes`: the indexes of the forgers that opened their stake are set to 1 -/
def updateIndexes (forgerIndexes : List ℕ) (indexToUpdate : List ℤ) : List ℕ :=
  indexToUpdate.foldl (fun l toUpdate => l.set toUpdate.toNat 1) forgerIndexes

/-- it throws for an index that is out of bounds, and then the update fails -/
def indexesInBounds : Bool :=
  match s.forgerIndexes with
  | some forgerIndexes => u.forgerListIndexes.all fun i => 0 ≤ i ∧ i < forgerIndexes.length
  | none => true

/-- `SidechainStateStorage.update` -/
def update : StateContents where
  boxes := s.boxes.update u.boxUpdateList u.boxIdsRemoveSet
  withdrawalEpochInfo := some u.withdrawalEpochInfo
  withdrawalRequests epoch :=
    if s.outdatedByEpoch params u 2 epoch ∨ s.outdatedByCertificate params u epoch then []
    else if epoch = u.withdrawalEpochInfo.epoch then s.withdrawalRequests epoch ++ u.withdrawalRequestAppendSeq
    else s.withdrawalRequests epoch
  certifiersKeys epoch :=
    if s.outdatedByEpoch params u 4 epoch ∨ s.outdatedByCertificate params u epoch then none
    else if epoch = u.withdrawalEpochInfo.epoch then u.certifiersKeysOption.or (s.certifiersKeys epoch)
    else s.certifiersKeys epoch
  keyRotationProofs epoch index keyType :=
    if (s.outdatedByEpoch params u 4 epoch ∨ s.outdatedByCertificate params u epoch) ∧ 0 ≤ index ∧
        index < params.signersPublicKeys.length then none
    else if epoch = u.withdrawalEpochInfo.epoch then
      -- of several proofs for one key the storage would keep none: it refuses an update with a key that occurs twice
      (u.keyRotationProofs.find? fun proof => proof.index = index ∧ proof.keyType = keyType).or
        (s.keyRotationProofs epoch index keyType)
    else s.keyRotationProofs epoch index keyType
  topQualityCertificates epoch :=
    if s.outdatedByEpoch params u 4 epoch ∨ s.outdatedByCertificate params u epoch then none
    else (u.topQualityCertificateOpt.filter fun certificate => certificate.epochNumber = epoch).or
      (s.topQualityCertificates epoch)
  lastCertificateReferencedEpoch :=
    (u.topQualityCertificateOpt.map WithdrawalEpochCertificate.epochNumber).or s.lastCertificateReferencedEpoch
  lastCertificateSidechainBlockId :=
    if params.isNonCeasing ∧ u.topQualityCertificateOpt.isSome then some u.version else s.lastCertificateSidechainBlockId
  blockFeeInfos epoch :=
    if s.isWithdrawalEpochSwitched u ∧ epoch = u.withdrawalEpochInfo.epoch - 1 then []
    else if epoch = u.withdrawalEpochInfo.epoch then s.blockFeeInfos epoch ++ [u.blockFeeInfo]
    else s.blockFeeInfos epoch
  utxoMerkleTreeRoots epoch :=
    if s.outdatedByEpoch params u 4 epoch then none
    else if epoch = u.withdrawalEpochInfo.epoch then u.utxoMerkleTreeRootOpt.or (s.utxoMerkleTreeRoots epoch)
    else s.utxoMerkleTreeRoots epoch
  hasCeased := s.hasCeased || u.scHasCeased
  consensusEpochNumber :=
    if s.consensusEpochNumber.getD 0 ≠ u.consensusEpoch then some u.consensusEpoch else s.consensusEpochNumber
  forgerIndexes :=
    match s.forgerIndexes with
    | some forgerIndexes => some (updateIndexes forgerIndexes u.forgerListIndexes)
    | none => some (List.replicate params.allowedForgersList.length 0)

end StateContents

end SidechainsSdk.Utxo.Ledger
