/-
The check of mainchain reference data (`history/validation/MainchainBlockReferenceValidator.scala`). A block may carry the data
of headers that came with earlier blocks. The validator walks back from the parent until it has the header of the last data
carried so far, and compares the headers after it with the data of the block.

The walk is a loop without a condition; the model has fuel for it, and the exception `endless` if this does not suffice.
-/
import Mathlib.Tactic
import SidechainsSdk.History.HistoryStorage

namespace SidechainsSdk.History

open Chain

inductive HistoryException where
  | noBlockInfo
  | noSuchElement
  | invalidMainchainData
  | invalidMainchainHeader
  | inconsistentMainchainBlockReferenceData
  | endless
  | chain (e : ChainException)
  | parentMissed
  | rejected
  | suffixesDiffer
  | forkTooLong
  deriving DecidableEq, Repr

/-- the checks on headers, transactions, certificates and proofs that are made elsewhere -/
structure ReferenceChecks where
  headerSemanticValidity : MainchainHeader → Bool
  scCreationBitVectorCertificateFieldConfigs : List ℕ
  tryMerkleRootBytesWithCheck : ℕ → ℕ → Bool
  transactionSemanticValidity : ℕ → Bool
  getSidechainCommitment : MainchainBlockReferenceData → Option ℕ
  verifyExistenceProof : ℕ → ℕ → ℕ → Bool
  verifyAbsenceProof : ℕ → ℕ → Bool

namespace MainchainBlockReference

def SC_CERT_BLOCK_VERSION : ℕ := 3

/-- `throw` under a condition -/
def failIf (c : Bool) (e : HistoryException) : Except HistoryException Unit := if c then .error e else .ok ()

/-- the part of the check for blocks that support sidechains -/
def checkProofs (checks : ReferenceChecks) (header : MainchainHeader) (data : MainchainBlockReferenceData) :
    Except HistoryException Unit :=
  match data.existenceProof with
  | some existenceProof => do
    failIf (data.sidechainRelatedAggregatedTransaction.isNone && data.topQualityCertificate.isNone &&
      data.lowerCertificateLeaves.isEmpty) .inconsistentMainchainBlockReferenceData
    failIf data.absenceProof.isSome .inconsistentMainchainBlockReferenceData
    failIf (data.topQualityCertificate.any fun cert =>
      checks.scCreationBitVectorCertificateFieldConfigs.length != cert.bitVectorCertificateFields.length ||
        (cert.bitVectorCertificateFields.zip checks.scCreationBitVectorCertificateFieldConfigs).any
          fun field => !checks.tryMerkleRootBytesWithCheck field.1 field.2) .invalidMainchainData
    failIf (data.sidechainRelatedAggregatedTransaction.any fun tx => !checks.transactionSemanticValidity tx)
      .invalidMainchainData
    match checks.getSidechainCommitment data with
    | none => .error .inconsistentMainchainBlockReferenceData
    | some scCommitment =>
      failIf (!checks.verifyExistenceProof scCommitment existenceProof header.hashScTxsCommitment)
        .inconsistentMainchainBlockReferenceData
  | none => do
    failIf (data.sidechainRelatedAggregatedTransaction.isSome || data.topQualityCertificate.isSome ||
      !data.lowerCertificateLeaves.isEmpty) .inconsistentMainchainBlockReferenceData
    match data.absenceProof with
    | none => .error .inconsistentMainchainBlockReferenceData
    | some absenceProof =>
      failIf (!checks.verifyAbsenceProof absenceProof header.hashScTxsCommitment) .inconsistentMainchainBlockReferenceData

def semanticValidity (checks : ReferenceChecks) (header : MainchainHeader) (data : MainchainBlockReferenceData) :
    Except HistoryException Unit := do
  failIf (!checks.headerSemanticValidity header) .invalidMainchainHeader
  failIf (data.headerHash != header.hash) .invalidMainchainData
  if header.version ≠ SC_CERT_BLOCK_VERSION then
    failIf (data.sidechainRelatedAggregatedTransaction.isSome || data.topQualityCertificate.isSome ||
      !data.lowerCertificateLeaves.isEmpty || data.existenceProof.isSome || data.absenceProof.isSome)
      .inconsistentMainchainBlockReferenceData
  else checkProofs checks header data

end MainchainBlockReference

namespace MainchainBlockReferenceValidator

variable (params : NetworkParams) (checks : ReferenceChecks) (s : HistoryStorage)

def validateGenesisBlock (verifiedBlock : SidechainBlock) : Except HistoryException Unit :=
  match verifiedBlock.mainchainHeaders, verifiedBlock.mainchainBlockReferencesData with
  | [header], [data] => MainchainBlockReference.semanticValidity checks header data
  | _, _ => .error .invalidMainchainData

/-- the walk back: the headers without data, each with the block that has it -/
def missedHeaders : ℕ → ModifierId → Option MainchainHeaderHash → List (MainchainHeaderHash × ModifierId) →
    Except HistoryException (List (MainchainHeaderHash × ModifierId))
  | 0, _, _, _ => .error .endless
  | fuel + 1, blockId, bestOpt, missed =>
    match s.blockInfoOptionById blockId with
    | none => .error .noBlockInfo
    | some blockInfo =>
      let missed := blockInfo.mainchainHeaderHashes.map (·, blockId) ++ missed
      let bestOpt := bestOpt.or blockInfo.mainchainReferenceDataHeaderHashes.getLast?
      match bestOpt.bind fun best => missed.findIdx? fun info => info.1 = best with
      | some index => .ok (missed.drop (index + 1))
      | none => missedHeaders fuel blockInfo.parentId bestOpt missed

/-- the block with the next header; the one used last is not read again -/
def blockWithMainchainHeader (verifiedBlock lastRetrievedBlock : SidechainBlock) (containingBlockId : ModifierId) :
    Option SidechainBlock :=
  if containingBlockId = lastRetrievedBlock.id then some lastRetrievedBlock
  else if containingBlockId = verifiedBlock.id then some verifiedBlock
  else s.blocks containingBlockId

def checkReferences (verifiedBlock : SidechainBlock) : SidechainBlock →
    List (MainchainBlockReferenceData × MainchainHeaderHash × ModifierId) → Except HistoryException Unit
  | _, [] => .ok ()
  | lastRetrievedBlock, (referenceData, mainchainHeaderHash, containingBlockId) :: rest =>
    if referenceData.headerHash ≠ mainchainHeaderHash then .error .invalidMainchainData
    else
      match blockWithMainchainHeader s verifiedBlock lastRetrievedBlock containingBlockId with
      | none => .error .noSuchElement
      | some block =>
        match block.mainchainHeaders.find? fun header => header.hash = mainchainHeaderHash with
        | none => .error .noSuchElement
        | some mainchainHeader => do
          MainchainBlockReference.semanticValidity checks mainchainHeader referenceData
          checkReferences verifiedBlock block rest

def validateBlock (fuel : ℕ) (verifiedBlock : SidechainBlock) : Except HistoryException Unit :=
  if verifiedBlock.mainchainBlockReferencesData = [] then .ok ()
  else
    match missedHeaders s fuel verifiedBlock.parentId none [] with
    | .error e => .error e
    | .ok missed =>
      let missed := missed ++ verifiedBlock.mainchainHeaderHashesFromBlock.map (·, verifiedBlock.id)
      if missed.length < verifiedBlock.mainchainBlockReferencesData.length then .error .invalidMainchainData
      else checkReferences checks s verifiedBlock verifiedBlock (verifiedBlock.mainchainBlockReferencesData.zip missed)

def validate (fuel : ℕ) (block : SidechainBlock) : Except HistoryException Unit :=
  if block.id = params.sidechainGenesisBlockId then validateGenesisBlock checks block
  else validateBlock checks s fuel block

end MainchainBlockReferenceValidator

end SidechainsSdk.History
