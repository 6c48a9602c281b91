/-
Blocks and the storage of the history (`storage/AbstractHistoryStorage.scala`): the blocks and their infos under the ids of
the blocks, the id of the best block, and beside this the active chain, which is kept in memory only. `loadActiveChain` makes
it anew from the rest.
-/
import Mathlib.Tactic
import SidechainsSdk.Chain.ActiveChain

namespace SidechainsSdk.History

open Chain

structure MainchainHeader where
  hash : MainchainHeaderHash
  version : ℕ
  hashPrevBlock : MainchainHeaderHash
  hashScTxsCommitment : ℕ
  deriving DecidableEq, Repr

structure WithdrawalEpochCertificate where
  bitVectorCertificateFields : List ℕ
  deriving DecidableEq, Repr

/-- transactions, proofs and certificate leaves are only handed on to checks outside -/
structure MainchainBlockReferenceData where
  headerHash : MainchainHeaderHash
  sidechainRelatedAggregatedTransaction : Option ℕ
  existenceProof : Option ℕ
  absenceProof : Option ℕ
  lowerCertificateLeaves : List ℕ
  topQualityCertificate : Option WithdrawalEpochCertificate
  deriving DecidableEq, Repr

/-- an ommer, of which only its own ommers count -/
inductive Ommer where
  | mk (ommers : List Ommer)

/-- `OmmersContainer.score` -/
def Ommer.score : Ommer → ℕ
  | mk ommers => 1 + (ommers.map Ommer.score).sum

structure SidechainBlock where
  id : ModifierId
  parentId : ModifierId
  mainchainHeaders : List MainchainHeader
  mainchainBlockReferencesData : List MainchainBlockReferenceData
  ommers : List Ommer

namespace SidechainBlock

variable (b : SidechainBlock)

def score : ℕ := 1 + (b.ommers.map Ommer.score).sum

def mainchainHeaderHashesFromBlock : List MainchainHeaderHash := b.mainchainHeaders.map MainchainHeader.hash

def mainchainReferenceDataHeaderHashesFromBlock : List MainchainHeaderHash :=
  b.mainchainBlockReferencesData.map MainchainBlockReferenceData.headerHash

/-- the parent of the first mainchain header -/
def mainchainParent : Option MainchainHeaderHash := b.mainchainHeaders.head?.map MainchainHeader.hashPrevBlock

end SidechainBlock

structure NetworkParams where
  sidechainGenesisBlockId : ModifierId
  mainchainCreationBlockHeight : ℕ
  maxHistoryRewritingLength : ℕ
  resetModifiersStatus : Bool
  initialCumulativeCommTreeHash : ℕ
  /-- `CumulativeHashFunctions.computeCumulativeHash` -/
  computeCumulativeHash : ℕ → ℕ → ℕ

/-- what is on disk -/
structure StoredHistory where
  blocks : ModifierId → Option SidechainBlock
  infos : ModifierId → Option SidechainBlockInfo
  best : Option ModifierId

namespace StoredHistory

variable (params : NetworkParams) (s : StoredHistory)

def bestBlockId : ModifierId := s.best.getD params.sidechainGenesisBlockId

def blockInfoByIdFromStorage (blockId : ModifierId) : Except ChainException SidechainBlockInfo :=
  (s.infos blockId).elim (.error .noBlockInfo) .ok

/-- the infos from the best block down to height one, collected in front of each other -/
def loadBlocksInfo : ℕ → ModifierId → SidechainBlockInfo → Blocks → Except ChainException Blocks
  | 0, _, _, _ => .error .endless
  | fuel + 1, id, info, collected =>
    if 1 < info.height then do
      let parentInfo ← s.blockInfoByIdFromStorage info.parentId
      loadBlocksInfo fuel info.parentId parentInfo ((id, info) :: collected)
    else .ok ((id, info) :: collected)

/-- `isEmpty` is that of the underlying storage -/
def loadActiveChain (fuel : ℕ) (isEmpty : Bool) : Except ChainException ActiveChain :=
  if isEmpty then .ok (ActiveChain.empty params.mainchainCreationBlockHeight)
  else do
    let bestInfo ← s.blockInfoByIdFromStorage (s.bestBlockId params)
    let orderedChainBlocks ← s.loadBlocksInfo fuel (s.bestBlockId params) bestInfo []
    let mainchainBlockParent := do
      let firstSidechainBlockInfo ← orderedChainBlocks.head?
      let firstSidechainBlock ← s.blocks firstSidechainBlockInfo.1
      firstSidechainBlock.mainchainParent
    let parent ← mainchainBlockParent.elim (.error .noMainchainParent) .ok
    ActiveChain.apply orderedChainBlocks parent params.mainchainCreationBlockHeight

end StoredHistory

structure HistoryStorage extends StoredHistory where
  activeChain : ActiveChain

structure MainchainHeaderInfo where
  hash : MainchainHeaderHash
  parentHash : MainchainHeaderHash
  height : ℕ
  sidechainBlockId : ModifierId
  cumulativeCommTreeHash : ℕ
  deriving DecidableEq, Repr

structure MainchainBlockReferenceDataInfo where
  headerHash : MainchainHeaderHash
  height : ℕ
  sidechainBlockId : ModifierId
  deriving DecidableEq, Repr

namespace HistoryStorage

variable (s : HistoryStorage)

def height : ℕ := s.activeChain.height

/-- from the active chain if it is there, else from disk -/
def blockInfoOptionById (blockId : ModifierId) : Option SidechainBlockInfo :=
  (s.activeChain.blockInfoById blockId).or (s.infos blockId)

def isInActiveChain (blockId : ModifierId) : Bool := s.activeChain.contains blockId

def parentBlockId (blockId : ModifierId) : Option ModifierId :=
  (s.blockInfoOptionById blockId).map SidechainBlockInfo.parentId

def chainScoreFor (blockId : ModifierId) : Option ℕ := (s.blockInfoOptionById blockId).map SidechainBlockInfo.score

def contains (blockId : ModifierId) : Bool := s.isInActiveChain blockId || (s.infos blockId).isSome

/-- `none` for a block that is absent -/
def semanticValidity (blockId : ModifierId) : Option SemanticValidity :=
  (s.blockInfoOptionById blockId).map SidechainBlockInfo.semanticValidity

def activeChainSince (blockId : ModifierId) : Except ChainException (List ModifierId) :=
  s.activeChain.sidechainCache.chainSince blockId

/-- the last mainchain header up to a block; `none` where the source throws or goes on without end -/
def getLastMainchainHeaderBaseInfoInclusion : ℕ → ModifierId → Option MainchainHeaderBaseInfo
  | 0, _ => none
  | fuel + 1, blockId =>
    match s.blockInfoOptionById blockId with
    | none => none
    | some info =>
      match info.mainchainHeaderBaseInfo.getLast? with
      | some last => some last
      | none => getLastMainchainHeaderBaseInfoInclusion fuel info.parentId

def getMainchainHeaderInfoByHash (mcHash : MainchainHeaderHash) : Option MainchainHeaderInfo := do
  let mcHeight ← s.activeChain.mcHeadersHeightByMcHash mcHash
  let sidechainBlockId ← s.activeChain.idByMcHeader mcHash
  let mcMetadata ← s.activeChain.mcHeaderMetadataByMcHash mcHash
  let blockInfo ← s.activeChain.blockInfoById sidechainBlockId
  let mainchainBaseInfo ← blockInfo.mainchainHeaderBaseInfo.find? fun info => info.hash = mcHash
  pure ⟨mcHash, mcMetadata.mainchainParentHash, mcHeight, sidechainBlockId, mainchainBaseInfo.cumulativeCommTreeHash⟩

def getMainchainBlockReferenceDataInfoByHash (mcHash : MainchainHeaderHash) : Option MainchainBlockReferenceDataInfo := do
  let mcHeight ← s.activeChain.mcRefDataHeightByMcHash mcHash
  let sidechainBlockId ← s.activeChain.idByMcReferenceData mcHash
  pure ⟨mcHash, mcHeight, sidechainBlockId⟩

/-- the inner option is the `get` of the source, which throws -/
def getMainchainHeaderInfoByHeight (mainchainHeight : ℕ) : Option (Option MainchainHeaderInfo) :=
  (s.activeChain.mcHashByMcHeight mainchainHeight).map s.getMainchainHeaderInfoByHash

def getMainchainBlockReferenceDataInfoByHeight (mainchainHeight : ℕ) : Option (Option MainchainBlockReferenceDataInfo) :=
  (s.activeChain.mcHashByMcHeight mainchainHeight).map s.getMainchainBlockReferenceDataInfoByHash

def getBestMainchainHeaderInfo : Option (Option MainchainHeaderInfo) :=
  s.getMainchainHeaderInfoByHeight s.activeChain.heightOfMcHeaders

def getBestMainchainBlockReferenceDataInfo : Option (Option MainchainBlockReferenceDataInfo) :=
  s.getMainchainBlockReferenceDataInfoByHeight s.activeChain.heightOfMcReferencesData

def getMainchainHashesForIndexes (mainchainHeights : List ℕ) : List MainchainHeaderHash :=
  mainchainHeights.filterMap s.activeChain.mcHashByMcHeight

/-- `none` where the source throws -/
def missedMainchainReferenceDataHeaderHashes : Option (List MainchainHeaderHash) := do
  let bestMainchainReferenceData ← s.getBestMainchainBlockReferenceDataInfo.join
  let bestMainchainHeader ← s.getBestMainchainHeaderInfo.join
  if bestMainchainHeader.height = bestMainchainReferenceData.height then pure []
  else
    pure (s.getMainchainHashesForIndexes (List.range' (bestMainchainReferenceData.height + 1)
      (bestMainchainHeader.height + 1 - (bestMainchainReferenceData.height + 1))))

end HistoryStorage

end SidechainsSdk.History
