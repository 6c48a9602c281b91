/-
The active chain (`chain/ActiveChain.scala`): three chains of elements kept side by side. One holds the sidechain blocks;
the other two the mainchain headers and the mainchain reference data these blocks carry, each with the height of the
sidechain block that carries it. A block may carry headers whose data comes in a later block.

`apply` rebuilds the active chain from a list of blocks, as is done at a restart (`AbstractHistoryStorage.loadActiveChain`).
-/
import Mathlib.Tactic
import SidechainsSdk.Chain.ElementsChain

namespace SidechainsSdk.Chain

open Fallible

abbrev ModifierId := ℕ

abbrev MainchainHeaderHash := ℕ

/-- `ModifierSemanticValidity` of a block that is in history -/
inductive SemanticValidity where
  | Unknown
  | Valid
  | Invalid
  deriving DecidableEq, Inhabited, Repr

structure MainchainHeaderBaseInfo where
  hash : MainchainHeaderHash
  cumulativeCommTreeHash : ℕ
  deriving DecidableEq, Repr

structure SidechainBlockInfo where
  height : ℕ
  score : ℕ
  parentId : ModifierId
  semanticValidity : SemanticValidity
  mainchainHeaderBaseInfo : List MainchainHeaderBaseInfo
  mainchainReferenceDataHeaderHashes : List MainchainHeaderHash
  deriving DecidableEq, Inhabited, Repr

def SidechainBlockInfo.mainchainHeaderHashes (info : SidechainBlockInfo) : List MainchainHeaderHash :=
  info.mainchainHeaderBaseInfo.map MainchainHeaderBaseInfo.hash

/-- blocks by their ids -/
abbrev Blocks := List (ModifierId × SidechainBlockInfo)

instance : LinkedElement SidechainBlockInfo ModifierId := ⟨SidechainBlockInfo.parentId⟩

structure MainchainHeaderMetadata where
  sidechainHeight : ℕ
  mainchainParentHash : MainchainHeaderHash
  deriving DecidableEq, Repr

instance : LinkedElement MainchainHeaderMetadata MainchainHeaderHash := ⟨MainchainHeaderMetadata.mainchainParentHash⟩

/-- chains of mainchain headers, or of reference data under the hashes of their headers -/
abbrev HeadersChain := ElementsChain MainchainHeaderHash MainchainHeaderMetadata

structure ActiveChain where
  sidechainCache : ElementsChain ModifierId SidechainBlockInfo
  mainchainHeadersCache : HeadersChain
  mainchainReferenceDataCache : HeadersChain
  mainchainCreationBlockHeight : ℕ

namespace ActiveChain

section Queries

variable (c : ActiveChain)

def mainchainCreationBlockHeightDifference : ℕ := c.mainchainCreationBlockHeight - 1

def height : ℕ := c.sidechainCache.height

def bestId : Option ModifierId := c.sidechainCache.bestId

def bestScBlockInfo : Option SidechainBlockInfo := c.sidechainCache.bestData

def heightById (id : ModifierId) : Option ℕ := c.sidechainCache.heightById id

def contains (id : ModifierId) : Bool := c.sidechainCache.contains id

def blockInfoById (id : ModifierId) : Option SidechainBlockInfo :=
  (c.sidechainCache.heightById id).bind c.sidechainCache.dataByHeight

def idByHeight (blockHeight : ℕ) : Option ModifierId := c.sidechainCache.idByHeight blockHeight

def mcHeadersHeightByMcHash (hash : MainchainHeaderHash) : Option ℕ :=
  (c.mainchainHeadersCache.heightById hash).map (· + c.mainchainCreationBlockHeightDifference)

def mcRefDataHeightByMcHash (hash : MainchainHeaderHash) : Option ℕ :=
  (c.mainchainReferenceDataCache.heightById hash).map (· + c.mainchainCreationBlockHeightDifference)

def mcHashByMcHeight (mcHeight : ℕ) : Option MainchainHeaderHash :=
  c.mainchainHeadersCache.idByHeight (mcHeight - c.mainchainCreationBlockHeightDifference)

def heightOfMcHeaders : ℕ := c.mainchainHeadersCache.height + c.mainchainCreationBlockHeightDifference

def heightOfMcReferencesData : ℕ := c.mainchainReferenceDataCache.height + c.mainchainCreationBlockHeightDifference

def mcHeaderMetadataByMcHash (hash : MainchainHeaderHash) : Option MainchainHeaderMetadata :=
  c.mainchainHeadersCache.dataById hash

def mcReferenceDataMetadataByMcHash (hash : MainchainHeaderHash) : Option MainchainHeaderMetadata :=
  c.mainchainReferenceDataCache.dataById hash

def bestMainchainHeaderHash : Option MainchainHeaderHash := c.mainchainHeadersCache.bestId

def heightByMcHeader (hash : MainchainHeaderHash) : Option ℕ :=
  (c.mainchainHeadersCache.dataById hash).map MainchainHeaderMetadata.sidechainHeight

def idByMcHeader (hash : MainchainHeaderHash) : Option ModifierId :=
  (c.heightByMcHeader hash).bind c.sidechainCache.idByHeight

def heightByMcReferenceData (hash : MainchainHeaderHash) : Option ℕ :=
  (c.mainchainReferenceDataCache.dataById hash).map MainchainHeaderMetadata.sidechainHeight

def idByMcReferenceData (hash : MainchainHeaderHash) : Option ModifierId :=
  (c.heightByMcReferenceData hash).bind c.sidechainCache.idByHeight

def getLastMainchainHeaderHashTillHeight (scHeight : ℕ) : Option MainchainHeaderHash :=
  (c.sidechainCache.getLastDataByPredicateTillHeight (fun info => info.mainchainHeaderHashes ≠ []) scHeight).bind
    fun info => info.mainchainHeaderHashes.getLast?

def getLastMainchainReferenceDataHeaderHashTillHeight (scHeight : ℕ) : Option MainchainHeaderHash :=
  (c.sidechainCache.getLastDataByPredicateTillHeight (fun info => info.mainchainReferenceDataHeaderHashes ≠ [])
    scHeight).bind fun info => info.mainchainReferenceDataHeaderHashes.getLast?

end Queries

/-- each hash with the one before it as its parent -/
def linkTo (sidechainHeight : ℕ) : MainchainHeaderHash → List MainchainHeaderHash →
    List (MainchainHeaderHash × MainchainHeaderMetadata)
  | _, [] => []
  | parent, headerHash :: rest => (headerHash, ⟨sidechainHeight, parent⟩) :: linkTo sidechainHeight headerHash rest

def buildMainchainHeadersInfo (sidechainHeight : ℕ) (mainchainHeaderHashes : List MainchainHeaderHash)
    (mainchainParentHashOpt : Option MainchainHeaderHash) :
    Except ChainException (List (MainchainHeaderHash × MainchainHeaderMetadata)) :=
  if mainchainHeaderHashes ≠ [] then
    match mainchainParentHashOpt with
    | some parent => .ok (linkTo sidechainHeight parent mainchainHeaderHashes)
    | none => .error .missingMainchainParent
  else .ok []

abbrev Chained := Fallible ChainException ActiveChain

def onSidechain (x : Fallible ChainException (ElementsChain ModifierId SidechainBlockInfo) Unit) : Chained Unit :=
  onPart ActiveChain.sidechainCache (fun cache c => { c with sidechainCache := cache }) x

def onHeaders (x : Fallible ChainException HeadersChain Unit) : Chained Unit :=
  onPart ActiveChain.mainchainHeadersCache (fun cache c => { c with mainchainHeadersCache := cache }) x

def onReferenceData (x : Fallible ChainException HeadersChain Unit) : Chained Unit :=
  onPart ActiveChain.mainchainReferenceDataCache (fun cache c => { c with mainchainReferenceDataCache := cache }) x

/-- entries appended one after the other -/
def appendAll (entries : List (MainchainHeaderHash × MainchainHeaderMetadata)) :
    Fallible ChainException HeadersChain Unit :=
  entries.foldlM (fun _ e => ElementsChain.appendData e.1 e.2) ()

def addToStorages (newTipId : ModifierId) (newTipInfo : SidechainBlockInfo)
    (mainchainHeaderParentHashOpt mainchainRefDataParentHeaderHash : Option MainchainHeaderHash) : Chained Unit := do
  onSidechain (ElementsChain.appendData newTipId newTipInfo)
  let c ← get
  let addedTipHeight ← getOrThrow (c.heightById newTipId) .addedTipHasNoHeight
  let preparedMainchainHeadersInfo ←
    orThrow (buildMainchainHeadersInfo addedTipHeight newTipInfo.mainchainHeaderHashes mainchainHeaderParentHashOpt)
  onHeaders (appendAll preparedMainchainHeadersInfo)
  let preparedMainchainRefDataHeadersInfo ←
    orThrow (buildMainchainHeadersInfo addedTipHeight newTipInfo.mainchainReferenceDataHeaderHashes
      mainchainRefDataParentHeaderHash)
  onReferenceData (appendAll preparedMainchainRefDataHeadersInfo)

def setGenesisBlock (genesisBlockId : ModifierId) (genesisBlockInfo : SidechainBlockInfo)
    (mainchainParentHashOpt : Option MainchainHeaderHash) : Chained Unit := do
  let c ← get
  throwIf (c.height ≠ 0) .nonEmptyActiveChain
  throwIf (genesisBlockInfo.mainchainHeaderHashes = []) .missingMainchainHeaders
  throwIf (genesisBlockInfo.mainchainReferenceDataHeaderHashes = []) .missingReferenceData
  throwIf (mainchainParentHashOpt = none) .missingMainchainParent
  addToStorages genesisBlockId genesisBlockInfo mainchainParentHashOpt mainchainParentHashOpt

/-- the header hashes from one mainchain height to another -/
def mcHashes (c : ActiveChain) (first last : ℕ) : List MainchainHeaderHash :=
  (List.range' first (last + 1 - first)).filterMap c.mcHashByMcHeight

def setNonGenesisBlock (newBestId : ModifierId) (newBestInfo : SidechainBlockInfo)
    (givenMainchainParentHashOpt : Option MainchainHeaderHash) : Chained Unit := do
  let c ← get
  let parentHeight ← getOrThrow (c.heightById newBestInfo.parentId) .unconnectedBlock
  let actualMainchainParent ← getOrThrow (c.getLastMainchainHeaderHashTillHeight parentHeight) .noMainchainHeaders
  throwIf ((newBestInfo.mainchainHeaderHashes = []) ≠ (givenMainchainParentHashOpt = none)) .mainchainParentInconsistent
  throwIf (∃ given ∈ givenMainchainParentHashOpt, given ≠ actualMainchainParent) .inconsistentMainchainHeaders
  let actualReferenceDataParent ←
    getOrThrow (c.getLastMainchainReferenceDataHeaderHashTillHeight parentHeight) .noReferenceData
  let mcDataHeight ← getOrThrow (c.mcRefDataHeightByMcHash actualReferenceDataParent) .noSuchElement
  let mcHeaderHeight ← getOrThrow (c.mcHeadersHeightByMcHash actualMainchainParent) .noSuchElement
  let missedRefDataHeaderHashes := c.mcHashes (mcDataHeight + 1) mcHeaderHeight ++ newBestInfo.mainchainHeaderHashes
  throwIf (missedRefDataHeaderHashes.take newBestInfo.mainchainReferenceDataHeaderHashes.length ≠
    newBestInfo.mainchainReferenceDataHeaderHashes) .inconsistentReferenceData
  onSidechain (ElementsChain.cutToId newBestInfo.parentId)
  onHeaders (ElementsChain.cutToId actualMainchainParent)
  onReferenceData (ElementsChain.cutToId actualReferenceDataParent)
  addToStorages newBestId newBestInfo (some actualMainchainParent) (some actualReferenceDataParent)

def setBestBlock (newBestId : ModifierId) (newBestData : SidechainBlockInfo)
    (mainchainParentHashOpt : Option MainchainHeaderHash) : Chained Unit := do
  let c ← get
  if c.height = 0 then setGenesisBlock newBestId newBestData mainchainParentHashOpt
  else setNonGenesisBlock newBestId newBestData mainchainParentHashOpt

def empty (mainchainCreationBlockHeight : ℕ) : ActiveChain := ⟨.empty, .empty, .empty, mainchainCreationBlockHeight⟩

/-- one block of a rebuild; the accumulator is the last header and the last reference data so far -/
def rebuildStep (parents : Option MainchainHeaderHash × Option MainchainHeaderHash)
    (block : ModifierId × SidechainBlockInfo) : Chained (Option MainchainHeaderHash × Option MainchainHeaderHash) := do
  addToStorages block.1 block.2 parents.1 parents.2
  pure (block.2.mainchainHeaderHashes.getLast?.or parents.1,
    block.2.mainchainReferenceDataHeaderHashes.getLast?.or parents.2)

/-- the active chain of a list of blocks; the two exceptions are those of an empty list and of a block that does not fit -/
def apply (blocksInfoData : Blocks) (mainchainParentHash : MainchainHeaderHash)
    (mainchainCreationBlockHeight : ℕ) : Except ChainException ActiveChain :=
  match blocksInfoData with
  | [] => .error .noSuchElement
  | first :: _ =>
    if first.2.mainchainHeaderHashes = [] then .error .missingMainchainHeaders
    else
      match exec (blocksInfoData.foldlM rebuildStep (some mainchainParentHash, some mainchainParentHash))
        (empty mainchainCreationBlockHeight) with
      | (.ok _, c) => .ok c
      | (.error e, _) => .error e

end ActiveChain

end SidechainsSdk.Chain
