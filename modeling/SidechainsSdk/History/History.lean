/-
The history (`history/AbstractHistory.scala`). `append` stores a block and says what the state has to do: nothing, apply the
block, or switch to the fork that ends with it. The best block and the active chain change only with `reportModifierIsValid`,
after the state has taken the block.

The validators of blocks are a parameter. Loops along the parents have fuel.
-/
import Mathlib.Tactic
import SidechainsSdk.History.ReferenceValidator

namespace SidechainsSdk.History

open Fallible Chain

/-- `ProgressInfo` of sparkz -/
structure ProgressInfo where
  branchPoint : Option ModifierId
  toRemove : List SidechainBlock
  toApply : List SidechainBlock

/-- nothing to do -/
def ProgressInfo.none : ProgressInfo := ⟨.none, [], []⟩

abbrev Historic := Fallible HistoryException HistoryStorage

/-- a computation on the active chain -/
def onActiveChain (x : ActiveChain.Chained Unit) : Historic Unit := ExceptT.mk fun s =>
  match exec x s.activeChain with
  | (.ok u, c) => (.ok u, { s with activeChain := c })
  | (.error e, c) => (.error (.chain e), { s with activeChain := c })

/-! The storage. -/

def update (block : SidechainBlock) (blockInfo : SidechainBlockInfo) : Historic Unit :=
  modify fun s => { s with
    infos := Function.update s.infos block.id (some blockInfo)
    blocks := Function.update s.blocks block.id (some block) }

def updateSemanticValidity (block : SidechainBlock) (status : SemanticValidity) : Historic Unit := do
  let s ← get
  let oldInfo ← getOrThrow (s.blockInfoOptionById block.id) .noBlockInfo
  modify fun s => { s with infos := Function.update s.infos block.id (some { oldInfo with semanticValidity := status }) }

def setAsBestBlock (block : SidechainBlock) (blockInfo : SidechainBlockInfo) : Historic Unit := do
  modify fun s => { s with best := some block.id }
  onActiveChain (ActiveChain.setBestBlock block.id blockInfo block.mainchainParent)

/-! The history. -/

section Queries

variable (params : NetworkParams) (s : HistoryStorage)

def bestBlockId : ModifierId := s.toStoredHistory.bestBlockId params

def calculateChainScore (block : SidechainBlock) (parentScore : ℕ) : ℕ := parentScore + block.score

def isBestBlock (block : SidechainBlock) (parentBlockInfo : SidechainBlockInfo) : Option Bool := do
  let currentScore ← s.chainScoreFor (bestBlockId params s)
  let newScore := calculateChainScore block parentBlockInfo.score
  if newScore = currentScore then pure (s.height < parentBlockInfo.height + 1) else pure (currentScore < newScore)

/-- each header with the cumulative hash up to it -/
def getMainchainHeaderBaseInfoSeqFromBlock : ℕ → List MainchainHeader → List MainchainHeaderBaseInfo
  | _, [] => []
  | prevCumulativeHash, header :: rest =>
    let cumulativeHash := params.computeCumulativeHash prevCumulativeHash header.hashScTxsCommitment
    ⟨header.hash, cumulativeHash⟩ :: getMainchainHeaderBaseInfoSeqFromBlock cumulativeHash rest

def calculateBlockInfo (fuel : ℕ) (block : SidechainBlock) (parentBlockInfo : SidechainBlockInfo) :
    Option SidechainBlockInfo := do
  let blockMainchainHeaderBaseInfoSeq ←
    if block.mainchainHeaders = [] then pure []
    else do
      let prevBaseInfo ← s.getLastMainchainHeaderBaseInfoInclusion fuel block.parentId
      pure (getMainchainHeaderBaseInfoSeqFromBlock params prevBaseInfo.cumulativeCommTreeHash block.mainchainHeaders)
  pure ⟨parentBlockInfo.height + 1, calculateChainScore block parentBlockInfo.score, block.parentId, .Unknown,
    blockMainchainHeaderBaseInfoSeq, block.mainchainReferenceDataHeaderHashesFromBlock⟩

def calculateGenesisBlockInfo (block : SidechainBlock) : Option SidechainBlockInfo := do
  let header ← block.mainchainHeaders.head?
  pure ⟨1, block.score, block.parentId, .Unknown, [⟨header.hash, params.initialCumulativeCommTreeHash⟩],
    block.mainchainReferenceDataHeaderHashesFromBlock⟩

/-- back along the parents to a block with `stop`, collected in front of `acc`. The limit of the source is `Int.MaxValue` where
this is used. -/
def chainBack (stop : ModifierId → Bool) : ℕ → ModifierId → List ModifierId → Option (List ModifierId)
  | 0, _, _ => none
  | fuel + 1, id, acc =>
    if stop id then some (id :: acc)
    else
      match s.parentBlockId id with
      | some parentId => chainBack stop fuel parentId (id :: acc)
      | none => none

/-- the last common block and the blocks after it, on the fork and on the active chain; the last check is the `ensuring` clause -/
def commonBlockSuffixes (fuel : ℕ) (forkBlock : SidechainBlock) :
    Except HistoryException (List ModifierId × List ModifierId) :=
  match chainBack s s.isInActiveChain fuel forkBlock.id [] with
  | none => .ok ([], [])
  | some newBestChain => do
    let head ← newBestChain.head?.elim (.error .noSuchElement) .ok
    let commonBlockInfo ← (s.blockInfoOptionById head).elim (.error .noBlockInfo) .ok
    if params.maxHistoryRewritingLength < s.height - commonBlockInfo.height then .ok ([], [])
    else
      match s.activeChainSince head with
      | .error e => .error (.chain e)
      | .ok activeSuffix =>
        if newBestChain.head? = activeSuffix.head? then .ok (newBestChain, activeSuffix) else .error .suffixesDiffer

/-- the stored blocks of a list of ids -/
def storedBlocks (ids : List ModifierId) : Except HistoryException (List SidechainBlock) :=
  ids.mapM fun id => (s.blocks id).elim (.error .noSuchElement) .ok

/-- what is to be done for the two suffixes, each with the common block first -/
def forkProgress (block : SidechainBlock) (newChainSuffix currentChainSuffix : List ModifierId) :
    Except HistoryException ProgressInfo :=
  if newChainSuffix = [] ∧ currentChainSuffix = [] then .error .forkTooLong
  else if params.resetModifiersStatus = true ∨ ∀ id ∈ newChainSuffix.tail, s.semanticValidity id ≠ some .Invalid then do
    let toRemove ← storedBlocks s currentChainSuffix.tail
    let toApply ← storedBlocks s newChainSuffix.tail
    .ok ⟨newChainSuffix.head?, toRemove, toApply ++ [block]⟩
  else .ok .none

def bestForkChanges (fuel : ℕ) (block : SidechainBlock) : Except HistoryException ProgressInfo := do
  let forkBlock ← (s.blocks block.parentId).elim (.error .noSuchElement) .ok
  let suffixes ← commonBlockSuffixes params s fuel forkBlock
  forkProgress params s block suffixes.1 suffixes.2

end Queries

/-- the progress info for a block that is not the genesis block -/
def appendProgress (params : NetworkParams) (s : HistoryStorage) (fuel : ℕ) (block : SidechainBlock)
    (parentBlockInfo : SidechainBlockInfo) : Except HistoryException ProgressInfo :=
  if block.parentId = bestBlockId params s then .ok ⟨none, [], [block]⟩
  else
    match isBestBlock params s block parentBlockInfo with
    | none => .error .noSuchElement
    | some true =>
      match bestForkChanges params s fuel block with
      | .ok progInfo => .ok progInfo
      | .error _ => .ok .none
    | some false => .ok .none

def append (params : NetworkParams) (validators : HistoryStorage → SidechainBlock → Bool) (fuel : ℕ)
    (block : SidechainBlock) :
    Historic ProgressInfo := do
  let s ← get
  let parentBlockInfoOption := s.blockInfoOptionById block.parentId
  throwIf (block.id ≠ params.sidechainGenesisBlockId ∧ parentBlockInfoOption = none) .parentMissed
  throwIf (validators s block = false) .rejected
  if block.id = params.sidechainGenesisBlockId then do
    let info ← getOrThrow (calculateGenesisBlockInfo params block) .noSuchElement
    update block info
    pure ⟨none, [], [block]⟩
  else do
    let parentBlockInfo ← getOrThrow parentBlockInfoOption .parentMissed
    let blockInfo ← getOrThrow (calculateBlockInfo params s fuel block parentBlockInfo) .noBlockInfo
    let progressInfo ← orThrow (appendProgress params s fuel block parentBlockInfo)
    update block blockInfo
    pure progressInfo

def reportModifierIsValid (block : SidechainBlock) : Historic Unit := do
  updateSemanticValidity block .Valid
  let s ← get
  let info ← getOrThrow (s.blockInfoOptionById block.id) .noBlockInfo
  setAsBestBlock block info

/-- the way back: remove what was applied of the fork, apply what was removed for it -/
def alternativeProgressInfo (block : SidechainBlock) (progressInfo : ProgressInfo) : ProgressInfo :=
  ⟨progressInfo.branchPoint, progressInfo.toApply.takeWhile fun b => b.id ≠ block.id, progressInfo.toRemove⟩

/-- the history stays as it is when the validity cannot be stored -/
def reportModifierIsInvalid (block : SidechainBlock) (progressInfo : ProgressInfo) : Historic ProgressInfo := do
  attempt (updateSemanticValidity block .Invalid)
  pure (alternativeProgressInfo block progressInfo)

end SidechainsSdk.History
