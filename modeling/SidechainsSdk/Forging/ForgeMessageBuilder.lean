/-
How a block is forged (`AbstractForgeMessageBuilder.forgeBlock`): mainchain headers and reference data are collected as far as
they fit, the rule on blocks without mainchain headers is asked, transactions are taken unless the block ends a withdrawal
epoch, and the block is made.

Generic over the kind of sidechain: its blocks, transactions and ommers are types, its abstract methods and the services
around it the fields of `Builder`. Of the time limit only matters after how many references it strikes.

- `forgeBlock_success`: what is known of a block that has been forged.
-/
import Mathlib.Tactic
import SidechainsSdk.Core.Fallible
import SidechainsSdk.Withdrawals.Epochs

namespace SidechainsSdk.Forging

open Fallible
open Withdrawals (WithdrawalEpochInfo)

abbrev ModifierId := ℕ
abbrev MainchainHeaderHash := ℕ

/-- what is read of a `SidechainBlockInfo` -/
structure BlockInfo where
  parentId : ModifierId
  mainchainHeaderHashes : List MainchainHeaderHash
  withdrawalEpochInfo : WithdrawalEpochInfo
deriving DecidableEq, Repr

/-- what is read of a history with blocks `Block` -/
structure HistoryView (Block : Type) where
  bestBlockId : ModifierId
  infos : ModifierId → Option BlockInfo
  blocks : ModifierId → Option Block

namespace HistoryView

variable {Block : Type} (history : HistoryView Block)

def blockInfoById (blockId : ModifierId) : Except String BlockInfo :=
  (history.infos blockId).elim (.error s!"No block info for block {blockId}") .ok

def getBlockById (blockId : ModifierId) : Except String Block :=
  (history.blocks blockId).elim (.error "None.get") .ok

end HistoryView

structure BranchPointInfo where
  branchPointId : ModifierId
  referenceDataToInclude : List MainchainHeaderHash
  headersToInclude : List MainchainHeaderHash
deriving DecidableEq, Repr

inductive ForgeResult (Block : Type) where
  | forgeSuccess (block : Block)
  | forgeFailed (ex : String)
  | skipSlot (msg : String)
deriving DecidableEq, Repr

/-- what has been collected before the block is made -/
structure Collected (Header Data Ommer : Type) where
  parentBlockInfo : BlockInfo
  mainchainHeaders : List Header
  ommers : List Ommer
  mainchainReferenceData : List Data
  blockSize : ℕ

/-- the arguments of `createNewBlock` that differ from block to block -/
structure NewBlock (Header Data Ommer TX : Type) where
  branchPointInfo : BranchPointInfo
  isWithdrawalEpochLastBlock : Bool
  parentId : ModifierId
  timestamp : ℤ
  mainchainBlockReferencesData : List Data
  sidechainTransactions : List TX
  mainchainHeaders : List Header
  ommers : List Ommer
  inputBlockSize : ℕ

/-- the methods of a kind of sidechain, the mainchain node and the sizes of serialized parts -/
structure Builder (Header Data Ommer TX Block : Type) where
  withdrawalEpochLength : ℕ
  getMaxBlockOverheadSize : ℕ
  precalculateBlockHeaderSize : ModifierId → ℤ → ℕ
  headersSize : List Header → ℕ
  getOmmersSize : List Ommer → ℕ
  dataSize : Data → ℕ
  getMainchainBlockHeaders : List MainchainHeaderHash → Except String (List Header)
  getMainchainBlockReference : MainchainHeaderHash → Except String Data
  /-- the time is over after so many references -/
  isTimeout : ℕ → Bool
  parentId : Block → ModifierId
  toOmmer : Block → Ommer
  timeStampToEpochNumber : ℤ → Except String ℕ
  tooManyBlocksWithoutMcHeaders : HistoryView Block → ModifierId → Bool → ℕ → Except String Bool
  collectTransactionsFromMemPool : ℕ → List Data → WithdrawalEpochInfo → ℤ → List TX
  createNewBlock : HistoryView Block → NewBlock Header Data Ommer TX → Except String Block

section Forge

variable {Header Data Ommer TX Block : Type} (b : Builder Header Data Ommer TX Block) (history : HistoryView Block)

/-- from the best block down to the parent, collected in front of each other. The loop of the source has no bound. -/
def collectOmmers (parentBlockId : ModifierId) : ℕ → ModifierId → List Ommer → Except String (List Ommer)
  | fuel, blockId, ommers =>
    if blockId = parentBlockId then .ok ommers
    else
      match fuel with
      | 0 => .error "endless"
      | fuel + 1 => do
        let block ← history.getBlockById blockId
        collectOmmers parentBlockId fuel (b.parentId block) (b.toOmmer block :: ommers)

/-- the reference data that fit, with the size of the block -/
def collectReferenceData : ℕ → List Data → List MainchainHeaderHash → Except String (ℕ × List Data)
  | blockSize, collected, [] => .ok (blockSize, collected)
  | blockSize, collected, hash :: hashes => do
    let data ← b.getMainchainBlockReference hash
    -- a placeholder for the length
    let refDataSize := b.dataSize data + 4
    if b.getMaxBlockOverheadSize < blockSize + refDataSize then return (blockSize, collected)
    else if b.isTimeout (collected.length + 1) then return (blockSize + refDataSize, collected ++ [data])
    else collectReferenceData (blockSize + refDataSize) (collected ++ [data]) hashes

def collect (fuel : ℕ) (timestamp : ℤ) (branchPointInfo : BranchPointInfo) : Except String (Collected Header Data Ommer) := do
  let parentBlockInfo ← history.blockInfoById branchPointInfo.branchPointId
  let mainchainHeaders ← b.getMainchainBlockHeaders branchPointInfo.headersToInclude
  let ommers ← collectOmmers b history branchPointInfo.branchPointId fuel history.bestBlockId []
  let blockSize := b.precalculateBlockHeaderSize branchPointInfo.branchPointId timestamp + 4 + 4 +
    b.headersSize mainchainHeaders + b.getOmmersSize ommers
  let (blockSize, mainchainReferenceData) ← collectReferenceData b blockSize [] branchPointInfo.referenceDataToInclude
  return ⟨parentBlockInfo, mainchainHeaders, ommers, mainchainReferenceData, blockSize⟩

/-- how many references the epoch has room for: if the parent is its last block, those of the next one -/
def withdrawalEpochMcBlocksLeft (parent : WithdrawalEpochInfo) : ℕ :=
  if b.withdrawalEpochLength - parent.lastEpochIndex = 0 then b.withdrawalEpochLength
  else b.withdrawalEpochLength - parent.lastEpochIndex

/-- the arguments for a new block with what has been collected -/
def newBlock (timestamp : ℤ) (branchPointInfo : BranchPointInfo) (c : Collected Header Data Ommer) :
    NewBlock Header Data Ommer TX where
  branchPointInfo := branchPointInfo
  isWithdrawalEpochLastBlock :=
    c.mainchainReferenceData.length = withdrawalEpochMcBlocksLeft b c.parentBlockInfo.withdrawalEpochInfo
  parentId := branchPointInfo.branchPointId
  timestamp := timestamp
  mainchainBlockReferencesData := c.mainchainReferenceData
  sidechainTransactions :=
    if c.mainchainReferenceData.length = withdrawalEpochMcBlocksLeft b c.parentBlockInfo.withdrawalEpochInfo then []
    -- transactions of the mempool may not be valid on a block in the past
    else if branchPointInfo.branchPointId ≠ history.bestBlockId then []
    else b.collectTransactionsFromMemPool c.blockSize c.mainchainReferenceData c.parentBlockInfo.withdrawalEpochInfo timestamp
  mainchainHeaders := c.mainchainHeaders
  ommers := c.ommers
  inputBlockSize := c.blockSize

/-- the rule as the forger asks it: of the headers that the block will carry -/
def forgerTooManyBlocks (timestamp : ℤ) (branchPointInfo : BranchPointInfo) (c : Collected Header Data Ommer) :
    Except String Bool := do
  let consensusEpochNumber ← b.timeStampToEpochNumber timestamp
  b.tooManyBlocksWithoutMcHeaders history branchPointInfo.branchPointId c.mainchainHeaders.isEmpty consensusEpochNumber

/-- exceptions are turned into `ForgeFailed` by the caller, `tryToForgeNextBlock` -/
def forgeBlock (fuel : ℕ) (timestamp : ℤ) (branchPointInfo : BranchPointInfo) : ForgeResult Block :=
  match collect b history fuel timestamp branchPointInfo with
  | .error ex => .forgeFailed ex
  | .ok c =>
    match forgerTooManyBlocks b history timestamp branchPointInfo c with
    | .error ex => .forgeFailed ex
    | .ok true => .skipSlot "We can not forge until we have at least a mc block reference included, skipping this slot..."
    | .ok false =>
      match b.createNewBlock history (newBlock b history timestamp branchPointInfo c) with
      | .error ex => .forgeFailed ex
      | .ok block => .forgeSuccess block

variable {b history}

theorem forgeBlock_success {fuel : ℕ} {timestamp : ℤ} {branchPointInfo : BranchPointInfo} {block : Block}
    (h : forgeBlock b history fuel timestamp branchPointInfo = .forgeSuccess block) :
    ∃ c, collect b history fuel timestamp branchPointInfo = .ok c ∧
      forgerTooManyBlocks b history timestamp branchPointInfo c = .ok false ∧
      b.createNewBlock history (newBlock b history timestamp branchPointInfo c) = .ok block := by
  unfold forgeBlock at h
  split at h
  · cases h
  · rename_i c hc
    split at h
    · cases h
    · cases h
    · rename_i hrule
      split at h
      · cases h
      · rename_i block' hblock
        cases h
        exact ⟨c, hc, hrule, hblock⟩

theorem collect_parent {fuel : ℕ} {timestamp : ℤ} {branchPointInfo : BranchPointInfo} {c : Collected Header Data Ommer}
    (h : collect b history fuel timestamp branchPointInfo = .ok c) :
    history.infos branchPointInfo.branchPointId = some c.parentBlockInfo := by
  obtain ⟨info, hinfo, h⟩ := bind_ok h
  obtain ⟨headers, -, h⟩ := bind_ok h
  obtain ⟨ommers, -, h⟩ := bind_ok h
  obtain ⟨data, -, h⟩ := bind_ok h
  cases h
  unfold HistoryView.blockInfoById at hinfo
  cases hget : history.infos branchPointInfo.branchPointId with
  | none =>
    rw [hget] at hinfo
    cases hinfo
  | some found =>
    rw [hget] at hinfo
    cases hinfo
    rfl

end Forge

end SidechainsSdk.Forging
