/-
Validation of a block against the consensus data of the history (`ConsensusValidator`): its slot, its VRF proof, its stake,
and its ommers. Ommers are blocks that the chain left behind: the first one is on the parent of the block, each of the others
on the one before, and each may have ommers of its own. They are not looked up in the history. Their epoch data are those of
the block that contains them, or of the epoch before, or a nonce computed from the history with the VRF outputs of the
ommers in the epoch before.

- `validateNonGenesisBlock`, `verifyOmmers`: the code.
- `append`, `applyFullConsensusInfo`: how a history grows, and `Reachable` histories.
-/
import Mathlib.Tactic
import Mathlib.Data.Int.Log
import SidechainsSdk.Consensus.ConsensusDataProvider

namespace SidechainsSdk.Consensus

open Fallible MachineInt TimeToEpochUtils
open Chain (ModifierId)

/-! ## Stakes -/

/-- `RoundingMode.HALF_EVEN` -/
def roundHalfEven (x : ℚ) : ℤ :=
  let f := ⌊x⌋
  if x - f < 1 / 2 then f else if 1 / 2 < x - f then f + 1 else if f % 2 = 0 then f else f + 1

/-- `MathContext.DECIMAL128`: 34 digits -/
def decimal128 (x : ℚ) : ℚ :=
  if x = 0 then 0
  else
    let unit := (10 : ℚ) ^ (Int.log 10 x - 33)
    roundHalfEven (x / unit) * unit

def forgerStakePercentPrecision : ℕ := 1000000

def vrfOutputToPositiveBigInteger (vrfOutput : Bytes) : ℕ := vrfOutput.foldl (fun n b => n * 256 + b.toNat) 0

section Validator

variable (cfg : Config) (env : Externals)

def vrfOutputToRequiredStakePercentage (vrfOutput : Bytes) (stakePercentageFork : Bool) : ℚ :=
  let hashAsBigDecimal := vrfOutputToPositiveBigInteger vrfOutput
  if stakePercentageFork then
    max (decimal128 (hashAsBigDecimal / 2 ^ (env.FIELD_ELEMENT_LENGTH * 8))) (1 / forgerStakePercentPrecision)
  else decimal128 ((hashAsBigDecimal % forgerStakePercentPrecision : ℕ) / forgerStakePercentPrecision)

def vrfProofCheckAgainstStake (vrfOutput : Bytes) (actualStake totalStake : ℤ) (stakePercentageFork : Bool)
    (activeSlotCoefficient : ℚ) : Except String Bool := do
  let requiredStakePercentage := vrfOutputToRequiredStakePercentage env vrfOutput stakePercentageFork
  failIf (totalStake = 0) "Division by zero"
  let actualStakePercentage := decimal128 (actualStake / totalStake)
  if activeSlotCoefficient > 0 then return requiredStakePercentage ≤ env.oneMinusPow activeSlotCoefficient actualStakePercentage
  else return requiredStakePercentage ≤ actualStakePercentage

def verifyForgingStakeInfo (header : SidechainBlockHeader) (stakeConsensusEpochInfo : StakeConsensusEpochInfo) (vrfOutput : Bytes)
    (percentageForkApplied : Bool) (activeSlotCoefficient : ℚ) : Except String Unit := do
  failIf (stakeConsensusEpochInfo.rootHash ≠
      env.applyMerklePath header.forgingStakeMerklePath (env.stakeInfoHash header.forgingStakeInfo))
    s!"Forging stake merkle path in block {header.id} is inconsistent to stakes merkle root hash"
  let stakeIsEnough ← vrfProofCheckAgainstStake env vrfOutput header.forgingStakeInfo.stakeAmount
    stakeConsensusEpochInfo.totalStake percentageForkApplied activeSlotCoefficient
  failIf (stakeIsEnough = false) s!"Forging stake value in block {header.id} is not enough for to be forger."

/-! ## Ommers -/

/-- the variables of the loop over the ommers of one container -/
structure OmmersState where
  accumulator : List (Bytes × ℤ)
  previousOmmerEpochNumber : ℤ
  ommerCurrentFullConsensusEpochInfo : FullConsensusEpochInfo
  ommerPreviousFullConsensusEpochInfoOpt : Option FullConsensusEpochInfo

/-- the epoch data of the next ommer, and those of the epoch before; `calculateNonce` is
`history.calculateNonceForNonGenesisEpoch` from the best known parent -/
def nextEpochInfo (calculateNonce : List (Bytes × ℤ) → Except String Bytes) (containerId : ModifierId)
    (current : FullConsensusEpochInfo) (previousOpt : Option FullConsensusEpochInfo) (st : OmmersState) (ommerEpoch : ℤ) :
    Except String (FullConsensusEpochInfo × Option FullConsensusEpochInfo) :=
  if ommerEpoch < st.previousOmmerEpochNumber then
    match previousOpt with
    | some previous => .ok (previous, none)
    | none => .error s!"Block {containerId} contains ommer two epochs before."
  else if st.previousOmmerEpochNumber < ommerEpoch then do
    let nonce ← calculateNonce st.accumulator
    return (⟨current.stakeConsensusEpochInfo, nonce⟩, previousOpt)
  else .ok (st.ommerCurrentFullConsensusEpochInfo, st.ommerPreviousFullConsensusEpochInfoOpt)

/-- the VRF output of an ommer, whose stake is checked with the parameters of the epoch of its container -/
def verifyOmmer (header : SidechainBlockHeader) (info : FullConsensusEpochInfo) (ommersContainerEpochNumber : ℤ) :
    Except String Bytes := do
  let vrfOutputOpt ← getVrfOutput cfg env header info.nonceConsensusEpochInfo
  let ommerVrfOutput ← vrfOutputOpt.elim (.error s!"VRF check for Ommer {header.id} had been failed") .ok
  verifyForgingStakeInfo env header info.stakeConsensusEpochInfo ommerVrfOutput
    (cfg.stakePercentageForkApplied ommersContainerEpochNumber) (cfg.activeSlotCoefficient ommersContainerEpochNumber)
  return ommerVrfOutput

mutual

def verifyOmmers (calculateNonce : List (Bytes × ℤ) → Except String Bytes) :
    Ommer → FullConsensusEpochInfo → Option FullConsensusEpochInfo → List (Bytes × ℤ) → Except String Unit
  | .mk header ommers, current, previousOpt, accumulator =>
    if ommers.isEmpty then .ok ()
    else do
      let ommersContainerEpochNumber ← cfg.epochNumber header.timestamp
      verifyEach calculateNonce ommers ommersContainerEpochNumber header.id current previousOpt
        ⟨accumulator, ommersContainerEpochNumber, current, previousOpt⟩

/-- the loop of `verifyOmmers` -/
def verifyEach (calculateNonce : List (Bytes × ℤ) → Except String Bytes) :
    List Ommer → ℤ → ModifierId → FullConsensusEpochInfo → Option FullConsensusEpochInfo → OmmersState →
      Except String Unit
  | [], _, _, _, _, _ => .ok ()
  | ommer :: rest, ommersContainerEpochNumber, containerId, current, previousOpt, st => do
    let ommerEpochAndSlot ←
      timestampToEpochAndSlot cfg.params cfg.sidechainGenesisBlockTimestamp ommer.header.timestamp
    let (info, infoBefore) ← nextEpochInfo calculateNonce containerId current previousOpt st ommerEpochAndSlot.epochNumber
    let ommerVrfOutput ← verifyOmmer cfg env ommer.header info ommersContainerEpochNumber
    verifyOmmers calculateNonce ommer info infoBefore st.accumulator
    let accumulator :=
      if ommerEpochAndSlot.epochNumber < ommersContainerEpochNumber then
        (ommerVrfOutput, ommerEpochAndSlot.slotNumber) :: st.accumulator
      else st.accumulator
    verifyEach calculateNonce rest ommersContainerEpochNumber containerId current previousOpt
      ⟨accumulator, ommerEpochAndSlot.epochNumber, info, infoBefore⟩

end

/-! ## Blocks -/

def verifyTimestamp (verifiedBlockTimestamp parentBlockTimestamp : ℤ) : Except String Unit := do
  failIf (verifiedBlockTimestamp < parentBlockTimestamp) "Block had been generated before parent block had been generated"
  let absoluteSlotNumberForVerifiedBlock ←
    timeStampToAbsoluteSlotNumber cfg.params cfg.sidechainGenesisBlockTimestamp verifiedBlockTimestamp
  let absoluteSlotNumberForParentBlock ←
    timeStampToAbsoluteSlotNumber cfg.params cfg.sidechainGenesisBlockTimestamp parentBlockTimestamp
  failIf (absoluteSlotNumberForVerifiedBlock ≤ absoluteSlotNumberForParentBlock)
    "Block absolute slot number is equal or less than parent block"
  let epochNumberForVerifiedBlock ← cfg.epochNumber verifiedBlockTimestamp
  let epochNumberForParentBlock ← cfg.epochNumber parentBlockTimestamp
  failIf (1 < intOf (epochNumberForVerifiedBlock - epochNumberForParentBlock)) "Whole epoch had been skipped"

def verifyTimestampInFuture (verifiedBlockTimestamp now : ℤ) : Except String Unit := do
  let blockSlot ← timeStampToAbsoluteSlotNumber cfg.params cfg.sidechainGenesisBlockTimestamp verifiedBlockTimestamp
  let currentSlot ← timeStampToAbsoluteSlotNumber cfg.params cfg.sidechainGenesisBlockTimestamp now
  failIf (currentSlot < blockSlot) "Block had been generated in the future"

/-- the checks of a block on its own data -/
def verifyHeader (header : SidechainBlockHeader) (current : FullConsensusEpochInfo) : Except String Unit := do
  let vrfOutputOpt ← getVrfOutput cfg env header current.nonceConsensusEpochInfo
  let vrfOutput ← vrfOutputOpt.elim (.error s!"VRF check for block {header.id} had been failed") .ok
  failIf (header.vrfOutput.any (· ≠ vrfOutput)) s!"AccountBlockHeader {header.id}: vrfOutput value is invalid"
  let consensusEpoch ← cfg.epochNumber header.timestamp
  verifyForgingStakeInfo env header current.stakeConsensusEpochInfo vrfOutput (cfg.stakePercentageForkApplied consensusEpoch)
    (cfg.activeSlotCoefficient consensusEpoch)

def validateNonGenesisBlock (h : History) (now : ℤ) (verifiedBlock : SidechainBlock) : Except String Unit := do
  let parentBlockInfo ← blockInfoById h.entries verifiedBlock.header.parentId
  verifyTimestamp cfg verifiedBlock.header.timestamp parentBlockInfo.timestamp
  let current ← getFullConsensusEpochInfoForBlock cfg env h verifiedBlock.header.timestamp verifiedBlock.header.parentId
  verifyHeader cfg env verifiedBlock.header current
  let lastBlockInPreviousConsensusEpoch ←
    getLastBlockInPreviousConsensusEpoch cfg h verifiedBlock.header.timestamp verifiedBlock.header.parentId
  let lastInfo ← blockInfoById h.entries lastBlockInPreviousConsensusEpoch
  let previous ← getFullConsensusEpochInfoForBlock cfg env h lastInfo.timestamp lastInfo.parentId
  verifyOmmers cfg env (h.calculateNonce cfg env verifiedBlock.header.parentId parentBlockInfo) verifiedBlock.toOmmer current
    (some previous) []
  verifyTimestampInFuture cfg verifiedBlock.header.timestamp now

/-! ## Histories -/

def calculateBlockInfo (h : History) (block : SidechainBlock) : Except String SidechainBlockInfo := do
  let lastBlockInPreviousConsensusEpoch ←
    getLastBlockInPreviousConsensusEpoch cfg h block.header.timestamp block.header.parentId
  let nonce ← getOrCalculateNonceConsensusEpochInfo cfg env h block.header.timestamp block.header.parentId
  let vrfOutputOpt ← getVrfOutput cfg env block.header nonce
  return ⟨block.header.parentId, block.header.timestamp, vrfOutputOpt, lastBlockInPreviousConsensusEpoch⟩

/-- a block that is not in the history yet, on a block that is -/
def append (h : History) (now : ℤ) (block : SidechainBlock) : Except String History := do
  failIf (block.header.id ∈ h.entries.map Entry.id) "Block is already in history"
  validateNonGenesisBlock cfg env h now block
  let info ← calculateBlockInfo cfg env h block
  return { h with entries := ⟨block, info⟩ :: h.entries }

/-- what the node view holder stores when an epoch ends: the stake of the state, and the nonce -/
def applyFullConsensusInfo (h : History) (lastBlockInEpoch : ModifierId) (stake : StakeConsensusEpochInfo) :
    Except String History := do
  let nonce ← calculateNonceForEpoch cfg env h.nonces h.entries lastBlockInEpoch
  failIf ((h.stakes lastBlockInEpoch).any (· ≠ stake)) "StakeConsensusEpochInfo shall not be redefined for epoch"
  failIf ((h.nonces lastBlockInEpoch).any (· ≠ nonce)) "NonceConsensusEpochInfo shall not be redefined for epoch"
  return { h with
    stakes := fun id => if id = lastBlockInEpoch then some stake else h.stakes id
    nonces := fun id => if id = lastBlockInEpoch then some nonce else h.nonces id }

/-- the history of the genesis block -/
def createGenesisHistory (genesisBlock : SidechainBlock) (stake : StakeConsensusEpochInfo) : History where
  entries := [⟨genesisBlock, genesisBlock.header.parentId, genesisBlock.header.timestamp, none, genesisBlock.header.id⟩]
  stakes id := if id = genesisBlock.header.id then some stake else none
  nonces id := if id = genesisBlock.header.id then some (calculateNonceForGenesisBlock cfg) else none

/-- the genesis block of the parameters -/
structure IsGenesis (genesisBlock : SidechainBlock) : Prop where
  id : genesisBlock.header.id = cfg.sidechainGenesisBlockId
  parent : genesisBlock.header.parentId = cfg.sidechainGenesisBlockParentId
  timestamp : genesisBlock.header.timestamp = cfg.sidechainGenesisBlockTimestamp

/-- histories that grow from the genesis block, by blocks that were valid when they were appended -/
inductive Reachable : History → Prop
  | genesis {genesisBlock : SidechainBlock} (hgenesis : IsGenesis cfg genesisBlock) (stake : StakeConsensusEpochInfo) :
      Reachable (createGenesisHistory cfg genesisBlock stake)
  | append {h h' : History} (hreachable : Reachable h) (now : ℤ) (block : SidechainBlock)
      (hok : append cfg env h now block = .ok h') : Reachable h'
  | apply {h h' : History} (hreachable : Reachable h) (lastBlockInEpoch : ModifierId) (stake : StakeConsensusEpochInfo)
      (hok : applyFullConsensusInfo cfg env h lastBlockInEpoch stake = .ok h') : Reachable h'

end Validator

end SidechainsSdk.Consensus
