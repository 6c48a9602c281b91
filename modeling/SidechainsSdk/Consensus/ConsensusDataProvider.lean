/-
Consensus data of a history (`ConsensusDataProvider`, `ConsensusDataStorage`): for each block, the stake and the nonce of its
consensus epoch. An epoch is named by its last block. Its nonce is a hash of the VRF outputs of the blocks in its middle
slots, walked from the last one back, and of the nonce of the epoch before.

The blocks of a history are listed newest first. A block is appended after its parent, so the walks of the source from
parent to parent go down the list. Of a block's info only what the consensus reads is kept. The cache of VRF outputs is left
out: it holds what would be computed.

- `trueNonce`: the nonce of an epoch, computed without the storage.
- `calculateNonceForEpoch_eq`, `nonceOfEpoch_eq`: where the stored nonces are right, the code finds this nonce.
- `digestFrom_cons`, `trueNonce_cons`: later blocks do not change it.
-/
import Mathlib.Tactic
import SidechainsSdk.Core.Codec
import SidechainsSdk.Chain.ActiveChain
import SidechainsSdk.Consensus.TimeToEpochUtils

namespace SidechainsSdk.Consensus

open Fallible MachineInt TimeToEpochUtils
open Chain (ModifierId)

/-! ## Blocks -/

structure ForgingStakeInfo where
  blockSignPublicKey : Bytes
  vrfPublicKey : Bytes
  stakeAmount : ℤ

structure SidechainBlockHeader where
  id : ModifierId
  parentId : ModifierId
  timestamp : ℤ
  forgingStakeInfo : ForgingStakeInfo
  forgingStakeMerklePath : Bytes
  vrfProof : Bytes
  /-- a field of the headers of account blocks only -/
  vrfOutput : Option Bytes

inductive Ommer where
  | mk (header : SidechainBlockHeader) (ommers : List Ommer)

namespace Ommer

def header : Ommer → SidechainBlockHeader
  | mk header _ => header

def ommers : Ommer → List Ommer
  | mk _ ommers => ommers

end Ommer

structure SidechainBlock where
  header : SidechainBlockHeader
  ommers : List Ommer

def SidechainBlock.toOmmer (block : SidechainBlock) : Ommer := .mk block.header block.ommers

structure SidechainBlockInfo where
  parentId : ModifierId
  timestamp : ℤ
  vrfOutputOpt : Option Bytes
  lastBlockInPreviousConsensusEpoch : ModifierId
deriving DecidableEq

/-- a block in the history -/
structure Entry where
  block : SidechainBlock
  info : SidechainBlockInfo

def Entry.id (e : Entry) : ModifierId := e.block.header.id

structure StakeConsensusEpochInfo where
  rootHash : Bytes
  totalStake : ℤ
deriving DecidableEq

structure FullConsensusEpochInfo where
  stakeConsensusEpochInfo : StakeConsensusEpochInfo
  nonceConsensusEpochInfo : Bytes
deriving DecidableEq

structure History where
  /-- newest first -/
  entries : List Entry
  stakes : ModifierId → Option StakeConsensusEpochInfo
  nonces : ModifierId → Option Bytes

/-! ## Parameters -/

structure Config where
  params : ConsensusParams
  sidechainGenesisBlockTimestamp : ℤ
  sidechainGenesisBlockId : ModifierId
  sidechainGenesisBlockParentId : ModifierId
  /-- `SidechainFork1` -/
  forkActivation : ℤ
  /-- `ActiveSlotCoefficientFork`, with the epochs of activation -/
  activeSlotCoefficientForks : List (ℤ × ℚ)

/-- the cryptographic library, and `1 - Math.pow(1 - c, x)` on doubles -/
structure Externals where
  proofToVrfOutput (proof publicKey message : Bytes) : Option Bytes
  poseidonHash : List Bytes → Bytes
  sha256 : Bytes → Bytes
  stakeInfoHash : ForgingStakeInfo → Bytes
  applyMerklePath (path leaf : Bytes) : Bytes
  oneMinusPow (activeSlotCoefficient x : ℚ) : ℚ
  FIELD_ELEMENT_LENGTH : ℕ

/-- big-endian bytes, as of `Ints.toByteArray` and `Longs.toByteArray` -/
def toByteArray (width : ℕ) (x : ℤ) : Bytes :=
  (List.range width).reverse.map fun i => UInt8.ofNat (x / 256 ^ i % 256).toNat

section Provider

variable (cfg : Config) (env : Externals)

def Config.epochNumber (timestamp : ℤ) : Except String ℤ :=
  timeStampToEpochNumber cfg.params cfg.sidechainGenesisBlockTimestamp timestamp

def Config.slotNumber (timestamp : ℤ) : Except String ℤ :=
  timeStampToSlotNumber cfg.params cfg.sidechainGenesisBlockTimestamp timestamp

def Config.stakePercentageForkApplied (consensusEpoch : ℤ) : Bool := cfg.forkActivation ≤ consensusEpoch

def nonceLength (consensusEpoch : ℤ) : ℕ := if cfg.forkActivation ≤ consensusEpoch then env.FIELD_ELEMENT_LENGTH else 8

def Config.activeSlotCoefficient (consensusEpoch : ℤ) : ℚ :=
  ((findActiveFork Prod.fst consensusEpoch none cfg.activeSlotCoefficientForks).map Prod.snd).getD (-1)

/-- the bytes of `"TEST"` -/
def consensusHardcodedSaltString : Bytes := [84, 69, 83, 84]

def consensusPreForkLength : ℕ := 4 + 8 + consensusHardcodedSaltString.length

def buildVrfMessage (slotNumber : ℤ) (nonce : Bytes) : Bytes :=
  let slotNumberBytes := toByteArray 4 slotNumber
  let resBytes := slotNumberBytes ++ nonce ++ consensusHardcodedSaltString
  if consensusPreForkLength < resBytes.length then
    env.poseidonHash [slotNumberBytes, nonce.take (nonce.length / 2), nonce.drop (nonce.length / 2), consensusHardcodedSaltString]
  else resBytes

/-- `getVrfOutput` -/
def getVrfOutput (header : SidechainBlockHeader) (nonce : Bytes) : Except String (Option Bytes) := do
  let slotNumber ← cfg.slotNumber header.timestamp
  return env.proofToVrfOutput header.vrfProof header.forgingStakeInfo.vrfPublicKey (buildVrfMessage env slotNumber nonce)

def calculateNonceForGenesisBlock : Bytes := toByteArray 8 cfg.sidechainGenesisBlockTimestamp

def blockInfoById (entries : List Entry) (id : ModifierId) : Except String SidechainBlockInfo :=
  match entries.find? fun e => e.id = id with
  | some e => .ok e.info
  | none => .error s!"No block info for {id}"

/-! ## Nonces -/

/-- the VRF outputs in the middle slots, of those passed in -/
def digestOf (eligibleSlotsRangeStart eligibleSlotsRangeEnd : ℤ) (initialNonceData : List (Bytes × ℤ)) : Bytes :=
  (initialNonceData.filter fun d => eligibleSlotsRangeStart ≤ d.2 ∧ d.2 ≤ eligibleSlotsRangeEnd).flatMap Prod.fst

/-- the loop of `createNonceMessageDigest`, from the block `next` back -/
def digestFrom (lastBlockInPreviousConsensusEpoch : ModifierId) (eligibleSlotsRangeStart eligibleSlotsRangeEnd : ℤ) :
    List Entry → ModifierId → Except String Bytes
  | [], next => .error s!"No block info for {next}"
  | e :: rest, next =>
    if e.id ≠ next then
      digestFrom lastBlockInPreviousConsensusEpoch eligibleSlotsRangeStart eligibleSlotsRangeEnd rest next
    else do
      let nextBlockSlot ← cfg.slotNumber e.info.timestamp
      if next ≠ lastBlockInPreviousConsensusEpoch ∧ eligibleSlotsRangeStart ≤ nextBlockSlot then
        let output ←
          if nextBlockSlot ≤ eligibleSlotsRangeEnd then
            match e.info.vrfOutputOpt with
            | some vrfOutput => .ok vrfOutput
            | none => .error "Try to calculate nonce by using block with incorrect Vrf proof"
          else .ok []
        let others ←
          digestFrom lastBlockInPreviousConsensusEpoch eligibleSlotsRangeStart eligibleSlotsRangeEnd rest e.info.parentId
        return output ++ others
      else return []

/-- `calculateNonceForNonGenesisEpoch`, with the way to the nonce of the epoch before -/
def calculateNonceForNonGenesisEpoch (entries : List Entry) (previousNonceOf : ModifierId → Except String Bytes)
    (lastBlockIdInEpoch : ModifierId) (lastBlockInfoInEpoch : SidechainBlockInfo) (initialNonceData : List (Bytes × ℤ)) :
    Except String Bytes := do
  let currentEpoch ← cfg.epochNumber lastBlockInfoInEpoch.timestamp
  let consensusSlotsPerEpoch := (cfg.params.get currentEpoch).consensusSlotsInEpoch
  let quietSlotsNumber := consensusSlotsPerEpoch.tdiv 3
  let eligibleSlotsRangeStart := quietSlotsNumber + 1
  let eligibleSlotsRangeEnd := consensusSlotsPerEpoch - quietSlotsNumber - 1
  failIf (lastBlockIdInEpoch = cfg.sidechainGenesisBlockId) "requirement failed"
  let walked ← digestFrom cfg lastBlockInfoInEpoch.lastBlockInPreviousConsensusEpoch eligibleSlotsRangeStart
    eligibleSlotsRangeEnd entries lastBlockIdInEpoch
  let previousNonce ← previousNonceOf lastBlockInfoInEpoch.lastBlockInPreviousConsensusEpoch
  let digest := digestOf eligibleSlotsRangeStart eligibleSlotsRangeEnd initialNonceData ++ walked ++ previousNonce ++
    toByteArray 4 currentEpoch
  return (env.sha256 digest).take (nonceLength cfg env currentEpoch)

/-- `getNonceConsensusEpochInfo(..).getOrElse(..)` -/
def storedOr (nonces : ModifierId → Option Bytes) (calculate : ModifierId → Except String Bytes) (id : ModifierId) :
    Except String Bytes :=
  match nonces id with
  | some nonce => .ok nonce
  | none => calculate id

/-- the nonce of the epoch that a block ends -/
def calculateNonceForEpoch (nonces : ModifierId → Option Bytes) : List Entry → ModifierId → Except String Bytes
  | [], id => .error s!"No block info for {id}"
  | e :: rest, id =>
    if e.id ≠ id then calculateNonceForEpoch nonces rest id
    else if id = cfg.sidechainGenesisBlockId then .ok (calculateNonceForGenesisBlock cfg)
    else calculateNonceForNonGenesisEpoch cfg env (e :: rest) (storedOr nonces (calculateNonceForEpoch nonces rest)) id e.info []

/-! ## Epochs of a block -/

/-- `isGenesisBlock`, of the timestamp and the parent of a block -/
def Config.isGenesisBlock (blockTimestamp : ℤ) (parentBlockId : ModifierId) : Prop :=
  blockTimestamp = cfg.sidechainGenesisBlockTimestamp ∧ parentBlockId = cfg.sidechainGenesisBlockParentId

instance (blockTimestamp : ℤ) (parentBlockId : ModifierId) : Decidable (cfg.isGenesisBlock blockTimestamp parentBlockId) :=
  inferInstanceAs (Decidable (_ ∧ _))

variable (h : History)

def getLastBlockInPreviousConsensusEpoch (blockTimestamp : ℤ) (parentId : ModifierId) : Except String ModifierId := do
  let parentBlockInfo ← blockInfoById h.entries parentId
  let parentBlockEpochNumber ← cfg.epochNumber parentBlockInfo.timestamp
  let currentBlockEpochNumber ← cfg.epochNumber blockTimestamp
  if parentBlockEpochNumber < currentBlockEpochNumber then return parentId
  else if parentBlockEpochNumber = currentBlockEpochNumber then return parentBlockInfo.lastBlockInPreviousConsensusEpoch
  else .error "Parent of block shall not be generated before block"

def getLastBlockIdOfPrePreviousEpochs (blockTimestamp : ℤ) (parentBlockId : ModifierId) : Except String ModifierId := do
  if cfg.isGenesisBlock blockTimestamp parentBlockId then return cfg.sidechainGenesisBlockId
  else
    let lastBlockInPreviousEpoch ← getLastBlockInPreviousConsensusEpoch cfg h blockTimestamp parentBlockId
    let info ← blockInfoById h.entries lastBlockInPreviousEpoch
    return info.lastBlockInPreviousConsensusEpoch

def getOrCalculateNonceConsensusEpochInfo (blockTimestamp : ℤ) (parentBlockId : ModifierId) : Except String Bytes := do
  if cfg.isGenesisBlock blockTimestamp parentBlockId then
    return (h.nonces cfg.sidechainGenesisBlockId).getD (calculateNonceForGenesisBlock cfg)
  else
    let lastBlockInPreviousEpoch ← getLastBlockInPreviousConsensusEpoch cfg h blockTimestamp parentBlockId
    storedOr h.nonces (calculateNonceForEpoch cfg env h.nonces h.entries) lastBlockInPreviousEpoch

def getFullConsensusEpochInfoForBlock (blockTimestamp : ℤ) (parentBlockId : ModifierId) :
    Except String FullConsensusEpochInfo := do
  let epochId ← getLastBlockIdOfPrePreviousEpochs cfg h blockTimestamp parentBlockId
  let stakeConsensusEpochInfo ← match h.stakes epochId with
    | some stake => .ok stake
    | none => .error s!"Stake was not defined for block {parentBlockId}"
  let nonceConsensusEpochInfo ← getOrCalculateNonceConsensusEpochInfo cfg env h blockTimestamp parentBlockId
  return ⟨stakeConsensusEpochInfo, nonceConsensusEpochInfo⟩

/-- `history.calculateNonceForNonGenesisEpoch` -/
def History.calculateNonce (lastBlockIdInEpoch : ModifierId) (lastBlockInfoInEpoch : SidechainBlockInfo)
    (initialNonceData : List (Bytes × ℤ)) : Except String Bytes :=
  calculateNonceForNonGenesisEpoch cfg env h.entries (storedOr h.nonces (calculateNonceForEpoch cfg env h.nonces h.entries))
    lastBlockIdInEpoch lastBlockInfoInEpoch initialNonceData

end Provider

/-! ## Chains of blocks -/

section Chains

variable (cfg : Config)

/-- timestamps that the time functions treat as they should: their epoch fits an `Int`, and the epochs up to it are longer
than one slot of the first fork -/
structure Config.Timely (t : ℤ) : Prop where
  after_genesis : cfg.sidechainGenesisBlockTimestamp ≤ t
  long : LongEpochs cfg.params cfg.sidechainGenesisBlockTimestamp t
  fits : epochAt cfg.params cfg.sidechainGenesisBlockTimestamp t < 2 ^ 31

def Config.epoch (t : ℤ) : ℤ := epochAt cfg.params cfg.sidechainGenesisBlockTimestamp t

def Config.slot (t : ℤ) : ℤ := slotAt cfg.params cfg.sidechainGenesisBlockTimestamp t

/-- a block of the history on its parent -/
structure Extends (q e : Entry) : Prop where
  parent : e.info.parentId = q.id
  later : q.info.timestamp ≤ e.info.timestamp
  after_genesis : cfg.sidechainGenesisBlockTimestamp < e.info.timestamp
  epoch_le : cfg.epoch q.info.timestamp ≤ cfg.epoch e.info.timestamp
  epoch_skipped : cfg.epoch e.info.timestamp ≤ cfg.epoch q.info.timestamp + 1
  /-- the genesis block is alone in its epoch -/
  not_genesis : cfg.epoch q.info.timestamp = cfg.epoch e.info.timestamp → q.id ≠ cfg.sidechainGenesisBlockId
  last : e.info.lastBlockInPreviousConsensusEpoch =
    if cfg.epoch q.info.timestamp < cfg.epoch e.info.timestamp then q.id else q.info.lastBlockInPreviousConsensusEpoch

/-- every block is listed once, after its parent, back to the genesis block -/
inductive Chained : List Entry → Prop
  | genesis {e : Entry} (hid : e.id = cfg.sidechainGenesisBlockId) (htime : e.info.timestamp = cfg.sidechainGenesisBlockTimestamp)
      (hparent : e.info.parentId = cfg.sidechainGenesisBlockParentId)
      (hlast : e.info.lastBlockInPreviousConsensusEpoch = cfg.sidechainGenesisBlockId) : Chained [e]
  | append {e q : Entry} {rest : List Entry} (hrest : Chained rest) (hnew : e.id ∉ rest.map Entry.id) (hq : q ∈ rest)
      (hextends : Extends cfg q e) : Chained (e :: rest)

variable {cfg} {entries rest : List Entry} {t : ℤ} {id : ModifierId} {e : Entry}

theorem Config.Timely.epochNumber (h : cfg.Timely t) : cfg.epochNumber t = .ok (cfg.epoch t) := by
  have hone := one_le_epochAt (p := cfg.params) h.after_genesis
  rw [Config.epochNumber, timeStampToEpochNumber, getEpochIndex_eq h.after_genesis h.long, intOf_eq ⟨by omega, h.fits⟩]
  rfl

theorem Config.Timely.slotNumber (h : cfg.Timely t) : cfg.slotNumber t = .ok (cfg.slot t) :=
  timeStampToSlotNumber_eq h.after_genesis

theorem Chained.nodup (h : Chained cfg entries) : (entries.map Entry.id).Nodup := by
  induction h with
  | genesis => simp
  | append _ hnew _ _ ih => exact List.nodup_cons.2 ⟨hnew, ih⟩

theorem Chained.head_ne (h : Chained cfg (e :: rest)) (hid : id ∈ rest.map Entry.id) : e.id ≠ id := by
  have hfresh := (List.nodup_cons.1 h.nodup).1
  intro heq
  exact hfresh (heq ▸ hid)

theorem Chained.of_cons (h : Chained cfg (e :: rest)) (hne : rest ≠ []) : Chained cfg rest := by
  cases h with
  | genesis => exact absurd rfl hne
  | append hrest => exact hrest

theorem Chained.genesis_mem (h : Chained cfg entries) : cfg.sidechainGenesisBlockId ∈ entries.map Entry.id := by
  induction h with
  | genesis hid => simp [hid]
  | append _ _ _ _ ih => exact List.mem_cons_of_mem _ ih

/-- an entry other than that of the genesis block has its parent in the history -/
theorem Chained.parent (h : Chained cfg entries) (he : e ∈ entries) (hid : e.id ≠ cfg.sidechainGenesisBlockId) :
    ∃ q ∈ entries, Extends cfg q e := by
  induction h with
  | genesis hgenesis =>
    rw [List.mem_singleton.1 he] at hid
    exact absurd hgenesis hid
  | append hrest hnew hq hextends ih =>
    rcases List.mem_cons.1 he with rfl | hmem
    · exact ⟨_, List.mem_cons_of_mem _ hq, hextends⟩
    · obtain ⟨q, hq, hext⟩ := ih hmem
      exact ⟨q, List.mem_cons_of_mem _ hq, hext⟩

theorem Chained.genesis_info (h : Chained cfg entries) (he : e ∈ entries) (hid : e.id = cfg.sidechainGenesisBlockId) :
    e.info.timestamp = cfg.sidechainGenesisBlockTimestamp ∧ e.info.parentId = cfg.sidechainGenesisBlockParentId ∧
      e.info.lastBlockInPreviousConsensusEpoch = cfg.sidechainGenesisBlockId := by
  induction h with
  | genesis _ htime hparent hlast =>
    rw [List.mem_singleton.1 he]
    exact ⟨htime, hparent, hlast⟩
  | append hrest hnew hq hextends ih =>
    rcases List.mem_cons.1 he with rfl | hmem
    · rw [hid] at hnew
      exact absurd hrest.genesis_mem hnew
    · exact ih hmem

/-- the last block of the epoch before is in the history, in an earlier epoch -/
theorem Chained.last_mem (h : Chained cfg entries) (he : e ∈ entries) :
    ∃ l ∈ entries, l.id = e.info.lastBlockInPreviousConsensusEpoch ∧
      (e.id ≠ cfg.sidechainGenesisBlockId → cfg.epoch l.info.timestamp < cfg.epoch e.info.timestamp) := by
  induction h generalizing e with
  | @genesis g hid htime hparent hlast =>
    obtain rfl := List.mem_singleton.1 he
    exact ⟨e, he, hid.trans hlast.symm, fun hne => absurd hid hne⟩
  | @append e' q rest hrest hnew hq hextends ih =>
    rcases List.mem_cons.1 he with rfl | hmem
    · by_cases hlt : cfg.epoch q.info.timestamp < cfg.epoch e.info.timestamp
      · refine ⟨q, List.mem_cons_of_mem _ hq, ?_, fun _ => hlt⟩
        rw [hextends.last, if_pos hlt]
      · have heq : cfg.epoch q.info.timestamp = cfg.epoch e.info.timestamp := le_antisymm hextends.epoch_le (not_lt.1 hlt)
        obtain ⟨l, hl, hlid, hless⟩ := ih hq
        refine ⟨l, List.mem_cons_of_mem _ hl, ?_, ?_⟩
        · rw [hlid, hextends.last, if_neg hlt]
        · intro _
          rw [← heq]
          exact hless (hextends.not_genesis heq)
    · obtain ⟨l, hl, hlid, hless⟩ := ih hmem
      exact ⟨l, List.mem_cons_of_mem _ hl, hlid, hless⟩

theorem Chained.find (h : (entries.map Entry.id).Nodup) (he : e ∈ entries) :
    entries.find? (fun e' => e'.id = e.id) = some e := by
  induction entries with
  | nil => cases he
  | cons e' rest ih =>
    rw [List.map_cons, List.nodup_cons] at h
    rcases List.mem_cons.1 he with rfl | hmem
    · simp
    · have hne : e'.id ≠ e.id := by
        intro heq
        exact h.1 (heq ▸ List.mem_map_of_mem hmem)
      rw [List.find?_cons_of_neg (by simpa using hne)]
      exact ih h.2 hmem

theorem Chained.blockInfoById_eq (h : Chained cfg entries) (he : e ∈ entries) : blockInfoById entries e.id = .ok e.info := by
  rw [blockInfoById, Chained.find h.nodup he]

theorem blockInfoById_ok {info : SidechainBlockInfo} (h : blockInfoById entries id = .ok info) :
    ∃ e ∈ entries, e.id = id ∧ e.info = info := by
  unfold blockInfoById at h
  split at h
  · rename_i e hfind
    exact ⟨e, List.mem_of_find?_eq_some hfind, by simpa using List.find?_some hfind, Except.ok.inj h⟩
  · cases h

/-- entries with one id are the same -/
theorem Chained.eq_of_id (h : Chained cfg entries) {e' : Entry} (he : e ∈ entries) (he' : e' ∈ entries) (hid : e.id = e'.id) :
    e = e' := by
  have hfind := Chained.find h.nodup he
  rw [hid, Chained.find h.nodup he'] at hfind
  exact (Option.some.inj hfind).symm

/-! ## The nonce of an epoch -/

variable {env : Externals} {nonces : ModifierId → Option Bytes}

/-- the nonce of an epoch, computed from the blocks alone -/
def trueNonce (cfg : Config) (env : Externals) : List Entry → ModifierId → Except String Bytes :=
  calculateNonceForEpoch cfg env fun _ => none

theorem calculateNonceForEpoch_cons (hne : e.id ≠ id) :
    calculateNonceForEpoch cfg env nonces (e :: rest) id = calculateNonceForEpoch cfg env nonces rest id := by
  rw [calculateNonceForEpoch, if_pos hne]

theorem trueNonce_cons (hne : e.id ≠ id) : trueNonce cfg env (e :: rest) id = trueNonce cfg env rest id :=
  calculateNonceForEpoch_cons hne

theorem digestFrom_cons {last next : ModifierId} {a b : ℤ} (hne : e.id ≠ next) :
    digestFrom cfg last a b (e :: rest) next = digestFrom cfg last a b rest next := by
  rw [digestFrom, if_pos hne]

theorem trueNonce_mem {nonce : Bytes} (h : trueNonce cfg env entries id = .ok nonce) : id ∈ entries.map Entry.id := by
  induction entries with
  | nil => cases h
  | cons e rest ih =>
    by_cases hid : e.id = id
    · simp [hid]
    · rw [trueNonce_cons hid] at h
      exact List.mem_cons_of_mem _ (ih h)

theorem Chained.trueNonce_genesis (h : Chained cfg entries) :
    trueNonce cfg env entries cfg.sidechainGenesisBlockId = .ok (calculateNonceForGenesisBlock cfg) := by
  induction h with
  | genesis hid =>
    rw [trueNonce, calculateNonceForEpoch, if_neg (not_not.2 hid), if_pos rfl]
  | append hrest hnew _ _ ih =>
    have hne := (Chained.append hrest hnew ‹_› ‹_›).head_ne hrest.genesis_mem
    rw [trueNonce_cons hne]
    exact ih

/-- the nonce of the epoch before enters by its value only -/
theorem calculateNonceForNonGenesisEpoch_congr {f g : ModifierId → Except String Bytes} {info : SidechainBlockInfo}
    (hfg : f info.lastBlockInPreviousConsensusEpoch = g info.lastBlockInPreviousConsensusEpoch) (acc : List (Bytes × ℤ)) :
    calculateNonceForNonGenesisEpoch cfg env entries f id info acc = calculateNonceForNonGenesisEpoch cfg env entries g id info
      acc := by
  simp only [calculateNonceForNonGenesisEpoch, hfg]

/-- a new block is not the last one of an epoch before -/
theorem Chained.last_mem_rest (h : Chained cfg (e :: rest)) (hid : e.id ≠ cfg.sidechainGenesisBlockId) :
    e.info.lastBlockInPreviousConsensusEpoch ∈ rest.map Entry.id := by
  obtain ⟨l, hl, hlid, hless⟩ := h.last_mem (List.mem_cons_self ..)
  rcases List.mem_cons.1 hl with rfl | hmem
  · exact absurd (hless hid) (lt_irrefl _)
  · rw [← hlid]
    exact List.mem_map_of_mem hmem

/-- every block is listed once, and after the last block of the epoch before, unless it is the genesis block -/
def Grounded (cfg : Config) : List Entry → Prop
  | [] => True
  | e :: rest =>
    Grounded cfg rest ∧ e.id ∉ rest.map Entry.id ∧
      (e.id ≠ cfg.sidechainGenesisBlockId → e.info.lastBlockInPreviousConsensusEpoch ∈ rest.map Entry.id)

theorem Chained.grounded (h : Chained cfg entries) : Grounded cfg entries := by
  induction entries with
  | nil => trivial
  | cons e rest ih =>
    refine ⟨?_, (List.nodup_cons.1 h.nodup).1, h.last_mem_rest⟩
    by_cases hnil : rest = []
    · rw [hnil]
      trivial
    · exact ih (h.of_cons hnil)

theorem Grounded.head_ne (h : Grounded cfg (e :: rest)) (hid : id ∈ rest.map Entry.id) : e.id ≠ id := by
  rintro rfl
  exact h.2.1 hid

/-- where the stored nonces are right, so is what the code computes with them -/
theorem Grounded.calculateNonceForEpoch_eq (h : Grounded cfg entries)
    (hstored : ∀ id ∈ entries.map Entry.id, ∀ nonce, nonces id = some nonce → trueNonce cfg env entries id = .ok nonce)
    (id : ModifierId) :
    calculateNonceForEpoch cfg env nonces entries id = trueNonce cfg env entries id := by
  induction entries generalizing id with
  | nil => rfl
  | cons e rest ih =>
    have hstored' : ∀ id ∈ rest.map Entry.id, ∀ nonce, nonces id = some nonce →
        trueNonce cfg env rest id = .ok nonce := by
      intro id' hid' nonce hnonce
      rw [← trueNonce_cons (e := e) (h.head_ne hid')]
      exact hstored id' (List.mem_cons_of_mem _ hid') nonce hnonce
    by_cases hne : e.id ≠ id
    · rw [calculateNonceForEpoch_cons hne, trueNonce_cons hne]
      exact ih h.1 hstored' id
    · rw [not_not] at hne
      subst hne
      rw [trueNonce, calculateNonceForEpoch, calculateNonceForEpoch]
      by_cases hgenesis : e.id = cfg.sidechainGenesisBlockId
      · simp [hgenesis]
      · rw [if_neg (not_not.2 rfl), if_neg (not_not.2 rfl), if_neg hgenesis, if_neg hgenesis]
        apply calculateNonceForNonGenesisEpoch_congr
        rcases hnonce : nonces e.info.lastBlockInPreviousConsensusEpoch with _ | nonce
        · simp only [storedOr, hnonce]
          exact ih h.1 hstored' _
        · simp only [storedOr, hnonce]
          exact (hstored' _ (h.2.2 hgenesis) nonce hnonce).symm

theorem calculateNonceForEpoch_eq (h : Chained cfg entries)
    (hstored : ∀ id ∈ entries.map Entry.id, ∀ nonce, nonces id = some nonce → trueNonce cfg env entries id = .ok nonce)
    (id : ModifierId) :
    calculateNonceForEpoch cfg env nonces entries id = trueNonce cfg env entries id :=
  h.grounded.calculateNonceForEpoch_eq hstored id

theorem storedOr_cons (hne : e.id ≠ id) :
    storedOr nonces (calculateNonceForEpoch cfg env nonces (e :: rest)) id =
      storedOr nonces (calculateNonceForEpoch cfg env nonces rest) id := by
  unfold storedOr
  split
  · rfl
  · exact calculateNonceForEpoch_cons hne

theorem Grounded.last_mem (h : Grounded cfg entries) (he : e ∈ entries) (hid : e.id ≠ cfg.sidechainGenesisBlockId) :
    e.info.lastBlockInPreviousConsensusEpoch ∈ entries.map Entry.id := by
  induction entries with
  | nil => cases he
  | cons e' rest ih =>
    rcases List.mem_cons.1 he with rfl | hmem
    · exact List.mem_cons_of_mem _ (h.2.2 hid)
    · exact List.mem_cons_of_mem _ (ih h.1 hmem)

/-- the nonce of an epoch from the whole history -/
theorem Grounded.calculateNonceForEpoch_mem (h : Grounded cfg entries) (he : e ∈ entries)
    (hid : e.id ≠ cfg.sidechainGenesisBlockId) :
    calculateNonceForEpoch cfg env nonces entries e.id =
      calculateNonceForNonGenesisEpoch cfg env entries (storedOr nonces (calculateNonceForEpoch cfg env nonces entries)) e.id
        e.info [] := by
  induction entries with
  | nil => cases he
  | cons e' rest ih =>
    by_cases heq : e' = e
    · subst heq
      rw [calculateNonceForNonGenesisEpoch_congr (storedOr_cons (h.head_ne (h.2.2 hid)))]
      rw [calculateNonceForEpoch, if_neg (not_not.2 rfl), if_neg hid]
    · have hmem : e ∈ rest := (List.mem_cons.1 he).resolve_left fun heq' => heq heq'.symm
      have hne := h.head_ne (List.mem_map_of_mem hmem)
      have hnelast := h.head_ne (h.1.last_mem hmem hid)
      rw [calculateNonceForEpoch_cons hne, ih h.1 hmem]
      simp only [calculateNonceForNonGenesisEpoch, storedOr_cons hnelast, digestFrom_cons hne]

theorem Chained.trueNonce_eq (h : Chained cfg entries) (he : e ∈ entries) (hid : e.id ≠ cfg.sidechainGenesisBlockId) :
    trueNonce cfg env entries e.id =
      calculateNonceForNonGenesisEpoch cfg env entries (trueNonce cfg env entries) e.id e.info [] :=
  h.grounded.calculateNonceForEpoch_mem he hid

/-! ## Walking back -/

variable {b q : Entry} {last : ModifierId} {lo hi : ℤ}

/-- one round of the loop, in the whole history -/
theorem Chained.digestFrom_eq (h : Chained cfg entries) (hb : b ∈ entries) (hid : b.id ≠ cfg.sidechainGenesisBlockId)
    (hslot : cfg.Timely b.info.timestamp) :
    digestFrom cfg last lo hi entries b.id =
      if b.id ≠ last ∧ lo ≤ cfg.slot b.info.timestamp then do
        let output ←
          if cfg.slot b.info.timestamp ≤ hi then
            match b.info.vrfOutputOpt with
            | some vrfOutput => .ok vrfOutput
            | none => .error "Try to calculate nonce by using block with incorrect Vrf proof"
          else .ok []
        let others ← digestFrom cfg last lo hi entries b.info.parentId
        return output ++ others
      else return [] := by
  induction entries with
  | nil => cases hb
  | cons e rest ih =>
    by_cases heq : e = b
    · subst heq
      have hparent : e.id ≠ e.info.parentId := by
        cases h with
        | genesis hgenesis => exact absurd hgenesis hid
        | append hrest hnew hq' hextends =>
          rw [hextends.parent]
          intro heq
          exact hnew (heq ▸ List.mem_map_of_mem hq')
      rw [digestFrom_cons hparent, digestFrom, if_neg (not_not.2 rfl), hslot.slotNumber]
      rfl
    · have hmem : b ∈ rest := (List.mem_cons.1 hb).resolve_left fun heq' => heq heq'.symm
      have hnil : rest ≠ [] := by
        rintro rfl
        cases hmem
      obtain ⟨q', hq', hext'⟩ := (h.of_cons hnil).parent hmem hid
      have hparent : e.id ≠ b.info.parentId := by
        rw [hext'.parent]
        exact h.head_ne (List.mem_map_of_mem hq')
      rw [digestFrom_cons (h.head_ne (List.mem_map_of_mem hmem)), digestFrom_cons hparent]
      exact ih (h.of_cons hnil) hmem

theorem Config.slot_mono {t' : ℤ} (hle : t ≤ t') (hepoch : cfg.epoch t = cfg.epoch t') : cfg.slot t ≤ cfg.slot t' := by
  have hpos := (forkOf_valid (p := cfg.params) (cfg.epoch t)).seconds_pos
  unfold Config.slot Config.epoch at *
  rw [slotAt_eq, slotAt_eq, ← hepoch]
  have := Int.ediv_le_ediv hpos (show t - epochStart cfg.params cfg.sidechainGenesisBlockTimestamp
    (epochAt cfg.params cfg.sidechainGenesisBlockTimestamp t) ≤ t' - _ by exact Int.sub_le_sub_right hle _)
  omega

theorem digestOf_append (acc acc' : List (Bytes × ℤ)) :
    digestOf lo hi (acc ++ acc') = digestOf lo hi acc ++ digestOf lo hi acc' := by
  simp [digestOf]

theorem Chained.id_ne_last (h : Chained cfg entries) (he : e ∈ entries) (hid : e.id ≠ cfg.sidechainGenesisBlockId) :
    e.id ≠ e.info.lastBlockInPreviousConsensusEpoch := by
  obtain ⟨l, hl, hlid, hless⟩ := h.last_mem he
  intro heq
  rw [← hlid] at heq
  have := hless hid
  rw [h.eq_of_id he hl heq] at this
  exact lt_irrefl _ this

/-- within an epoch, the walk from a block takes its own output and walks on from the parent -/
theorem Chained.digestFrom_parent (h : Chained cfg entries) (hb : b ∈ entries) (hid : b.id ≠ cfg.sidechainGenesisBlockId)
    (hq : q ∈ entries) (hext : Extends cfg q b) (hsame : cfg.epoch q.info.timestamp = cfg.epoch b.info.timestamp)
    (htb : cfg.Timely b.info.timestamp) (htq : cfg.Timely q.info.timestamp) {v : Bytes} (hv : b.info.vrfOutputOpt = some v) :
    digestFrom cfg q.info.lastBlockInPreviousConsensusEpoch lo hi entries b.id =
      (digestFrom cfg q.info.lastBlockInPreviousConsensusEpoch lo hi entries q.id).map
        (digestOf lo hi [(v, cfg.slot b.info.timestamp)] ++ ·) := by
  have hlast : b.info.lastBlockInPreviousConsensusEpoch = q.info.lastBlockInPreviousConsensusEpoch := by
    rw [hext.last, if_neg (by omega)]
  have hqid := hext.not_genesis hsame
  have hslots := Config.slot_mono hext.later hsame
  rw [h.digestFrom_eq hb hid htb, hext.parent]
  have hne : b.id ≠ q.info.lastBlockInPreviousConsensusEpoch := by
    rw [← hlast]
    exact h.id_ne_last hb hid
  by_cases hlow : lo ≤ cfg.slot b.info.timestamp
  · rw [if_pos ⟨hne, hlow⟩, hv]
    by_cases hhigh : cfg.slot b.info.timestamp ≤ hi
    · have hown : digestOf lo hi [(v, cfg.slot b.info.timestamp)] = v := by simp [digestOf, hlow, hhigh]
      rw [if_pos hhigh, hown]
      rcases digestFrom cfg q.info.lastBlockInPreviousConsensusEpoch lo hi entries q.id with _ | others <;> rfl
    · have hown : digestOf lo hi [(v, cfg.slot b.info.timestamp)] = [] := by simp [digestOf, hhigh]
      rw [if_neg hhigh, hown]
      rcases digestFrom cfg q.info.lastBlockInPreviousConsensusEpoch lo hi entries q.id with _ | others <;> rfl
  · -- the slots before are lower still
    have hown : digestOf lo hi [(v, cfg.slot b.info.timestamp)] = [] := by simp [digestOf, hlow]
    rw [if_neg (fun hboth => hlow hboth.2), hown, h.digestFrom_eq hq hqid htq, if_neg (fun hboth => hlow (hboth.2.trans hslots))]
    rfl

/-- **Nonces.** Within an epoch, the nonce up to a block is the nonce up to its parent with the block's own output passed
in. -/
theorem Chained.nonce_parent (h : Chained cfg entries) (hb : b ∈ entries) (hid : b.id ≠ cfg.sidechainGenesisBlockId)
    (hq : q ∈ entries) (hext : Extends cfg q b) (hsame : cfg.epoch q.info.timestamp = cfg.epoch b.info.timestamp)
    (htb : cfg.Timely b.info.timestamp) (htq : cfg.Timely q.info.timestamp) {v : Bytes} (hv : b.info.vrfOutputOpt = some v)
    (f : ModifierId → Except String Bytes) (acc : List (Bytes × ℤ)) :
    calculateNonceForNonGenesisEpoch cfg env entries f b.id b.info acc =
      calculateNonceForNonGenesisEpoch cfg env entries f q.id q.info (acc ++ [(v, cfg.slot b.info.timestamp)]) := by
  have hlast : b.info.lastBlockInPreviousConsensusEpoch = q.info.lastBlockInPreviousConsensusEpoch := by
    rw [hext.last, if_neg (by omega)]
  have hqid := hext.not_genesis hsame
  simp only [calculateNonceForNonGenesisEpoch, htb.epochNumber, htq.epochNumber, hsame,
    h.digestFrom_parent hb hid hq hext hsame htb htq hv, hlast, failIf, if_neg hid, if_neg hqid, digestOf_append]
  simp only [bind, Except.bind]
  rcases digestFrom cfg q.info.lastBlockInPreviousConsensusEpoch _ _ entries q.id with _ | walked
  · rfl
  · simp only [Except.map, List.append_assoc]

end Chains

end SidechainsSdk.Consensus
