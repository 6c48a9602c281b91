/-
What is known about the blocks of a history: each was valid when it was appended, and still is, since later blocks and later
consensus data do not change the data of its epoch.

- `epochInfo`: the epoch data after the last block of an epoch, from the blocks and the stored stakes.
- `fullConsensusEpochInfo_iff`: what the code finds for a block of the history, or for a new one.
- `Accepted`: a block of the history on its parent, with the checks it passed.
- `reachable_invariant`: in every reachable history every block but the first is accepted.
-/
import Mathlib.Tactic
import SidechainsSdk.Consensus.AbsoluteSlots
import SidechainsSdk.Consensus.ConsensusValidator

namespace SidechainsSdk.Consensus

open Fallible MachineInt TimeToEpochUtils
open Chain (ModifierId)

variable {cfg : Config} {env : Externals} {h : History} {e q : Entry} {id : ModifierId} {t : ℤ}

/-- the blocks are chained, and the stored nonces are those of their epochs -/
structure DataOk (cfg : Config) (env : Externals) (h : History) : Prop where
  chained : Chained cfg h.entries
  nonces : ∀ id nonce, h.nonces id = some nonce → trueNonce cfg env h.entries id = .ok nonce

/-- the nonce from a block back, with further outputs passed in -/
def trueNonceFrom (cfg : Config) (env : Externals) (entries : List Entry) (q : Entry) (acc : List (Bytes × ℤ)) :
    Except String Bytes :=
  calculateNonceForNonGenesisEpoch cfg env entries (trueNonce cfg env entries) q.id q.info acc

/-- the epoch data of the blocks that follow the last block of an epoch -/
def epochInfo (cfg : Config) (env : Externals) (h : History) (l : Entry) : Option FullConsensusEpochInfo := do
  let stake ← h.stakes l.info.lastBlockInPreviousConsensusEpoch
  let nonce ← (trueNonce cfg env h.entries l.id).toOption
  return ⟨stake, nonce⟩

theorem DataOk.storedOr_eq (hd : DataOk cfg env h) :
    storedOr h.nonces (calculateNonceForEpoch cfg env h.nonces h.entries) = trueNonce cfg env h.entries := by
  funext id
  rcases hnonce : h.nonces id with _ | nonce
  · simp only [storedOr, hnonce]
    exact calculateNonceForEpoch_eq hd.chained (fun id _ nonce hnonce => hd.nonces id nonce hnonce) id
  · simp only [storedOr, hnonce]
    exact (hd.nonces id nonce hnonce).symm

theorem DataOk.calculateNonce_eq (hd : DataOk cfg env h) :
    h.calculateNonce cfg env q.id q.info = trueNonceFrom cfg env h.entries q := by
  funext acc
  rw [History.calculateNonce, hd.storedOr_eq, trueNonceFrom]

/-! ## Epoch data -/

theorem getLastBlockInPreviousConsensusEpoch_ok (hd : DataOk cfg env h) (hq : q ∈ h.entries) (htq : cfg.Timely q.info.timestamp)
    (ht : cfg.Timely t) :
    getLastBlockInPreviousConsensusEpoch cfg h t q.id = .ok id ↔
      cfg.epoch q.info.timestamp ≤ cfg.epoch t ∧
        id = if cfg.epoch q.info.timestamp < cfg.epoch t then q.id else q.info.lastBlockInPreviousConsensusEpoch := by
  simp only [getLastBlockInPreviousConsensusEpoch, hd.chained.blockInfoById_eq hq, htq.epochNumber, ht.epochNumber, bind,
    Except.bind]
  by_cases hlt : cfg.epoch q.info.timestamp < cfg.epoch t
  · rw [if_pos hlt, if_pos hlt]
    simp only [pure, Except.pure, Except.ok.injEq]
    constructor
    · rintro rfl
      exact ⟨hlt.le, rfl⟩
    · rintro ⟨-, rfl⟩
      rfl
  · rw [if_neg hlt, if_neg hlt]
    by_cases heq : cfg.epoch q.info.timestamp = cfg.epoch t
    · rw [if_pos heq]
      simp only [pure, Except.pure, Except.ok.injEq]
      constructor
      · rintro rfl
        exact ⟨heq.le, rfl⟩
      · rintro ⟨-, rfl⟩
        rfl
    · rw [if_neg heq]
      constructor
      · rintro ⟨⟩
      · rintro ⟨hle, -⟩
        omega

/-- for a block that is not the first one, the epoch data are those after the last block of the epoch before -/
theorem getFullConsensusEpochInfoForBlock_ok (hd : DataOk cfg env h) {l : Entry} (hl : l ∈ h.entries)
    (hgenesis : ¬ cfg.isGenesisBlock t id) (hlast : getLastBlockInPreviousConsensusEpoch cfg h t id = .ok l.id)
    {info : FullConsensusEpochInfo} :
    getFullConsensusEpochInfoForBlock cfg env h t id = .ok info ↔ epochInfo cfg env h l = some info := by
  rw [getFullConsensusEpochInfoForBlock, getLastBlockIdOfPrePreviousEpochs, getOrCalculateNonceConsensusEpochInfo,
    if_neg hgenesis,
    if_neg hgenesis, hlast, epochInfo]
  simp only [bind, Except.bind, hd.chained.blockInfoById_eq hl, hd.storedOr_eq, pure, Except.pure]
  rcases h.stakes l.info.lastBlockInPreviousConsensusEpoch with _ | stake
  · simp
  · rcases trueNonce cfg env h.entries l.id with _ | nonce
    · simp [Except.toOption]
    · simp [Except.toOption]

/-- the same for the blocks of the history, the first one included -/
theorem fullConsensusEpochInfo_iff (hd : DataOk cfg env h) (htimely : ∀ e ∈ h.entries, cfg.Timely e.info.timestamp)
    (he : e ∈ h.entries) {l : Entry} (hl : l ∈ h.entries) (hlast : l.id = e.info.lastBlockInPreviousConsensusEpoch)
    {info : FullConsensusEpochInfo} :
    getFullConsensusEpochInfoForBlock cfg env h e.info.timestamp e.info.parentId = .ok info ↔
      epochInfo cfg env h l = some info := by
  by_cases hid : e.id = cfg.sidechainGenesisBlockId
  · obtain ⟨htime, hparent, hself⟩ := hd.chained.genesis_info he hid
    have hle : l = e := hd.chained.eq_of_id hl he (by rw [hlast, hself, hid])
    subst hle
    have hgenesis : cfg.isGenesisBlock l.info.timestamp l.info.parentId := ⟨htime, hparent⟩
    have htrue : trueNonce cfg env h.entries l.id = .ok (calculateNonceForGenesisBlock cfg) := by
      rw [hid]
      exact hd.chained.trueNonce_genesis
    have hnonce : (h.nonces cfg.sidechainGenesisBlockId).getD (calculateNonceForGenesisBlock cfg) = calculateNonceForGenesisBlock
        cfg := by
      rcases hstored : h.nonces cfg.sidechainGenesisBlockId with _ | nonce
      · rfl
      · have := hd.nonces _ _ hstored
        rw [← hid, htrue] at this
        exact (Except.ok.inj this).symm
    rw [getFullConsensusEpochInfoForBlock, getLastBlockIdOfPrePreviousEpochs, getOrCalculateNonceConsensusEpochInfo,
      if_pos hgenesis,
      if_pos hgenesis, hnonce, epochInfo, htrue, hself]
    simp only [bind, Except.bind, pure, Except.pure]
    rcases h.stakes cfg.sidechainGenesisBlockId with _ | stake
    · simp
    · simp [Except.toOption]
  · obtain ⟨q, hq, hext⟩ := hd.chained.parent he hid
    have hgenesis : ¬ cfg.isGenesisBlock e.info.timestamp e.info.parentId := fun hg => hext.after_genesis.ne' hg.1
    apply getFullConsensusEpochInfoForBlock_ok hd hl hgenesis
    rw [hext.parent, getLastBlockInPreviousConsensusEpoch_ok hd hq (htimely q hq) (htimely e he), hlast]
    exact ⟨hext.epoch_le, hext.last⟩

/-! ## Valid blocks -/

variable {block : SidechainBlock} {now : ℤ} {lastId : ModifierId} {current previous : FullConsensusEpochInfo}

/-- what a valid block has passed -/
theorem validateNonGenesisBlock_iff :
    validateNonGenesisBlock cfg env h now block = .ok () ↔
      ∃ parentInfo, blockInfoById h.entries block.header.parentId = .ok parentInfo ∧
        verifyTimestamp cfg block.header.timestamp parentInfo.timestamp = .ok () ∧
        ∃ current, getFullConsensusEpochInfoForBlock cfg env h block.header.timestamp block.header.parentId = .ok current ∧
          verifyHeader cfg env block.header current = .ok () ∧
          ∃ lastId, getLastBlockInPreviousConsensusEpoch cfg h block.header.timestamp block.header.parentId = .ok lastId ∧
            ∃ lastInfo, blockInfoById h.entries lastId = .ok lastInfo ∧
              ∃ previous, getFullConsensusEpochInfoForBlock cfg env h lastInfo.timestamp lastInfo.parentId = .ok previous ∧
                verifyOmmers cfg env (h.calculateNonce cfg env block.header.parentId parentInfo) block.toOmmer current
                  (some previous) [] = .ok () ∧
                verifyTimestampInFuture cfg block.header.timestamp now = .ok () := by
  simp only [validateNonGenesisBlock, bind_ok_iff]
  constructor
  · rintro ⟨parentInfo, hparent, ⟨⟩, htime, current, hcurrent, ⟨⟩, hheader, lastId, hlast, lastInfo, hinfo, previous,
      hprevious, ⟨⟩,
      hommers, hfuture⟩
    exact ⟨parentInfo, hparent, htime, current, hcurrent, hheader, lastId, hlast, lastInfo, hinfo, previous, hprevious, hommers,
      hfuture⟩
  · rintro ⟨parentInfo, hparent, htime, current, hcurrent, hheader, lastId, hlast, lastInfo, hinfo, previous, hprevious,
      hommers, hfuture⟩
    exact ⟨parentInfo, hparent, (), htime, current, hcurrent, (), hheader, lastId, hlast, lastInfo, hinfo, previous, hprevious,
      (),
      hommers, hfuture⟩

/-- the epoch data of the blocks after the last block of an epoch, and of the epoch of that block -/
def EpochData (cfg : Config) (env : Externals) (h : History) (lastId : ModifierId) (current previous : FullConsensusEpochInfo) :
    Prop :=
  ∃ l ∈ h.entries, l.id = lastId ∧ epochInfo cfg env h l = some current ∧
    ∃ l' ∈ h.entries, l'.id = l.info.lastBlockInPreviousConsensusEpoch ∧ epochInfo cfg env h l' = some previous

theorem EpochData.unique (hd : DataOk cfg env h) {current' previous' : FullConsensusEpochInfo}
    (h₁ : EpochData cfg env h lastId current previous) (h₂ : EpochData cfg env h lastId current' previous') :
    current = current' ∧ previous = previous' := by
  obtain ⟨l, hl, hlid, hcurrent, l', hl', hlid', hprevious⟩ := h₁
  obtain ⟨m, hm, hmid, hcurrent', m', hm', hmid', hprevious'⟩ := h₂
  obtain rfl := hd.chained.eq_of_id hl hm (hlid.trans hmid.symm)
  obtain rfl := hd.chained.eq_of_id hl' hm' (hlid'.trans hmid'.symm)
  exact ⟨Option.some.inj (hcurrent.symm.trans hcurrent'), Option.some.inj (hprevious.symm.trans hprevious')⟩

/-- a block of the history on its parent, with the checks that it passed -/
structure Accepted (cfg : Config) (env : Externals) (h : History) (q e : Entry) (current previous : FullConsensusEpochInfo)
    (v : Bytes) : Prop where
  link : Extends cfg q e
  timestamp : e.info.timestamp = e.block.header.timestamp
  parentId : e.info.parentId = e.block.header.parentId
  data : EpochData cfg env h e.info.lastBlockInPreviousConsensusEpoch current previous
  vrf : getVrfOutput cfg env e.block.header current.nonceConsensusEpochInfo = .ok (some v)
  output : e.info.vrfOutputOpt = some v
  stake : verifyForgingStakeInfo env e.block.header current.stakeConsensusEpochInfo v
    (cfg.stakePercentageForkApplied (cfg.epoch e.info.timestamp)) (cfg.activeSlotCoefficient (cfg.epoch e.info.timestamp)) =
      .ok ()
  ommers : verifyOmmers cfg env (trueNonceFrom cfg env h.entries q) e.block.toOmmer current (some previous) [] = .ok ()

/-- the invariant of a history -/
structure Invariant (cfg : Config) (env : Externals) (h : History) : Prop extends DataOk cfg env h where
  accepted : ∀ e ∈ h.entries, e.id ≠ cfg.sidechainGenesisBlockId →
    ∃ q ∈ h.entries, ∃ current previous v, Accepted cfg env h q e current previous v

/-! ## Growing histories -/

/-- more blocks and more data -/
structure Grows (cfg : Config) (env : Externals) (h h' : History) : Prop where
  entries : ∀ e ∈ h.entries, e ∈ h'.entries
  stakes : ∀ id stake, h.stakes id = some stake → h'.stakes id = some stake
  nonce : ∀ e ∈ h.entries, trueNonce cfg env h'.entries e.id = trueNonce cfg env h.entries e.id
  nonceFrom : ∀ e ∈ h.entries, trueNonceFrom cfg env h'.entries e = trueNonceFrom cfg env h.entries e

theorem Grows.epochInfo_eq {h' : History} (hg : Grows cfg env h h') {l : Entry} (hl : l ∈ h.entries)
    {info : FullConsensusEpochInfo}
    (hinfo : epochInfo cfg env h l = some info) : epochInfo cfg env h' l = some info := by
  simp only [epochInfo, Option.bind_eq_bind, Option.bind_eq_some_iff] at hinfo ⊢
  obtain ⟨stake, hstake, nonce, hnonce, hok⟩ := hinfo
  exact ⟨stake, hg.stakes _ _ hstake, nonce, by rw [hg.nonce l hl]; exact hnonce, hok⟩

theorem Grows.data {h' : History} (hg : Grows cfg env h h') (hdata : EpochData cfg env h lastId current previous) :
    EpochData cfg env h' lastId current previous := by
  obtain ⟨l, hl, hlid, hcurrent, l', hl', hlid', hprevious⟩ := hdata
  exact ⟨l, hg.entries l hl, hlid, hg.epochInfo_eq hl hcurrent, l', hg.entries l' hl', hlid', hg.epochInfo_eq hl' hprevious⟩

theorem Grows.accepted {h' : History} (hg : Grows cfg env h h') (hq : q ∈ h.entries) {v : Bytes}
    (ha : Accepted cfg env h q e current previous v) : Accepted cfg env h' q e current previous v where
  link := ha.link
  timestamp := ha.timestamp
  parentId := ha.parentId
  data := hg.data ha.data
  vrf := ha.vrf
  output := ha.output
  stake := ha.stake
  ommers := by
    rw [hg.nonceFrom q hq]
    exact ha.ommers

/-! ## Appended blocks -/

theorem verifyTimestamp_ok {t' : ℤ} (ht : cfg.Timely t) (ht' : cfg.Timely t') (hok : verifyTimestamp cfg t t' = .ok ()) :
    t' ≤ t ∧ timeStampToAbsoluteSlotNumber cfg.params cfg.sidechainGenesisBlockTimestamp t ≠
        timeStampToAbsoluteSlotNumber cfg.params cfg.sidechainGenesisBlockTimestamp t' ∧
      (cfg.epoch t' ≤ cfg.epoch t → cfg.epoch t ≤ cfg.epoch t' + 1) := by
  simp only [verifyTimestamp, bind_ok_iff, failIf_ok, ht.epochNumber, ht'.epochNumber, Except.ok.injEq] at hok
  obtain ⟨⟨⟩, hle, n, hn, n', hn', ⟨⟩, hslot, _, rfl, _, rfl, hepoch⟩ := hok
  refine ⟨not_lt.1 hle, ?_, ?_⟩
  · rw [hn, hn']
    intro heq
    exact hslot (Except.ok.inj heq).le
  · intro hle'
    have hone := one_le_epochAt (p := cfg.params) ht.after_genesis
    have hone' := one_le_epochAt (p := cfg.params) ht'.after_genesis
    have hfits := ht.fits
    unfold Config.epoch at *
    rw [intOf_eq ⟨by omega, by omega⟩] at hepoch
    omega

/-- no other slot of the first epoch comes after the genesis block -/
theorem genesis_slot (ht : cfg.sidechainGenesisBlockTimestamp ≤ t)
    (hepoch : cfg.epoch cfg.sidechainGenesisBlockTimestamp = cfg.epoch t) :
    cfg.slot cfg.sidechainGenesisBlockTimestamp = cfg.slot t := by
  have hmono := Config.slot_mono ht hepoch
  have hle := (slotAt_bounds (p := cfg.params) ht).2
  unfold Config.slot Config.epoch at *
  rw [← hepoch, AbsoluteSlots.slot_genesis.1, AbsoluteSlots.forkOf_one] at hle
  rw [AbsoluteSlots.slot_genesis.2] at hmono ⊢
  omega

theorem extends_of_valid (hd : DataOk cfg env h) (hq : q ∈ h.entries) (htq : cfg.Timely q.info.timestamp)
    (hparent : block.header.parentId = q.id) (ht : cfg.Timely block.header.timestamp)
    (htime : verifyTimestamp cfg block.header.timestamp q.info.timestamp = .ok ())
    (hlast : getLastBlockInPreviousConsensusEpoch cfg h block.header.timestamp block.header.parentId = .ok lastId)
    (v : Option Bytes) :
    Extends cfg q ⟨block, block.header.parentId, block.header.timestamp, v, lastId⟩ := by
  obtain ⟨hle, hslot, hskip⟩ := verifyTimestamp_ok ht htq htime
  rw [hparent, getLastBlockInPreviousConsensusEpoch_ok hd hq htq ht] at hlast
  obtain ⟨hepoch, hlast⟩ := hlast
  refine ⟨hparent, hle, ?_, hepoch, hskip hepoch, ?_, hlast⟩
  · -- at the time of the genesis block the slot would be that of the parent
    apply lt_of_le_of_ne ht.after_genesis
    intro heq
    have hsame : q.info.timestamp = block.header.timestamp := by
      have := htq.after_genesis
      omega
    rw [hsame] at hslot
    exact hslot rfl
  · intro heq hgenesis
    obtain ⟨htimestamp, -, -⟩ := hd.chained.genesis_info hq hgenesis
    simp only at heq
    apply hslot
    have hnumbers : cfg.epochNumber block.header.timestamp = cfg.epochNumber q.info.timestamp ∧
        cfg.slotNumber block.header.timestamp = cfg.slotNumber q.info.timestamp := by
      have hsame : cfg.slot q.info.timestamp = cfg.slot block.header.timestamp := by
        rw [htimestamp] at heq ⊢
        exact genesis_slot ht.after_genesis heq
      rw [ht.epochNumber, htq.epochNumber, ht.slotNumber, htq.slotNumber, heq, hsame]
      exact ⟨rfl, rfl⟩
    exact AbsoluteSlots.absolute_congr hnumbers.1 hnumbers.2

/-! ## Reachable histories -/

/-- a new block changes no nonce of the others -/
theorem Grows.cons (hc : Chained cfg (e :: h.entries)) (hd : DataOk cfg env h) :
    Grows cfg env h { h with entries := e :: h.entries } where
  entries := fun e' he' => List.mem_cons_of_mem _ he'
  stakes := fun _ _ hstake => hstake
  nonce := fun e' he' => trueNonce_cons (hc.head_ne (List.mem_map_of_mem he'))
  nonceFrom := by
    intro e' he'
    obtain ⟨l, hl, hlid, -⟩ := hd.chained.last_mem he'
    have hne : e.id ≠ e'.id := hc.head_ne (List.mem_map_of_mem he')
    have hnelast : e.id ≠ e'.info.lastBlockInPreviousConsensusEpoch := by
      rw [← hlid]
      exact hc.head_ne (List.mem_map_of_mem hl)
    funext acc
    simp only [trueNonceFrom, calculateNonceForNonGenesisEpoch, trueNonce_cons hnelast, digestFrom_cons hne]

theorem DataOk.cons (hc : Chained cfg (e :: h.entries)) (hd : DataOk cfg env h) :
    DataOk cfg env { h with entries := e :: h.entries } where
  chained := hc
  nonces := by
    intro id nonce hnonce
    have htrue := hd.nonces id nonce hnonce
    rw [trueNonce_cons (hc.head_ne (trueNonce_mem htrue))]
    exact htrue

theorem getFullConsensusEpochInfoForBlock_nonce (hfull : getFullConsensusEpochInfoForBlock cfg env h t id = .ok current) :
    getOrCalculateNonceConsensusEpochInfo cfg env h t id = .ok current.nonceConsensusEpochInfo := by
  rw [getFullConsensusEpochInfoForBlock, bind_ok_iff] at hfull
  obtain ⟨epochId, -, hfull⟩ := hfull
  rcases hstake : h.stakes epochId with _ | stake
  · rw [hstake] at hfull
    cases hfull
  · rw [hstake] at hfull
    simp only [bind_ok_iff] at hfull
    obtain ⟨_, -, nonce, hnonce, hcurrent⟩ := hfull
    rw [hnonce, ← Except.ok.inj hcurrent]

theorem verifyHeader_ok {header : SidechainBlockHeader} (ht : cfg.Timely header.timestamp)
    (hok : verifyHeader cfg env header current = .ok ()) :
    ∃ v, getVrfOutput cfg env header current.nonceConsensusEpochInfo = .ok (some v) ∧
      verifyForgingStakeInfo env header current.stakeConsensusEpochInfo v
        (cfg.stakePercentageForkApplied (cfg.epoch header.timestamp))
        (cfg.activeSlotCoefficient (cfg.epoch header.timestamp)) = .ok () := by
  simp only [verifyHeader, bind_ok_iff, failIf_ok, ht.epochNumber, Except.ok.injEq] at hok
  obtain ⟨vrfOutputOpt, hvrf, v, hsome, ⟨⟩, -, _, rfl, hstake⟩ := hok
  rcases vrfOutputOpt with _ | w
  · cases hsome
  · obtain rfl := Except.ok.inj hsome
    exact ⟨w, hvrf, hstake⟩

/-- the epoch data that the validator works with -/
theorem epochData_of_valid (hd : DataOk cfg env h) (htimely : ∀ e ∈ h.entries, cfg.Timely e.info.timestamp)
    {lastInfo : SidechainBlockInfo} (hgenesis : ¬ cfg.isGenesisBlock t id)
    (hcurrent : getFullConsensusEpochInfoForBlock cfg env h t id = .ok current)
    (hlast : getLastBlockInPreviousConsensusEpoch cfg h t id = .ok lastId) (hinfo : blockInfoById h.entries lastId = .ok lastInfo)
    (hprevious : getFullConsensusEpochInfoForBlock cfg env h lastInfo.timestamp lastInfo.parentId = .ok previous) :
    EpochData cfg env h lastId current previous := by
  obtain ⟨l, hl, rfl, rfl⟩ := blockInfoById_ok hinfo
  obtain ⟨l', hl', hlid', -⟩ := hd.chained.last_mem hl
  refine ⟨l, hl, rfl, ?_, l', hl', hlid', ?_⟩
  · exact (getFullConsensusEpochInfoForBlock_ok hd hl hgenesis hlast).1 hcurrent
  · exact (fullConsensusEpochInfo_iff hd htimely hl hl' hlid').1 hprevious

/-- a valid block on a block of the history -/
theorem accepted_of_valid (hd : DataOk cfg env h) (htimely : ∀ e ∈ h.entries, cfg.Timely e.info.timestamp)
    (ht : cfg.Timely block.header.timestamp) (hvalid : validateNonGenesisBlock cfg env h now block = .ok ())
    {info : SidechainBlockInfo} (hinfo : calculateBlockInfo cfg env h block = .ok info) :
    ∃ q ∈ h.entries, ∃ current previous v, Accepted cfg env h q ⟨block, info⟩ current previous v := by
  obtain ⟨parentInfo, hparent, htime, current, hcurrent, hheader, lastId, hlast, lastInfo, hlastInfo, previous, hprevious,
    hommers, -⟩ :=
    validateNonGenesisBlock_iff.1 hvalid
  obtain ⟨q, hq, hqid, rfl⟩ := blockInfoById_ok hparent
  obtain ⟨v, hvrf, hstake⟩ := verifyHeader_ok ht hheader
  simp only [calculateBlockInfo, bind_ok_iff, hlast, getFullConsensusEpochInfoForBlock_nonce hcurrent, Except.ok.injEq] at hinfo
  obtain ⟨_, rfl, _, rfl, vrfOutputOpt, hvrf', hok⟩ := hinfo
  obtain rfl : some v = vrfOutputOpt := Except.ok.inj (hvrf.symm.trans hvrf')
  obtain rfl := Except.ok.inj hok
  have hext := extends_of_valid hd hq (htimely q hq) hqid.symm ht htime hlast (some v)
  have hgenesis : ¬ cfg.isGenesisBlock block.header.timestamp block.header.parentId := by
    intro hg
    exact hext.after_genesis.ne' hg.1
  refine ⟨q, hq, current, previous, v, hext, rfl, rfl, ?_, hvrf, rfl, hstake, ?_⟩
  · exact epochData_of_valid hd htimely hgenesis hcurrent hlast hlastInfo hprevious
  · rw [← hd.calculateNonce_eq, hqid]
    exact hommers

theorem Invariant.genesis {genesisBlock : SidechainBlock} (hgenesis : IsGenesis cfg genesisBlock)
    (stake : StakeConsensusEpochInfo) :
    Invariant cfg env (createGenesisHistory cfg genesisBlock stake) := by
  have hchained : Chained cfg (createGenesisHistory cfg genesisBlock stake).entries :=
    Chained.genesis hgenesis.id hgenesis.timestamp hgenesis.parent hgenesis.id
  refine ⟨⟨hchained, ?_⟩, ?_⟩
  · intro id nonce hnonce
    simp only [createGenesisHistory, Option.ite_none_right_eq_some, Option.some.injEq] at hnonce
    obtain ⟨rfl, rfl⟩ := hnonce
    rw [hgenesis.id]
    exact hchained.trueNonce_genesis
  · intro e he hid
    obtain rfl := List.mem_singleton.1 he
    exact absurd hgenesis.id hid

theorem Invariant.append {h' : History} (hinv : Invariant cfg env h) (htimely : ∀ e ∈ h'.entries, cfg.Timely e.info.timestamp)
    (hok : append cfg env h now block = .ok h') : Invariant cfg env h' := by
  simp only [Consensus.append, bind_ok_iff, failIf_ok] at hok
  obtain ⟨⟨⟩, hfresh, ⟨⟩, hvalid, info, hinfo, heq⟩ := hok
  obtain rfl := Except.ok.inj heq
  have htimely' : ∀ e ∈ h.entries, cfg.Timely e.info.timestamp := fun e he => htimely e (List.mem_cons_of_mem _ he)
  have htime : info.timestamp = block.header.timestamp := by
    simp only [calculateBlockInfo, bind_ok_iff] at hinfo
    obtain ⟨_, -, _, -, _, -, hinfo⟩ := hinfo
    rw [← Except.ok.inj hinfo]
  have ht : cfg.Timely block.header.timestamp := by
    rw [← htime]
    exact htimely ⟨block, info⟩ (List.mem_cons_self ..)
  obtain ⟨q, hq, current, previous, v, hnew⟩ := accepted_of_valid hinv.toDataOk htimely' ht hvalid hinfo
  have hchained : Chained cfg (⟨block, info⟩ :: h.entries) := Chained.append hinv.chained hfresh hq hnew.link
  have hgrows := Grows.cons hchained hinv.toDataOk
  refine ⟨hinv.toDataOk.cons hchained, ?_⟩
  intro e he hid
  rcases List.mem_cons.1 he with rfl | hmem
  · exact ⟨q, hgrows.entries q hq, current, previous, v, hgrows.accepted hq hnew⟩
  · obtain ⟨q', hq', current', previous', v', hold⟩ := hinv.accepted e hmem hid
    exact ⟨q', hgrows.entries q' hq', current', previous', v', hgrows.accepted hq' hold⟩

theorem Invariant.apply {h' : History} (hinv : Invariant cfg env h) {stake : StakeConsensusEpochInfo}
    (hok : applyFullConsensusInfo cfg env h id stake = .ok h') : Invariant cfg env h' := by
  simp only [applyFullConsensusInfo, bind_ok_iff, failIf_ok] at hok
  obtain ⟨nonce, hnonce, ⟨⟩, hstakes, ⟨⟩, hnonces, heq⟩ := hok
  obtain rfl := Except.ok.inj heq
  have htrue : trueNonce cfg env h.entries id = .ok nonce := by
    rw [← hnonce]
    exact (calculateNonceForEpoch_eq hinv.chained (fun id _ nonce hstored => hinv.nonces id nonce hstored) id).symm
  have hgrows : Grows cfg env h { h with
      stakes := fun id' => if id' = id then some stake else h.stakes id'
      nonces := fun id' => if id' = id then some nonce else h.nonces id' } := by
    refine ⟨fun _ he => he, ?_, fun _ _ => rfl, fun _ _ => rfl⟩
    intro id' stake' hstake'
    by_cases hid : id' = id
    · subst hid
      rw [hstake'] at hstakes
      simpa using Eq.symm (by simpa using hstakes)
    · simpa [hid] using hstake'
  refine ⟨⟨hinv.chained, ?_⟩, ?_⟩
  · intro id' nonce' hnonce'
    by_cases hid : id' = id
    · subst hid
      obtain rfl : nonce = nonce' := by simpa using hnonce'
      exact htrue
    · exact hinv.nonces id' nonce' (by simpa [hid] using hnonce')
  · intro e he hid
    obtain ⟨q, hq, current, previous, v, hold⟩ := hinv.accepted e he hid
    exact ⟨q, hq, current, previous, v, hgrows.accepted hq hold⟩

/-- **Histories.** In every reachable history every block but the first is on its parent, and passes with the epoch data of
the history now all the checks that it passed when it was appended. -/
theorem reachable_invariant (hreachable : Reachable cfg env h) (htimely : ∀ e ∈ h.entries, cfg.Timely e.info.timestamp) :
    Invariant cfg env h := by
  induction hreachable with
  | genesis hgenesis stake => exact Invariant.genesis hgenesis stake
  | @append h h' hreachable now block hok ih =>
    have hsub : ∀ e ∈ h.entries, e ∈ h'.entries := by
      intro e he
      simp only [Consensus.append, bind_ok_iff] at hok
      obtain ⟨_, -, _, -, _, -, heq⟩ := hok
      rw [← Except.ok.inj heq]
      exact List.mem_cons_of_mem _ he
    exact (ih fun e he => htimely e (hsub e he)).append htimely hok
  | @apply h h' hreachable lastBlockInEpoch stake hok ih =>
    have hsame : h'.entries = h.entries := by
      simp only [applyFullConsensusInfo, bind_ok_iff] at hok
      obtain ⟨_, -, _, -, _, -, heq⟩ := hok
      rw [← Except.ok.inj heq]
    exact (ih fun e he => htimely e (hsame ▸ he)).apply hok

end SidechainsSdk.Consensus
