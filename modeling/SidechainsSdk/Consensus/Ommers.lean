/-
Blocks that come back as ommers. The blocks `b₁ .. bₖ` of a history, each on the one before and the first on `P`, are
included as ommers in a new block `X` on `P`. The validator does not look them up: it takes the epoch data of `X` and of the
epoch before, and where the ommers cross into the epoch of `X` a nonce computed with their own VRF outputs.

- `verifyOmmers_congr`: sub-ommers are checked alike when the nonces that may be computed agree.
- `verifyOmmers_allIn`: where all ommers are of one epoch, no nonce is computed at all.
- `verifyEach_sameEpoch`, `verifyEach_previousEpoch`: the loop over the ommers of the epoch of `X`, and of the epoch before.
- `valid_as_ommers`: the epoch data and the VRF outputs of the ommers are those they had as blocks. `X` is valid exactly when
  the stakes of the ommers of the epoch before are enough also with the parameters of the epoch of `X`.
- `stake_not_enough_as_ommer`: with a fork between the two epochs a valid block is not a valid ommer.
-/
import Mathlib.Tactic
import SidechainsSdk.Consensus.AcceptedBlocks

namespace SidechainsSdk.Consensus

open Fallible MachineInt TimeToEpochUtils
open Chain (ModifierId)
open SlotTimes (defaultParams)

variable {cfg : Config} {env : Externals} {h : History} {e q b : Entry} {id : ModifierId} {t : ℤ}
  {n n' : List (Bytes × ℤ) → Except String Bytes} {current current' previous info : FullConsensusEpochInfo}
  {previousOpt previousOpt' : Option FullConsensusEpochInfo} {acc acc' : List (Bytes × ℤ)} {st st' : OmmersState}

/-! ## Ommers of ommers -/

theorem nextEpochInfo_congr (hnonce : n acc = n' acc') (previousEpoch epoch : ℤ) :
    nextEpochInfo n id current previousOpt ⟨acc, previousEpoch, current', previousOpt'⟩ epoch =
      nextEpochInfo n' id current previousOpt ⟨acc', previousEpoch, current', previousOpt'⟩ epoch := by
  simp only [nextEpochInfo, hnonce]

/-- one more output at the front of both accumulators -/
theorem nonces_cons (hnonces : ∀ a, n (a ++ acc) = n' (a ++ acc')) (x : Bytes × ℤ) (a : List (Bytes × ℤ)) :
    n (a ++ x :: acc) = n' (a ++ x :: acc') := by
  have h := hnonces (a ++ [x])
  simpa using h

mutual

/-- ommers are checked alike with accumulators from which the same nonces would be computed -/
theorem verifyOmmers_congr : ∀ (ommer : Ommer) {current : FullConsensusEpochInfo} {previousOpt : Option FullConsensusEpochInfo}
    {acc acc' : List (Bytes × ℤ)}, (∀ a, n (a ++ acc) = n' (a ++ acc')) →
      verifyOmmers cfg env n ommer current previousOpt acc = verifyOmmers cfg env n' ommer current previousOpt acc'
  | .mk header ommers, current, previousOpt, acc, acc', hnonces => by
    rw [verifyOmmers, verifyOmmers]
    congr 1
    rcases cfg.epochNumber header.timestamp with _ | epoch
    · rfl
    · exact verifyEach_congr ommers epoch header.id current previousOpt epoch hnonces

theorem verifyEach_congr : ∀ (ommers : List Ommer) (epoch : ℤ) (id : ModifierId) (current : FullConsensusEpochInfo)
    (previousOpt : Option FullConsensusEpochInfo) (previousEpoch : ℤ) {current' : FullConsensusEpochInfo}
    {previousOpt' : Option FullConsensusEpochInfo} {acc acc' : List (Bytes × ℤ)}, (∀ a, n (a ++ acc) = n' (a ++ acc')) →
      verifyEach cfg env n ommers epoch id current previousOpt ⟨acc, previousEpoch, current', previousOpt'⟩ =
        verifyEach cfg env n' ommers epoch id current previousOpt ⟨acc', previousEpoch, current', previousOpt'⟩
  | [], _, _, _, _, _, _, _, _, _, _ => by rw [verifyEach, verifyEach]
  | ommer :: rest, epoch, id, current, previousOpt, previousEpoch, current', previousOpt', acc, acc', hnonces => by
    have hnext : ∀ k, nextEpochInfo n id current previousOpt ⟨acc, previousEpoch, current', previousOpt'⟩ k =
        nextEpochInfo n' id current previousOpt ⟨acc', previousEpoch, current', previousOpt'⟩ k :=
      nextEpochInfo_congr (hnonces []) previousEpoch
    rw [verifyEach, verifyEach]
    congr 1
    funext epochAndSlot
    rw [hnext]
    congr 1
    funext infos
    obtain ⟨info, infoBefore⟩ := infos
    dsimp only
    congr 1
    funext output
    rw [verifyOmmers_congr ommer hnonces]
    congr 1
    funext _
    by_cases hlt : epochAndSlot.epochNumber < epoch
    · rw [if_pos hlt, if_pos hlt]
      exact verifyEach_congr rest epoch id current previousOpt _ (nonces_cons hnonces _)
    · rw [if_neg hlt, if_neg hlt]
      exact verifyEach_congr rest epoch id current previousOpt _ hnonces

end

mutual

/-- every ommer below is of one epoch -/
def AllIn (cfg : Config) (epoch : ℤ) : Ommer → Prop
  | .mk _ ommers => EachIn cfg epoch ommers

def EachIn (cfg : Config) (epoch : ℤ) : List Ommer → Prop
  | [] => True
  | ommer :: rest => cfg.epochNumber ommer.header.timestamp = .ok epoch ∧ AllIn cfg epoch ommer ∧ EachIn cfg epoch rest

end

mutual

/-- then neither the nonces that could be computed nor the data of the epoch before matter -/
theorem verifyOmmers_allIn {epoch : ℤ} : ∀ (ommer : Ommer) {current : FullConsensusEpochInfo}
    {previousOpt previousOpt' : Option FullConsensusEpochInfo} {acc acc' : List (Bytes × ℤ)},
      cfg.epochNumber ommer.header.timestamp = .ok epoch → AllIn cfg epoch ommer →
      verifyOmmers cfg env n ommer current previousOpt acc = verifyOmmers cfg env n' ommer current previousOpt' acc'
  | .mk header ommers, current, previousOpt, previousOpt', acc, acc', hepoch, hall => by
    rw [verifyOmmers, verifyOmmers]
    congr 1
    rw [Ommer.header] at hepoch
    rw [hepoch]
    rw [AllIn] at hall
    exact verifyEach_eachIn ommers hall

theorem verifyEach_eachIn {epoch : ℤ} : ∀ (ommers : List Ommer) {id : ModifierId} {current current' : FullConsensusEpochInfo}
    {previousOpt previousOpt' infoBefore infoBefore' : Option FullConsensusEpochInfo} {acc acc' : List (Bytes × ℤ)},
      EachIn cfg epoch ommers →
      verifyEach cfg env n ommers epoch id current previousOpt ⟨acc, epoch, current', infoBefore⟩ =
        verifyEach cfg env n' ommers epoch id current previousOpt' ⟨acc', epoch, current', infoBefore'⟩
  | [], _, _, _, _, _, _, _, _, _, _ => by rw [verifyEach, verifyEach]
  | ommer :: rest, id, current, current', previousOpt, previousOpt', infoBefore, infoBefore', acc, acc', heach => by
    rw [EachIn] at heach
    obtain ⟨hepoch, hall, hrest⟩ := heach
    rw [verifyEach, verifyEach, timestampToEpochAndSlot]
    rw [Config.epochNumber] at hepoch
    rw [hepoch]
    rcases timeStampToSlotNumber cfg.params cfg.sidechainGenesisBlockTimestamp ommer.header.timestamp with _ | slot
    · rfl
    · simp only [bind, Except.bind, pure, Except.pure, nextEpochInfo, lt_irrefl, if_false]
      rcases verifyOmmer cfg env ommer.header current' epoch with _ | output
      · rfl
      · simp only
        have hsame : verifyOmmers cfg env n ommer current' infoBefore acc = verifyOmmers cfg env n' ommer current' infoBefore'
            acc' :=
          verifyOmmers_allIn ommer hepoch hall
        rw [hsame]
        rcases verifyOmmers cfg env n' ommer current' infoBefore' acc' with _ | _
        · rfl
        · exact verifyEach_eachIn rest hrest

end

/-! ## The loop -/

/-- the epoch data and the VRF output that the loop of `verifyOmmers` takes for each ommer -/
def ommersEpochData (cfg : Config) (env : Externals) (calculateNonce : List (Bytes × ℤ) → Except String Bytes)
    (ommersContainerEpochNumber : ℤ) (containerId : ModifierId) (current : FullConsensusEpochInfo)
    (previousOpt : Option FullConsensusEpochInfo) :
    List Ommer → OmmersState → Except String (List (FullConsensusEpochInfo × Bytes))
  | [], _ => .ok []
  | ommer :: rest, st => do
    let ommerEpochAndSlot ←
      timestampToEpochAndSlot cfg.params cfg.sidechainGenesisBlockTimestamp ommer.header.timestamp
    let (info, infoBefore) ← nextEpochInfo calculateNonce containerId current previousOpt st ommerEpochAndSlot.epochNumber
    let vrfOutputOpt ← getVrfOutput cfg env ommer.header info.nonceConsensusEpochInfo
    let ommerVrfOutput ← vrfOutputOpt.elim (.error s!"VRF check for Ommer {ommer.header.id} had been failed") .ok
    let accumulator :=
      if ommerEpochAndSlot.epochNumber < ommersContainerEpochNumber then
        (ommerVrfOutput, ommerEpochAndSlot.slotNumber) :: st.accumulator
      else st.accumulator
    let others ← ommersEpochData cfg env calculateNonce ommersContainerEpochNumber containerId current previousOpt rest
      ⟨accumulator, ommerEpochAndSlot.epochNumber, info, infoBefore⟩
    return (info, ommerVrfOutput) :: others

/-- the epoch data and the VRF output of a block of the history -/
def HasData (cfg : Config) (env : Externals) (h : History) (b : Entry) (data : FullConsensusEpochInfo × Bytes) : Prop :=
  getFullConsensusEpochInfoForBlock cfg env h b.info.timestamp b.info.parentId = .ok data.1 ∧ b.info.vrfOutputOpt = some data.2

/-- the stake of a block is enough with the parameters of an epoch -/
def EnoughStake (cfg : Config) (env : Externals) (h : History) (b : Entry) (epoch : ℤ) : Prop :=
  ∃ data, HasData cfg env h b data ∧
    vrfProofCheckAgainstStake env data.2 b.block.header.forgingStakeInfo.stakeAmount data.1.stakeConsensusEpochInfo.totalStake
      (cfg.stakePercentageForkApplied epoch) (cfg.activeSlotCoefficient epoch) = .ok true

/-- blocks of the history but the first one, each on the one before -/
def ChainFrom (cfg : Config) (h : History) : Entry → List Entry → Prop
  | _, [] => True
  | q, b :: bs =>
    (b ∈ h.entries ∧ b.id ≠ cfg.sidechainGenesisBlockId ∧ b.block.header.parentId = q.id) ∧ ChainFrom cfg h b bs

section Loop

variable {epoch : ℤ} {v : Bytes} {bs : List Entry} {infoBefore : Option FullConsensusEpochInfo}

theorem Accepted.hasData (hinv : Invariant cfg env h) (htimely : ∀ e ∈ h.entries, cfg.Timely e.info.timestamp)
    (hb : b ∈ h.entries)
    (ha : Accepted cfg env h q b info previous v) : HasData cfg env h b (info, v) := by
  obtain ⟨l, hl, hlid, hcurrent, -⟩ := ha.data
  exact ⟨(fullConsensusEpochInfo_iff hinv.toDataOk htimely hb hl hlid).2 hcurrent, ha.output⟩

theorem HasData.unique {data data' : FullConsensusEpochInfo × Bytes} (h₁ : HasData cfg env h b data)
    (h₂ : HasData cfg env h b data') : data = data' := by
  obtain ⟨info, v⟩ := data
  obtain ⟨info', v'⟩ := data'
  obtain rfl : info = info' := Except.ok.inj (h₁.1.symm.trans h₂.1)
  obtain rfl : v = v' := Option.some.inj (h₁.2.symm.trans h₂.2)
  rfl

/-- of the checks of a block only that of its stake depends on the epoch -/
theorem Accepted.stake_iff (hinv : Invariant cfg env h) (htimely : ∀ e ∈ h.entries, cfg.Timely e.info.timestamp)
    (hb : b ∈ h.entries) (ha : Accepted cfg env h q b info previous v) :
    verifyForgingStakeInfo env b.block.header info.stakeConsensusEpochInfo v (cfg.stakePercentageForkApplied epoch)
      (cfg.activeSlotCoefficient epoch) = .ok () ↔ EnoughStake cfg env h b epoch := by
  have hdata := ha.hasData hinv htimely hb
  have hown := ha.stake
  simp only [verifyForgingStakeInfo, bind_ok_iff, failIf_ok] at hown ⊢
  obtain ⟨⟨⟩, hroot, -⟩ := hown
  constructor
  · rintro ⟨⟨⟩, -, enough, hcheck, henough⟩
    refine ⟨(info, v), hdata, ?_⟩
    rw [hcheck]
    simpa using henough
  · rintro ⟨data, hdata', hcheck⟩
    obtain rfl := hdata'.unique hdata
    exact ⟨(), hroot, true, hcheck, by simp⟩

/-- the loop passes over blocks of the history exactly when the stakes of those of earlier epochs are enough with the
parameters of the epoch of the container; each has its own epoch data and VRF output -/
def Checked (cfg : Config) (env : Externals) (h : History) (n : List (Bytes × ℤ) → Except String Bytes) (epoch : ℤ)
    (id : ModifierId) (current : FullConsensusEpochInfo) (previousOpt : Option FullConsensusEpochInfo) (bs : List Entry)
    (st : OmmersState) : Prop :=
  (verifyEach cfg env n (bs.map fun b => b.block.toOmmer) epoch id current previousOpt st = .ok () ↔
    ∀ b ∈ bs, cfg.epoch b.info.timestamp < epoch → EnoughStake cfg env h b epoch) ∧
  ∃ data, ommersEpochData cfg env n epoch id current previousOpt (bs.map fun b => b.block.toOmmer) st = .ok data ∧
    List.Forall₂ (HasData cfg env h) bs data

theorem Checked.nil : Checked cfg env h n epoch id current previousOpt [] st := by
  refine ⟨?_, [], rfl, List.Forall₂.nil⟩
  simp [verifyEach]

/-- one round of the loop -/
theorem Checked.cons (hinv : Invariant cfg env h) (htimely : ∀ e ∈ h.entries, cfg.Timely e.info.timestamp)
    (hb : b ∈ h.entries)
    (ha : Accepted cfg env h q b info previous v) (hle : cfg.epoch b.info.timestamp ≤ epoch)
    (hnext : nextEpochInfo n id current previousOpt st (cfg.epoch b.info.timestamp) = .ok (info, infoBefore))
    (hommers : verifyOmmers cfg env n b.block.toOmmer info infoBefore st.accumulator = .ok ())
    (hrest : Checked cfg env h n epoch id current previousOpt bs
      ⟨if cfg.epoch b.info.timestamp < epoch then (v, cfg.slot b.info.timestamp) :: st.accumulator else st.accumulator,
        cfg.epoch b.info.timestamp, info, infoBefore⟩) :
    Checked cfg env h n epoch id current previousOpt (b :: bs) st := by
  have ht := htimely b hb
  have hslot : timestampToEpochAndSlot cfg.params cfg.sidechainGenesisBlockTimestamp b.block.toOmmer.header.timestamp =
      .ok ⟨cfg.epoch b.info.timestamp, cfg.slot b.info.timestamp⟩ := by
    show timestampToEpochAndSlot cfg.params cfg.sidechainGenesisBlockTimestamp b.block.header.timestamp = _
    have hepoch := ht.epochNumber
    have hslot := ht.slotNumber
    rw [Config.epochNumber] at hepoch
    rw [Config.slotNumber] at hslot
    rw [← ha.timestamp, timestampToEpochAndSlot, hepoch, hslot]
    rfl
  have hvrf : getVrfOutput cfg env b.block.toOmmer.header info.nonceConsensusEpochInfo = .ok (some v) := ha.vrf
  have hstake : verifyForgingStakeInfo env b.block.toOmmer.header info.stakeConsensusEpochInfo v
      (cfg.stakePercentageForkApplied epoch)
      (cfg.activeSlotCoefficient epoch) = .ok () ↔ (cfg.epoch b.info.timestamp < epoch → EnoughStake cfg env h b epoch) := by
    rcases lt_or_eq_of_le hle with hlt | heq
    · rw [← ha.stake_iff hinv htimely hb]
      exact ⟨fun hok _ => hok, fun hok => hok hlt⟩
    · rw [← heq]
      exact ⟨fun _ hlt => absurd hlt (lt_irrefl _), fun _ => ha.stake⟩
  obtain ⟨hverified, data, hdata, hforall⟩ := hrest
  refine ⟨?_, (info, v) :: data, ?_, List.Forall₂.cons (ha.hasData hinv htimely hb) hforall⟩
  · rw [List.forall_mem_cons, ← hstake, ← hverified, List.map_cons, verifyEach, hslot]
    simp only [bind, Except.bind, hnext, verifyOmmer, hvrf, Option.elim, hommers]
    rcases verifyForgingStakeInfo env b.block.toOmmer.header info.stakeConsensusEpochInfo v (cfg.stakePercentageForkApplied epoch)
      (cfg.activeSlotCoefficient epoch) with _ | _
    · simp
    · simp [pure, Except.pure]
  · rw [List.map_cons, ommersEpochData, hslot]
    simp only [bind, Except.bind, hnext, hvrf, Option.elim, hdata]
    rfl

/-- the block of the history that another one was accepted on -/
theorem Invariant.accepted_on (hinv : Invariant cfg env h) (hq : q ∈ h.entries) (hb : b ∈ h.entries)
    (hid : b.id ≠ cfg.sidechainGenesisBlockId) (hparent : b.block.header.parentId = q.id) :
    ∃ current previous v, Accepted cfg env h q b current previous v := by
  obtain ⟨q', hq', current, previous, v, ha⟩ := hinv.accepted b hb hid
  have hqid : q'.id = q.id := by
    rw [← ha.link.parent, ha.parentId, hparent]
  obtain rfl := hinv.chained.eq_of_id hq' hq hqid
  exact ⟨current, previous, v, ha⟩

theorem Extends.last_same (hext : Extends cfg q b) (hsame : cfg.epoch q.info.timestamp = cfg.epoch b.info.timestamp) :
    b.info.lastBlockInPreviousConsensusEpoch = q.info.lastBlockInPreviousConsensusEpoch := by
  rw [hext.last, if_neg (by omega)]

theorem Extends.last_next (hext : Extends cfg q b) (hlt : cfg.epoch q.info.timestamp < cfg.epoch b.info.timestamp) :
    b.info.lastBlockInPreviousConsensusEpoch = q.id := by
  rw [hext.last, if_pos hlt]

/-- the ommers of a block that are all of its own epoch pass in any container -/
theorem Accepted.ommers_allIn (htimely : ∀ e ∈ h.entries, cfg.Timely e.info.timestamp) (hb : b ∈ h.entries)
    (ha : Accepted cfg env h q b info previous v) (hall : AllIn cfg (cfg.epoch b.info.timestamp) b.block.toOmmer) :
    verifyOmmers cfg env n b.block.toOmmer info infoBefore acc = .ok () := by
  have hepoch : cfg.epochNumber b.block.toOmmer.header.timestamp = .ok (cfg.epoch b.info.timestamp) := by
    rw [← (htimely b hb).epochNumber, ha.timestamp]
    rfl
  calc verifyOmmers cfg env n b.block.toOmmer info infoBefore acc
      = verifyOmmers cfg env (trueNonceFrom cfg env h.entries q) b.block.toOmmer info (some previous) [] :=
        verifyOmmers_allIn b.block.toOmmer hepoch hall
    _ = .ok () := ha.ommers

/-! ### The epochs of consecutive ommers -/

theorem nextEpochInfo_same {previousEpoch ommerEpoch : ℤ} (heq : ommerEpoch = previousEpoch) :
    nextEpochInfo n id current previousOpt ⟨acc, previousEpoch, info, infoBefore⟩ ommerEpoch = .ok (info, infoBefore) := by
  subst heq
  simp [nextEpochInfo]

theorem nextEpochInfo_before {previousEpoch ommerEpoch : ℤ} (hlt : ommerEpoch < previousEpoch) :
    nextEpochInfo n id current (some previous) ⟨acc, previousEpoch, info, infoBefore⟩ ommerEpoch = .ok (previous, none) := by
  simp [nextEpochInfo, hlt]

theorem nextEpochInfo_after {previousEpoch ommerEpoch : ℤ} (hlt : previousEpoch < ommerEpoch) {nonce : Bytes}
    (hnonce : n acc = .ok nonce) :
    nextEpochInfo n id current previousOpt ⟨acc, previousEpoch, info, infoBefore⟩ ommerEpoch =
      .ok (⟨current.stakeConsensusEpochInfo, nonce⟩, previousOpt) := by
  rw [nextEpochInfo.eq_def, if_neg hlt.not_gt, if_pos hlt, hnonce]
  rfl

/-- ommers of the epoch of the container, on a block of that epoch -/
theorem verifyEach_sameEpoch (hinv : Invariant cfg env h) (htimely : ∀ e ∈ h.entries, cfg.Timely e.info.timestamp)
    (bs : List Entry)
    (hq : q ∈ h.entries) (hchain : ChainFrom cfg h q bs) (hepoch : cfg.epoch q.info.timestamp = epoch)
    (hsame : ∀ b ∈ bs, cfg.epoch b.info.timestamp = epoch) (hall : ∀ b ∈ bs, AllIn cfg epoch b.block.toOmmer)
    (hdata : EpochData cfg env h q.info.lastBlockInPreviousConsensusEpoch info previous) :
    Checked cfg env h n epoch id current previousOpt bs ⟨acc, epoch, info, infoBefore⟩ := by
  induction bs generalizing q with
  | nil => exact Checked.nil
  | cons b bs ih =>
    obtain ⟨⟨hb, hid, hparent⟩, hrest⟩ := hchain
    obtain ⟨current', previous', v, ha⟩ := hinv.accepted_on hq hb hid hparent
    have hbepoch := hsame b (List.mem_cons_self ..)
    have hlast := ha.link.last_same (hepoch.trans hbepoch.symm)
    have hdata' := ha.data
    rw [hlast] at hdata'
    obtain ⟨rfl, rfl⟩ := hdata.unique hinv.toDataOk hdata'
    apply Checked.cons hinv htimely hb ha hbepoch.le (nextEpochInfo_same hbepoch)
    · apply ha.ommers_allIn htimely hb
      rw [hbepoch]
      exact hall b (List.mem_cons_self ..)
    · rw [hbepoch, if_neg (lt_irrefl _)]
      apply ih hb hrest hbepoch (fun b' hb' => hsame b' (List.mem_cons_of_mem _ hb'))
        (fun b' hb' => hall b' (List.mem_cons_of_mem _ hb'))
      rw [hlast]
      exact hdata

/-- No block that is of the epoch of its parent has an ommer of another epoch. This is asked for more blocks than needed: those
of the epoch of the new block are checked with the data of both epochs anyway. -/
def OwnOmmers (cfg : Config) : Entry → List Entry → Prop
  | _, [] => True
  | q, b :: bs =>
    (cfg.epoch q.info.timestamp = cfg.epoch b.info.timestamp → AllIn cfg (cfg.epoch b.info.timestamp) b.block.toOmmer) ∧
      OwnOmmers cfg b bs

theorem ChainFrom.epoch_le (hinv : Invariant cfg env h) (hq : q ∈ h.entries) (hchain : ChainFrom cfg h q bs) :
    ∀ b ∈ bs, cfg.epoch q.info.timestamp ≤ cfg.epoch b.info.timestamp := by
  induction bs generalizing q with
  | nil => simp
  | cons b bs ih =>
    obtain ⟨⟨hb, hid, hparent⟩, hrest⟩ := hchain
    obtain ⟨_, _, _, ha⟩ := hinv.accepted_on hq hb hid hparent
    intro b' hb'
    rcases List.mem_cons.1 hb' with rfl | hmem
    · exact ha.link.epoch_le
    · exact ha.link.epoch_le.trans (ih hb hrest b' hmem)

theorem OwnOmmers.allIn (hown : OwnOmmers cfg q bs) (hepoch : cfg.epoch q.info.timestamp = epoch)
    (hsame : ∀ b ∈ bs, cfg.epoch b.info.timestamp = epoch) : ∀ b ∈ bs, AllIn cfg epoch b.block.toOmmer := by
  induction bs generalizing q with
  | nil => simp
  | cons b bs ih =>
    have hb := hsame b (List.mem_cons_self ..)
    intro b' hb'
    rcases List.mem_cons.1 hb' with rfl | hmem
    · rw [← hb]
      exact hown.1 (hepoch.trans hb.symm)
    · exact ih hown.2 hb (fun b hmem => hsame b (List.mem_cons_of_mem _ hmem)) b' hmem

/-- the same, without the epochs of the ommers: they lie between those of the block and of the container -/
theorem checked_sameEpoch (hinv : Invariant cfg env h) (htimely : ∀ e ∈ h.entries, cfg.Timely e.info.timestamp)
    (hq : q ∈ h.entries) (hchain : ChainFrom cfg h q bs) (hown : OwnOmmers cfg q bs)
    (hepoch : cfg.epoch q.info.timestamp = epoch)
    (hle : ∀ b ∈ bs, cfg.epoch b.info.timestamp ≤ epoch)
    (hdata : EpochData cfg env h q.info.lastBlockInPreviousConsensusEpoch info previous) :
    Checked cfg env h n epoch id current previousOpt bs ⟨acc, epoch, info, infoBefore⟩ := by
  have hsame : ∀ b ∈ bs, cfg.epoch b.info.timestamp = epoch := by
    intro b hb
    apply le_antisymm (hle b hb)
    rw [← hepoch]
    exact hchain.epoch_le hinv hq b hb
  exact verifyEach_sameEpoch hinv htimely bs hq hchain hepoch hsame (hown.allIn hepoch hsame) hdata

/-- the nonces up to a block are those up to `P`, with the outputs of the blocks in between passed in -/
theorem trueNonceFrom_parent (hinv : Invariant cfg env h) (htimely : ∀ e ∈ h.entries, cfg.Timely e.info.timestamp)
    (hq : q ∈ h.entries)
    (hb : b ∈ h.entries) (hid : b.id ≠ cfg.sidechainGenesisBlockId) (ha : Accepted cfg env h q b info previous v)
    (hsame : cfg.epoch q.info.timestamp = cfg.epoch b.info.timestamp)
    (hnonces : ∀ a, trueNonceFrom cfg env h.entries q a = n (a ++ acc)) (a : List (Bytes × ℤ)) :
    trueNonceFrom cfg env h.entries b a = n (a ++ (v, cfg.slot b.info.timestamp) :: acc) := by
  calc trueNonceFrom cfg env h.entries b a
      = trueNonceFrom cfg env h.entries q (a ++ [(v, cfg.slot b.info.timestamp)]) :=
        hinv.chained.nonce_parent hb hid hq ha.link hsame (htimely b hb) (htimely q hq) ha.output _ a
    _ = n (a ++ [(v, cfg.slot b.info.timestamp)] ++ acc) := hnonces _
    _ = n (a ++ (v, cfg.slot b.info.timestamp) :: acc) := by rw [List.append_assoc, List.singleton_append]

/-- after the first ommer of the epoch before: the ommers of that epoch, and those after them -/
theorem verifyEach_previousEpoch (hinv : Invariant cfg env h) (htimely : ∀ e ∈ h.entries, cfg.Timely e.info.timestamp)
    (bs : List Entry)
    {l : ModifierId} {before : FullConsensusEpochInfo} (hq : q ∈ h.entries) (hqid : q.id ≠ cfg.sidechainGenesisBlockId)
    (hchain : ChainFrom cfg h q bs) (hown : OwnOmmers cfg q bs) (hepoch : cfg.epoch q.info.timestamp + 1 = epoch)
    (hle : ∀ b ∈ bs, cfg.epoch b.info.timestamp ≤ epoch) (hl : q.info.lastBlockInPreviousConsensusEpoch = l)
    (hdata : EpochData cfg env h l previous before) (hstake : h.stakes l = some current.stakeConsensusEpochInfo)
    (hnonces : ∀ a, trueNonceFrom cfg env h.entries q a = n (a ++ acc)) :
    Checked cfg env h n epoch id current (some previous) bs ⟨acc, cfg.epoch q.info.timestamp, previous, none⟩ := by
  induction bs generalizing q acc with
  | nil => exact Checked.nil
  | cons b bs ih =>
    obtain ⟨⟨hb, hid, hparent⟩, hrest⟩ := hchain
    obtain ⟨info, infoBefore, v, ha⟩ := hinv.accepted_on hq hb hid hparent
    have hble := hle b (List.mem_cons_self ..)
    have hrestle : ∀ b ∈ bs, cfg.epoch b.info.timestamp ≤ epoch := fun b' hb' => hle b' (List.mem_cons_of_mem _ hb')
    have hqle := ha.link.epoch_le
    have hdata' := ha.data
    rcases hqle.lt_or_eq with hlt | hsame
    · -- the first ommer of the epoch of the container
      have hbepoch : cfg.epoch b.info.timestamp = epoch := by omega
      rw [ha.link.last_next hlt] at hdata'
      obtain ⟨l₁, hl₁, hlid₁, hcurrent₁, l₂, hl₂, hlid₂, hcurrent₂⟩ := hdata'
      obtain rfl := hinv.chained.eq_of_id hl₁ hq hlid₁
      obtain ⟨l₃, hl₃, hlid₃, hcurrent₃, -⟩ := hdata
      obtain rfl := hinv.chained.eq_of_id hl₂ hl₃ (by rw [hlid₂, hl, hlid₃])
      obtain rfl : infoBefore = previous := Option.some.inj (hcurrent₂.symm.trans hcurrent₃)
      simp only [epochInfo, Option.bind_eq_bind, Option.bind_eq_some_iff, hl, hstake] at hcurrent₁
      obtain ⟨_, hsome, nonce, hnonce, hok⟩ := hcurrent₁
      obtain rfl := Option.some.inj hsome
      obtain rfl := Option.some.inj hok
      have htrue : n acc = .ok nonce := by
        rw [← List.nil_append acc, ← hnonces [], trueNonceFrom, ← hinv.chained.trueNonce_eq hq hqid]
        rcases htrue : trueNonce cfg env h.entries l₁.id with _ | nonce'
        · rw [htrue] at hnonce
          cases hnonce
        · rw [htrue] at hnonce
          rw [Option.some.inj hnonce]
      apply Checked.cons hinv htimely hb ha hble (nextEpochInfo_after hlt htrue)
      · rw [← ha.ommers]
        apply verifyOmmers_congr
        intro a
        rw [List.append_nil, hnonces a]
      · rw [hbepoch, if_neg (lt_irrefl _)]
        exact checked_sameEpoch hinv htimely hb hrest hown.2 hbepoch hrestle ha.data
    · -- one more of the epoch before
      have hlast := ha.link.last_same hsame
      rw [hlast, hl] at hdata'
      obtain ⟨rfl, rfl⟩ := hdata.unique hinv.toDataOk hdata'
      have hblt : cfg.epoch b.info.timestamp < epoch := by omega
      apply Checked.cons hinv htimely hb ha hble (nextEpochInfo_same hsame.symm)
      · exact ha.ommers_allIn htimely hb (hown.1 hsame)
      · rw [if_pos hblt]
        apply ih hb hid hrest hown.2 (by omega) hrestle (hlast.trans hl)
        exact trueNonceFrom_parent hinv htimely hq hb hid ha hsame hnonces

/-- the ommers of a block on `P`, from the first one -/
theorem checked_from_parent {P : Entry} (hinv : Invariant cfg env h) (htimely : ∀ e ∈ h.entries, cfg.Timely e.info.timestamp)
    (hP : P ∈ h.entries) (hchain : ChainFrom cfg h P bs) (hown : OwnOmmers cfg P bs)
    (hepoch : cfg.epoch P.info.timestamp ≤ epoch)
    (hskip : epoch ≤ cfg.epoch P.info.timestamp + 1) (hle : ∀ b ∈ bs, cfg.epoch b.info.timestamp ≤ epoch)
    (hdata : EpochData cfg env h
      (if cfg.epoch P.info.timestamp < epoch then P.id else P.info.lastBlockInPreviousConsensusEpoch) current previous) :
    Checked cfg env h (trueNonceFrom cfg env h.entries P) epoch id current (some previous) bs
      ⟨[], epoch, current, some previous⟩ := by
  rcases hepoch.lt_or_eq with hlt | heq
  · rw [if_pos hlt] at hdata
    cases bs with
    | nil => exact Checked.nil
    | cons b bs =>
      obtain ⟨⟨hb, hid, hparent⟩, hrest⟩ := hchain
      obtain ⟨info, infoBefore, v, ha⟩ := hinv.accepted_on hP hb hid hparent
      have hble := hle b (List.mem_cons_self ..)
      have hrestle : ∀ b ∈ bs, cfg.epoch b.info.timestamp ≤ epoch := fun b' hb' => hle b' (List.mem_cons_of_mem _ hb')
      have hdata' := ha.data
      rcases ha.link.epoch_le.lt_or_eq with hblt | hsame
      · -- already in the epoch of the container: both follow the last block of the epoch before
        have hbepoch : cfg.epoch b.info.timestamp = epoch := by omega
        rw [ha.link.last_next hblt] at hdata'
        obtain ⟨rfl, rfl⟩ := hdata.unique hinv.toDataOk hdata'
        apply Checked.cons hinv htimely hb ha hble (nextEpochInfo_same hbepoch) ha.ommers
        rw [hbepoch, if_neg (lt_irrefl _)]
        exact checked_sameEpoch hinv htimely hb hrest hown.2 hbepoch hrestle ha.data
      · obtain ⟨l₁, hl₁, hlid₁, hcurrent₁, l₂, hl₂, hlid₂, hcurrent₂⟩ := hdata
        obtain rfl := hinv.chained.eq_of_id hl₁ hP hlid₁
        rw [ha.link.last_same hsame] at hdata'
        have hbefore := hdata'
        obtain ⟨l₃, hl₃, hlid₃, hcurrent₃, -⟩ := hbefore
        obtain rfl := hinv.chained.eq_of_id hl₂ hl₃ (hlid₂.trans hlid₃.symm)
        obtain rfl : info = previous := Option.some.inj (hcurrent₃.symm.trans hcurrent₂)
        have hstake : h.stakes l₁.info.lastBlockInPreviousConsensusEpoch = some current.stakeConsensusEpochInfo := by
          simp only [epochInfo, Option.bind_eq_bind, Option.bind_eq_some_iff] at hcurrent₁
          obtain ⟨stake, hstake, nonce, -, hok⟩ := hcurrent₁
          rw [hstake, ← Option.some.inj hok]
        have hblt : cfg.epoch b.info.timestamp < epoch := by omega
        apply Checked.cons hinv htimely hb ha hble (nextEpochInfo_before hblt)
        · exact ha.ommers_allIn htimely hb (hown.1 hsame)
        · rw [if_pos hblt]
          apply verifyEach_previousEpoch hinv htimely bs hb hid hrest hown.2 (by omega) hrestle (ha.link.last_same hsame) hdata'
            hstake
          apply trueNonceFrom_parent hinv htimely hP hb hid ha hsame
          intro a
          rw [List.append_nil]
  · rw [if_neg heq.not_lt] at hdata
    exact checked_sameEpoch hinv htimely hP hchain hown heq hle hdata

end Loop

/-! ## Blocks as ommers -/

theorem verifyOmmers_eq {header : SidechainBlockHeader} {ommers : List Ommer} {epoch : ℤ}
    (hepoch : cfg.epochNumber header.timestamp = .ok epoch) :
    verifyOmmers cfg env n (.mk header ommers) current previousOpt [] =
      verifyEach cfg env n ommers epoch header.id current previousOpt ⟨[], epoch, current, previousOpt⟩ := by
  rw [verifyOmmers]
  cases ommers with
  | nil => simp [verifyEach]
  | cons ommer rest =>
    rw [hepoch]
    rfl

/-- the epoch data and VRF outputs that the validator takes for the ommers of a block -/
def ommersDataOf (cfg : Config) (env : Externals) (h : History) (verifiedBlock : SidechainBlock) :
    Except String (List (FullConsensusEpochInfo × Bytes)) := do
  let parentBlockInfo ← blockInfoById h.entries verifiedBlock.header.parentId
  let current ← getFullConsensusEpochInfoForBlock cfg env h verifiedBlock.header.timestamp verifiedBlock.header.parentId
  let lastBlockInPreviousConsensusEpoch ←
    getLastBlockInPreviousConsensusEpoch cfg h verifiedBlock.header.timestamp verifiedBlock.header.parentId
  let lastInfo ← blockInfoById h.entries lastBlockInPreviousConsensusEpoch
  let previous ← getFullConsensusEpochInfoForBlock cfg env h lastInfo.timestamp lastInfo.parentId
  let epoch ← cfg.epochNumber verifiedBlock.header.timestamp
  ommersEpochData cfg env (h.calculateNonce cfg env verifiedBlock.header.parentId parentBlockInfo) epoch verifiedBlock.header.id
    current (some previous) verifiedBlock.ommers ⟨[], epoch, current, some previous⟩

/-- **Ommers.** Blocks of a history, each on the one before and the first on `P`, are included as ommers in a block `X` on `P`
that is valid without them. Their epoch data and VRF outputs come out as they did for the blocks. `X` is valid with them
exactly when the stakes of those of the epoch before are enough with the parameters of the epoch of `X`. -/
theorem valid_as_ommers (hreachable : Reachable cfg env h) (htimely : ∀ e ∈ h.entries, cfg.Timely e.info.timestamp)
    {P : Entry} (hP : P ∈ h.entries) {bs : List Entry} (hchain : ChainFrom cfg h P bs) {X : SidechainBlock} {now : ℤ}
    (hparent : X.header.parentId = P.id) (hommers : X.ommers = bs.map fun b => b.block.toOmmer)
    (hvalid : validateNonGenesisBlock cfg env h now ⟨X.header, []⟩ = .ok ()) (htX : cfg.Timely X.header.timestamp)
    (hle : ∀ b ∈ bs, cfg.epoch b.info.timestamp ≤ cfg.epoch X.header.timestamp) (hown : OwnOmmers cfg P bs) :
    (∃ data, ommersDataOf cfg env h X = .ok data ∧ List.Forall₂ (HasData cfg env h) bs data) ∧
      (validateNonGenesisBlock cfg env h now X = .ok () ↔
        ∀ b ∈ bs, cfg.epoch b.info.timestamp < cfg.epoch X.header.timestamp →
          EnoughStake cfg env h b (cfg.epoch X.header.timestamp)) := by
  have hinv := reachable_invariant hreachable htimely
  obtain ⟨parentInfo, hinfo, htime, current, hcurrent, hheader, lastId, hlast, lastInfo, hlastInfo, previous, hprevious, -,
    hfuture⟩ :=
    validateNonGenesisBlock_iff.1 hvalid
  simp only [hparent] at hinfo hcurrent hlast
  have htP := htimely P hP
  obtain rfl : P.info = parentInfo := Except.ok.inj ((hinv.chained.blockInfoById_eq hP).symm.trans hinfo)
  have hext := extends_of_valid hinv.toDataOk hP htP hparent htX htime (by rw [hparent]; exact hlast) none
  have hgenesis : ¬ cfg.isGenesisBlock X.header.timestamp P.id := by
    intro hg
    exact hext.after_genesis.ne' hg.1
  have hdata := epochData_of_valid hinv.toDataOk htimely hgenesis hcurrent hlast hlastInfo hprevious
  rw [((getLastBlockInPreviousConsensusEpoch_ok hinv.toDataOk hP htP htX).1 hlast).2] at hdata
  have hchecked : Checked cfg env h (trueNonceFrom cfg env h.entries P) (cfg.epoch X.header.timestamp) X.header.id current
      (some previous) bs ⟨[], cfg.epoch X.header.timestamp, current, some previous⟩ :=
    checked_from_parent hinv htimely hP hchain hown hext.epoch_le hext.epoch_skipped hle hdata
  obtain ⟨hverified, data, hommersData, hforall⟩ := hchecked
  rw [← hinv.calculateNonce_eq] at hverified hommersData
  refine ⟨⟨data, ?_, hforall⟩, ?_⟩
  · simp only [ommersDataOf, hparent, hinfo, hcurrent, hlast, hlastInfo, hprevious, htX.epochNumber, bind, Except.bind, hommers]
    exact hommersData
  · rw [← hverified, ← hommers, ← verifyOmmers_eq htX.epochNumber, validateNonGenesisBlock_iff]
    constructor
    · rintro ⟨_, hinfo', -, _, hcurrent', -, _, hlast', _, hlastInfo', _, hprevious', hok, -⟩
      rw [hparent] at hinfo' hcurrent' hlast'
      obtain rfl := Except.ok.inj (hinfo.symm.trans hinfo')
      obtain rfl := Except.ok.inj (hcurrent.symm.trans hcurrent')
      obtain rfl := Except.ok.inj (hlast.symm.trans hlast')
      obtain rfl := Except.ok.inj (hlastInfo.symm.trans hlastInfo')
      obtain rfl := Except.ok.inj (hprevious.symm.trans hprevious')
      rw [hparent] at hok
      exact hok
    · intro hok
      rw [hparent]
      exact ⟨P.info, hinfo, htime, current, hcurrent, hheader, lastId, hlast, lastInfo, hlastInfo, previous, hprevious, hok,
        hfuture⟩

/-! A forger with half of the stake. On `P`, of epoch 2, are a block of epoch 2 and one of epoch 3 with the first as an ommer. The
VRF output of the ommer asks for 23% of the stake before the fork of the stake percentage and for 75% after it. -/

section Sample

def sampleConfig (forkActivation : ℤ) : Config where
  params := defaultParams
  sidechainGenesisBlockTimestamp := 1000000
  sidechainGenesisBlockId := 1
  sidechainGenesisBlockParentId := 0
  forkActivation := forkActivation
  activeSlotCoefficientForks := []

/-- each proof is its own output, and a path is followed by its leaf -/
def sampleExternals : Externals where
  proofToVrfOutput proof _ _ := some proof
  poseidonHash _ := List.replicate 32 0
  sha256 _ := List.replicate 32 0
  stakeInfoHash info := info.blockSignPublicKey
  applyMerklePath path leaf := path ++ leaf
  oneMinusPow activeSlotCoefficient _ := activeSlotCoefficient
  FIELD_ELEMENT_LENGTH := 32

def sampleHeader (id parentId : ModifierId) (timestamp : ℤ) (vrfProof : Bytes) : SidechainBlockHeader where
  id := id
  parentId := parentId
  timestamp := timestamp
  forgingStakeInfo := ⟨[7], [8], 50⟩
  forgingStakeMerklePath := [9]
  vrfProof := vrfProof
  vrfOutput := none

def lowOutput : Bytes := List.replicate 32 0

/-- three quarters of the range -/
def highOutput : Bytes := 192 :: List.replicate 31 0

def sampleGenesis : SidechainBlock := ⟨sampleHeader 1 0 1000000 lowOutput, []⟩

def sampleStake : StakeConsensusEpochInfo := ⟨[9, 7], 100⟩

def sampleParent : Entry := ⟨⟨sampleHeader 2 1 1000012 lowOutput, []⟩, 1, 1000012, some lowOutput, 1⟩

def sampleOmmer : Entry := ⟨⟨sampleHeader 3 2 1000024 highOutput, []⟩, 2, 1000024, some highOutput, 1⟩

def sampleBlock : SidechainBlock := ⟨sampleHeader 4 2 1008652 lowOutput, [sampleOmmer.block.toOmmer]⟩

variable (k : ℤ)

def historyOfParent : History :=
  let start := createGenesisHistory (sampleConfig k) sampleGenesis sampleStake
  { start with entries := sampleParent :: start.entries }

def sampleHistory : History := { historyOfParent k with entries := sampleOmmer :: (historyOfParent k).entries }

theorem append_eq {block : SidechainBlock} {now : ℤ} {info : SidechainBlockInfo}
    (hnew : block.header.id ∉ h.entries.map Entry.id)
    (hvalid : validateNonGenesisBlock cfg env h now block = .ok ()) (hinfo : calculateBlockInfo cfg env h block = .ok info) :
    append cfg env h now block = .ok { h with entries := ⟨block, info⟩ :: h.entries } := by
  rw [append, failIf, if_neg hnew, hvalid, hinfo]
  rfl

theorem sample_genesis : IsGenesis (sampleConfig k) sampleGenesis := ⟨rfl, rfl, rfl⟩

theorem sample_timely {t : ℤ} (hge : 1000000 ≤ t) (hfits : epochAt defaultParams 1000000 t < 2 ^ 31) :
    (sampleConfig k).Timely t :=
  ⟨hge, fun _ hf => absurd hf List.not_mem_nil, hfits⟩

theorem sample_timely_entries : ∀ e ∈ (sampleHistory k).entries, (sampleConfig k).Timely e.info.timestamp := by
  intro e he
  simp only [sampleHistory, historyOfParent, createGenesisHistory, List.mem_cons, List.not_mem_nil, or_false] at he
  rcases he with rfl | rfl | rfl
  · exact sample_timely k (by decide) (by decide +kernel)
  · exact sample_timely k (by decide) (by decide +kernel)
  · exact sample_timely k (by decide) (by decide +kernel)

theorem sample_reachable (hk : k = 3 ∨ k = 10) : Reachable (sampleConfig k) sampleExternals (sampleHistory k) := by
  have hstart : Reachable (sampleConfig k) sampleExternals (createGenesisHistory (sampleConfig k) sampleGenesis sampleStake) :=
    Reachable.genesis (sample_genesis k) sampleStake
  have hnext : Reachable (sampleConfig k) sampleExternals (historyOfParent k) := by
    apply Reachable.append hstart 2000000 sampleParent.block
    apply append_eq
    · rcases hk with rfl | rfl <;> decide
    · rcases hk with rfl | rfl <;> decide +kernel
    · rcases hk with rfl | rfl <;> decide +kernel
  apply Reachable.append hnext 2000000 sampleOmmer.block
  apply append_eq
  · rcases hk with rfl | rfl <;> decide
  · rcases hk with rfl | rfl <;> decide +kernel
  · rcases hk with rfl | rfl <;> decide +kernel

theorem sample_chain : ChainFrom (sampleConfig k) (sampleHistory k) sampleParent [sampleOmmer] :=
  ⟨⟨List.mem_cons_self .., by show (3 : ℕ) ≠ 1; decide, rfl⟩, trivial⟩

theorem sample_ownOmmers : OwnOmmers (sampleConfig k) sampleParent [sampleOmmer] := by
  refine ⟨fun _ => ?_, trivial⟩
  rw [SidechainBlock.toOmmer, AllIn]
  trivial

/-- the epochs of the ommer and of the block -/
theorem sample_epochs :
    (sampleConfig k).epoch sampleOmmer.info.timestamp = 2 ∧ (sampleConfig k).epoch sampleBlock.header.timestamp = 3 :=
  ⟨show epochAt defaultParams 1000000 1000024 = 2 by decide +kernel,
    show epochAt defaultParams 1000000 1008652 = 3 by decide +kernel⟩

theorem sample_valid_as_ommer :
    validateNonGenesisBlock (sampleConfig 10) sampleExternals (sampleHistory 10) 2000000 sampleBlock = .ok () := by
  obtain ⟨hommer, hblock⟩ := sample_epochs 10
  have hresult := (valid_as_ommers (sample_reachable 10 (.inr rfl)) (sample_timely_entries 10)
    (List.mem_cons_of_mem _ (List.mem_cons_self ..)) (sample_chain 10) rfl rfl
    (show validateNonGenesisBlock (sampleConfig 10) sampleExternals (sampleHistory 10) 2000000
      ⟨sampleBlock.header, []⟩ = .ok ()
      by decide +kernel)
    (sample_timely 10 (by decide) (by decide +kernel))
    (by
      intro b hb
      rw [List.mem_singleton.1 hb, hommer, hblock]
      decide)
    (sample_ownOmmers 10)).2
  apply hresult.2
  intro b hb _
  rw [List.mem_singleton.1 hb, hblock]
  exact ⟨(⟨sampleStake, calculateNonceForGenesisBlock (sampleConfig 10)⟩, highOutput),
    ⟨by decide +kernel, rfl⟩, by decide +kernel⟩

/-- with the fork at epoch 3, the ommer is rejected: the stake that was enough for the block is not enough for the ommer -/
theorem stake_not_enough_as_ommer :
    Reachable (sampleConfig 3) sampleExternals (sampleHistory 3) ∧
      ChainFrom (sampleConfig 3) (sampleHistory 3) sampleParent [sampleOmmer] ∧
      OwnOmmers (sampleConfig 3) sampleParent [sampleOmmer] ∧
      validateNonGenesisBlock (sampleConfig 3) sampleExternals (sampleHistory 3) 2000000 ⟨sampleBlock.header, []⟩ = .ok () ∧
      sampleBlock.header.parentId = sampleParent.id ∧ sampleBlock.ommers = [sampleOmmer.block.toOmmer] ∧
      validateNonGenesisBlock (sampleConfig 3) sampleExternals (sampleHistory 3) 2000000 sampleBlock =
        .error "Forging stake value in block 3 is not enough for to be forger." :=
  ⟨sample_reachable 3 (.inl rfl), sample_chain 3, sample_ownOmmers 3, by decide +kernel, rfl, rfl, by decide +kernel⟩

end Sample

end SidechainsSdk.Consensus
