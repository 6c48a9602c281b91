/-
Timestamps of slots and slots of timestamps. The two directions of `TimeToEpochUtils` are inverse to each other as long as
the epochs fit an `Int` and, with one fork, the seconds since the virtual genesis do too: there the code multiplies them as
`Int`s, where with several forks it uses `Long`s.

- `epochAt_slotStart`, `slotAt_slotStart`, `slotStart_floor`: the timetable of slots.
- `roundTrip_iff`: from a slot to its timestamp and back.
- `within_iff`: from a timestamp to its slot and back.
- `slot_times`: both, with the slots of consecutive seconds.
-/
import Mathlib.Tactic
import SidechainsSdk.Consensus.TimeToEpochUtils

namespace SidechainsSdk.Consensus.SlotTimes

open Fallible MachineInt TimeToEpochUtils

section Times

variable (p : ConsensusParams) (G : ℤ)

/-- the time at which a slot starts -/
def slotStart (e slot : ℤ) : ℤ := epochStart p G e + (slot - 1) * (forkOf p e).seconds

/-- the time at which the slot after that of `t` starts -/
def nextSlotStart (t : ℤ) : ℤ := slotStart p G (epochAt p G t) (slotAt p G t + 1)

/-- every epoch is longer than one slot of the first fork -/
def EpochsLongerThanSlot : Prop := ∀ f ∈ p.head :: p.others, p.head.seconds < f.epochInSeconds

/-- a slot of an epoch, at or after the slot of the genesis block, and less than `2 ^ 31` seconds after it -/
structure ValidSlot (e slot : ℤ) : Prop where
  epoch : 1 ≤ e ∧ e < 2 ^ 31
  slot_pos : 1 ≤ slot
  slot_le : slot ≤ (p.get e).consensusSlotsInEpoch
  after_genesis : G ≤ slotStart p G e slot
  elapsed : slotStart p G e slot - G < 2 ^ 31

/-- the slot after a slot -/
def following (es : ConsensusEpochAndSlot) : ConsensusEpochAndSlot :=
  if es.slotNumber < (p.get es.epochNumber).consensusSlotsInEpoch then ⟨es.epochNumber, es.slotNumber + 1⟩
  else ⟨intOf (es.epochNumber + 1), 1⟩

/-- the slot of the timestamp of a slot is the slot -/
def RoundTrip (e slot : ℤ) : Prop :=
  (getTimeStampForEpochAndSlot p G e slot >>= timestampToEpochAndSlot p G) = .ok ⟨e, slot⟩

/-- a timestamp lies between the timestamp of its slot and that of the following one -/
def Within (t : ℤ) : Prop :=
  ∃ es τ τ', timestampToEpochAndSlot p G t = .ok es ∧
    getTimeStampForEpochAndSlot p G es.epochNumber es.slotNumber = .ok τ ∧
    getTimeStampForEpochAndSlot p G (following p es).epochNumber (following p es).slotNumber = .ok τ' ∧ τ ≤ t ∧ t < τ'

/-- the following slot has an epoch and, with one fork, seconds that fit an `Int` -/
def NextSlotFits (t : ℤ) : Prop :=
  if p.others ≠ [] then epochAt p G (nextSlotStart p G t) < 2 ^ 31
  else nextSlotStart p G t - virtualGenesisBlockTimeStamp p G < 2 ^ 31

end Times

section Laws

variable {p : ConsensusParams} {G t e slot : ℤ}

/-! ## The timetable of slots -/

theorem slotStart_one : slotStart p G e 1 = epochStart p G e := by
  simp [slotStart]

theorem slotStart_succ : slotStart p G e (slot + 1) = slotStart p G e slot + (forkOf p e).seconds := by
  unfold slotStart
  ring

/-- after the last slot of an epoch comes the first one of the next -/
theorem slotStart_last (he : 0 ≤ e) : slotStart p G e ((forkOf p e).slots + 1) = slotStart p G (e + 1) 1 := by
  rw [slotStart_one, epochStart_succ he, slotStart, ConsensusParamsForkInfo.epochInSeconds]
  ring

theorem slotStart_bounds (he : 0 ≤ e) (hone : 1 ≤ slot) (hle : slot ≤ (forkOf p e).slots) :
    epochStart p G e ≤ slotStart p G e slot ∧ slotStart p G e slot < epochStart p G (e + 1) := by
  have hpos := (forkOf_valid (p := p) e).seconds_pos
  have hnonneg : 0 ≤ (slot - 1) * (forkOf p e).seconds := mul_nonneg (by omega) hpos.le
  have hlt : (slot - 1) * (forkOf p e).seconds < (forkOf p e).slots * (forkOf p e).seconds :=
    mul_lt_mul_of_pos_right (by omega) hpos
  rw [epochStart_succ he, slotStart, ConsensusParamsForkInfo.epochInSeconds]
  constructor <;> omega

theorem epochAt_slotStart (he : 0 ≤ e) (hone : 1 ≤ slot) (hle : slot ≤ (forkOf p e).slots) :
    epochAt p G (slotStart p G e slot) = e := by
  obtain ⟨hstart, hend⟩ := slotStart_bounds (G := G) he hone hle
  exact epochAt_eq he hstart hend

theorem slotAt_slotStart (he : 0 ≤ e) (hone : 1 ≤ slot) (hle : slot ≤ (forkOf p e).slots) :
    slotAt p G (slotStart p G e slot) = slot := by
  have hpos := (forkOf_valid (p := p) e).seconds_pos
  rw [slotAt_eq, epochAt_slotStart he hone hle, slotStart, add_sub_cancel_left, Int.mul_ediv_cancel _ hpos.ne']
  ring

/-- a time lies in its slot -/
theorem slotStart_floor :
    slotStart p G (epochAt p G t) (slotAt p G t) ≤ t ∧ t < nextSlotStart p G t := by
  have hpos := (forkOf_valid (p := p) (epochAt p G t)).seconds_pos
  have hle := Int.ediv_mul_le (t - epochStart p G (epochAt p G t)) hpos.ne'
  have hlt := Int.lt_ediv_add_one_mul_self (t - epochStart p G (epochAt p G t)) hpos
  unfold nextSlotStart slotStart
  rw [add_sub_cancel_right, slotAt_eq, add_sub_cancel_right]
  constructor <;> omega

/-- the slot after that of `t`, without machine arithmetic -/
theorem next_epoch_slot (ht : G ≤ t) :
    slotAt p G t < (forkOf p (epochAt p G t)).slots ∧ epochAt p G (nextSlotStart p G t) = epochAt p G t ∧
        slotAt p G (nextSlotStart p G t) = slotAt p G t + 1 ∨
      slotAt p G t = (forkOf p (epochAt p G t)).slots ∧ nextSlotStart p G t = epochStart p G (epochAt p G t + 1) ∧
        epochAt p G (nextSlotStart p G t) = epochAt p G t + 1 ∧ slotAt p G (nextSlotStart p G t) = 1 := by
  obtain ⟨hone, hle⟩ := slotAt_bounds (p := p) ht
  have hepoch := one_le_epochAt (p := p) ht
  rcases lt_or_eq_of_le hle with hlt | heq
  · refine .inl ⟨hlt, ?_, ?_⟩
    · exact epochAt_slotStart (by omega) (by omega) hlt
    · exact slotAt_slotStart (by omega) (by omega) hlt
  · have hnext : nextSlotStart p G t = slotStart p G (epochAt p G t + 1) 1 := by
      rw [nextSlotStart, heq, slotStart_last (by omega)]
    have hslots := (forkOf_valid (p := p) (epochAt p G t + 1)).slots_pos
    refine .inr ⟨heq, ?_, ?_, ?_⟩
    · rw [hnext, slotStart_one]
    · rw [hnext]
      exact epochAt_slotStart (by omega) le_rfl (by omega)
    · rw [hnext]
      exact slotAt_slotStart (by omega) le_rfl (by omega)

/-! ## Timestamps of slots -/

theorem EpochsLongerThanSlot.longEpochs (h : EpochsLongerThanSlot p) (t : ℤ) : LongEpochs p G t := by
  intro f hf _
  exact ⟨h p.head (List.mem_cons_self ..), h f (List.mem_cons_of_mem _ hf)⟩

theorem getTimeStampForEpochAndSlot_ok {τ : ℤ} :
    getTimeStampForEpochAndSlot p G e slot = .ok τ ↔
      slot ≤ (p.get e).consensusSlotsInEpoch ∧ timeStampFor p G e slot = τ := by
  rw [getTimeStampForEpochAndSlot, failIf_bind_ok, not_not]
  simp only [pure, Except.pure, Except.ok.injEq]

theorem timestampToEpochAndSlot_before (ht : t < G) (es : ConsensusEpochAndSlot) :
    timestampToEpochAndSlot p G t ≠ .ok es := by
  intro hok
  rw [timestampToEpochAndSlot, timeStampToEpochNumber, getEpochIndex, failIf, if_pos (not_le.2 ht)] at hok
  cases hok

theorem slots_eq (he : 0 ≤ e) : (p.get e).consensusSlotsInEpoch = (forkOf p e).slots := by
  rw [get_eq he]
  rfl

/-- with several forks the code returns the start of the slot -/
theorem timeStampFor_eq (hothers : p.others ≠ []) (he : 0 ≤ e) (hint : e < 2 ^ 31) (hone : 1 ≤ slot)
    (hle : slot ≤ (forkOf p e).slots) : timeStampFor p G e slot = slotStart p G e slot := by
  rw [timeStampFor_several hothers ⟨by omega, hint⟩, intOf_slotSeconds hone hle, slotStart]

theorem forkOf_single (hothers : p.others = []) : forkOf p e = p.head := by
  rw [forkOf, hothers]
  rfl

theorem epochStart_single (hothers : p.others = []) :
    epochStart p G e = virtualGenesisBlockTimeStamp p G + (e - 1) * p.head.epochInSeconds := by
  rw [epochStart, hothers]
  simp only [List.map_nil, Timetable.startOf, Timetable.Segment.startOf, epochs, origin]
  have hzero : p.head.activationEpoch = 0 := rfl
  rw [hzero]
  ring

/-- with one fork it returns the start of the slot, with the seconds since the virtual genesis as an `Int` -/
theorem timeStampFor_single_eq (hothers : p.others = []) :
    timeStampFor p G e slot = virtualGenesisBlockTimeStamp p G +
      intOf (slotStart p G e slot - virtualGenesisBlockTimeStamp p G) := by
  have hsub : slotStart p G e slot - virtualGenesisBlockTimeStamp p G =
      ((e - 1) * p.head.slots + (slot - 1)) * p.head.seconds := by
    rw [slotStart, epochStart_single hothers, forkOf_single hothers, ConsensusParamsForkInfo.epochInSeconds]
    ring
  rw [timeStampFor_single hothers, hsub]

/-- seconds that just do not fit an `Int` come out negative -/
theorem intOf_neg {x : ℤ} (hge : 2 ^ 31 ≤ x) (hlt : x < 2 ^ 32) : intOf x < 0 := by
  have hsub : intOf x = x - 2 ^ 32 := by
    rw [intOf_congr 1 (show x = x - 2 ^ 32 + 1 * 2 ^ 32 by ring)]
    exact intOf_eq ⟨by omega, by omega⟩
  omega

/-- the code returns the start of a slot when its seconds fit -/
theorem timeStampFor_of_fits (he : 1 ≤ e) (hint : e < 2 ^ 31) (hone : 1 ≤ slot) (hle : slot ≤ (forkOf p e).slots)
    (hfits : p.others ≠ [] ∨ slotStart p G e slot - virtualGenesisBlockTimeStamp p G < 2 ^ 31) :
    timeStampFor p G e slot = slotStart p G e slot := by
  by_cases hothers : p.others = []
  · rcases hfits with hne | hfits
    · exact absurd hothers hne
    · have hstart := (slotStart_bounds (p := p) (G := G) (e := e) (by omega) hone hle).1
      have hmono := epochStart_mono (p := p) (G := G) (show (0 : ℤ) ≤ 1 by norm_num) he
      rw [epochStart_one] at hmono
      rw [timeStampFor_single_eq hothers, intOf_eq ⟨by omega, hfits⟩]
      ring
  · exact timeStampFor_eq hothers (by omega) hint hone hle

/-- **From a slot to its timestamp and back.** -/
theorem roundTrip_iff (hlong : EpochsLongerThanSlot p) (h : ValidSlot p G e slot) :
    RoundTrip p G e slot ↔ p.others ≠ [] ∨ slotStart p G e slot - virtualGenesisBlockTimeStamp p G < 2 ^ 31 := by
  obtain ⟨⟨he, hint⟩, hone, hle, hafter, helapsed⟩ := h
  have hok := getTimeStampForEpochAndSlot_ok (G := G).2 ⟨hle, rfl⟩
  rw [slots_eq (by omega)] at hle
  rw [RoundTrip, hok]
  constructor
  · intro htrip
    by_contra hnot
    push Not at hnot
    obtain ⟨hothers, hover⟩ := hnot
    apply timestampToEpochAndSlot_before (p := p) (G := G) _ ⟨e, slot⟩ htrip
    have hfirst : 0 < p.head.seconds := p.first_valid.seconds_pos
    have hepoch : p.head.epochInSeconds < 2 ^ 31 := p.first_valid.epoch_fits
    have hvirtual := (origin_le (p := p) (le_refl G)).1
    have hneg := intOf_neg hover (by unfold virtualGenesisBlockTimeStamp; omega)
    rw [timeStampFor_single_eq hothers]
    omega
  · intro hfits
    rw [timeStampFor_of_fits he hint hone hle hfits]
    refine (timestampToEpochAndSlot_eq hafter (hlong.longEpochs _)).trans ?_
    rw [epochAt_slotStart (by omega) hone hle, slotAt_slotStart (by omega) hone hle, intOf_eq ⟨by omega, hint⟩]

/-! ## Slots of timestamps -/

theorem forkOf_mem (e : ℤ) : forkOf p e ∈ p.head :: p.others := by
  rcases activeFork_activation (e := e) p.others p.head with hhead | ⟨-, hmem⟩
  · rw [forkOf, hhead]
    exact List.mem_cons_self ..
  · exact List.mem_cons_of_mem _ hmem

/-- epochs have at least two seconds -/
theorem EpochsLongerThanSlot.two_mul_le (h : EpochsLongerThanSlot p) {e' : ℤ} (he : 0 ≤ e') (hle : e' ≤ e) :
    epochStart p G e' + 2 * (e - e') ≤ epochStart p G e := by
  induction e, hle using Int.leInduction with
  | base => rw [sub_self, mul_zero, add_zero]
  | succ e hle ih =>
    have hlong := h _ (forkOf_mem (p := p) e)
    have hseconds : 0 < p.head.seconds := p.first_valid.seconds_pos
    rw [epochStart_succ (he.trans hle)]
    omega

/-- up to the first slot whose successor does not fit, the code computes on the slots themselves -/
theorem following_eq (ht : G ≤ t) (hint : epochAt p G t < 2 ^ 31) :
    following p ⟨intOf (epochAt p G t), slotAt p G t⟩ =
      ⟨intOf (epochAt p G (nextSlotStart p G t)), slotAt p G (nextSlotStart p G t)⟩ := by
  have hone := one_le_epochAt (p := p) ht
  have hepoch : intOf (epochAt p G t) = epochAt p G t := intOf_eq ⟨by omega, hint⟩
  rw [following, hepoch]
  simp only [slots_eq (p := p) (show 0 ≤ epochAt p G t by omega)]
  rcases next_epoch_slot (p := p) ht with ⟨hlt, hsame, hslot⟩ | ⟨hlast, -, hnext, hslot⟩
  · rw [if_pos hlt, hsame, hslot, hepoch]
  · rw [if_neg (by omega), hnext, hslot]

theorem nextSlotStart_eq (ht : G ≤ t) :
    nextSlotStart p G t = slotStart p G (epochAt p G (nextSlotStart p G t)) (slotAt p G (nextSlotStart p G t)) := by
  rcases next_epoch_slot (p := p) ht with ⟨-, hsame, hslot⟩ | ⟨-, hstart, hnext, hslot⟩
  · rw [hsame, hslot]
    rfl
  · rw [hnext, hslot, slotStart_one, hstart]

theorem epochAt_le_next (ht : G ≤ t) :
    epochAt p G t ≤ epochAt p G (nextSlotStart p G t) ∧ epochAt p G (nextSlotStart p G t) ≤ epochAt p G t + 1 := by
  rcases next_epoch_slot (p := p) ht with ⟨-, hsame, -⟩ | ⟨-, -, hnext, -⟩
  · omega
  · omega

/-- with one fork, seconds that fit make epochs that fit -/
theorem epoch_fits_of_seconds (hlong : EpochsLongerThanSlot p) (he : 1 ≤ e) (hone : 1 ≤ slot)
    (hle : slot ≤ (forkOf p e).slots)
    (hfits : slotStart p G e slot - virtualGenesisBlockTimeStamp p G < 2 ^ 31) : e < 2 ^ 31 := by
  have hstart := (slotStart_bounds (p := p) (G := G) (e := e) (by omega) hone hle).1
  have htwo := hlong.two_mul_le (G := G) (show (0 : ℤ) ≤ 1 by norm_num) he
  rw [epochStart_one] at htwo
  omega

theorem NextSlotFits.epoch (hlong : EpochsLongerThanSlot p) (ht : G ≤ t) (h : NextSlotFits p G t) :
    epochAt p G (nextSlotStart p G t) < 2 ^ 31 := by
  unfold NextSlotFits at h
  split_ifs at h with hothers
  · exact h
  · have hnext := (slotStart_floor (p := p) (G := G) (t := t)).2
    obtain ⟨hone, hle⟩ := slotAt_bounds (p := p) (G := G) (t := nextSlotStart p G t) (by omega)
    have hepoch := one_le_epochAt (p := p) (G := G) (t := nextSlotStart p G t) (by omega)
    rw [nextSlotStart_eq ht] at h
    exact epoch_fits_of_seconds hlong hepoch hone hle h

theorem NextSlotFits.seconds (h : NextSlotFits p G t) :
    p.others ≠ [] ∨ nextSlotStart p G t - virtualGenesisBlockTimeStamp p G < 2 ^ 31 := by
  unfold NextSlotFits at h
  split_ifs at h with hothers
  · exact .inl hothers
  · exact .inr h

theorem within_of_fits (hlong : EpochsLongerThanSlot p) (ht : G ≤ t) (h : NextSlotFits p G t) : Within p G t := by
  have hnext := h.epoch hlong ht
  have hle := (epochAt_le_next (p := p) ht).1
  have hepoch := one_le_epochAt (p := p) ht
  obtain ⟨hstart, hend⟩ := slotStart_floor (p := p) (G := G) (t := t)
  obtain ⟨hone, hslots⟩ := slotAt_bounds (p := p) ht
  obtain ⟨hone', hslots'⟩ := slotAt_bounds (p := p) (G := G) (t := nextSlotStart p G t) (by omega)
  have hown : intOf (epochAt p G t) = epochAt p G t := intOf_eq ⟨by omega, by omega⟩
  have hown' : intOf (epochAt p G (nextSlotStart p G t)) = epochAt p G (nextSlotStart p G t) := intOf_eq ⟨by omega, hnext⟩
  refine ⟨⟨intOf (epochAt p G t), slotAt p G t⟩, slotStart p G (epochAt p G t) (slotAt p G t), nextSlotStart p G t,
    timestampToEpochAndSlot_eq ht (hlong.longEpochs t), ?_, ?_, hstart, hend⟩
  · rw [getTimeStampForEpochAndSlot_ok]
    simp only
    rw [hown, slots_eq (by omega)]
    refine ⟨hslots, timeStampFor_of_fits hepoch (by omega) hone hslots ?_⟩
    rcases h.seconds with hothers | hfits
    · exact .inl hothers
    · exact .inr (by omega)
  · rw [following_eq ht (by omega), getTimeStampForEpochAndSlot_ok]
    simp only
    rw [hown', slots_eq (by omega)]
    refine ⟨hslots', ?_⟩
    rw [timeStampFor_of_fits (by omega) hnext hone' hslots' ?_]
    · exact (nextSlotStart_eq ht).symm
    · rw [← nextSlotStart_eq ht]
      exact h.seconds

/-- no slot of an `Int` epoch that is not after the genesis reaches the last epochs -/
theorem timeStampFor_nonpos (hothers : p.others ≠ []) (hint : IsInt e) (he : e ≤ 0) (slot : ℤ) :
    timeStampFor p G e slot < origin p G + 2 ^ 31 := by
  have hslot := (isInt_intOf ((slot - 1) * (forkOf p e).seconds)).2
  have hstart : epochStart p G e ≤ origin p G := by
    have hpos : 0 < p.head.epochInSeconds := p.first_valid.epoch_pos
    rcases hothers' : p.others with _ | ⟨g, rest⟩
    · exact absurd hothers' hothers
    · have htwo := (p.activation g (by rw [hothers']; exact List.mem_cons_self ..)).1
      have hzero : p.head.activationEpoch = 0 := rfl
      have hmul : e * p.head.epochInSeconds ≤ 0 := mul_nonpos_of_nonpos_of_nonneg he hpos.le
      rw [epochStart, hothers', List.map_cons, Timetable.startOf, if_pos (by simp only [epochs]; omega)]
      simp only [Timetable.Segment.startOf, epochs, hzero, sub_zero]
      omega
  rw [timeStampFor_several hothers hint]
  omega

theorem fits_of_within_several (hlong : EpochsLongerThanSlot p) (hothers : p.others ≠ []) (ht : G ≤ t) (h : Within p G t) :
    epochAt p G (nextSlotStart p G t) < 2 ^ 31 := by
  obtain ⟨es, τ, τ', hes, -, hτ', -, hlt⟩ := h
  by_contra hover
  rw [timestampToEpochAndSlot_eq ht (hlong.longEpochs t)] at hes
  obtain rfl := Except.ok.inj hes
  have hnext := (epochAt_le_next (p := p) ht).2
  have hfloor := (epochAt_floor (p := p) ht).1
  have hmono := epochStart_mono (p := p) (G := G) (show (0 : ℤ) ≤ 2 ^ 31 - 1 by norm_num)
    (show 2 ^ 31 - 1 ≤ epochAt p G t by omega)
  have hlate := hlong.two_mul_le (G := G) le_rfl (show (0 : ℤ) ≤ 2 ^ 31 - 1 by norm_num)
  rw [epochStart_zero] at hlate
  rw [getTimeStampForEpochAndSlot_ok] at hτ'
  obtain ⟨hslots, rfl⟩ := hτ'
  have hint : IsInt (following p ⟨intOf (epochAt p G t), slotAt p G t⟩).epochNumber := by
    unfold following
    split_ifs
    · exact isInt_intOf _
    · exact isInt_intOf _
  have hone : 1 ≤ (following p ⟨intOf (epochAt p G t), slotAt p G t⟩).slotNumber := by
    have := (slotAt_bounds (p := p) ht).1
    unfold following
    split_ifs
    · simp only
      omega
    · exact le_rfl
  by_cases hpos : (following p ⟨intOf (epochAt p G t), slotAt p G t⟩).epochNumber ≤ 0
  · have hearly := timeStampFor_nonpos (G := G) hothers hint hpos
        (following p ⟨intOf (epochAt p G t), slotAt p G t⟩).slotNumber
    omega
  · -- the epoch of an `Int` that is not before the genesis lies before that of `t`
    have hlarge : 2 ^ 31 ≤ epochAt p G t := by
      by_contra hsmall
      have hlast : epochAt p G (nextSlotStart p G t) = 2 ^ 31 := by omega
      rw [following_eq ht (not_le.1 hsmall), hlast] at hpos
      exact hpos (show intOf (2 ^ 31) ≤ 0 by decide)
    rw [slots_eq (by omega)] at hslots
    have hend := (slotStart_bounds (p := p) (G := G) (by omega) hone hslots).2
    have hmono' := epochStart_mono (p := p) (G := G)
      (show 0 ≤ (following p ⟨intOf (epochAt p G t), slotAt p G t⟩).epochNumber + 1 by omega)
      (show _ ≤ epochAt p G t by have := hint.2; omega)
    rw [timeStampFor_eq hothers (by omega) hint.2 hone hslots] at hlt
    omega

theorem fits_of_within_single (hlong : EpochsLongerThanSlot p) (hothers : p.others = []) (ht : G ≤ t) (h : Within p G t) :
    nextSlotStart p G t - virtualGenesisBlockTimeStamp p G < 2 ^ 31 := by
  obtain ⟨es, τ, τ', hes, -, hτ', -, hlt⟩ := h
  by_contra hover
  rw [timestampToEpochAndSlot_eq ht (hlong.longEpochs t)] at hes
  obtain rfl := Except.ok.inj hes
  rw [getTimeStampForEpochAndSlot_ok, timeStampFor_single_eq hothers] at hτ'
  obtain ⟨-, rfl⟩ := hτ'
  have hrange := (isInt_intOf (slotStart p G (following p ⟨intOf (epochAt p G t), slotAt p G t⟩).epochNumber
    (following p ⟨intOf (epochAt p G t), slotAt p G t⟩).slotNumber - virtualGenesisBlockTimeStamp p G)).2
  have hepoch := one_le_epochAt (p := p) ht
  obtain ⟨hone, hslots⟩ := slotAt_bounds (p := p) ht
  obtain ⟨hstart, hend⟩ := slotStart_floor (p := p) (G := G) (t := t)
  have hint : epochAt p G t < 2 ^ 31 := epoch_fits_of_seconds (G := G) hlong hepoch hone hslots (by omega)
  have hnext := epochAt_le_next (p := p) ht
  have hseconds := (forkOf_valid (p := p) (epochAt p G t))
  have hslot : nextSlotStart p G t = slotStart p G (epochAt p G t) (slotAt p G t) + (forkOf p (epochAt p G t)).seconds :=
    slotStart_succ
  have hle : (forkOf p (epochAt p G t)).seconds ≤ (forkOf p (epochAt p G t)).epochInSeconds :=
    le_mul_of_one_le_left hseconds.seconds_pos.le hseconds.slots_pos
  have hfits := hseconds.epoch_fits
  have hint' : epochAt p G (nextSlotStart p G t) < 2 ^ 31 := by
    have htwo := hlong.two_mul_le (G := G) (show (0 : ℤ) ≤ 1 by norm_num) hepoch
    have hfloor := (epochAt_floor (p := p) ht).1
    rw [epochStart_one] at htwo
    omega
  have hneg := intOf_neg (not_lt.1 hover) (by omega)
  have hvirtual := (origin_le (p := p) ht).1
  rw [following_eq ht hint] at hlt
  simp only at hlt
  rw [intOf_eq ⟨by omega, hint'⟩, ← nextSlotStart_eq ht] at hlt
  omega

/-- **From a timestamp to its slot and back.** -/
theorem within_iff (hlong : EpochsLongerThanSlot p) (ht : G ≤ t) : Within p G t ↔ NextSlotFits p G t := by
  constructor
  · intro h
    unfold NextSlotFits
    split_ifs with hothers
    · exact fits_of_within_several hlong hothers ht h
    · exact fits_of_within_single hlong (not_not.1 hothers) ht h
  · exact within_of_fits hlong ht

/-- one second later is the same slot or the following one -/
theorem next_second (hlong : EpochsLongerThanSlot p) (ht : G ≤ t) (h : NextSlotFits p G t) :
    ∃ es, timestampToEpochAndSlot p G t = .ok es ∧
      (timestampToEpochAndSlot p G (t + 1) = .ok es ∨ timestampToEpochAndSlot p G (t + 1) = .ok (following p es)) := by
  have hnext := h.epoch hlong ht
  have hle := (epochAt_le_next (p := p) ht).1
  have hepoch := one_le_epochAt (p := p) ht
  obtain ⟨hstart, hend⟩ := slotStart_floor (p := p) (G := G) (t := t)
  refine ⟨_, timestampToEpochAndSlot_eq ht (hlong.longEpochs t), ?_⟩
  rw [timestampToEpochAndSlot_eq (show G ≤ t + 1 by omega) (hlong.longEpochs _), following_eq ht (by omega)]
  rcases lt_or_eq_of_le (Int.add_one_le_of_lt hend) with hsame | hnew
  · left
    have hpos := (forkOf_valid (p := p) (epochAt p G t)).seconds_pos
    obtain ⟨hone, hslots⟩ := slotAt_bounds (p := p) ht
    obtain ⟨hfloor, hceil⟩ := epochAt_floor (p := p) ht
    have hnext' : nextSlotStart p G t ≤ epochStart p G (epochAt p G t + 1) := by
      have hmul : slotAt p G t * (forkOf p (epochAt p G t)).seconds ≤
          (forkOf p (epochAt p G t)).slots * (forkOf p (epochAt p G t)).seconds :=
        mul_le_mul_of_nonneg_right hslots hpos.le
      rw [epochStart_succ (by omega), nextSlotStart, slotStart, add_sub_cancel_right, ConsensusParamsForkInfo.epochInSeconds]
      omega
    have hsameEpoch : epochAt p G (t + 1) = epochAt p G t := epochAt_eq (by omega) (by omega) (by omega)
    have hsameSlot : slotAt p G (t + 1) = slotAt p G t := by
      have hquot : (t + 1 - epochStart p G (epochAt p G t)) / (forkOf p (epochAt p G t)).seconds = slotAt p G t - 1 := by
        rw [Int.ediv_eq_iff_of_pos hpos]
        unfold nextSlotStart slotStart at hsame
        unfold slotStart at hstart
        have hsplit : (slotAt p G t + 1 - 1) * (forkOf p (epochAt p G t)).seconds =
          (slotAt p G t - 1) * (forkOf p (epochAt p G t)).seconds + (forkOf p (epochAt p G t)).seconds := by ring
        constructor <;> omega
      rw [slotAt_eq (t := t + 1), hsameEpoch, hquot]
      ring
    rw [hsameEpoch, hsameSlot]
  · right
    rw [hnew]

/-- **Slot times.** For every valid slot, the slot of its timestamp is the slot if and only if there are several forks or its
seconds since the virtual genesis fit an `Int`; every timestamp at or after the genesis lies between the timestamps of its
slot and of the following one if and only if the following slot fits; and then the next second has the same slot or the
following one. -/
theorem slot_times (p : ConsensusParams) (G : ℤ) (hlong : EpochsLongerThanSlot p) :
    (∀ e slot, ValidSlot p G e slot → (RoundTrip p G e slot ↔
        p.others ≠ [] ∨ slotStart p G e slot - virtualGenesisBlockTimeStamp p G < 2 ^ 31)) ∧
      (∀ t, G ≤ t → (Within p G t ↔ NextSlotFits p G t)) ∧
      ∀ t, G ≤ t → NextSlotFits p G t → ∃ es, timestampToEpochAndSlot p G t = .ok es ∧
        (timestampToEpochAndSlot p G (t + 1) = .ok es ∨ timestampToEpochAndSlot p G (t + 1) = .ok (following p es)) :=
  ⟨fun _ _ h => roundTrip_iff hlong h, fun _ ht => within_iff hlong ht, fun _ ht h => next_second hlong ht h⟩

end Laws

/-! The default parameters, alone and with a fork to longer epochs at epoch 20. -/

section Sample

def defaultParams : ConsensusParams where
  first := DefaultConsensusParamsFork
  others := []
  registered := []
  first_valid := default_valid
  others_valid := no_forks_valid
  activation := no_forks_activation
  increasing := no_forks_increasing
  registered_eq := no_forks_registered

def forkedParams : ConsensusParams where
  first := DefaultConsensusParamsFork
  others := [⟨20, ⟨1000, 12⟩⟩]
  registered := [⟨20, ⟨1000, 12⟩⟩]
  first_valid := default_valid
  others_valid := by
    intro f hf
    rw [List.mem_singleton.1 hf]
    exact ⟨by decide, by decide, by decide⟩
  activation := by simp
  increasing := List.pairwise_singleton _ _
  registered_eq := .inl ⟨rfl, rfl⟩

theorem last_slot_of_forked_epoch : RoundTrip forkedParams 10000 20 1000 ∧ Within forkedParams 10000 200000 := by
  have htimes := slot_times forkedParams 10000 (by simp only [EpochsLongerThanSlot]; decide)
  constructor
  · exact (htimes.1 20 1000 ⟨by decide, by decide, by decide, by decide, by decide⟩).2 (.inl (by decide))
  · exact (htimes.2.1 200000 (by decide)).2 (by simp only [NextSlotFits]; decide)

/-- 68 years after the genesis, less the length of an epoch, the timestamp of a slot lies before the genesis -/
theorem slot_before_genesis :
    ValidSlot defaultParams 0 248552 252 ∧ getTimeStampForEpochAndSlot defaultParams 0 248552 252 = .ok (-2147492272) ∧
      ¬ RoundTrip defaultParams 0 248552 252 := by
  have hbefore : getTimeStampForEpochAndSlot defaultParams 0 248552 252 = .ok (-2147492272) := by decide +kernel
  refine ⟨⟨by decide, by decide, by decide, by decide, by decide⟩, hbefore, ?_⟩
  intro htrip
  rw [RoundTrip, hbefore] at htrip
  have hslot : timestampToEpochAndSlot defaultParams 0 (-2147492272) = .ok ⟨248552, 252⟩ := htrip
  exact timestampToEpochAndSlot_before (by decide) _ hslot

end Sample

end SidechainsSdk.Consensus.SlotTimes
