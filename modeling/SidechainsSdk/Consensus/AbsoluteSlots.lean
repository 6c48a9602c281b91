/-
Absolute slot numbers (`timeStampToAbsoluteSlotNumber`) and the slots that lie between two timestamps.

With several forks the code adds up the slots of the epochs before, fork by fork; with one fork it takes the slots of an
epoch from the default parameters, whatever the fork says. The numbers are `Int`s.

- `slotNumberAt_eq_iff`: timestamps with the same number have the same epoch and slot.
- `boundaries_eq`: the seconds at which epoch or slot change are as many as the slot numbers between.
- `absolute_slots_count`: the code counts slots, for all timestamps in range, exactly when it does not take the wrong
  number of slots per epoch and the numbers do not pass the limit of an `Int`.
-/
import Mathlib.Tactic
import SidechainsSdk.Consensus.SlotTimes

namespace SidechainsSdk.Consensus.AbsoluteSlots

open Fallible MachineInt TimeToEpochUtils SlotTimes

section Boundaries

variable (p : ConsensusParams) (G : ℤ)

/-- the slot boundaries after `t₁` up to `t₂` -/
noncomputable def boundaries (t₁ t₂ : ℤ) : ℕ :=
  ((Finset.Ioc t₁ t₂).filter fun t => timestampToEpochAndSlot p G t ≠ timestampToEpochAndSlot p G (t - 1)).card

/-- absolute slot numbers differ by the slot boundaries between, and are the same for the same slot only -/
def CountsSlots (t₁ t₂ : ℤ) : Prop :=
  ∃ n₁ n₂, timeStampToAbsoluteSlotNumber p G t₁ = .ok n₁ ∧ timeStampToAbsoluteSlotNumber p G t₂ = .ok n₂ ∧
    n₂ - n₁ = boundaries p G t₁ t₂ ∧
      (n₁ = n₂ ↔ timestampToEpochAndSlot p G t₁ = timestampToEpochAndSlot p G t₂)

end Boundaries

variable {p : ConsensusParams} {G t t₁ t₂ e : ℤ}

/-! ## Numbers of slots -/

theorem slotsBefore_succ (he : 0 ≤ e) : slotsBefore p (e + 1) = slotsBefore p e + (forkOf p e).slots :=
  slotsUpTo_succ p.increasing_forks he

theorem slotsBefore_mono {e' : ℤ} (he : 0 ≤ e) (hle : e ≤ e') : slotsBefore p e ≤ slotsBefore p e' := by
  induction e', hle using Int.leInduction with
  | base => exact le_rfl
  | succ e' hle ih =>
    have hpos := (forkOf_valid (p := p) e').slots_pos
    rw [slotsBefore_succ (he.trans hle)]
    omega

/-- a later epoch has later slots -/
theorem slotNumberAt_lt (h₁ : G ≤ t₁) (h₂ : G ≤ t₂) (hlt : epochAt p G t₁ < epochAt p G t₂) :
    slotNumberAt p G t₁ < slotNumberAt p G t₂ := by
  have hone := one_le_epochAt (p := p) h₁
  have hlast := (slotAt_bounds (p := p) h₁).2
  have hfirst := (slotAt_bounds (p := p) h₂).1
  have hmono := slotsBefore_mono (p := p) (show 0 ≤ epochAt p G t₁ + 1 by omega) hlt
  rw [slotsBefore_succ (by omega)] at hmono
  rw [slotNumberAt_eq, slotNumberAt_eq]
  omega

theorem slotNumberAt_eq_iff (h₁ : G ≤ t₁) (h₂ : G ≤ t₂) :
    slotNumberAt p G t₁ = slotNumberAt p G t₂ ↔ epochAt p G t₁ = epochAt p G t₂ ∧
      slotAt p G t₁ = slotAt p G t₂ := by
  constructor
  · intro heq
    have hepoch : epochAt p G t₁ = epochAt p G t₂ := by
      rcases lt_trichotomy (epochAt p G t₁) (epochAt p G t₂) with hlt | hsame | hgt
      · exact absurd heq (slotNumberAt_lt h₁ h₂ hlt).ne
      · exact hsame
      · exact absurd heq (slotNumberAt_lt h₂ h₁ hgt).ne'
    refine ⟨hepoch, ?_⟩
    rw [slotNumberAt_eq, slotNumberAt_eq, hepoch] at heq
    omega
  · rintro ⟨hepoch, hslot⟩
    rw [slotNumberAt_eq, slotNumberAt_eq, hepoch, hslot]

theorem slotNumberAt_mono (h₁ : G ≤ t₁) (hle : t₁ ≤ t₂) : slotNumberAt p G t₁ ≤ slotNumberAt p G t₂ :=
  Timetable.numberAt_mono p.increasing_forks.slots_ordered (origin_le_self h₁) hle

theorem slotNumberAt_succ_le (ht : G ≤ t) : slotNumberAt p G (t + 1) ≤ slotNumberAt p G t + 1 :=
  Timetable.numberAt_succ_le p.increasing_forks.slots_ordered (origin_le_self ht)

theorem epochAt_mono (h₁ : G ≤ t₁) (hle : t₁ ≤ t₂) : epochAt p G t₁ ≤ epochAt p G t₂ :=
  Timetable.numberAt_mono p.increasing_forks.ordered (origin_le_self h₁) hle

theorem longEpochs_mono (h : LongEpochs p G t₂) (hle : t₁ ≤ t₂) : LongEpochs p G t₁ :=
  fun f hf hstarted => h f hf (hstarted.trans hle)

/-- the code computes the number from the epoch and the slot -/
theorem absolute_congr (hepoch : getEpochIndex p G t₁ = getEpochIndex p G t₂)
    (hslot : timeStampToSlotNumber p G t₁ = timeStampToSlotNumber p G t₂) :
    timeStampToAbsoluteSlotNumber p G t₁ = timeStampToAbsoluteSlotNumber p G t₂ := by
  simp only [timeStampToAbsoluteSlotNumber, timeStampToEpochNumber, hepoch, hslot]

/-- the code sees a new slot where the number changes -/
theorem epochAndSlot_eq_iff (h₁ : G ≤ t₁) (h₂ : G ≤ t₂) (hlong₁ : LongEpochs p G t₁)
    (hlong₂ : LongEpochs p G t₂)
    (hint₁ : epochAt p G t₁ < 2 ^ 31) (hint₂ : epochAt p G t₂ < 2 ^ 31) :
    timestampToEpochAndSlot p G t₁ = timestampToEpochAndSlot p G t₂ ↔ slotNumberAt p G t₁ = slotNumberAt p G t₂ := by
  have hone₁ := one_le_epochAt (p := p) h₁
  have hone₂ := one_le_epochAt (p := p) h₂
  rw [timestampToEpochAndSlot_eq h₁ hlong₁, timestampToEpochAndSlot_eq h₂ hlong₂, intOf_eq ⟨by omega, hint₁⟩,
    intOf_eq ⟨by omega, hint₂⟩, slotNumberAt_eq_iff h₁ h₂, Except.ok.injEq, ConsensusEpochAndSlot.mk.injEq]

/-- **Boundaries.** The slot boundaries between two timestamps are the slot numbers between. -/
theorem boundaries_eq (h₁ : G ≤ t₁) (hle : t₁ ≤ t₂) (hlong : LongEpochs p G t₂) (hint : epochAt p G t₂ < 2 ^ 31) :
    (boundaries p G t₁ t₂ : ℤ) = slotNumberAt p G t₂ - slotNumberAt p G t₁ := by
  have hsame : (Finset.Ioc t₁ t₂).filter (fun t => timestampToEpochAndSlot p G t ≠ timestampToEpochAndSlot p G (t - 1)) =
      (Finset.Ioc t₁ t₂).filter fun t => slotNumberAt p G t ≠ slotNumberAt p G (t - 1) := by
    apply Finset.filter_congr
    intro t ht
    obtain ⟨hlo, hhi⟩ := Finset.mem_Ioc.1 ht
    have hepoch := epochAt_mono (p := p) (show G ≤ t by omega) hhi
    have hepoch' := epochAt_mono (p := p) (show G ≤ t - 1 by omega) (show t - 1 ≤ t₂ by omega)
    exact (epochAndSlot_eq_iff (by omega) (by omega) (longEpochs_mono hlong hhi) (longEpochs_mono hlong (by omega)) (by omega)
      (by omega)).not
  rw [boundaries, hsame]
  apply Timetable.card_changes hle
  · intro t ht
    exact slotNumberAt_mono (by omega) (by omega)
  · intro t ht
    exact slotNumberAt_succ_le (by omega)

/-! ## The range -/

theorem forkOf_one : forkOf p 1 = p.head := by
  rw [forkOf]
  rcases hothers : p.others with _ | ⟨g, rest⟩
  · rfl
  · have := (p.activation g (by rw [hothers]; exact List.mem_cons_self ..)).1
    rw [activeFork, if_pos (by omega)]

/-- the genesis block is in the last slot of epoch 1 -/
theorem slot_genesis : epochAt p G G = 1 ∧ slotAt p G G = p.head.slots := by
  have hpos := p.first_valid.seconds_pos
  have hslots := p.first_valid.slots_pos
  have hle : p.head.seconds ≤ p.head.epochInSeconds := le_mul_of_one_le_left hpos.le hslots
  have hepoch : epochAt p G G = 1 := by
    apply epochAt_eq (by norm_num)
    · rw [epochStart_one]
      exact (origin_le le_rfl).1
    · have hhead : 0 < p.head.seconds := hpos
      rw [epochStart_succ (by norm_num), epochStart_one, forkOf_one, virtualGenesisBlockTimeStamp]
      omega
  have hdiff : G - epochStart p G 1 = (p.head.slots - 1) * p.head.seconds := by
    rw [epochStart_one, virtualGenesisBlockTimeStamp, ConsensusParamsForkInfo.epochInSeconds]
    ring
  refine ⟨hepoch, ?_⟩
  rw [slotAt_eq, hepoch, forkOf_one, hdiff, Int.mul_ediv_cancel _ (show p.head.seconds ≠ 0 from hpos.ne')]
  ring

theorem slotNumberAt_genesis : slotNumberAt p G G = 2 * p.head.slots := by
  have hzero : slotsBefore p 0 = 0 := slotsUpTo_first p.increasing_forks
  have hone := slotsBefore_succ (p := p) (le_refl 0)
  have hfork : forkOf p 0 = p.head := activeFork_first p.increasing_forks
  rw [hzero, hfork, zero_add] at hone
  rw [slotNumberAt_eq, slot_genesis.1, slot_genesis.2, hone]
  ring

/-- a slot takes at least a second -/
theorem slotNumberAt_le (ht : G ≤ t) : slotNumberAt p G t ≤ 2 * p.head.slots + (t - G) := by
  induction t, ht using Int.leInduction with
  | base => rw [slotNumberAt_genesis, sub_self, add_zero]
  | succ t ht ih =>
    have := slotNumberAt_succ_le (p := p) ht
    omega

theorem epochAt_lt_of_long (h : EpochsLongerThanSlot p) (ht : G ≤ t) (hrange : t < G + 2 ^ 31) : epochAt p G t < 2 ^ 31 := by
  by_contra hge
  have hgenesis := (epochAt_floor (p := p) (le_refl G)).2
  rw [slot_genesis.1] at hgenesis
  norm_num at hgenesis
  have hlate := h.two_mul_le (G := G) (show (0 : ℤ) ≤ 2 by norm_num) (show 2 ≤ epochAt p G t by omega)
  have hfloor := (epochAt_floor (p := p) ht).1
  omega

/-- epochs in range fit an `Int` -/
theorem epochAt_lt (hothers : p.others ≠ []) (hlong : LongEpochs p G t) (ht : G ≤ t) (hrange : t < G + 2 ^ 31) :
    epochAt p G t < 2 ^ 31 := by
  by_contra hge
  have hfloor := (epochAt_floor (p := p) ht).1
  have hstarted : ∀ f ∈ p.others, epochStart p G f.activationEpoch ≤ t := by
    intro f hf
    obtain ⟨htwo, hint⟩ := p.activation f hf
    have hmono := epochStart_mono (p := p) (G := G) (show 0 ≤ f.activationEpoch by omega)
        (show f.activationEpoch ≤ epochAt p G t by omega)
    omega
  apply hge
  apply epochAt_lt_of_long _ ht hrange
  intro f hf
  rcases List.mem_cons.1 hf with rfl | hf
  · obtain ⟨g, hg⟩ := List.exists_mem_of_ne_nil _ hothers
    exact (hlong g hg (hstarted g hg)).1
  · exact (hlong f hf (hstarted f hf)).2

theorem slotNumberAt_single (hothers : p.others = []) : slotNumberAt p G t = epochAt p G t * p.head.slots + slotAt p G t := by
  have hzero : p.head.activationEpoch = 0 := rfl
  rw [slotNumberAt_eq, slotsBefore, hothers, slotsUpTo, hzero, sub_zero]

/-- where the code takes the right number of slots per epoch, it returns the number of the slot as an `Int` -/
theorem absolute_eq (hslots : p.others ≠ [] ∨ p.head.slots = 720) (hlong : LongEpochs p G t) (ht : G ≤ t)
    (hrange : t < G + 2 ^ 31) :
    timeStampToAbsoluteSlotNumber p G t = .ok (intOf (slotNumberAt p G t)) ∧ epochAt p G t < 2 ^ 31 := by
  by_cases hothers : p.others = []
  · have hdefault : p.head.slots = 720 := hslots.resolve_left (not_not.2 hothers)
    constructor
    · rw [timeStampToAbsoluteSlotNumber_single hothers ht, slotNumberAt_single hothers, hdefault]
    · apply epochAt_lt_of_long _ ht hrange
      intro f hf
      rw [hothers, List.mem_singleton] at hf
      have hpos : 0 < p.head.seconds := p.first_valid.seconds_pos
      rw [hf, ConsensusParamsForkInfo.epochInSeconds, hdefault]
      omega
  · have hint := epochAt_lt hothers hlong ht hrange
    exact ⟨timeStampToAbsoluteSlotNumber_several hothers ht hlong hint, hint⟩

/-! ## Counting -/

/-- numbers in one window of the `Int` range are all moved by the same amount -/
theorem countsSlots_of_window (hslots : p.others ≠ [] ∨ p.head.slots = 720) (h₁ : G ≤ t₁) (hle : t₁ ≤ t₂)
    (hrange : t₂ < G + 2 ^ 31) (hlong : LongEpochs p G t₂) {k : ℤ}
    (hmove : ∀ t, t₁ ≤ t → t ≤ t₂ → intOf (slotNumberAt p G t) = slotNumberAt p G t - k) :
      CountsSlots p G t₁ t₂ := by
  have hlong₁ := longEpochs_mono hlong hle
  obtain ⟨hok₁, hint₁⟩ := absolute_eq hslots hlong₁ h₁ (by omega)
  obtain ⟨hok₂, hint₂⟩ := absolute_eq hslots hlong (h₁.trans hle) hrange
  refine ⟨_, _, hok₁, hok₂, ?_, ?_⟩
  · rw [hmove t₁ le_rfl hle, hmove t₂ hle le_rfl, boundaries_eq h₁ hle hlong hint₂]
    ring
  · rw [hmove t₁ le_rfl hle, hmove t₂ hle le_rfl,
      epochAndSlot_eq_iff h₁ (h₁.trans hle) hlong₁ hlong hint₁ hint₂]
    omega

/-- with one fork, the step to epoch 2 adds one only if epochs have the default number of slots -/
theorem default_slots_of_countsSlots (hothers : p.others = []) (h : CountsSlots p G G (G + p.head.seconds)) :
    p.head.slots = 720 := by
  obtain ⟨n₁, n₂, hn₁, hn₂, hcount, -⟩ := h
  have hpos : 0 < p.head.seconds := p.first_valid.seconds_pos
  have hslots : 0 < p.head.slots := p.first_valid.slots_pos
  have hfits : p.head.slots * p.head.seconds < 2 ^ 31 := p.first_valid.epoch_fits
  have hle : p.head.slots ≤ p.head.slots * p.head.seconds := le_mul_of_one_le_right hslots.le hpos
  have hfork : ∀ e, forkOf p e = p.head := fun e => forkOf_single hothers
  have hlong : LongEpochs p G (G + p.head.seconds) := by
    intro f hf
    rw [hothers] at hf
    cases hf
  -- one slot later epoch 2 starts
  have hstart : epochStart p G 2 = G + p.head.seconds := by
    rw [epochStart_single hothers, virtualGenesisBlockTimeStamp]
    ring
  have hthree := epochStart_succ (p := p) (G := G) (show (0 : ℤ) ≤ 2 by norm_num)
  have hepoch_pos : 0 < p.head.epochInSeconds := p.first_valid.epoch_pos
  rw [hfork] at hthree
  have hepoch : epochAt p G (G + p.head.seconds) = 2 := epochAt_eq (by norm_num) hstart.le (by omega)
  have hslot : slotAt p G (G + p.head.seconds) = 1 := by
    rw [slotAt_eq, hepoch, hstart]
    simp
  rw [boundaries_eq le_rfl (by omega) hlong (by omega), slotNumberAt_single hothers, slotNumberAt_genesis, hepoch, hslot]
    at hcount
  rw [timeStampToAbsoluteSlotNumber_single hothers le_rfl, slot_genesis.1, slot_genesis.2] at hn₁
  rw [timeStampToAbsoluteSlotNumber_single hothers (by omega), hepoch, hslot] at hn₂
  have hvalue : intOf (2 * 720 + 1) = 1441 := by decide
  rw [hvalue] at hn₂
  obtain rfl := Except.ok.inj hn₁
  obtain rfl := Except.ok.inj hn₂
  by_cases hsmall : 1 * 720 + p.head.slots < 2 ^ 31
  · rw [intOf_eq ⟨by omega, hsmall⟩] at hcount
    omega
  · have hneg := intOf_neg (not_lt.1 hsmall) (by omega)
    omega

/-- **Absolute slot numbers.** Let every epoch in range be longer than a slot of the first fork. The code counts slots between
all timestamps less than `2 ^ 31` seconds after the genesis, if and only if there are several forks or epochs of 720 slots,
and the slot numbers in range do not pass the limit of an `Int`: the last one fits, or that of the genesis already does
not. -/
theorem absolute_slots_count (p : ConsensusParams) (G : ℤ) (hlong : LongEpochs p G (G + 2 ^ 31 - 1)) :
    (∀ t₁ t₂, G ≤ t₁ → t₁ ≤ t₂ → t₂ < G + 2 ^ 31 → CountsSlots p G t₁ t₂) ↔
      (p.others ≠ [] ∨ p.head.slots = 720) ∧
        (slotNumberAt p G (G + 2 ^ 31 - 1) < 2 ^ 31 ∨ 2 ^ 31 ≤ 2 * p.head.slots) := by
  have hslots_fit : p.head.slots < 2 ^ 31 := by
    have hfits : p.head.slots * p.head.seconds < 2 ^ 31 := p.first_valid.epoch_fits
    have hle : p.head.slots ≤ p.head.slots * p.head.seconds :=
      le_mul_of_one_le_right p.first_valid.slots_pos.le p.first_valid.seconds_pos
    omega
  constructor
  · intro hcounts
    have hslots : p.others ≠ [] ∨ p.head.slots = 720 := by
      by_cases hothers : p.others = []
      · have hpos : 0 < p.head.seconds := p.first_valid.seconds_pos
        have hfits : p.head.slots * p.head.seconds < 2 ^ 31 := p.first_valid.epoch_fits
        have hle : p.head.seconds ≤ p.head.slots * p.head.seconds := le_mul_of_one_le_left hpos.le p.first_valid.slots_pos
        exact .inr (default_slots_of_countsSlots hothers (hcounts G (G + p.head.seconds) le_rfl (by omega) (by omega)))
      · exact .inl hothers
    refine ⟨hslots, ?_⟩
    by_contra hpasses
    push Not at hpasses
    obtain ⟨hlast, hfirst⟩ := hpasses
    obtain ⟨n₁, n₂, hn₁, hn₂, hcount, -⟩ := hcounts G (G + 2 ^ 31 - 1) le_rfl (by omega) (by omega)
    obtain ⟨hok₁, -⟩ := absolute_eq hslots (longEpochs_mono hlong (show G ≤ G + 2 ^ 31 - 1 by omega)) le_rfl (by omega)
    obtain ⟨hok₂, hint₂⟩ := absolute_eq hslots hlong (by omega) (by omega)
    obtain rfl := Except.ok.inj (hok₁.symm.trans hn₁)
    obtain rfl := Except.ok.inj (hok₂.symm.trans hn₂)
    have hpos : 0 < p.head.slots := p.first_valid.slots_pos
    have hlimit := (isInt_intOf (slotNumberAt p G (G + 2 ^ 31 - 1))).2
    rw [boundaries_eq le_rfl (by omega) hlong hint₂, slotNumberAt_genesis, intOf_eq ⟨by omega, hfirst⟩] at hcount
    omega
  · rintro ⟨hslots, hwindow⟩ t₁ t₂ h₁ hle hrange
    have hlong₂ := longEpochs_mono hlong (show t₂ ≤ G + 2 ^ 31 - 1 by omega)
    have hbounds : ∀ t, t₁ ≤ t → t ≤ t₂ → 2 * p.head.slots ≤ slotNumberAt p G t ∧
        slotNumberAt p G t ≤ slotNumberAt p G (G + 2 ^ 31 - 1) ∧ slotNumberAt p G t < 2 * p.head.slots + 2 ^ 31 := by
      intro t ht ht'
      have hgenesis := slotNumberAt_mono (p := p) (le_refl G) (show G ≤ t by omega)
      have hend := slotNumberAt_mono (p := p) (show G ≤ t by omega) (show t ≤ G + 2 ^ 31 - 1 by omega)
      have hslow := slotNumberAt_le (p := p) (show G ≤ t by omega)
      rw [slotNumberAt_genesis] at hgenesis
      exact ⟨hgenesis, hend, by omega⟩
    have hpos : 0 < p.head.slots := p.first_valid.slots_pos
    rcases hwindow with hlast | hfirst
    · apply countsSlots_of_window (k := 0) hslots h₁ hle hrange hlong₂
      intro t ht ht'
      obtain ⟨hlo, hhi, -⟩ := hbounds t ht ht'
      rw [intOf_eq ⟨by omega, by omega⟩, sub_zero]
    · apply countsSlots_of_window (k := 2 ^ 32) hslots h₁ hle hrange hlong₂
      intro t ht ht'
      obtain ⟨hlo, -, hhi⟩ := hbounds t ht ht'
      rw [intOf_congr 1 (show slotNumberAt p G t = slotNumberAt p G t - 2 ^ 32 + 1 * 2 ^ 32 by ring)]
      exact intOf_eq ⟨by omega, by omega⟩

/-- from the genesis over the fork at epoch 20 -/
theorem forked_slots_count : CountsSlots forkedParams 10000 10000 200000 := by
  apply (absolute_slots_count forkedParams 10000 ?_).2 ⟨.inl (by decide), .inl (by decide +kernel)⟩ 10000 200000 le_rfl
    (by norm_num) (by norm_num)
  intro f hf _
  rw [List.mem_singleton.1 hf]
  decide

/-- epochs of 100 slots of 10 seconds, from the start -/
def hundredSlotsParams : ConsensusParams where
  first := ⟨100, 10⟩
  others := []
  registered := [⟨0, ⟨100, 10⟩⟩]
  first_valid := ⟨by decide, by decide, by decide⟩
  others_valid := no_forks_valid
  activation := no_forks_activation
  increasing := no_forks_increasing
  registered_eq := .inr rfl

/-- the step from the slot of the genesis to the next one adds 621 -/
theorem slot_numbers_jump :
    timestampToEpochAndSlot hundredSlotsParams 0 0 = .ok ⟨1, 100⟩ ∧
      timestampToEpochAndSlot hundredSlotsParams 0 10 = .ok ⟨2, 1⟩ ∧
      timeStampToAbsoluteSlotNumber hundredSlotsParams 0 0 = .ok 820 ∧
      timeStampToAbsoluteSlotNumber hundredSlotsParams 0 10 = .ok 1441 ∧ ¬ CountsSlots hundredSlotsParams 0 0 10 := by
  refine ⟨by decide +kernel, by decide +kernel, by decide +kernel, by decide +kernel, ?_⟩
  intro h
  exact absurd (default_slots_of_countsSlots (p := hundredSlotsParams) (G := 0) rfl h) (by decide)

end SidechainsSdk.Consensus.AbsoluteSlots
