/-
The time that remains in a slot (`TimeToEpochUtils.secondsRemainingInSlot`), after which the forger looks for its next slot.

The code counts whole slots from the virtual genesis on, all of the length that slots have in the epoch of the timestamp. The
slots of an epoch start with the epoch, so the two counts agree if the epochs before it make up a whole number of its slots.

- `IsNextSlotStart`: the first second of the slot that follows the one of a timestamp.
- `LeadsToNextSlot`: the remaining seconds lead there, and are at least 1 and at most the length of the slot.
- `seconds_remaining_iff`: for every fork list, exactly if the next slot starts a whole number of slots after the virtual
  genesis. With epochs longer than one slot of the first fork that is a property of the start of the epoch alone.
-/
import Mathlib.Tactic
import SidechainsSdk.Consensus.SlotTimes

namespace SidechainsSdk.Consensus.SlotRemainder

open Fallible MachineInt TimeToEpochUtils SlotTimes

section Code

variable (p : ConsensusParams) (sidechainGenesisBlockTimestamp : ℤ)

/-- `ConsensusParamsUtil.getConsensusSecondsInSlotsPerEpoch` -/
def getConsensusSecondsInSlotsPerEpoch (timestamp : ℤ) : Except String ℤ := do
  let epochNumber ← timeStampToEpochNumber p sidechainGenesisBlockTimestamp timestamp
  return (p.get epochNumber).consensusSecondsInSlot

def secondsRemainingInSlot (timestamp : ℤ) : Except String ℤ := do
  let consensusSecondsInSlot ← getConsensusSecondsInSlotsPerEpoch p sidechainGenesisBlockTimestamp timestamp
  let secondsElapsedInSlot :=
    (timestamp - virtualGenesisBlockTimeStamp p sidechainGenesisBlockTimestamp).tmod consensusSecondsInSlot
  return consensusSecondsInSlot - secondsElapsedInSlot

/-- up to `n` the slot is that of `t`, and from `n` on it is the following one -/
def IsNextSlotStart (t n : ℤ) : Prop :=
  ∃ es, t < n ∧ (∀ u, t ≤ u → u < n → timestampToEpochAndSlot p sidechainGenesisBlockTimestamp u = .ok es) ∧
    timestampToEpochAndSlot p sidechainGenesisBlockTimestamp n = .ok (following p es)

/-- the remaining seconds lead to the next slot -/
def LeadsToNextSlot (t : ℤ) : Prop :=
  ∃ es remaining, timestampToEpochAndSlot p sidechainGenesisBlockTimestamp t = .ok es ∧
    secondsRemainingInSlot p sidechainGenesisBlockTimestamp t = .ok remaining ∧
    IsNextSlotStart p sidechainGenesisBlockTimestamp t (t + remaining) ∧ 1 ≤ remaining ∧
    remaining ≤ (p.get es.epochNumber).consensusSecondsInSlot

/-- the next slot starts within one slot, a whole number of slots after the virtual genesis -/
def NextSlotAligned (t : ℤ) : Prop :=
  ∃ es n, timestampToEpochAndSlot p sidechainGenesisBlockTimestamp t = .ok es ∧
    IsNextSlotStart p sidechainGenesisBlockTimestamp t n ∧ n - t ≤ (p.get es.epochNumber).consensusSecondsInSlot ∧
    (p.get es.epochNumber).consensusSecondsInSlot ∣ n - virtualGenesisBlockTimeStamp p sidechainGenesisBlockTimestamp

end Code

section Laws

variable {p : ConsensusParams} {G t n : ℤ}

/-- at any epoch slots take some time, also at one that no fork has been set up for -/
theorem get_seconds_pos (e : ℤ) : 0 < (p.get e).consensusSecondsInSlot := by
  have hdefault : 0 < DefaultConsensusParamsFork.consensusSecondsInSlot := by decide
  by_cases he : 0 ≤ e
  · rw [get_eq he]
    exact (forkOf_valid e).seconds_pos
  · have hnone : p.get e = DefaultConsensusParamsFork := by
      rcases p.registered_eq with ⟨hregistered, -⟩ | hregistered
      · rw [ConsensusParams.get, hregistered]
        rcases hothers : p.others with _ | ⟨g, rest⟩
        · rfl
        · have hactivation := (p.activation g (by rw [hothers]; exact List.mem_cons_self ..)).1
          rw [findActiveFork, if_neg (by omega)]
          rfl
      · rw [ConsensusParams.get, hregistered, findActiveFork, if_neg he]
        rfl
    rw [hnone]
    exact hdefault

/-- the code, after the check of the timestamp -/
theorem secondsRemainingInSlot_eq {es : ConsensusEpochAndSlot} (ht : G ≤ t) (hes : timestampToEpochAndSlot p G t = .ok es) :
    secondsRemainingInSlot p G t = .ok ((p.get es.epochNumber).consensusSecondsInSlot -
      (t - virtualGenesisBlockTimeStamp p G) % (p.get es.epochNumber).consensusSecondsInSlot) := by
  obtain ⟨epoch, hepoch, hrest⟩ := bind_ok hes
  obtain ⟨slot, -, hok⟩ := bind_ok hrest
  injection hok with hok
  subst hok
  have hstarted := (origin_le (p := p) ht).1
  rw [secondsRemainingInSlot, getConsensusSecondsInSlotsPerEpoch, hepoch]
  show Except.ok (_ - Int.tmod _ _) = _
  rw [Int.tmod_eq_emod_of_nonneg (by omega)]

/-- the remaining seconds are the only ones up to the length of a slot that lead to a whole number of slots -/
theorem remaining_eq_iff {x m r : ℤ} (hm : 0 < m) : r = m - x % m ↔ 1 ≤ r ∧ r ≤ m ∧ m ∣ x + r := by
  have hnonneg := Int.emod_nonneg x hm.ne'
  have hlt := Int.emod_lt_of_pos x hm
  have hdiv : m ∣ x - x % m := Int.dvd_self_sub_emod
  constructor
  · rintro rfl
    refine ⟨by omega, by omega, ?_⟩
    have hsum : x + (m - x % m) = (x - x % m) + m := by ring
    rw [hsum]
    exact dvd_add hdiv dvd_rfl
  · rintro ⟨hone, hle, hdvd⟩
    have hrest : m ∣ x % m + r - m := by
      have hdiff : x % m + r - m = (x + r) - (x - x % m) - m := by ring
      rw [hdiff]
      exact (hdvd.sub hdiv).sub dvd_rfl
    have hzero := Int.eq_zero_of_abs_lt_dvd hrest (by rw [abs_lt]; constructor <;> omega)
    omega

theorem leads_iff_aligned (ht : G ≤ t) : LeadsToNextSlot p G t ↔ NextSlotAligned p G t := by
  constructor
  · rintro ⟨es, remaining, hes, hremaining, hnext, hone, hle⟩
    rw [secondsRemainingInSlot_eq ht hes, Except.ok.injEq] at hremaining
    obtain ⟨-, -, hdvd⟩ := (remaining_eq_iff (get_seconds_pos (p := p) es.epochNumber)).1 hremaining.symm
    refine ⟨es, t + remaining, hes, hnext, by omega, ?_⟩
    rw [show t + remaining - virtualGenesisBlockTimeStamp p G = t - virtualGenesisBlockTimeStamp p G + remaining by ring]
    exact hdvd
  · rintro ⟨es, n, hes, hnext, hle, hdvd⟩
    have hlt : t < n := by
      obtain ⟨_, hlt, -⟩ := hnext
      exact hlt
    have hremaining : n - t = (p.get es.epochNumber).consensusSecondsInSlot -
        (t - virtualGenesisBlockTimeStamp p G) % (p.get es.epochNumber).consensusSecondsInSlot := by
      refine (remaining_eq_iff (get_seconds_pos (p := p) es.epochNumber)).2 ⟨by omega, hle, ?_⟩
      rw [show t - virtualGenesisBlockTimeStamp p G + (n - t) = n - virtualGenesisBlockTimeStamp p G by ring]
      exact hdvd
    refine ⟨es, n - t, hes, ?_, ?_, by omega, hle⟩
    · rw [secondsRemainingInSlot_eq ht hes, hremaining]
    · rw [show t + (n - t) = n by ring]
      exact hnext

/-- the slot does not change before the next one starts -/
theorem same_slot {u : ℤ} (ht : G ≤ t) (hu : t ≤ u) (hlt : u < nextSlotStart p G t) :
    epochAt p G u = epochAt p G t ∧ slotAt p G u = slotAt p G t := by
  obtain ⟨hstart, -⟩ := slotStart_floor (p := p) (G := G) (t := t)
  obtain ⟨hone, hslots⟩ := slotAt_bounds (p := p) ht
  have hepoch := one_le_epochAt (p := p) ht
  have hpos := (forkOf_valid (p := p) (epochAt p G t)).seconds_pos
  have hbegin := (epochAt_floor (p := p) ht).1
  have hend : nextSlotStart p G t ≤ epochStart p G (epochAt p G t + 1) := by
    have hmul : slotAt p G t * (forkOf p (epochAt p G t)).seconds ≤
        (forkOf p (epochAt p G t)).slots * (forkOf p (epochAt p G t)).seconds :=
      mul_le_mul_of_nonneg_right hslots hpos.le
    rw [epochStart_succ (by omega), nextSlotStart, slotStart, add_sub_cancel_right, ConsensusParamsForkInfo.epochInSeconds]
    omega
  have hsame : epochAt p G u = epochAt p G t := epochAt_eq (by omega) (by omega) (by omega)
  refine ⟨hsame, ?_⟩
  have hquot : (u - epochStart p G (epochAt p G t)) / (forkOf p (epochAt p G t)).seconds = slotAt p G t - 1 := by
    have hsplit : (slotAt p G t + 1 - 1) * (forkOf p (epochAt p G t)).seconds =
      (slotAt p G t - 1) * (forkOf p (epochAt p G t)).seconds + (forkOf p (epochAt p G t)).seconds := by ring
    unfold nextSlotStart slotStart at hlt
    unfold slotStart at hstart
    rw [Int.ediv_eq_iff_of_pos hpos]
    constructor <;> omega
  rw [slotAt_eq (t := u), hsame, hquot]
  ring

/-- where the epochs fit, the next slot starts where the timetable says, and nowhere else -/
theorem isNextSlotStart_iff (hlong : EpochsLongerThanSlot p) (ht : G ≤ t) (hint : epochAt p G (nextSlotStart p G t) < 2 ^ 31) :
    IsNextSlotStart p G t n ↔ n = nextSlotStart p G t := by
  have hnext := (slotStart_floor (p := p) (G := G) (t := t)).2
  have hle := (epochAt_le_next (p := p) ht).1
  have hfollowing := following_eq (p := p) ht (by omega)
  have hown : ∀ u, t ≤ u → u < nextSlotStart p G t →
      timestampToEpochAndSlot p G u = .ok ⟨intOf (epochAt p G t), slotAt p G t⟩ := by
    intro u hu hlt
    obtain ⟨hepoch, hslot⟩ := same_slot (p := p) ht hu hlt
    rw [timestampToEpochAndSlot_eq (by omega) (hlong.longEpochs u), hepoch, hslot]
  have hstart : timestampToEpochAndSlot p G (nextSlotStart p G t) =
      .ok (following p ⟨intOf (epochAt p G t), slotAt p G t⟩) := by
    rw [timestampToEpochAndSlot_eq (by omega) (hlong.longEpochs _), hfollowing]
  have hchange : following p ⟨intOf (epochAt p G t), slotAt p G t⟩ ≠ ⟨intOf (epochAt p G t), slotAt p G t⟩ := by
    have hone := one_le_epochAt (p := p) ht
    rw [hfollowing, intOf_eq ⟨by omega, hint⟩, intOf_eq ⟨by omega, by omega⟩]
    intro heq
    injection heq with hepoch hslot
    rcases next_epoch_slot (p := p) ht with ⟨-, -, hsucc⟩ | ⟨-, -, hsucc, -⟩
    · omega
    · omega
  constructor
  · rintro ⟨es, htn, hbefore, hat⟩
    have hes : es = ⟨intOf (epochAt p G t), slotAt p G t⟩ := by
      have hboth := (hbefore t le_rfl htn).symm.trans (hown t le_rfl hnext)
      injection hboth
    subst hes
    rcases lt_trichotomy n (nextSlotStart p G t) with hlt | heq | hgt
    · have hboth := (hown n htn.le hlt).symm.trans hat
      injection hboth with hboth
      exact absurd hboth.symm hchange
    · exact heq
    · have hboth := (hbefore _ hnext.le hgt).symm.trans hstart
      injection hboth with hboth
      exact absurd hboth.symm hchange
  · rintro rfl
    exact ⟨_, hnext, hown, hstart⟩

/-- the next slot starts whole slots after the start of the epoch -/
theorem aligned_iff (hlong : EpochsLongerThanSlot p) (ht : G ≤ t) (hint : epochAt p G (nextSlotStart p G t) < 2 ^ 31) :
    NextSlotAligned p G t ↔
      (forkOf p (epochAt p G t)).seconds ∣ epochStart p G (epochAt p G t) - virtualGenesisBlockTimeStamp p G := by
  obtain ⟨hstart, hnext⟩ := slotStart_floor (p := p) (G := G) (t := t)
  have hone := one_le_epochAt (p := p) ht
  have hle := (epochAt_le_next (p := p) ht).1
  have hes := timestampToEpochAndSlot_eq ht (hlong.longEpochs (G := G) t)
  rw [intOf_eq ⟨by omega, by omega⟩] at hes
  have hseconds : (p.get (epochAt p G t)).consensusSecondsInSlot = (forkOf p (epochAt p G t)).seconds := by
    rw [get_eq (by omega)]
    rfl
  have hwhole : nextSlotStart p G t - virtualGenesisBlockTimeStamp p G =
      epochStart p G (epochAt p G t) - virtualGenesisBlockTimeStamp p G +
        slotAt p G t * (forkOf p (epochAt p G t)).seconds := by
    rw [nextSlotStart, slotStart]
    ring
  have hwithin : nextSlotStart p G t - t ≤ (forkOf p (epochAt p G t)).seconds := by
    have hsucc : nextSlotStart p G t = slotStart p G (epochAt p G t) (slotAt p G t) + (forkOf p (epochAt p G t)).seconds :=
      slotStart_succ
    omega
  constructor
  · rintro ⟨es, n, hes', hn, -, hdvd⟩
    have heq : es = ⟨epochAt p G t, slotAt p G t⟩ := by
      have hboth := hes'.symm.trans hes
      injection hboth
    subst heq
    rw [(isNextSlotStart_iff hlong ht hint).1 hn, hseconds, hwhole] at hdvd
    exact (dvd_add_left (dvd_mul_left _ _)).1 hdvd
  · intro hdvd
    refine ⟨_, nextSlotStart p G t, hes, (isNextSlotStart_iff hlong ht hint).2 rfl, ?_, ?_⟩
    · rw [hseconds]
      exact hwithin
    · rw [hseconds, hwhole]
      exact (dvd_add_left (dvd_mul_left _ _)).2 hdvd

/-- **Seconds to the next slot.** For every fork list and every timestamp from the genesis on, the remaining seconds lead to
the next slot exactly if it starts within the length of a slot, a whole number of these lengths after the virtual genesis.
Where epochs are longer than one slot of the first fork, and up to the last epoch that fits an `Int`, that means: exactly
if the epochs before that of the timestamp make up a whole number of its slots. -/
theorem seconds_remaining_iff (p : ConsensusParams) (G t : ℤ) (ht : G ≤ t) :
    (LeadsToNextSlot p G t ↔ NextSlotAligned p G t) ∧
      (EpochsLongerThanSlot p → epochAt p G (nextSlotStart p G t) < 2 ^ 31 → (LeadsToNextSlot p G t ↔
        (forkOf p (epochAt p G t)).seconds ∣ epochStart p G (epochAt p G t) - virtualGenesisBlockTimeStamp p G)) :=
  ⟨leads_iff_aligned ht, fun hlong hint => (leads_iff_aligned ht).trans (aligned_iff hlong ht hint)⟩

end Laws

/-! The default parameters with forks that change the length of slots: to 10 seconds at epoch 20, or to 7. -/

section Sample

def changedSlots (seconds : ℤ) (hpos : 0 < seconds) (hfits : 720 * seconds < 2 ^ 31) : ConsensusParams where
  first := DefaultConsensusParamsFork
  others := [⟨20, ⟨720, seconds⟩⟩]
  registered := [⟨20, ⟨720, seconds⟩⟩]
  first_valid := default_valid
  others_valid := by
    intro f hf
    rw [List.mem_singleton.1 hf]
    exact ⟨show (0 : ℤ) < 720 by decide, hpos, hfits⟩
  activation := by simp
  increasing := List.pairwise_singleton _ _
  registered_eq := .inl ⟨rfl, rfl⟩

/-- 19 epochs of 8640 seconds are 16416 slots of 10 seconds -/
theorem ten_second_slots : LeadsToNextSlot (changedSlots 10 (by decide) (by decide)) 100000 300000 :=
  ((seconds_remaining_iff (changedSlots 10 (by decide) (by decide)) 100000 300000 (by decide)).2
    (by simp only [EpochsLongerThanSlot]; decide) (by decide)).2 (by decide)

/-- They are 23451 slots of 7 seconds and 3 seconds more: in the first second of epoch 20 the code says that 4 seconds of the
slot remain, and after these the slot is still the same. -/
theorem seven_second_slots :
    secondsRemainingInSlot (changedSlots 7 (by decide) (by decide)) 100000 255532 = .ok 4 ∧
      timestampToEpochAndSlot (changedSlots 7 (by decide) (by decide)) 100000 255532 = .ok ⟨20, 1⟩ ∧
      timestampToEpochAndSlot (changedSlots 7 (by decide) (by decide)) 100000 255536 = .ok ⟨20, 1⟩ ∧
      ¬ LeadsToNextSlot (changedSlots 7 (by decide) (by decide)) 100000 255532 := by
  have hremaining : secondsRemainingInSlot (changedSlots 7 (by decide) (by decide)) 100000 255532 = .ok 4 := by
    decide +kernel
  have hfirst : timestampToEpochAndSlot (changedSlots 7 (by decide) (by decide)) 100000 255532 = .ok ⟨20, 1⟩ := by
    decide +kernel
  have hlater : timestampToEpochAndSlot (changedSlots 7 (by decide) (by decide)) 100000 255536 = .ok ⟨20, 1⟩ := by
    decide +kernel
  refine ⟨hremaining, hfirst, hlater, ?_⟩
  rintro ⟨es, remaining, -, hcode, ⟨es', hlt, hown, hnext⟩, -⟩
  rw [hremaining, Except.ok.injEq] at hcode
  subst hcode
  have hsame := (hown 255532 le_rfl hlt).symm.trans hfirst
  injection hsame with hsame
  subst hsame
  have hboth := hnext.symm.trans hlater
  revert hboth
  decide

end Sample

end SidechainsSdk.Consensus.SlotRemainder
