/-
Consensus time (`TimeToEpochUtils`): timestamps to consensus epochs and slots and back, for parameters that change at forks.

- `ConsensusParams`: the forks as `AbstractSidechainApp` sets them up. `multiplyExact` throws for an epoch whose seconds do
  not fit an `Int`, and it is first called for each fork while their timestamps are set up.
- `epochStart`, `epochAt`, `slotAt`, `slotNumberAt`: the epochs and the slots as timetables, without machine arithmetic.
- `slotNumberAt_eq`: the slots that lie before an epoch and the slot within it count to the number of the slot.
- `getEpochIndex_eq`, `timeStampToSlotNumber_eq`, `timeStampFor_several`, `timeStampToAbsoluteSlotNumber_several`: what the
  loops of the source compute, in these terms.

Timestamps (`Long`) are integers without a bound: those of blocks are not ahead of the clock by more than a drift, so that
differences of timestamps and products of two `Int`s stay far within a `Long`. The arithmetic of epochs and slots (`Int`) takes
results back into their range.
-/
import Mathlib.Tactic
import SidechainsSdk.Core.Fallible
import SidechainsSdk.Core.MachineInt
import SidechainsSdk.Core.Timetable

namespace SidechainsSdk.Consensus.TimeToEpochUtils

open Fallible MachineInt Timetable

/-! ## Forks -/

structure ConsensusParamsFork where
  consensusSlotsInEpoch : ℤ
  consensusSecondsInSlot : ℤ
deriving DecidableEq

def DefaultConsensusParamsFork : ConsensusParamsFork := ⟨720, 12⟩

structure ConsensusParamsForkInfo where
  activationEpoch : ℤ
  consensusParamsFork : ConsensusParamsFork
deriving DecidableEq

namespace ConsensusParamsForkInfo

def slots (f : ConsensusParamsForkInfo) : ℤ := f.consensusParamsFork.consensusSlotsInEpoch

def seconds (f : ConsensusParamsForkInfo) : ℤ := f.consensusParamsFork.consensusSecondsInSlot

def epochInSeconds (f : ConsensusParamsForkInfo) : ℤ := f.slots * f.seconds

/-- what setting up a fork needs -/
structure Valid (f : ConsensusParamsForkInfo) : Prop where
  slots_pos : 0 < f.slots
  seconds_pos : 0 < f.seconds
  epoch_fits : f.epochInSeconds < 2 ^ 31

end ConsensusParamsForkInfo

/-- the forks, and those that `ForkManager` knows: the configured ones after the default parameters, or all of them -/
structure ConsensusParams where
  first : ConsensusParamsFork
  others : List ConsensusParamsForkInfo
  registered : List ConsensusParamsForkInfo
  first_valid : ConsensusParamsForkInfo.Valid ⟨0, first⟩
  others_valid : ∀ f ∈ others, f.Valid
  activation : ∀ f ∈ others, 2 ≤ f.activationEpoch ∧ f.activationEpoch < 2 ^ 31
  increasing : others.Pairwise fun f g => f.activationEpoch < g.activationEpoch
  registered_eq : registered = others ∧ first = DefaultConsensusParamsFork ∨ registered = ⟨0, first⟩ :: others

theorem no_forks_valid : ∀ f ∈ ([] : List ConsensusParamsForkInfo), f.Valid := by simp

theorem no_forks_activation :
    ∀ f ∈ ([] : List ConsensusParamsForkInfo), 2 ≤ f.activationEpoch ∧ f.activationEpoch < 2 ^ 31 := by simp

theorem no_forks_increasing : ([] : List ConsensusParamsForkInfo).Pairwise fun f g => f.activationEpoch < g.activationEpoch :=
  List.Pairwise.nil

theorem no_forks_registered :
    ([] : List ConsensusParamsForkInfo) = [] ∧ DefaultConsensusParamsFork = DefaultConsensusParamsFork ∨
      ([] : List ConsensusParamsForkInfo) = [⟨0, DefaultConsensusParamsFork⟩] := .inl ⟨rfl, rfl⟩

theorem default_valid : ConsensusParamsForkInfo.Valid ⟨0, DefaultConsensusParamsFork⟩ := ⟨by decide, by decide, by decide⟩

def ConsensusParams.head (p : ConsensusParams) : ConsensusParamsForkInfo := ⟨0, p.first⟩

/-- `ForkManager.findActiveFork` -/
def findActiveFork {α : Type} (activation : α → ℤ) (height : ℤ) : Option α → List α → Option α
  | active, [] => active
  | active, f :: rest => if activation f ≤ height then findActiveFork activation height (some f) rest else active

/-- `ConsensusParamsFork.get` -/
def ConsensusParams.get (p : ConsensusParams) (epochNumber : ℤ) : ConsensusParamsFork :=
  ((findActiveFork ConsensusParamsForkInfo.activationEpoch epochNumber none p.registered).map
    ConsensusParamsForkInfo.consensusParamsFork).getD DefaultConsensusParamsFork

/-! ## The code -/

section Code

variable (p : ConsensusParams) (sidechainGenesisBlockTimestamp : ℤ)

def virtualGenesisBlockTimeStamp : ℤ := sidechainGenesisBlockTimestamp - p.head.epochInSeconds + p.head.seconds

/-- the loop of `getTimeStampForEpochAndSlot`: the fork of an epoch, and the seconds up to its activation -/
def accumulateSeconds (epochNumber : ℤ) (previousFork : ConsensusParamsForkInfo) (accumulatedSeconds : ℤ) :
    List ConsensusParamsForkInfo → ConsensusParamsForkInfo × ℤ
  | [] => (previousFork, accumulatedSeconds)
  | currentFork :: rest =>
    if epochNumber > currentFork.activationEpoch - 1 then
      accumulateSeconds epochNumber currentFork
        (accumulatedSeconds + (currentFork.activationEpoch - previousFork.activationEpoch) * previousFork.epochInSeconds) rest
    else (previousFork, accumulatedSeconds)

/-- `getTimeStampForEpochAndSlot` after its check -/
def timeStampFor (epochNumber slotNumber : ℤ) : ℤ :=
  if p.others ≠ [] then
    let (lastFork, previousAccumulatedSecondsPerFork) := accumulateSeconds epochNumber p.head 0 p.others
    let epochInCurrentFork := intOf (epochNumber - lastFork.activationEpoch - 1)
    let accumulatedSecondsPerEpoch := previousAccumulatedSecondsPerFork +
      intOf (epochInCurrentFork + 1) * lastFork.epochInSeconds + intOf ((slotNumber - 1) * lastFork.seconds) -
        p.head.epochInSeconds
    virtualGenesisBlockTimeStamp p sidechainGenesisBlockTimestamp + accumulatedSecondsPerEpoch
  else
    let totalSlots := intOf ((epochNumber - 1) * p.head.slots + (slotNumber - 1))
    virtualGenesisBlockTimeStamp p sidechainGenesisBlockTimestamp + intOf (totalSlots * p.head.seconds)

def getTimeStampForEpochAndSlot (epochNumber slotNumber : ℤ) : Except String ℤ := do
  failIf (¬ slotNumber ≤ (p.get epochNumber).consensusSlotsInEpoch) "requirement failed"
  return timeStampFor p sidechainGenesisBlockTimestamp epochNumber slotNumber

/-- the forks with their timestamps, as they are set up -/
def activations : List (ConsensusParamsForkInfo × ℤ) :=
  (p.head, virtualGenesisBlockTimeStamp p sidechainGenesisBlockTimestamp) ::
    p.others.map fun f => (f, timeStampFor p sidechainGenesisBlockTimestamp f.activationEpoch 1)

/-- the loop of `getConsensusInformationFromTimestamp`: the starting epoch, and the last fork with its timestamp -/
def lastForkBefore (refinedTimestamp : ℤ) (found : ℤ × ConsensusParamsForkInfo × ℤ) :
    List (ConsensusParamsForkInfo × ℤ) → ℤ × ConsensusParamsForkInfo × ℤ
  | [] => found
  | (fork, forkActivationTimestamp) :: rest =>
    if refinedTimestamp > forkActivationTimestamp then
      lastForkBefore refinedTimestamp (fork.activationEpoch, fork, forkActivationTimestamp) rest
    else found

structure BlockConsensusForkInformation where
  secondsInFork : ℤ
  forkStartingEpoch : ℤ
  lastConsensusFork : ConsensusParamsForkInfo

def getConsensusInformationFromTimestamp (timestamp refinedTimestamp : ℤ) : BlockConsensusForkInformation :=
  let (startingEpoch, lastFork, lastForkActivationTimestamp) := lastForkBefore refinedTimestamp
    (0, p.head, virtualGenesisBlockTimeStamp p sidechainGenesisBlockTimestamp) (activations p sidechainGenesisBlockTimestamp)
  let timestampMinusSlot := timestamp - lastFork.seconds
  let secondsInFork := timestampMinusSlot - lastForkActivationTimestamp + lastFork.seconds
  ⟨secondsInFork, if lastFork.activationEpoch = 0 then startingEpoch + 1 else startingEpoch, lastFork⟩

def getEpochIndex (timestamp : ℤ) : Except String ℤ := do
  failIf (¬ sidechainGenesisBlockTimestamp ≤ timestamp)
    s!"Try to get index epoch for timestamp {timestamp} which are less than genesis timestamp {sidechainGenesisBlockTimestamp}"
  let refinedTimestamp := timestamp - p.head.seconds
  let info := getConsensusInformationFromTimestamp p sidechainGenesisBlockTimestamp timestamp refinedTimestamp
  return intOf (info.forkStartingEpoch + intOf (info.secondsInFork.tdiv info.lastConsensusFork.epochInSeconds))

def timeStampToEpochNumber (timestamp : ℤ) : Except String ℤ := getEpochIndex p sidechainGenesisBlockTimestamp timestamp

def timeStampToSlotNumber (timestamp : ℤ) : Except String ℤ := do
  failIf (¬ sidechainGenesisBlockTimestamp ≤ timestamp)
    s!"Try to get index epoch for timestamp {timestamp} which are less than genesis timestamp {sidechainGenesisBlockTimestamp}"
  let info := getConsensusInformationFromTimestamp p sidechainGenesisBlockTimestamp timestamp timestamp
  let slotIndex := (info.secondsInFork.tmod info.lastConsensusFork.epochInSeconds).tdiv info.lastConsensusFork.seconds
  return intOf (intOf slotIndex + 1)

structure ConsensusEpochAndSlot where
  epochNumber : ℤ
  slotNumber : ℤ
deriving DecidableEq

def timestampToEpochAndSlot (timestamp : ℤ) : Except String ConsensusEpochAndSlot := do
  let epoch ← timeStampToEpochNumber p sidechainGenesisBlockTimestamp timestamp
  let slot ← timeStampToSlotNumber p sidechainGenesisBlockTimestamp timestamp
  return ⟨epoch, slot⟩

/-- the loop of `timeStampToAbsoluteSlotNumber`: the last fork passed, and the slots up to its activation -/
def accumulateSlots (epoch : ℤ) (previousFork : ConsensusParamsForkInfo) (absoluteSlotNumber : ℤ) :
    List ConsensusParamsForkInfo → ConsensusParamsForkInfo × ℤ
  | [] => (previousFork, absoluteSlotNumber)
  | fork :: rest =>
    if epoch > fork.activationEpoch then
      accumulateSlots epoch fork
        (intOf (absoluteSlotNumber + (fork.activationEpoch - previousFork.activationEpoch) * previousFork.slots)) rest
    else (previousFork, absoluteSlotNumber)

/-- slot number starting from the genesis block -/
def timeStampToAbsoluteSlotNumber (timestamp : ℤ) : Except String ℤ := do
  if p.others ≠ [] then
    let epoch ← getEpochIndex p sidechainGenesisBlockTimestamp timestamp
    let slot ← timeStampToSlotNumber p sidechainGenesisBlockTimestamp timestamp
    let (lastFork, absoluteSlotNumber) := accumulateSlots epoch p.head 0 p.others
    return intOf (absoluteSlotNumber + (epoch - lastFork.activationEpoch) * lastFork.slots + slot)
  else
    let epoch ← timeStampToEpochNumber p sidechainGenesisBlockTimestamp timestamp
    let slot ← timeStampToSlotNumber p sidechainGenesisBlockTimestamp timestamp
    return intOf (epoch * DefaultConsensusParamsFork.consensusSlotsInEpoch + slot)

end Code

/-! ## Epochs and slots as timetables -/

/-- the fork of an epoch -/
def activeFork (epoch : ℤ) : ConsensusParamsForkInfo → List ConsensusParamsForkInfo → ConsensusParamsForkInfo
  | f, [] => f
  | f, g :: rest => if epoch < g.activationEpoch then f else activeFork epoch g rest

/-- the slots between the activation of a fork and an epoch -/
def slotsUpTo (epoch : ℤ) : ConsensusParamsForkInfo → List ConsensusParamsForkInfo → ℤ
  | f, [] => (epoch - f.activationEpoch) * f.slots
  | f, g :: rest =>
    if epoch < g.activationEpoch then (epoch - f.activationEpoch) * f.slots
    else (g.activationEpoch - f.activationEpoch) * f.slots + slotsUpTo epoch g rest

/-- the epochs of a fork -/
def epochs (f : ConsensusParamsForkInfo) : Segment := ⟨f.activationEpoch, f.epochInSeconds⟩

/-- the slots of the later forks, after `count` slots -/
def slotSegments (count : ℤ) (f : ConsensusParamsForkInfo) : List ConsensusParamsForkInfo → List Segment
  | [] => []
  | g :: rest =>
    ⟨count + (g.activationEpoch - f.activationEpoch) * f.slots + 1, g.seconds⟩ ::
      slotSegments (count + (g.activationEpoch - f.activationEpoch) * f.slots) g rest

/-- forks in the order of their activation -/
def Increasing (f : ConsensusParamsForkInfo) : List ConsensusParamsForkInfo → Prop
  | [] => f.Valid
  | g :: rest => f.Valid ∧ f.activationEpoch < g.activationEpoch ∧ Increasing g rest

section Walks

variable {f : ConsensusParamsForkInfo} {rest : List ConsensusParamsForkInfo} {o t e count : ℤ}

theorem Increasing.valid (h : Increasing f rest) : f.Valid := by
  cases rest with
  | nil => exact h
  | cons g rest => exact h.1

theorem ConsensusParamsForkInfo.Valid.epoch_pos (h : f.Valid) : 0 < f.epochInSeconds :=
  mul_pos h.slots_pos h.seconds_pos

theorem Increasing.ordered (h : Increasing f rest) : Ordered (epochs f) (rest.map epochs) := by
  induction rest generalizing f with
  | nil => exact h.valid.epoch_pos
  | cons g rest ih => exact ⟨h.valid.epoch_pos, h.2.1, ih h.2.2⟩

theorem Increasing.slots_ordered (h : Increasing f rest) : Ordered ⟨count + 1, f.seconds⟩ (slotSegments count f rest) := by
  induction rest generalizing f count with
  | nil => exact h.valid.seconds_pos
  | cons g rest ih =>
    have hslots : 0 < (g.activationEpoch - f.activationEpoch) * f.slots :=
      mul_pos (by have := h.2.1; omega) h.valid.slots_pos
    exact ⟨h.valid.seconds_pos, by simp only; omega, ih h.2.2⟩

theorem Increasing.active_valid (h : Increasing f rest) (e : ℤ) : (activeFork e f rest).Valid := by
  induction rest generalizing f with
  | nil => exact h
  | cons g rest ih =>
    rw [activeFork]
    split_ifs
    · exact h.1
    · exact ih h.2.2

theorem activeFork_first (h : Increasing f rest) : activeFork f.activationEpoch f rest = f := by
  cases rest with
  | nil => rfl
  | cons g rest => rw [activeFork, if_pos h.2.1]

theorem slotsUpTo_first (h : Increasing f rest) : slotsUpTo f.activationEpoch f rest = 0 := by
  cases rest with
  | nil => simp [slotsUpTo]
  | cons g rest => rw [slotsUpTo, if_pos h.2.1, sub_self, zero_mul]

/-- an epoch has the length of its fork -/
theorem startOf_succ (h : Increasing f rest) (he : f.activationEpoch ≤ e) :
    startOf o (epochs f) (rest.map epochs) (e + 1) =
      startOf o (epochs f) (rest.map epochs) e + (activeFork e f rest).epochInSeconds := by
  induction rest generalizing o f with
  | nil => exact (epochs f).startOf_succ o e
  | cons g rest ih =>
    rw [List.map_cons]
    rcases lt_trichotomy (e + 1) g.activationEpoch with hlt | heq | hgt
    · rw [startOf, startOf, activeFork, if_pos (by exact hlt), if_pos (show e < (epochs g).first by simp only [epochs]; omega),
        if_pos (by omega)]
      exact (epochs f).startOf_succ o e
    · have hfirst : startOf ((epochs f).startOf o g.activationEpoch) (epochs g) (rest.map epochs) g.activationEpoch =
          (epochs f).startOf o g.activationEpoch := startOf_first h.2.2.ordered
      rw [startOf_next (show (epochs g).first ≤ e + 1 from heq.ge), heq]
      rw [startOf, activeFork, if_pos (show e < (epochs g).first by simp only [epochs]; omega), if_pos (by omega)]
      refine hfirst.trans ?_
      rw [← heq]
      exact (epochs f).startOf_succ o e
    · rw [startOf_next (show (epochs g).first ≤ e + 1 by simp only [epochs]; omega),
        startOf_next (show (epochs g).first ≤ e by simp only [epochs]; omega), activeFork, if_neg (by omega)]
      exact ih h.2.2 (by omega)

theorem slotsUpTo_succ (h : Increasing f rest) (he : f.activationEpoch ≤ e) :
    slotsUpTo (e + 1) f rest = slotsUpTo e f rest + (activeFork e f rest).slots := by
  induction rest generalizing f with
  | nil =>
    simp only [slotsUpTo, activeFork]
    ring
  | cons g rest ih =>
    rcases lt_trichotomy (e + 1) g.activationEpoch with hlt | heq | hgt
    · rw [slotsUpTo, slotsUpTo, activeFork, if_pos hlt, if_pos (by omega), if_pos (by omega)]
      ring
    · rw [slotsUpTo, slotsUpTo, activeFork, if_neg (by omega), if_pos (show e < g.activationEpoch by omega),
        if_pos (show e < g.activationEpoch by omega), heq, slotsUpTo_first h.2.2, ← heq]
      ring
    · rw [slotsUpTo, slotsUpTo, activeFork, if_neg (by omega), if_neg (by omega), if_neg (by omega), ih h.2.2 (by omega)]
      ring

/-- the slot within the epoch at a time -/
def slotWithin (o : ℤ) (f : ConsensusParamsForkInfo) (rest : List ConsensusParamsForkInfo) (t : ℤ) : ℤ :=
  let e := numberAt o (epochs f) (rest.map epochs) t
  (t - startOf o (epochs f) (rest.map epochs) e) / (activeFork e f rest).seconds + 1

/-- within the epochs of one fork -/
theorem slotWithin_eq (h : f.Valid) (he : e = (epochs f).numberAt o t) :
    (t - (epochs f).startOf o e) / f.seconds + 1 = (t - o) % f.epochInSeconds / f.seconds + 1 ∧
      (t - o) / f.seconds = (e - f.activationEpoch) * f.slots + (t - (epochs f).startOf o e) / f.seconds := by
  have hquot : e - f.activationEpoch = (t - o) / f.epochInSeconds := by
    rw [he]
    simp only [epochs, Segment.numberAt]
    ring
  have hdiff : t - (epochs f).startOf o e = (t - o) - (e - f.activationEpoch) * f.epochInSeconds := by
    simp only [epochs, Segment.startOf]
    ring
  constructor
  · rw [hdiff, hquot, Int.emod_def, mul_comm f.epochInSeconds]
  · have hsec := h.seconds_pos
    have hmul : (e - f.activationEpoch) * f.epochInSeconds = (e - f.activationEpoch) * f.slots * f.seconds := by
      unfold ConsensusParamsForkInfo.epochInSeconds
      ring
    rw [hdiff, hmul, Int.sub_mul_ediv_right _ _ hsec.ne']
    ring

/-- the number of a slot: those before its epoch, and those up to it in the epoch -/
theorem numberAt_slots (h : Increasing f rest) :
    numberAt o ⟨count + 1, f.seconds⟩ (slotSegments count f rest) t =
      count + slotsUpTo (numberAt o (epochs f) (rest.map epochs) t) f rest + slotWithin o f rest t := by
  induction rest generalizing o f count with
  | nil =>
    have hwithin := (slotWithin_eq (o := o) (t := t) h.valid rfl).2
    simp only [slotSegments, numberAt, slotsUpTo, slotWithin, startOf, activeFork, List.map_nil]
    simp only [Segment.numberAt] at hwithin ⊢
    omega
  | cons g rest ih =>
    have hthreshold : Segment.startOf ⟨count + 1, f.seconds⟩ o
        (count + (g.activationEpoch - f.activationEpoch) * f.slots + 1) =
        (epochs f).startOf o g.activationEpoch := by
      simp only [Segment.startOf, epochs, ConsensusParamsForkInfo.epochInSeconds]
      ring
    simp only [slotSegments, numberAt, slotWithin, List.map_cons, hthreshold]
    by_cases hbefore : t < (epochs f).startOf o g.activationEpoch
    · have hwithin := (slotWithin_eq (o := o) (t := t) h.valid rfl).2
      have hnumber := (epochs f).numberAt_lt h.valid.epoch_pos hbefore
      have hstart : startOf o (epochs f) (epochs g :: rest.map epochs) ((epochs f).numberAt o t) =
          (epochs f).startOf o ((epochs f).numberAt o t) := by rw [startOf, if_pos (by exact hnumber)]
      rw [if_pos hbefore, if_pos (by exact hbefore), slotsUpTo, if_pos hnumber, activeFork, if_pos hnumber, hstart]
      simp only [Segment.numberAt] at hwithin ⊢
      omega
    · have hfloor := floor (t := t) (o := (epochs f).startOf o g.activationEpoch) h.2.2.ordered (not_lt.1 hbefore)
      have hge : g.activationEpoch ≤
          numberAt ((epochs f).startOf o g.activationEpoch) (epochs g) (rest.map epochs) t := hfloor.1
      rw [if_neg hbefore, if_neg (by exact hbefore), ih h.2.2]
      simp only [slotWithin, epochs] at hge ⊢
      rw [slotsUpTo, if_neg (by omega), activeFork, if_neg (by omega), startOf_next (by exact hge)]
      ring

/-! ## The loops -/

theorem Increasing.lt_of_mem (h : Increasing f rest) {g : ConsensusParamsForkInfo} (hg : g ∈ rest) :
    f.activationEpoch < g.activationEpoch := by
  induction rest generalizing f with
  | nil => cases hg
  | cons g' rest ih =>
    rcases List.mem_cons.1 hg with rfl | hg
    · exact h.2.1
    · exact h.2.1.trans (ih h.2.2 hg)

theorem accumulateSeconds_eq (f : ConsensusParamsForkInfo) (rest : List ConsensusParamsForkInfo) (acc : ℤ) :
    (accumulateSeconds e f acc rest).1 = activeFork e f rest ∧
      o + ((accumulateSeconds e f acc rest).2 + (e - (activeFork e f rest).activationEpoch) *
        (activeFork e f rest).epochInSeconds) =
        startOf (o + acc) (epochs f) (rest.map epochs) e := by
  induction rest generalizing f acc with
  | nil =>
    simp only [accumulateSeconds, activeFork, startOf, Segment.startOf, epochs, List.map_nil, true_and]
    ring
  | cons g rest ih =>
    have hnext : o + acc + (g.activationEpoch - f.activationEpoch) * f.epochInSeconds =
        o + (acc + (g.activationEpoch - f.activationEpoch) * f.epochInSeconds) := by ring
    simp only [accumulateSeconds, activeFork, startOf, Segment.startOf, epochs, List.map_cons]
    by_cases hbefore : e < g.activationEpoch
    · rw [if_neg (by omega), if_pos hbefore, if_pos hbefore]
      refine ⟨rfl, ?_⟩
      ring
    · rw [if_pos (by omega), if_neg hbefore, if_neg hbefore, hnext]
      exact ih _ _

theorem accumulateSlots_eq (h : Increasing f rest) (he : f.activationEpoch ≤ e) (acc slot : ℤ) :
    intOf ((accumulateSlots e f acc rest).2 +
        (e - (accumulateSlots e f acc rest).1.activationEpoch) * (accumulateSlots e f acc rest).1.slots + slot) =
      intOf (acc + slotsUpTo e f rest + slot) := by
  induction rest generalizing f acc with
  | nil => rfl
  | cons g rest ih =>
    simp only [accumulateSlots, slotsUpTo]
    rcases lt_trichotomy e g.activationEpoch with hlt | heq | hgt
    · rw [if_neg (by omega), if_pos hlt]
    · rw [if_neg (by omega), if_neg (by omega), heq, slotsUpTo_first h.2.2, add_zero]
    · rw [if_pos hgt, if_neg (by omega), ih h.2.2 hgt.le]
      obtain ⟨k, hk⟩ := intOf_eq_sub (acc + (g.activationEpoch - f.activationEpoch) * f.slots)
      apply intOf_congr (-k)
      rw [hk]
      ring

/-- the epoch of a time, from the fork that was found -/
def epochFrom (t : ℤ) (found : ℤ × ConsensusParamsForkInfo × ℤ) : ℤ :=
  (if found.2.1.activationEpoch = 0 then found.1 + 1 else found.1) + (t - found.2.2) / found.2.1.epochInSeconds

def slotFrom (t : ℤ) (found : ℤ × ConsensusParamsForkInfo × ℤ) : ℤ :=
  (t - found.2.2) % found.2.1.epochInSeconds / found.2.1.seconds + 1

variable {τ : ConsensusParamsForkInfo → ℤ} {found : ℤ × ConsensusParamsForkInfo × ℤ}

/-- the timestamps of the forks are the starts of their first epochs -/
def Starts (τ : ConsensusParamsForkInfo → ℤ) (o : ℤ) (f : ConsensusParamsForkInfo) (rest : List ConsensusParamsForkInfo) :
    Prop :=
  ∀ g ∈ rest, τ g = startOf o (epochs f) (rest.map epochs) g.activationEpoch

theorem Starts.next {g : ConsensusParamsForkInfo} (hτ : Starts τ o f (g :: rest)) (h : Increasing f (g :: rest)) :
    τ g = (epochs f).startOf o g.activationEpoch ∧ Starts τ ((epochs f).startOf o g.activationEpoch) g rest := by
  have hshift : ∀ g' ∈ g :: rest, g.activationEpoch ≤ g'.activationEpoch → τ g' =
      startOf ((epochs f).startOf o g.activationEpoch) (epochs g) (rest.map epochs) g'.activationEpoch := by
    intro g' hg' hle
    rw [hτ g' hg', List.map_cons]
    exact startOf_next hle
  constructor
  · rw [hshift g (List.mem_cons_self ..) le_rfl]
    exact startOf_first h.2.2.ordered
  · intro g' hg'
    exact hshift g' (List.mem_cons_of_mem _ hg') (h.2.2.lt_of_mem hg').le

/-- the fork found has started -/
theorem lastForkBefore_started {refined : ℤ} (hrefined : refined ≤ t) (found : ℤ × ConsensusParamsForkInfo × ℤ)
    (hfound : found.2.2 ≤ t) (l : List (ConsensusParamsForkInfo × ℤ)) : (lastForkBefore refined found l).2.2 ≤ t := by
  induction l generalizing found with
  | nil => exact hfound
  | cons a l ih =>
    obtain ⟨g, T⟩ := a
    rw [lastForkBefore]
    split_ifs with hpassed
    · exact ih _ (show T ≤ t by omega)
    · exact hfound

theorem lastForkBefore_slot (h : Increasing f rest) (hτ : Starts τ o f rest)
    (hfound : slotFrom t found = (t - o) % f.epochInSeconds / f.seconds + 1) :
    slotFrom t (lastForkBefore t found (rest.map fun g => (g, τ g))) = slotWithin o f rest t := by
  induction rest generalizing o f found with
  | nil => exact hfound.trans (slotWithin_eq h.valid rfl).1.symm
  | cons g rest ih =>
    obtain ⟨hg, hτ'⟩ := hτ.next h
    have hord := h.2.2.ordered
    simp only [List.map_cons, lastForkBefore, hg, slotWithin, numberAt]
    rcases lt_trichotomy t ((epochs f).startOf o g.activationEpoch) with hlt | heq | hgt
    · -- in the epochs of `f`
      have hnumber := (epochs f).numberAt_lt h.valid.epoch_pos hlt
      have hstart : startOf o (epochs f) (epochs g :: rest.map epochs) ((epochs f).numberAt o t) =
          (epochs f).startOf o ((epochs f).numberAt o t) := by rw [startOf, if_pos (by exact hnumber)]
      rw [if_neg (by omega), if_pos (by exact hlt), activeFork, if_pos hnumber, hstart]
      exact hfound.trans (slotWithin_eq h.valid rfl).1.symm
    · -- at the activation of `g`: the slot is the first one in either count
      have hnumber : numberAt t (epochs g) (rest.map epochs) t = g.activationEpoch := by
        apply numberAt_eq hord le_rfl
        · exact (startOf_first hord).le
        · have := startOf_lt_succ (o := t) hord (le_refl (epochs g).first)
          rw [startOf_first hord] at this
          exact this
      have hzero : (t - o) % f.epochInSeconds = 0 := by
        have hdiff : t - o = (g.activationEpoch - f.activationEpoch) * f.epochInSeconds := by
          rw [heq]
          simp only [Segment.startOf, epochs]
          ring
        rw [hdiff]
        exact Int.mul_emod_left _ _
      have hstart : startOf o (epochs f) (epochs g :: rest.map epochs) g.activationEpoch = t := by
        refine (startOf_next (le_refl (epochs g).first)).trans ?_
        rw [heq]
        exact startOf_first hord
      rw [if_neg (by omega), if_neg (by exact heq.ge.not_gt)]
      have hfirst : (epochs f).startOf o (epochs g).first = t := heq.symm
      rw [hfirst, hnumber, hstart, hfound, hzero]
      simp
    · have hge : g.activationEpoch ≤ numberAt ((epochs f).startOf o g.activationEpoch) (epochs g) (rest.map epochs) t :=
        (floor hord hgt.le).1
      rw [if_pos hgt, if_neg (by exact hgt.not_gt), activeFork, if_neg (by exact hge.not_gt), startOf_next (by exact hge)]
      exact ih h.2.2 hτ' rfl

/-- the epoch is found with a timestamp that is shifted by a slot of the first fork; an epoch that is longer does not notice -/
theorem lastForkBefore_epoch (h : Increasing f rest) (hτ : Starts τ o f rest) (hne : ∀ g ∈ rest, g.activationEpoch ≠ 0)
    {s : ℤ}
    (hs : 0 ≤ s) (hlong : ∀ g ∈ rest, τ g ≤ t → s < f.epochInSeconds ∧ s < g.epochInSeconds)
    (hfound : epochFrom t found = (epochs f).numberAt o t) :
    epochFrom t (lastForkBefore (t - s) found (rest.map fun g => (g, τ g))) = numberAt o (epochs f) (rest.map epochs) t := by
  induction rest generalizing o f found with
  | nil => exact hfound
  | cons g rest ih =>
    obtain ⟨hg, hτ'⟩ := hτ.next h
    have hord := h.2.2.ordered
    have hlater : ∀ g' ∈ rest, τ g' ≤ t → τ g ≤ t := by
      intro g' hg' hle
      have hmono := startOf_mono (o := (epochs f).startOf o g.activationEpoch) hord (le_refl (epochs g).first)
        (show (epochs g).first ≤ g'.activationEpoch from (h.2.2.lt_of_mem hg').le)
      rw [startOf_first hord, ← hτ' g' hg'] at hmono
      omega
    simp only [List.map_cons, lastForkBefore, numberAt]
    by_cases hpassed : t - s > τ g
    · have hge : ¬ t < (epochs f).startOf o g.activationEpoch := by omega
      rw [if_pos hpassed, if_neg (by exact hge)]
      apply ih h.2.2 hτ' (fun g' hg' => hne g' (List.mem_cons_of_mem _ hg'))
      · intro g' hg' hle
        have hstarted := hlater g' hg' hle
        exact ⟨(hlong g (List.mem_cons_self ..) hstarted).2, (hlong g' (List.mem_cons_of_mem _ hg') hle).2⟩
      · simp only [epochFrom, if_neg (hne g (List.mem_cons_self ..)), Segment.numberAt, epochs, hg]
    · rw [if_neg hpassed]
      by_cases hbefore : t < (epochs f).startOf o g.activationEpoch
      · rw [if_pos (by exact hbefore)]
        exact hfound
      · -- the first epoch of `g` has begun, less than `s` ago: both forks count it
        obtain ⟨hf, hg'⟩ := hlong g (List.mem_cons_self ..) (by omega)
        rw [if_neg (by exact hbefore), hfound]
        have hown : numberAt ((epochs f).startOf o g.activationEpoch) (epochs g) (rest.map epochs) t = g.activationEpoch := by
          apply numberAt_eq hord le_rfl
          · rw [startOf_first hord]
            omega
          · have hsucc := startOf_succ (o := (epochs f).startOf o g.activationEpoch) h.2.2 le_rfl
            have hfirst := startOf_first (o := (epochs f).startOf o g.activationEpoch) hord
            rw [activeFork_first h.2.2] at hsucc
            simp only [epochs] at hsucc hfirst hg hbefore ⊢
            omega
        have hprevious : (epochs f).numberAt o t = g.activationEpoch := by
          rw [Segment.numberAt_eq_iff (by exact h.valid.epoch_pos)]
          simp only [epochs] at hbefore hg ⊢
          constructor <;> omega
        rw [hprevious]
        exact hown.symm

end Walks

/-! ## The functions -/

section Functions

variable (p : ConsensusParams) (G : ℤ)

theorem ConsensusParams.increasing_forks : Increasing p.head p.others := by
  have hall : ∀ (f : ConsensusParamsForkInfo) (rest : List ConsensusParamsForkInfo), f.Valid → (∀ g ∈ rest, g.Valid) →
      (f :: rest).Pairwise (fun f g => f.activationEpoch < g.activationEpoch) → Increasing f rest := by
    intro f rest hf hrest hlt
    induction rest generalizing f with
    | nil => exact hf
    | cons g rest ih =>
      rw [List.pairwise_cons] at hlt
      exact ⟨hf, hlt.1 g (List.mem_cons_self ..),
        ih g (hrest g (List.mem_cons_self ..)) (fun g' hg' => hrest g' (List.mem_cons_of_mem _ hg')) hlt.2⟩
  apply hall p.head p.others p.first_valid p.others_valid
  rw [List.pairwise_cons]
  refine ⟨?_, p.increasing⟩
  intro g hg
  have := (p.activation g hg).1
  simp only [ConsensusParams.head]
  omega

/-- the start of epoch 0 -/
def origin : ℤ := virtualGenesisBlockTimeStamp p G - p.head.epochInSeconds

def epochStart (e : ℤ) : ℤ := startOf (origin p G) (epochs p.head) (p.others.map epochs) e

def epochAt (t : ℤ) : ℤ := numberAt (origin p G) (epochs p.head) (p.others.map epochs) t

def slotAt (t : ℤ) : ℤ := slotWithin (origin p G) p.head p.others t

def forkOf (e : ℤ) : ConsensusParamsForkInfo := activeFork e p.head p.others

/-- the slots before an epoch -/
def slotsBefore (e : ℤ) : ℤ := slotsUpTo e p.head p.others

/-- the number of a slot, counted from epoch 0 -/
def slotNumberAt (t : ℤ) : ℤ := numberAt (origin p G) ⟨0 + 1, p.head.seconds⟩ (slotSegments 0 p.head p.others) t

/-- the epochs up to a time are longer than one slot of the first fork, when a fork has been activated -/
def LongEpochs (t : ℤ) : Prop :=
  ∀ f ∈ p.others, epochStart p G f.activationEpoch ≤ t →
    p.head.seconds < p.head.epochInSeconds ∧ p.head.seconds < f.epochInSeconds

variable {p G} {t e slot : ℤ}

theorem forkOf_valid (e : ℤ) : (forkOf p e).Valid := p.increasing_forks.active_valid e

theorem origin_le (ht : G ≤ t) : virtualGenesisBlockTimeStamp p G ≤ t ∧ origin p G + p.head.epochInSeconds ≤ t := by
  have hpos := p.first_valid.seconds_pos
  have hslots := p.first_valid.slots_pos
  have hle : p.head.seconds ≤ p.head.epochInSeconds := le_mul_of_one_le_left hpos.le hslots
  unfold origin virtualGenesisBlockTimeStamp
  constructor <;> omega

theorem origin_le_self (ht : G ≤ t) : origin p G ≤ t := by
  have hpos : 0 < p.head.epochInSeconds := p.first_valid.epoch_pos
  have := (origin_le (p := p) ht).2
  omega

theorem epochStart_succ (he : 0 ≤ e) : epochStart p G (e + 1) = epochStart p G e + (forkOf p e).epochInSeconds :=
  startOf_succ p.increasing_forks he

theorem epochStart_zero : epochStart p G 0 = origin p G := startOf_first p.increasing_forks.ordered

theorem epochStart_one : epochStart p G 1 = virtualGenesisBlockTimeStamp p G := by
  have hsucc := epochStart_succ (p := p) (G := G) (le_refl 0)
  have hfirst : forkOf p 0 = p.head := activeFork_first p.increasing_forks
  rw [epochStart_zero, hfirst] at hsucc
  rw [show (1 : ℤ) = 0 + 1 by norm_num, hsucc, origin]
  ring

theorem epochAt_floor (ht : G ≤ t) : epochStart p G (epochAt p G t) ≤ t ∧ t < epochStart p G (epochAt p G t + 1) :=
  (floor p.increasing_forks.ordered (origin_le_self ht)).2

theorem epochAt_eq (he : 0 ≤ e) (hle : epochStart p G e ≤ t) (hlt : t < epochStart p G (e + 1)) : epochAt p G t = e :=
  numberAt_eq p.increasing_forks.ordered he hle hlt

theorem epochStart_mono {e' : ℤ} (he : 0 ≤ e) (hle : e ≤ e') : epochStart p G e ≤ epochStart p G e' :=
  startOf_mono p.increasing_forks.ordered he hle

theorem one_le_epochAt (ht : G ≤ t) : 1 ≤ epochAt p G t := by
  have hstart := (origin_le (p := p) ht).1
  rw [← epochStart_one] at hstart
  have hnonneg : 0 ≤ epochAt p G t := (floor p.increasing_forks.ordered (origin_le_self ht)).1
  by_contra hlt
  have hzero : epochAt p G t = 0 := by omega
  have := (epochAt_floor (p := p) ht).2
  rw [hzero] at this
  norm_num at this
  omega

theorem slotAt_eq : slotAt p G t = (t - epochStart p G (epochAt p G t)) / (forkOf p (epochAt p G t)).seconds + 1 := rfl

/-- the slot at a time lies in its epoch -/
theorem slotAt_bounds (ht : G ≤ t) : 1 ≤ slotAt p G t ∧ slotAt p G t ≤ (forkOf p (epochAt p G t)).slots := by
  obtain ⟨hle, hlt⟩ := epochAt_floor (p := p) ht
  have hone := one_le_epochAt (p := p) ht
  rw [epochStart_succ (by omega)] at hlt
  have hpos := (forkOf_valid (p := p) (epochAt p G t)).seconds_pos
  have hnonneg : 0 ≤ (t - epochStart p G (epochAt p G t)) / (forkOf p (epochAt p G t)).seconds :=
    Int.ediv_nonneg (by omega) hpos.le
  have hless : (t - epochStart p G (epochAt p G t)) / (forkOf p (epochAt p G t)).seconds <
      (forkOf p (epochAt p G t)).slots := by
    apply Int.ediv_lt_of_lt_mul hpos
    have : (forkOf p (epochAt p G t)).epochInSeconds =
      (forkOf p (epochAt p G t)).slots * (forkOf p (epochAt p G t)).seconds := rfl
    omega
  rw [slotAt_eq]
  constructor <;> omega

theorem slotNumberAt_eq : slotNumberAt p G t = slotsBefore p (epochAt p G t) + slotAt p G t := by
  rw [slotNumberAt, numberAt_slots p.increasing_forks, zero_add]
  rfl

/-- a slot of an epoch takes seconds that fit an `Int` -/
theorem intOf_slotSeconds (hslot : 1 ≤ slot) (hslots : slot ≤ (forkOf p e).slots) :
    intOf ((slot - 1) * (forkOf p e).seconds) = (slot - 1) * (forkOf p e).seconds := by
  have hvalid := forkOf_valid (p := p) e
  have hpos := hvalid.seconds_pos
  have hfits := hvalid.epoch_fits
  have hle : (slot - 1) * (forkOf p e).seconds ≤ (forkOf p e).slots * (forkOf p e).seconds :=
    mul_le_mul_of_nonneg_right (by omega) hpos.le
  have hnonneg : 0 ≤ (slot - 1) * (forkOf p e).seconds := mul_nonneg (by omega) hpos.le
  have hepoch : (forkOf p e).epochInSeconds = (forkOf p e).slots * (forkOf p e).seconds := rfl
  exact intOf_eq ⟨by omega, by omega⟩

theorem activeFork_activation (rest : List ConsensusParamsForkInfo) (f : ConsensusParamsForkInfo) :
    (activeFork e f rest = f ∨ (activeFork e f rest).activationEpoch ≤ e ∧ activeFork e f rest ∈ rest) := by
  induction rest generalizing f with
  | nil => exact .inl rfl
  | cons g rest ih =>
    rw [activeFork]
    split_ifs with hbefore
    · exact .inl rfl
    · rcases ih g with hg | ⟨hle, hmem⟩
      · rw [hg]
        exact .inr ⟨not_lt.1 hbefore, List.mem_cons_self ..⟩
      · exact .inr ⟨hle, List.mem_cons_of_mem _ hmem⟩

/-- with several forks, the time computed for an epoch and a slot -/
theorem timeStampFor_several (hothers : p.others ≠ []) (he : IsInt e) :
    timeStampFor p G e slot = epochStart p G e + intOf ((slot - 1) * (forkOf p e).seconds) := by
  obtain ⟨hfork, hseconds⟩ := accumulateSeconds_eq (e := e) (o := origin p G) p.head p.others 0
  have hepochs : intOf (intOf (e - (forkOf p e).activationEpoch - 1) + 1) = e - (forkOf p e).activationEpoch := by
    have hrange : IsInt (e - (forkOf p e).activationEpoch) := by
      unfold IsInt at he ⊢
      rcases activeFork_activation (e := e) p.others p.head with hhead | ⟨hle, hmem⟩
      · have hzero : (forkOf p e).activationEpoch = 0 := by rw [forkOf, hhead]; rfl
        omega
      · have hactivation := p.activation _ hmem
        have hle' : (forkOf p e).activationEpoch ≤ e := hle
        have hactivation' : 2 ≤ (forkOf p e).activationEpoch := hactivation.1
        omega
    rw [add_comm, intOf_add_intOf, add_sub_cancel, intOf_eq hrange]
  rw [add_zero] at hseconds
  have hepochs' : intOf (intOf (e - (activeFork e p.head p.others).activationEpoch - 1) + 1) =
      e - (activeFork e p.head p.others).activationEpoch := hepochs
  simp only [timeStampFor, if_pos hothers, hfork, hepochs', epochStart, ← hseconds, forkOf]
  unfold origin
  ring

/-- with one fork, the seconds since the virtual genesis are taken back into the range of an `Int` -/
theorem timeStampFor_single (hothers : p.others = []) :
    timeStampFor p G e slot = virtualGenesisBlockTimeStamp p G +
      intOf (((e - 1) * p.head.slots + (slot - 1)) * p.head.seconds) := by
  simp only [timeStampFor, hothers, ne_eq, not_true_eq_false, if_false, intOf_mul_intOf]

theorem starts : Starts (fun f => timeStampFor p G f.activationEpoch 1) (origin p G) p.head p.others := by
  intro g hg
  obtain ⟨htwo, hint⟩ := p.activation g hg
  have hothers : p.others ≠ [] := by
    intro hnil
    rw [hnil] at hg
    cases hg
  simp only
  rw [timeStampFor_several hothers ⟨by omega, hint⟩, sub_self, zero_mul]
  simp [intOf, epochStart]

/-- the search of the code from the virtual genesis on: the first fork is found in any case -/
theorem lastForkBefore_activations (refined : ℤ) :
    lastForkBefore refined (0, p.head, virtualGenesisBlockTimeStamp p G) (activations p G) =
      lastForkBefore refined (0, p.head, virtualGenesisBlockTimeStamp p G)
        (p.others.map fun f => (f, timeStampFor p G f.activationEpoch 1)) := by
  rw [activations, lastForkBefore]
  split_ifs with hpassed
  · rfl
  · rcases hothers : p.others with _ | ⟨g, rest⟩
    · rfl
    · have hg : g ∈ p.others := by
        rw [hothers]
        exact List.mem_cons_self ..
      have hstart : timeStampFor p G g.activationEpoch 1 = epochStart p G g.activationEpoch := starts g hg
      have hmono := epochStart_mono (p := p) (G := G) (show (0 : ℤ) ≤ 1 by norm_num)
        (show 1 ≤ g.activationEpoch by have := (p.activation g hg).1; omega)
      rw [epochStart_one] at hmono
      rw [List.map_cons, lastForkBefore, if_neg (by omega)]

/-- **Epochs.** The code finds the epoch of a timestamp, up to the range of an `Int`. -/
theorem getEpochIndex_eq (ht : G ≤ t) (hlong : LongEpochs p G t) : getEpochIndex p G t = .ok (intOf (epochAt p G t)) := by
  have hstarted := origin_le (p := p) ht
  have hhead : p.head.activationEpoch = 0 := rfl
  have hpos : 0 < p.head.epochInSeconds := p.first_valid.epoch_pos
  have hseconds : 0 < p.head.seconds := p.first_valid.seconds_pos
  have hfound : epochFrom t (0, p.head, virtualGenesisBlockTimeStamp p G) = (epochs p.head).numberAt (origin p G) t := by
    have hone : t - origin p G = t - virtualGenesisBlockTimeStamp p G + 1 * p.head.epochInSeconds := by
      unfold origin
      ring
    simp only [epochFrom, hhead, if_true, Segment.numberAt, epochs, hone, Int.add_mul_ediv_right _ _ hpos.ne']
    ring
  have hepoch := lastForkBefore_epoch p.increasing_forks (starts (G := G)) (fun g hg => by have := (p.activation g hg).1; omega)
    hseconds.le (fun g hg hle => hlong g hg (by rw [epochStart, ← starts g hg]; exact hle)) hfound
  rw [← lastForkBefore_activations] at hepoch
  have hnonneg := lastForkBefore_started (show t - p.head.seconds ≤ t by omega)
    (0, p.head, virtualGenesisBlockTimeStamp p G) hstarted.1 (activations p G)
  simp only [getEpochIndex, failIf, ht, not_true_eq_false, if_false, getConsensusInformationFromTimestamp]
  rcases hresult : lastForkBefore (t - p.head.seconds) (0, p.head, virtualGenesisBlockTimeStamp p G) (activations p G) with
    ⟨startingEpoch, lastFork, lastForkActivationTimestamp⟩
  rw [hresult] at hepoch hnonneg
  have hdiv : (t - lastFork.seconds - lastForkActivationTimestamp + lastFork.seconds).tdiv lastFork.epochInSeconds =
      (t - lastForkActivationTimestamp) / lastFork.epochInSeconds := by
    rw [Int.tdiv_eq_ediv_of_nonneg (by simp only at hnonneg; omega)]
    congr 1
    ring
  simp only [epochFrom] at hepoch
  simp only [intOf_add_intOf, hdiv, hepoch]
  rfl

/-- **Slots.** The code finds the slot of a timestamp within its epoch. -/
theorem timeStampToSlotNumber_eq (ht : G ≤ t) : timeStampToSlotNumber p G t = .ok (slotAt p G t) := by
  have hstarted := origin_le (p := p) ht
  have hfound : slotFrom t (0, p.head, virtualGenesisBlockTimeStamp p G) =
      (t - origin p G) % p.head.epochInSeconds / p.head.seconds + 1 := by
    have hone : t - origin p G = t - virtualGenesisBlockTimeStamp p G + p.head.epochInSeconds := by
      unfold origin
      ring
    rw [slotFrom, hone, Int.add_emod_right]
  have hslot := lastForkBefore_slot p.increasing_forks (starts (G := G)) hfound
  rw [← lastForkBefore_activations] at hslot
  have hnonneg := lastForkBefore_started (le_refl t) (0, p.head, virtualGenesisBlockTimeStamp p G) hstarted.1 (activations p G)
  obtain ⟨hone, hle⟩ := slotAt_bounds (p := p) ht
  have hint : IsInt (slotAt p G t) := by
    have hvalid := forkOf_valid (p := p) (epochAt p G t)
    have hfits := hvalid.epoch_fits
    have hmul : (forkOf p (epochAt p G t)).slots ≤ (forkOf p (epochAt p G t)).epochInSeconds :=
      le_mul_of_one_le_right hvalid.slots_pos.le hvalid.seconds_pos
    exact ⟨by omega, by omega⟩
  simp only [timeStampToSlotNumber, failIf, ht, not_true_eq_false, if_false, getConsensusInformationFromTimestamp]
  rcases hresult : lastForkBefore t (0, p.head, virtualGenesisBlockTimeStamp p G) (activations p G) with
    ⟨startingEpoch, lastFork, lastForkActivationTimestamp⟩
  rw [hresult] at hslot hnonneg
  have hsub : t - lastFork.seconds - lastForkActivationTimestamp + lastFork.seconds = t - lastForkActivationTimestamp := by ring
  have hmod : (t - lastForkActivationTimestamp).tmod lastFork.epochInSeconds =
      (t - lastForkActivationTimestamp) % lastFork.epochInSeconds :=
    Int.tmod_eq_emod_of_nonneg (by simp only at hnonneg; omega)
  have hrest : 0 ≤ (t - lastForkActivationTimestamp) % lastFork.epochInSeconds := by
    rw [← hmod]
    exact Int.tmod_nonneg _ (by simp only at hnonneg; omega)
  have hslot' : (t - lastForkActivationTimestamp) % lastFork.epochInSeconds / lastFork.seconds + 1 = slotAt p G t := hslot
  simp only [hsub, hmod, Int.tdiv_eq_ediv_of_nonneg hrest]
  rw [add_comm, intOf_add_intOf, add_comm, hslot', intOf_eq hint]
  rfl

theorem timestampToEpochAndSlot_eq (ht : G ≤ t) (hlong : LongEpochs p G t) :
    timestampToEpochAndSlot p G t = .ok ⟨intOf (epochAt p G t), slotAt p G t⟩ := by
  rw [timestampToEpochAndSlot, timeStampToEpochNumber, getEpochIndex_eq ht hlong, timeStampToSlotNumber_eq ht]
  rfl

/-- **Absolute slots.** With several forks the loop counts the slots before the epoch, up to the range of an `Int`. -/
theorem timeStampToAbsoluteSlotNumber_several (hothers : p.others ≠ []) (ht : G ≤ t) (hlong : LongEpochs p G t)
    (hint : epochAt p G t < 2 ^ 31) : timeStampToAbsoluteSlotNumber p G t = .ok (intOf (slotNumberAt p G t)) := by
  have hone := one_le_epochAt (p := p) ht
  have hepoch : intOf (epochAt p G t) = epochAt p G t := intOf_eq ⟨by omega, hint⟩
  have hcount := accumulateSlots_eq (e := epochAt p G t) p.increasing_forks (show (0 : ℤ) ≤ epochAt p G t by omega) 0
      (slotAt p G t)
  rw [zero_add] at hcount
  rw [timeStampToAbsoluteSlotNumber, if_pos hothers, getEpochIndex_eq ht hlong, timeStampToSlotNumber_eq ht, hepoch,
    slotNumberAt_eq, slotsBefore, ← hcount]
  rfl

/-- with one fork, the code takes the slots of an epoch from the default parameters -/
theorem timeStampToAbsoluteSlotNumber_single (hothers : p.others = []) (ht : G ≤ t) :
    timeStampToAbsoluteSlotNumber p G t = .ok (intOf (epochAt p G t * 720 + slotAt p G t)) := by
  have hlong : LongEpochs p G t := by
    intro f hf
    rw [hothers] at hf
    cases hf
  have hwrap : intOf (intOf (epochAt p G t) * 720 + slotAt p G t) = intOf (epochAt p G t * 720 + slotAt p G t) := by
    obtain ⟨k, hk⟩ := intOf_eq_sub (epochAt p G t)
    apply intOf_congr (-k * 720)
    rw [hk]
    ring
  rw [timeStampToAbsoluteSlotNumber, if_neg (by simp [hothers]), timeStampToEpochNumber, getEpochIndex_eq ht hlong,
    timeStampToSlotNumber_eq ht, ← hwrap]
  rfl

/-! ## The fork manager -/

theorem findActiveFork_some (rest : List ConsensusParamsForkInfo) (f : ConsensusParamsForkInfo) :
    findActiveFork ConsensusParamsForkInfo.activationEpoch e (some f) rest = some (activeFork e f rest) := by
  induction rest generalizing f with
  | nil => rfl
  | cons g rest ih =>
    rw [findActiveFork, activeFork]
    by_cases hbefore : e < g.activationEpoch
    · rw [if_neg (by omega), if_pos hbefore]
    · rw [if_pos (by omega), if_neg hbefore, ih]

/-- the fork manager and the time functions use the same parameters -/
theorem get_eq (he : 0 ≤ e) : p.get e = (forkOf p e).consensusParamsFork := by
  rcases p.registered_eq with ⟨hregistered, hfirst⟩ | hregistered
  · rw [ConsensusParams.get, hregistered, forkOf]
    rcases hothers : p.others with _ | ⟨g, rest⟩
    · exact hfirst.symm
    · rw [findActiveFork, activeFork]
      by_cases hbefore : e < g.activationEpoch
      · rw [if_neg (by omega), if_pos hbefore]
        exact hfirst.symm
      · rw [if_pos (by omega), if_neg hbefore, findActiveFork_some]
        rfl
  · rw [ConsensusParams.get, hregistered, findActiveFork, if_pos he, findActiveFork_some]
    rfl

end Functions

end SidechainsSdk.Consensus.TimeToEpochUtils
