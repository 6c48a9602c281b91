/-
The base fee (`FeeUtils`, `GasFeeFork`, `BaseFeeBlockValidator`): a block's base fee follows from the header of its parent.

Blocks are added to a history, on any branch, once the validator finds the base fee they carry to be the calculated one.
The parameters are those of the fork that is in force at the parent's epoch, so they may change along a branch.

- `feeChange_le`, `feeChange_mono`: the two truncating divisions, for a block that stays below twice its target and for two
  blocks of the same target.
- `nextBaseFee_eq`: with a positive target no division fails, and the lower limit is the last step.
- `nextBaseFee_bounds`, `nextBaseFee_mono`: one step. An increase is bounded by the gas used, but for the lower limit:
  where the minimum of the fork lies above the base fee, the base fee is lifted to it at once.
- `History.baseFee_nonneg`: by induction on the history, every base fee in it is non-negative.
-/
import Mathlib.Tactic
import SidechainsSdk.Consensus.TimeToEpochUtils

namespace SidechainsSdk.Account.FeeUtils

open Fallible Consensus.TimeToEpochUtils

/-! ## The code -/

def INITIAL_BASE_FEE : ℤ := 1000000000

structure GasFeeFork where
  blockGasLimit : ℤ
  baseFeeElasticityMultiplier : ℤ
  baseFeeChangeDenominator : ℤ
  baseFeeMinimum : ℤ

def DefaultGasFeeFork : GasFeeFork := ⟨30000000, 2, 8, 0⟩

/-- `GasFeeFork.get`; `forks` are those of this kind that `ForkManager` knows, with their activation epochs -/
def GasFeeFork.get (forks : List (ℤ × GasFeeFork)) (epochNumber : ℤ) : GasFeeFork :=
  ((findActiveFork Prod.fst epochNumber none forks).map Prod.snd).getD DefaultGasFeeFork

/-- the fields of `AccountBlockHeader` that the base fee depends on -/
structure AccountBlockHeader where
  timestamp : ℤ
  baseFee : ℤ
  gasUsed : ℤ
  gasLimit : ℤ

structure AccountBlock where
  id : ℕ
  parentId : ℕ
  header : AccountBlockHeader

/-- `BigInteger.divide` -/
def divide (x y : ℤ) : Except String ℤ := if y = 0 then .error "BigInteger divide by zero" else .ok (x.tdiv y)

/-- `calculateBaseFeeForBlock` once the fork is known -/
def nextBaseFee (feeFork : GasFeeFork) (h : AccountBlockHeader) : Except String ℤ := do
  let gasTarget ← divide h.gasLimit feeFork.baseFeeElasticityMultiplier
  let nextBaseFee ←
    if h.gasUsed = gasTarget then
      pure h.baseFee
    else do
      let gasDiff := h.gasUsed - gasTarget
      let perTarget ← divide (|gasDiff| * h.baseFee) gasTarget
      let baseFeeDiff ← divide perTarget feeFork.baseFeeChangeDenominator
      if gasDiff.sign = 1 then
        pure (h.baseFee + max baseFeeDiff 1)
      else
        pure (h.baseFee - baseFeeDiff)
  return max nextBaseFee feeFork.baseFeeMinimum

/-- what the node is configured with -/
structure NetworkParams where
  consensus : ConsensusParams
  sidechainGenesisBlockTimestamp : ℤ
  sidechainGenesisBlockParentId : ℕ
  gasFeeForks : List (ℤ × GasFeeFork)

variable (params : NetworkParams)

/-- the fork in force at a block's epoch; fails only for a timestamp before the genesis -/
def forkAt (h : AccountBlockHeader) : Except String GasFeeFork := do
  let epochNumber ← timeStampToEpochNumber params.consensus params.sidechainGenesisBlockTimestamp h.timestamp
  return GasFeeFork.get params.gasFeeForks epochNumber

def calculateBaseFeeForBlock (h : AccountBlockHeader) : Except String ℤ := do
  let feeFork ← forkAt params h
  nextBaseFee feeFork h

def calculateBaseFee (modifierById : ℕ → Option AccountBlock) (parentId : ℕ) : Except String ℤ :=
  if parentId = params.sidechainGenesisBlockParentId then
    .ok INITIAL_BASE_FEE
  else
    match modifierById parentId with
    | some parent => calculateBaseFeeForBlock params parent.header
    | none => .ok INITIAL_BASE_FEE

/-- `BaseFeeBlockValidator.validate` -/
def validate (block : AccountBlock) (modifierById : ℕ → Option AccountBlock) : Except String Unit := do
  let expectedBaseFee ← calculateBaseFee params modifierById block.parentId
  failIf (block.header.baseFee ≠ expectedBaseFee) "Calculated base fee of block is invalid"

/-! ## One step -/

/-- the parameters a fork may have: the minimum may also be zero, as in `DefaultGasFeeFork` -/
structure GasFeeFork.Valid (f : GasFeeFork) : Prop where
  multiplier_pos : 0 < f.baseFeeElasticityMultiplier
  denominator_pos : 0 < f.baseFeeChangeDenominator
  minimum_nonneg : 0 ≤ f.baseFeeMinimum

/-- the gas of a block, as its header is checked: a target of at least one, and the gas used within the limit -/
structure GasInRange (f : GasFeeFork) (h : AccountBlockHeader) : Prop where
  multiplier_le : f.baseFeeElasticityMultiplier ≤ h.gasLimit
  used_nonneg : 0 ≤ h.gasUsed
  used_le : h.gasUsed ≤ h.gasLimit

def gasTarget (f : GasFeeFork) (h : AccountBlockHeader) : ℤ := h.gasLimit / f.baseFeeElasticityMultiplier

/-- the change of a base fee for a distance from the target -/
def feeChange (diff baseFee target denominator : ℤ) : ℤ := diff * baseFee / target / denominator

section Change

variable {diff diff' baseFee target denominator : ℤ}

theorem feeChange_nonneg (hdiff : 0 ≤ diff) (hfee : 0 ≤ baseFee) (htarget : 0 < target) (hden : 0 < denominator) :
    0 ≤ feeChange diff baseFee target denominator := by
  have hmul : 0 ≤ diff * baseFee := mul_nonneg hdiff hfee
  exact Int.ediv_nonneg (Int.ediv_nonneg hmul htarget.le) hden.le

theorem feeChange_mono (hfee : 0 ≤ baseFee) (htarget : 0 < target) (hden : 0 < denominator) (hle : diff ≤ diff') :
    feeChange diff baseFee target denominator ≤ feeChange diff' baseFee target denominator := by
  have hmul : diff * baseFee ≤ diff' * baseFee := mul_le_mul_of_nonneg_right hle hfee
  exact Int.ediv_le_ediv hden (Int.ediv_le_ediv htarget hmul)

/-- at the distance of an empty block the whole base fee is divided -/
theorem feeChange_target (htarget : 0 < target) : feeChange target baseFee target denominator = baseFee / denominator := by
  rw [feeChange, Int.mul_ediv_cancel_left _ htarget.ne']

theorem feeChange_le (hfee : 0 ≤ baseFee) (htarget : 0 < target) (hden : 0 < denominator) (hle : diff ≤ target) :
    feeChange diff baseFee target denominator ≤ baseFee / denominator :=
  calc feeChange diff baseFee target denominator
      ≤ feeChange target baseFee target denominator := feeChange_mono hfee htarget hden hle
    _ = baseFee / denominator := feeChange_target htarget

end Change

section Step

variable {f : GasFeeFork} {h : AccountBlockHeader}

theorem gasTarget_pos (hf : f.Valid) (hlimit : f.baseFeeElasticityMultiplier ≤ h.gasLimit) : 0 < gasTarget f h := by
  have hone : 1 ≤ h.gasLimit / f.baseFeeElasticityMultiplier := by
    rw [Int.le_ediv_iff_mul_le hf.multiplier_pos, one_mul]
    exact hlimit
  exact Int.lt_of_lt_of_le Int.one_pos hone

/-- the base fee before the lower limit is applied -/
def unlimited (f : GasFeeFork) (h : AccountBlockHeader) : ℤ :=
  if h.gasUsed ≤ gasTarget f h then
    h.baseFee - feeChange (gasTarget f h - h.gasUsed) h.baseFee (gasTarget f h) f.baseFeeChangeDenominator
  else
    h.baseFee + max (feeChange (h.gasUsed - gasTarget f h) h.baseFee (gasTarget f h) f.baseFeeChangeDenominator) 1

theorem divide_eq {x y : ℤ} (hx : 0 ≤ x) (hy : 0 < y) : divide x y = .ok (x / y) := by
  rw [divide, if_neg hy.ne', Int.tdiv_eq_ediv_of_nonneg hx]

theorem nextBaseFee_eq (hf : f.Valid) (hgas : GasInRange f h) (hfee : 0 ≤ h.baseFee) :
    nextBaseFee f h = .ok (max (unlimited f h) f.baseFeeMinimum) := by
  have htarget := gasTarget_pos hf hgas.multiplier_le
  have hlimit : 0 ≤ h.gasLimit := hf.multiplier_pos.le.trans hgas.multiplier_le
  have hdivide : divide h.gasLimit f.baseFeeElasticityMultiplier = .ok (gasTarget f h) :=
    divide_eq hlimit hf.multiplier_pos
  have hmul : 0 ≤ |h.gasUsed - gasTarget f h| * h.baseFee := mul_nonneg (abs_nonneg _) hfee
  have hper : divide (|h.gasUsed - gasTarget f h| * h.baseFee) (gasTarget f h) =
      .ok (|h.gasUsed - gasTarget f h| * h.baseFee / gasTarget f h) := divide_eq hmul htarget
  have hdiff : divide (|h.gasUsed - gasTarget f h| * h.baseFee / gasTarget f h) f.baseFeeChangeDenominator =
      .ok (feeChange |h.gasUsed - gasTarget f h| h.baseFee (gasTarget f h) f.baseFeeChangeDenominator) :=
    divide_eq (Int.ediv_nonneg hmul htarget.le) hf.denominator_pos
  rcases lt_trichotomy h.gasUsed (gasTarget f h) with hlt | heq | hgt
  · have habs : |h.gasUsed - gasTarget f h| = gasTarget f h - h.gasUsed := by
      rw [abs_of_neg (sub_neg.2 hlt), neg_sub]
    have hsign : ¬ (h.gasUsed - gasTarget f h).sign = 1 := by
      rw [Int.sign_eq_one_iff_pos, sub_pos]
      exact hlt.le.not_gt
    rw [habs] at hper hdiff
    simp only [nextBaseFee, hdivide, bind, Except.bind, hlt.ne, if_false, habs, hper, hdiff, hsign, pure, Except.pure,
      unlimited, hlt.le, if_true]
  · have hzero : feeChange 0 h.baseFee (gasTarget f h) f.baseFeeChangeDenominator = 0 := by simp [feeChange]
    simp only [nextBaseFee, hdivide, bind, Except.bind, heq, if_true, pure, Except.pure, unlimited, le_refl, sub_self,
      hzero, sub_zero]
  · have habs : |h.gasUsed - gasTarget f h| = h.gasUsed - gasTarget f h := abs_of_pos (sub_pos.2 hgt)
    have hsign : (h.gasUsed - gasTarget f h).sign = 1 := by
      rw [Int.sign_eq_one_iff_pos, sub_pos]
      exact hgt
    rw [habs] at hper hdiff
    simp only [nextBaseFee, hdivide, bind, Except.bind, hgt.ne', if_false, habs, hper, hdiff, hsign, if_true, pure,
      Except.pure, unlimited, hgt.not_ge]

/-- the largest increase that the gas used of a block gives -/
def maxIncrease (f : GasFeeFork) (h : AccountBlockHeader) : ℤ :=
  max 1 ((h.gasUsed - gasTarget f h) * h.baseFee / gasTarget f h / f.baseFeeChangeDenominator)

/-- how the base fee after a block lies to the one of the block -/
structure StepBounds (f : GasFeeFork) (h : AccountBlockHeader) (fee : ℤ) : Prop where
  minimum_le : f.baseFeeMinimum ≤ fee
  nonneg : 0 ≤ fee
  decrease_le : h.baseFee - fee ≤ h.baseFee / f.baseFeeChangeDenominator
  increase_le : fee - h.baseFee ≤ maxIncrease f h ∨ h.baseFee < f.baseFeeMinimum ∧ fee = f.baseFeeMinimum

theorem le_unlimited (hf : f.Valid) (hgas : GasInRange f h) (hfee : 0 ≤ h.baseFee) :
    h.baseFee - h.baseFee / f.baseFeeChangeDenominator ≤ unlimited f h := by
  have htarget := gasTarget_pos hf hgas.multiplier_le
  have hquotient : 0 ≤ h.baseFee / f.baseFeeChangeDenominator := Int.ediv_nonneg hfee hf.denominator_pos.le
  unfold unlimited
  split_ifs with hle
  · have hchange := feeChange_le hfee htarget hf.denominator_pos (sub_le_self (gasTarget f h) hgas.used_nonneg)
    exact sub_le_sub_left hchange _
  · have hone : 1 ≤ max (feeChange (h.gasUsed - gasTarget f h) h.baseFee (gasTarget f h) f.baseFeeChangeDenominator) 1 :=
      le_max_right _ _
    linarith

theorem unlimited_le (hf : f.Valid) (hgas : GasInRange f h) (hfee : 0 ≤ h.baseFee) :
    unlimited f h ≤ h.baseFee + maxIncrease f h := by
  have htarget := gasTarget_pos hf hgas.multiplier_le
  unfold unlimited maxIncrease
  split_ifs with hle
  · have hchange : 0 ≤ feeChange (gasTarget f h - h.gasUsed) h.baseFee (gasTarget f h) f.baseFeeChangeDenominator :=
      feeChange_nonneg (sub_nonneg.2 hle) hfee htarget hf.denominator_pos
    have hone := le_max_left 1 ((h.gasUsed - gasTarget f h) * h.baseFee / gasTarget f h / f.baseFeeChangeDenominator)
    linarith
  · rw [max_comm, feeChange]

/-- below the target the distance shrinks with the gas used, above it grows, and the step over the target only goes up -/
theorem unlimited_mono (hf : f.Valid) (hgas : GasInRange f h) (hfee : 0 ≤ h.baseFee) {gasUsed : ℤ}
    (hle : h.gasUsed ≤ gasUsed) : unlimited f h ≤ unlimited f { h with gasUsed := gasUsed } := by
  have htarget := gasTarget_pos hf hgas.multiplier_le
  have hden := hf.denominator_pos
  have hsame : gasTarget f { h with gasUsed := gasUsed } = gasTarget f h := rfl
  unfold unlimited
  rw [hsame]
  split_ifs with hbelow hbelow'
  · have hdistance : gasTarget f h - gasUsed ≤ gasTarget f h - h.gasUsed := sub_le_sub_left hle _
    exact sub_le_sub_left (feeChange_mono hfee htarget hden hdistance) _
  · have hchange : 0 ≤ feeChange (gasTarget f h - h.gasUsed) h.baseFee (gasTarget f h) f.baseFeeChangeDenominator :=
      feeChange_nonneg (sub_nonneg.2 hbelow) hfee htarget hden
    have hone := le_max_right (feeChange (gasUsed - gasTarget f h) h.baseFee (gasTarget f h) f.baseFeeChangeDenominator) 1
    simp only
    linarith
  · exact absurd (hle.trans ‹_›) hbelow
  · have hdistance : h.gasUsed - gasTarget f h ≤ gasUsed - gasTarget f h := sub_le_sub_right hle _
    exact add_le_add_right (max_le_max_right 1 (feeChange_mono hfee htarget hden hdistance)) _

theorem nextBaseFee_bounds (hf : f.Valid) (hgas : GasInRange f h) (hfee : 0 ≤ h.baseFee) :
    ∃ fee, nextBaseFee f h = .ok fee ∧ StepBounds f h fee := by
  refine ⟨_, nextBaseFee_eq hf hgas hfee, ?_⟩
  have hlow := le_unlimited hf hgas hfee
  have hhigh := unlimited_le hf hgas hfee
  constructor
  · exact le_max_right _ _
  · exact hf.minimum_nonneg.trans (le_max_right _ _)
  · have hmax : unlimited f h ≤ max (unlimited f h) f.baseFeeMinimum := le_max_left _ _
    linarith
  · rcases le_total f.baseFeeMinimum (unlimited f h) with hmin | hmin
    · left
      rw [max_eq_left hmin]
      linarith
    · rw [max_eq_right hmin]
      rcases le_or_gt f.baseFeeMinimum h.baseFee with hsmall | hlarge
      · left
        have hone : 1 ≤ maxIncrease f h := le_max_left _ _
        linarith
      · exact .inr ⟨hlarge, rfl⟩

theorem nextBaseFee_mono (hf : f.Valid) (hgas : GasInRange f h) (hfee : 0 ≤ h.baseFee) {fee gasUsed : ℤ}
    (hnext : nextBaseFee f h = .ok fee) (hle : h.gasUsed ≤ gasUsed) (hlimit : gasUsed ≤ h.gasLimit) :
    ∃ fee', nextBaseFee f { h with gasUsed := gasUsed } = .ok fee' ∧ fee ≤ fee' := by
  have hgas' : GasInRange f { h with gasUsed := gasUsed } := ⟨hgas.multiplier_le, hgas.used_nonneg.trans hle, hlimit⟩
  rw [nextBaseFee_eq hf hgas hfee] at hnext
  cases hnext
  exact ⟨_, nextBaseFee_eq hf hgas' hfee, max_le_max_right _ (unlimited_mono hf hgas hfee hle)⟩

end Step

/-! ## Forks -/

theorem findActiveFork_mem {α : Type} {activation : α → ℤ} {height : ℤ} {fork : α} (forks : List α) (active : Option α)
    (h : findActiveFork activation height active forks = some fork) : active = some fork ∨ fork ∈ forks := by
  induction forks generalizing active with
  | nil => exact .inl h
  | cons f rest ih =>
    rw [findActiveFork] at h
    split_ifs at h
    · rcases ih (some f) h with heq | hmem
      · cases heq
        exact .inr List.mem_cons_self
      · exact .inr (List.mem_cons_of_mem _ hmem)
    · exact .inl h

theorem DefaultGasFeeFork_valid : DefaultGasFeeFork.Valid := ⟨by decide, by decide, by decide⟩

theorem GasFeeFork.get_valid {forks : List (ℤ × GasFeeFork)} (h : ∀ f ∈ forks, f.2.Valid) (epochNumber : ℤ) :
    (GasFeeFork.get forks epochNumber).Valid := by
  unfold GasFeeFork.get
  rcases hactive : findActiveFork Prod.fst epochNumber none forks with - | fork
  · exact DefaultGasFeeFork_valid
  · rcases findActiveFork_mem forks none hactive with hnone | hmem
    · cases hnone
    · exact h fork hmem

variable {params}

theorem forkAt_valid (hforks : ∀ f ∈ params.gasFeeForks, f.2.Valid) {h : AccountBlockHeader} {f : GasFeeFork}
    (hf : forkAt params h = .ok f) : f.Valid := by
  obtain ⟨epochNumber, -, heq⟩ := bind_ok hf
  cases heq
  exact GasFeeFork.get_valid hforks epochNumber

theorem calculateBaseFeeForBlock_eq {h : AccountBlockHeader} {f : GasFeeFork} (hf : forkAt params h = .ok f) :
    calculateBaseFeeForBlock params h = nextBaseFee f h := by
  rw [calculateBaseFeeForBlock, hf]
  rfl

/-! ## Histories -/

variable (params) in
/-- blocks with ids of their own, each validated against the blocks before it; their order does not follow a branch -/
inductive History : (ℕ → Option AccountBlock) → Prop
  | empty : History fun _ => none
  | add {modifierById : ℕ → Option AccountBlock} {block : AccountBlock} (stored : History modifierById)
      (fresh : modifierById block.id = none) (valid : validate params block modifierById = .ok ()) :
      History (Function.update modifierById block.id (some block))

variable (params) in
/-- the gas of every block is in range, under the fork of its epoch -/
def GasChecked (modifierById : ℕ → Option AccountBlock) : Prop :=
  ∀ id block f, modifierById id = some block → forkAt params block.header = .ok f → GasInRange f block.header

variable {modifierById : ℕ → Option AccountBlock}

theorem validate_ok {block : AccountBlock} (h : validate params block modifierById = .ok ()) :
    calculateBaseFee params modifierById block.parentId = .ok block.header.baseFee := by
  obtain ⟨expectedBaseFee, hcalculate, hcheck⟩ := bind_ok h
  rw [hcalculate, not_not.1 (failIf_ok.1 hcheck)]

theorem calculateBaseFeeForBlock_nonneg (hforks : ∀ f ∈ params.gasFeeForks, f.2.Valid) {h : AccountBlockHeader}
    (hgas : ∀ f, forkAt params h = .ok f → GasInRange f h) (hfee : 0 ≤ h.baseFee) {fee : ℤ}
    (hcalculate : calculateBaseFeeForBlock params h = .ok fee) : 0 ≤ fee := by
  obtain ⟨f, hf, hnext⟩ := bind_ok hcalculate
  obtain ⟨fee', hnext', hbounds⟩ := nextBaseFee_bounds (forkAt_valid hforks hf) (hgas f hf) hfee
  rw [hnext] at hnext'
  cases hnext'
  exact hbounds.nonneg

theorem calculateBaseFee_nonneg (hforks : ∀ f ∈ params.gasFeeForks, f.2.Valid) (hgas : GasChecked params modifierById)
    (hfees : ∀ id block, modifierById id = some block → 0 ≤ block.header.baseFee) {parentId : ℕ} {fee : ℤ}
    (hcalculate : calculateBaseFee params modifierById parentId = .ok fee) : 0 ≤ fee := by
  have hinitial : 0 ≤ INITIAL_BASE_FEE := by decide
  unfold calculateBaseFee at hcalculate
  split_ifs at hcalculate with hgenesis
  · exact (Except.ok.inj hcalculate) ▸ hinitial
  · rcases hparent : modifierById parentId with - | parent
    · rw [hparent] at hcalculate
      exact (Except.ok.inj hcalculate) ▸ hinitial
    · rw [hparent] at hcalculate
      exact calculateBaseFeeForBlock_nonneg hforks (fun f hf => hgas _ parent f hparent hf) (hfees _ parent hparent)
        hcalculate

theorem History.baseFee_nonneg (hforks : ∀ f ∈ params.gasFeeForks, f.2.Valid) (hm : History params modifierById)
    (hgas : GasChecked params modifierById) {id : ℕ} {block : AccountBlock} (hblock : modifierById id = some block) :
    0 ≤ block.header.baseFee := by
  induction hm generalizing id block with
  | empty => cases hblock
  | @add before added stored fresh valid ih =>
    have hold : ∀ i b, before i = some b → Function.update before added.id (some added) i = some b := by
      intro i b hib
      have hne : i ≠ added.id := by
        rintro rfl
        rw [fresh] at hib
        cases hib
      rw [Function.update_of_ne hne, hib]
    have hgasBefore : GasChecked params before := fun i b f hib hf => hgas i b f (hold i b hib) hf
    by_cases hid : id = added.id
    · subst hid
      rw [Function.update_self] at hblock
      cases hblock
      exact calculateBaseFee_nonneg hforks hgasBefore (fun _ _ hib => ih hgasBefore hib) (validate_ok valid)
    · rw [Function.update_of_ne hid] at hblock
      exact ih hgasBefore hblock

/-- The base fee after any block of a history: it is calculated without a division by zero, within the bounds of a step,
and it grows with the gas used. -/
theorem base_fee_bounds (hforks : ∀ f ∈ params.gasFeeForks, f.2.Valid) (hm : History params modifierById)
    (hgas : GasChecked params modifierById) {id : ℕ} {block : AccountBlock} (hblock : modifierById id = some block) :
    0 ≤ block.header.baseFee ∧
    (∀ e, calculateBaseFeeForBlock params block.header = .error e → forkAt params block.header = .error e) ∧
    ∀ f, forkAt params block.header = .ok f →
      ∃ fee, calculateBaseFeeForBlock params block.header = .ok fee ∧ StepBounds f block.header fee ∧
        ∀ gasUsed, block.header.gasUsed ≤ gasUsed → gasUsed ≤ block.header.gasLimit →
          ∃ fee', calculateBaseFeeForBlock params { block.header with gasUsed := gasUsed } = .ok fee' ∧ fee ≤ fee' := by
  have hfee := hm.baseFee_nonneg hforks hgas hblock
  have hstep : ∀ f, forkAt params block.header = .ok f →
      ∃ fee, nextBaseFee f block.header = .ok fee ∧ StepBounds f block.header fee := fun f hf =>
    nextBaseFee_bounds (forkAt_valid hforks hf) (hgas id block f hblock hf) hfee
  refine ⟨hfee, ?_, ?_⟩
  · intro e he
    rcases hf : forkAt params block.header with e' | f
    · rw [calculateBaseFeeForBlock, hf] at he
      cases he
      rfl
    · obtain ⟨fee, hnext, -⟩ := hstep f hf
      rw [calculateBaseFeeForBlock_eq hf, hnext] at he
      cases he
  · intro f hf
    obtain ⟨fee, hnext, hbounds⟩ := hstep f hf
    refine ⟨fee, (calculateBaseFeeForBlock_eq hf).trans hnext, hbounds, ?_⟩
    intro gasUsed hle hlimit
    have hf' : forkAt params { block.header with gasUsed := gasUsed } = .ok f := hf
    rw [calculateBaseFeeForBlock_eq hf']
    exact nextBaseFee_mono (forkAt_valid hforks hf) (hgas id block f hblock hf) hfee hnext hle hlimit

/-! ## A fork that raises the minimum -/

def defaultConsensus : ConsensusParams where
  first := DefaultConsensusParamsFork
  others := []
  registered := []
  first_valid := default_valid
  others_valid := no_forks_valid
  activation := no_forks_activation
  increasing := no_forks_increasing
  registered_eq := no_forks_registered

/-- at epoch 4 the minimum becomes twice the initial base fee -/
def raisedMinimum : GasFeeFork := ⟨30000000, 2, 8, 2000000000⟩

def raisingParams : NetworkParams := ⟨defaultConsensus, 0, 0, [(4, raisedMinimum)]⟩

theorem raisingParams_valid : ∀ f ∈ raisingParams.gasFeeForks, f.2.Valid := by
  simp only [raisingParams, List.mem_singleton, forall_eq]
  exact ⟨by decide, by decide, by decide⟩

def genesisBlock : AccountBlock := ⟨1, 0, ⟨0, 1000000000, 15000000, 30000000⟩⟩

/-- a block of epoch 5 that uses exactly its target -/
def raisedBlock : AccountBlock := ⟨2, 1, ⟨40000, 1000000000, 15000000, 30000000⟩⟩

def raisingBlocks : ℕ → Option AccountBlock :=
  Function.update (Function.update (fun _ => none) 1 (some genesisBlock)) 2 (some raisedBlock)

theorem raisingBlocks_history : History raisingParams raisingBlocks := by
  have hgenesis : History raisingParams (Function.update (fun _ => none) genesisBlock.id (some genesisBlock)) :=
    .add .empty rfl rfl
  have hraised : History raisingParams (Function.update _ raisedBlock.id (some raisedBlock)) := .add hgenesis rfl rfl
  exact hraised

theorem forkAt_genesisBlock : forkAt raisingParams genesisBlock.header = .ok DefaultGasFeeFork := rfl

theorem forkAt_raisedBlock : forkAt raisingParams raisedBlock.header = .ok raisedMinimum := rfl

theorem raisingBlocks_gasChecked : GasChecked raisingParams raisingBlocks := by
  intro id block f hblock hf
  by_cases hraised : id = 2
  · subst hraised
    cases hblock
    rw [forkAt_raisedBlock] at hf
    cases hf
    exact ⟨by decide, by decide, by decide⟩
  · by_cases hgenesis : id = 1
    · subst hgenesis
      cases hblock
      rw [forkAt_genesisBlock] at hf
      cases hf
      exact ⟨by decide, by decide, by decide⟩
    · simp [raisingBlocks, Function.update_of_ne hraised, Function.update_of_ne hgenesis] at hblock

/-- the base fee is doubled after a block that uses its target -/
theorem base_fee_lifted :
    ∃ block f fee, History raisingParams raisingBlocks ∧ GasChecked raisingParams raisingBlocks ∧
      (∀ g ∈ raisingParams.gasFeeForks, g.2.Valid) ∧ raisingBlocks 2 = some block ∧
      forkAt raisingParams block.header = .ok f ∧ calculateBaseFeeForBlock raisingParams block.header = .ok fee ∧
      ¬ fee - block.header.baseFee ≤ maxIncrease f block.header := by
  refine ⟨raisedBlock, raisedMinimum, 2000000000, raisingBlocks_history, raisingBlocks_gasChecked, raisingParams_valid, rfl,
    forkAt_raisedBlock, rfl, ?_⟩
  decide

theorem base_fee_bounds_raised :
    ∃ fee, calculateBaseFeeForBlock raisingParams raisedBlock.header = .ok fee ∧
      StepBounds raisedMinimum raisedBlock.header fee := by
  obtain ⟨-, -, h⟩ := base_fee_bounds raisingParams_valid raisingBlocks_history raisingBlocks_gasChecked
    (show raisingBlocks 2 = some raisedBlock from rfl)
  obtain ⟨fee, hfee, hbounds, -⟩ := h raisedMinimum forkAt_raisedBlock
  exact ⟨fee, hfee, hbounds⟩

end SidechainsSdk.Account.FeeUtils
