/-
The fees of an epoch and what is paid for them (`SidechainState.getFeePayments`). A share of the fee of a block goes to its
forger, the rest is divided among the forgers of all blocks.

- `forgersRewards_sum`, `aggregated_rewards`: for any rule on what the forger's share is, the rewards add up to the fees, and no
  sum of `Long`s overflows.
- `paymentBoxes_payees`: the boxes pay what is positive.
- `feePaymentBoxes_eq_nil_iff`, `rewards_nonpos_iff`: nothing is paid exactly if all fees are zero.
- `fee_payments_exact`: the boxes for a coefficient from 0 to 1; that of the networks is 0.7.
-/
import Mathlib.Tactic
import SidechainsSdk.Core.Grouping
import SidechainsSdk.Utxo.SidechainState

namespace SidechainsSdk.Utxo

open Grouping Ledger SidechainState

/-! ## Sums of `Long`s -/

namespace Ledger.Long

theorem wrap_eq {x : ℤ} (hmin : -2 ^ 63 ≤ x) (hmax : x < 2 ^ 63) : wrap x = x := by
  unfold wrap
  rw [Int.bmod_eq_of_le] <;> norm_num <;> omega

/-- the sum of amounts that are not negative and stay below the limit -/
theorem foldl_add_eq {l : List ℤ} {x : ℤ} (hx : 0 ≤ x) (hl : ∀ y ∈ l, 0 ≤ y) (hmax : x + l.sum < 2 ^ 63) :
    l.foldl add x = x + l.sum := by
  induction l generalizing x with
  | nil => simp
  | cons y l ih =>
    obtain ⟨hy, hl⟩ := List.forall_mem_cons.1 hl
    have hsum : 0 ≤ l.sum := List.sum_nonneg hl
    rw [List.sum_cons] at hmax
    have hadd : add x y = x + y := wrap_eq (by omega) (by omega)
    rw [List.foldl_cons, hadd, ih (by omega) hl (by omega), List.sum_cons, add_assoc]

theorem sum_eq {l : List ℤ} (hl : ∀ y ∈ l, 0 ≤ y) (hmax : l.sum < 2 ^ 63) : sum l = l.sum := by
  have hfold := foldl_add_eq le_rfl hl (by rwa [zero_add])
  rwa [zero_add] at hfold

end Ledger.Long

/-! ## Rewards -/

/-- the fees are not negative, and their sum is a `Long` -/
structure FeesFit (infos : List BlockFeeInfo) : Prop where
  nonneg : ∀ info ∈ infos, 0 ≤ info.fee
  total : (infos.map BlockFeeInfo.fee).sum < 2 ^ 63

/-- the fees are not negative and together within the money range -/
structure FeesInRange (infos : List BlockFeeInfo) : Prop where
  nonneg : ∀ info ∈ infos, 0 ≤ info.fee
  total : (infos.map BlockFeeInfo.fee).sum ≤ ZenCoinsUtils.MAX_MONEY

theorem FeesInRange.fit {infos : List BlockFeeInfo} (h : FeesInRange infos) : FeesFit infos := by
  refine ⟨h.nonneg, lt_of_le_of_lt h.total ?_⟩
  norm_num [ZenCoinsUtils.MAX_MONEY, ZenCoinsUtils.COIN]

theorem FeesFit.fee_le {infos : List BlockFeeInfo} (h : FeesFit infos) {info : BlockFeeInfo} (hinfo : info ∈ infos) :
    info.fee ≤ (infos.map BlockFeeInfo.fee).sum := by
  apply List.single_le_sum
  · simpa using h.nonneg
  · exact List.mem_map_of_mem hinfo

/-- a rule for what of a fee the forger of the block gets -/
def IsShare (own : ℤ → ℤ) : Prop := ∀ fee, 0 ≤ fee → fee < 2 ^ 63 → 0 ≤ own fee ∧ own fee ≤ fee

theorem forgerBlockFee_isShare : IsShare forgerBlockFee := by
  intro fee hfee _
  unfold forgerBlockFee
  rw [Int.tdiv_eq_ediv_of_nonneg (by omega)]
  omega

/-- what of the fees is shared -/
def sharedFees (own : ℤ → ℤ) (infos : List BlockFeeInfo) : ℤ := (infos.map fun info => info.fee - own info.fee).sum

/-- `poolFee` and `forgersRewards` for a rule -/
def poolFeeBy (own : ℤ → ℤ) (infos : List BlockFeeInfo) : ℤ :=
  infos.foldl (fun pool info => Long.add pool (Long.sub info.fee (own info.fee))) 0

def forgersRewardsBy (own : ℤ → ℤ) (infos : List BlockFeeInfo) : List (Proposition × ℤ) :=
  let pool := poolFeeBy own infos
  let forgerPoolFee := pool.tdiv infos.length
  let rest := pool.tmod infos.length
  infos.mapIdx fun index info =>
    (info.forgerRewardKey, Long.add (Long.add (own info.fee) forgerPoolFee) (if (index : ℤ) < rest then 1 else 0))

theorem forgersRewards_by (infos : List BlockFeeInfo) : forgersRewards infos = forgersRewardsBy forgerBlockFee infos := rfl

section Rule

variable {own : ℤ → ℤ} {infos : List BlockFeeInfo}

theorem FeesFit.share_bounds (h : FeesFit infos) (hown : IsShare own) {info : BlockFeeInfo} (hinfo : info ∈ infos) :
    0 ≤ own info.fee ∧ own info.fee ≤ info.fee :=
  hown _ (h.nonneg info hinfo) (lt_of_le_of_lt (h.fee_le hinfo) h.total)

theorem sharedFees_nonneg (hown : IsShare own) (h : FeesFit infos) : 0 ≤ sharedFees own infos := by
  apply List.sum_nonneg
  intro x hx
  obtain ⟨info, hinfo, rfl⟩ := List.mem_map.1 hx
  have := h.share_bounds hown hinfo
  omega

theorem fees_split (own : ℤ → ℤ) (infos : List BlockFeeInfo) :
    (infos.map fun info => own info.fee).sum + sharedFees own infos = (infos.map BlockFeeInfo.fee).sum := by
  unfold sharedFees
  rw [← List.sum_map_add]
  simp

theorem ownFees_nonneg (hown : IsShare own) (h : FeesFit infos) : ∀ x ∈ infos.map fun info => own info.fee, 0 ≤ x := by
  intro x hx
  obtain ⟨info, hinfo, rfl⟩ := List.mem_map.1 hx
  exact (h.share_bounds hown hinfo).1

/-- the own share of a block and all that is shared are within the fees -/
theorem own_add_sharedFees_le (hown : IsShare own) (h : FeesFit infos) {info : BlockFeeInfo} (hinfo : info ∈ infos) :
    own info.fee + sharedFees own infos ≤ (infos.map BlockFeeInfo.fee).sum := by
  have hle : own info.fee ≤ (infos.map fun info => own info.fee).sum :=
    List.single_le_sum (ownFees_nonneg hown h) _ (List.mem_map_of_mem hinfo)
  have := fees_split own infos
  omega

theorem sharedFees_le (hown : IsShare own) (h : FeesFit infos) : sharedFees own infos ≤ (infos.map BlockFeeInfo.fee).sum := by
  have := List.sum_nonneg (ownFees_nonneg hown h)
  have := fees_split own infos
  omega

theorem poolFee_eq (hown : IsShare own) (h : FeesFit infos) : poolFeeBy own infos = sharedFees own infos := by
  have htotal := h.total
  have hsub : ∀ info ∈ infos, Long.sub info.fee (own info.fee) = info.fee - own info.fee := by
    intro info hinfo
    have hbounds := h.share_bounds hown hinfo
    have hle := h.fee_le hinfo
    exact Long.wrap_eq (by omega) (by omega)
  have hfold : poolFeeBy own infos = (infos.map fun info => Long.sub info.fee (own info.fee)).foldl Long.add 0 := by
    rw [List.foldl_map]
    rfl
  rw [hfold, List.map_congr_left hsub, Long.foldl_add_eq le_rfl, zero_add]
  · rfl
  · intro y hy
    obtain ⟨info, hinfo, rfl⟩ := List.mem_map.1 hy
    have := h.share_bounds hown hinfo
    omega
  · have hle := sharedFees_le hown h
    unfold sharedFees at hle
    omega

/-- the reward for the block with index `i` -/
def blockReward (own : ℤ → ℤ) (infos : List BlockFeeInfo) (i : ℕ) (info : BlockFeeInfo) : ℤ :=
  own info.fee + (sharedFees own infos).tdiv infos.length +
    if (i : ℤ) < (sharedFees own infos).tmod infos.length then 1 else 0

theorem blockReward_nonneg (hown : IsShare own) (h : FeesFit infos) {info : BlockFeeInfo} (hinfo : info ∈ infos) (i : ℕ) :
    0 ≤ blockReward own infos i info := by
  have hbounds := (h.share_bounds hown hinfo).1
  have hpool : 0 ≤ (sharedFees own infos).tdiv infos.length :=
    Int.tdiv_nonneg (sharedFees_nonneg hown h) (Int.natCast_nonneg _)
  unfold blockReward
  split_ifs <;> omega

/-- no addition overflows: a share of the pool, with one more when there is a rest, is within the pool -/
theorem forgersRewards_eq (hown : IsShare own) (h : FeesFit infos) :
    forgersRewardsBy own infos = infos.zipIdx.map fun x => (x.1.forgerRewardKey, blockReward own infos x.2 x.1) := by
  unfold forgersRewardsBy
  simp only [poolFee_eq hown h, List.mapIdx_eq_zipIdx_map]
  apply List.map_congr_left
  rintro ⟨info, i⟩ hmem
  have hinfo : info ∈ infos := List.fst_mem_of_mem_zipIdx hmem
  have hlength : (1 : ℤ) ≤ infos.length := by
    have := List.length_pos_of_mem hinfo
    omega
  have hbounds := h.share_bounds hown hinfo
  have htotal := h.total
  have hshared := sharedFees_nonneg hown h
  have hle := own_add_sharedFees_le hown h hinfo
  have hpool : 0 ≤ (sharedFees own infos).tdiv infos.length := Int.tdiv_nonneg hshared (Int.natCast_nonneg _)
  have hdivmod := Int.tmod_add_mul_tdiv (sharedFees own infos) infos.length
  have hpool_le : (sharedFees own infos).tdiv infos.length ≤ infos.length * (sharedFees own infos).tdiv infos.length :=
    le_mul_of_one_le_left hpool hlength
  have hrest : 0 ≤ (sharedFees own infos).tmod infos.length := Int.tmod_nonneg _ hshared
  have hadd : Long.add (own info.fee) ((sharedFees own infos).tdiv infos.length) =
      own info.fee + (sharedFees own infos).tdiv infos.length := Long.wrap_eq (by omega) (by omega)
  rw [hadd, blockReward, Prod.mk.injEq]
  refine ⟨rfl, ?_⟩
  split_ifs
  · exact Long.wrap_eq (by omega) (by omega)
  · exact Long.wrap_eq (by omega) (by omega)

theorem forgersRewards_nonneg (hown : IsShare own) (h : FeesFit infos) :
    ∀ reward ∈ forgersRewardsBy own infos, 0 ≤ reward.2 := by
  rw [forgersRewards_eq hown h]
  intro reward hreward
  obtain ⟨⟨info, i⟩, hmem, rfl⟩ := List.mem_map.1 hreward
  exact blockReward_nonneg hown h (List.fst_mem_of_mem_zipIdx hmem) i

/-- the shares and the rest dealt out one by one add up again -/
theorem forgersRewards_sum (hne : infos ≠ []) (hown : IsShare own) (h : FeesFit infos) :
    ((forgersRewardsBy own infos).map Prod.snd).sum = (infos.map BlockFeeInfo.fee).sum := by
  have hlength : 0 < infos.length := List.length_pos_iff.2 hne
  have hrest : 0 ≤ (sharedFees own infos).tmod infos.length := Int.tmod_nonneg _ (sharedFees_nonneg hown h)
  have hrest_lt : (sharedFees own infos).tmod infos.length < infos.length := Int.tmod_lt_of_pos _ (by omega)
  have hextra : (infos.zipIdx.map fun x => if (x.2 : ℤ) < (sharedFees own infos).tmod infos.length then (1 : ℤ) else 0).sum =
      (sharedFees own infos).tmod infos.length := by
    rw [sum_extra infos 0 _ (by simpa using hrest_lt.le)]
    split_ifs <;> omega
  have hshares : (infos.zipIdx.map fun x => own x.1.fee + (sharedFees own infos).tdiv infos.length).sum =
      (infos.map fun info => own info.fee).sum + infos.length * (sharedFees own infos).tdiv infos.length := by
    have hfst : (infos.zipIdx.map fun x => own x.1.fee + (sharedFees own infos).tdiv infos.length) =
        infos.map fun info => own info.fee + (sharedFees own infos).tdiv infos.length := by
      rw [show (fun x : BlockFeeInfo × ℕ => own x.1.fee + (sharedFees own infos).tdiv infos.length) =
        (fun info : BlockFeeInfo => own info.fee + (sharedFees own infos).tdiv infos.length) ∘ Prod.fst from rfl,
        ← List.map_map, List.zipIdx_map_fst]
    rw [hfst, List.sum_map_add]
    simp
  calc ((forgersRewardsBy own infos).map Prod.snd).sum
      = (infos.zipIdx.map fun x => blockReward own infos x.2 x.1).sum := by
        rw [forgersRewards_eq hown h, List.map_map]
        rfl
    _ = (infos.map fun info => own info.fee).sum + infos.length * (sharedFees own infos).tdiv infos.length +
          (sharedFees own infos).tmod infos.length := by
        simp only [blockReward]
        rw [List.sum_map_add, hshares, hextra]
    _ = (infos.map fun info => own info.fee).sum + sharedFees own infos := by
        have := Int.tmod_add_mul_tdiv (sharedFees own infos) infos.length
        omega
    _ = (infos.map BlockFeeInfo.fee).sum := fees_split own infos

end Rule

/-! ## Payments -/

theorem mem_keys {rewards : List (Proposition × ℤ)} {r : Proposition × ℤ} (hr : r ∈ rewards) :
    r.1 ∈ (rewards.map Prod.fst).reverse.dedup.reverse := by
  simp only [List.mem_reverse, List.mem_dedup, List.mem_map]
  exact ⟨r, hr, rfl⟩

/-- the rewards to one key -/
theorem keySum_eq {rewards : List (Proposition × ℤ)} (hnonneg : ∀ r ∈ rewards, 0 ≤ r.2)
    (hmax : (rewards.map Prod.snd).sum < 2 ^ 63) (key : Proposition) :
    Long.sum ((rewards.filter fun r => r.1 = key).map Prod.snd) = ((rewards.filter fun r => r.1 = key).map Prod.snd).sum := by
  have hle : ((rewards.filter fun r => r.1 = key).map Prod.snd).sum ≤ (rewards.map Prod.snd).sum := by
    apply List.Sublist.sum_le_sum
    · exact List.filter_sublist.map _
    · simpa using fun y x hy => hnonneg (x, y) hy
  apply Long.sum_eq
  · intro y hy
    obtain ⟨r, hr, rfl⟩ := List.mem_map.1 hy
    exact hnonneg r (List.mem_of_mem_filter hr)
  · omega

theorem aggregateRewards_eq {rewards : List (Proposition × ℤ)} (hnonneg : ∀ r ∈ rewards, 0 ≤ r.2)
    (hmax : (rewards.map Prod.snd).sum < 2 ^ 63) :
    aggregateRewards rewards = (rewards.map Prod.fst).reverse.dedup.reverse.map fun key =>
      (key, ((rewards.filter fun r => r.1 = key).map Prod.snd).sum) := by
  unfold aggregateRewards
  apply List.map_congr_left
  intro key _
  rw [keySum_eq hnonneg hmax]

theorem aggregateRewards_nonneg {rewards : List (Proposition × ℤ)} (hnonneg : ∀ r ∈ rewards, 0 ≤ r.2)
    (hmax : (rewards.map Prod.snd).sum < 2 ^ 63) : ∀ r ∈ aggregateRewards rewards, 0 ≤ r.2 := by
  rw [aggregateRewards_eq hnonneg hmax]
  intro r hr
  obtain ⟨key, -, rfl⟩ := List.mem_map.1 hr
  apply List.sum_nonneg
  intro y hy
  obtain ⟨r, hr, rfl⟩ := List.mem_map.1 hy
  exact hnonneg r (List.mem_of_mem_filter hr)

theorem aggregateRewards_sum {rewards : List (Proposition × ℤ)} (hnonneg : ∀ r ∈ rewards, 0 ≤ r.2)
    (hmax : (rewards.map Prod.snd).sum < 2 ^ 63) :
    ((aggregateRewards rewards).map Prod.snd).sum = (rewards.map Prod.snd).sum := by
  rw [aggregateRewards_eq hnonneg hmax, List.map_map]
  apply sum_by_key
  · rw [List.nodup_reverse]
    exact List.nodup_dedup _
  · intro r hr
    exact mem_keys hr

/-- one payment for each forger -/
theorem aggregateRewards_nodup (rewards : List (Proposition × ℤ)) : ((aggregateRewards rewards).map Prod.fst).Nodup := by
  have hkeys : (aggregateRewards rewards).map Prod.fst = (rewards.map Prod.fst).reverse.dedup.reverse := by
    unfold aggregateRewards
    rw [List.map_map]
    exact List.map_id _
  rw [hkeys, List.nodup_reverse]
  exact List.nodup_dedup _

/-- the payments left out are worth nothing -/
theorem sum_filter_pos {l : List (Proposition × ℤ)} (h : ∀ r ∈ l, 0 ≤ r.2) :
    ((l.filter fun r => 0 < r.2).map Prod.snd).sum = (l.map Prod.snd).sum := by
  induction l with
  | nil => rfl
  | cons r l ih =>
    obtain ⟨hr, hl⟩ := List.forall_mem_cons.1 h
    by_cases hpos : 0 < r.2
    · simp [hpos, ih hl]
    · have hzero : r.2 = 0 := by omega
      simp [hzero, ih hl]

/-! ## Boxes -/

variable {σ τ : Type} (env : Externals σ τ)

/-- `feePaymentBoxes` for payments -/
def paymentBoxes (withdrawalEpochNumber : ℤ) (rewards : List (Proposition × ℤ)) : List Box :=
  (rewards.mapIdx (feePaymentBox env withdrawalEpochNumber)).filter fun box => 0 < box.value

theorem feePaymentBoxes_by (e : ℤ) (infos : List BlockFeeInfo) :
    feePaymentBoxes env e infos = paymentBoxes env e (aggregateRewards (forgersRewardsBy forgerBlockFee infos)) := rfl

/-- to whom a box goes, and its value -/
def payee (box : Box) : Proposition × ℤ := (box.proposition, box.value)

/-- the boxes pay what is positive; only ids and nonces depend on the epoch -/
theorem paymentBoxes_payees (e : ℤ) (rewards : List (Proposition × ℤ)) :
    (paymentBoxes env e rewards).map payee = rewards.filter fun r => 0 < r.2 := by
  have hpayees : (rewards.mapIdx (feePaymentBox env e)).map payee = rewards := by
    rw [List.mapIdx_eq_zipIdx_map, List.map_map]
    exact List.zipIdx_map_fst 0 rewards
  calc (paymentBoxes env e rewards).map payee
      = ((rewards.mapIdx (feePaymentBox env e)).map payee).filter fun r => 0 < r.2 := by
        rw [List.filter_map]
        rfl
    _ = rewards.filter fun r => 0 < r.2 := by rw [hpayees]

theorem paymentBoxes_value (e : ℤ) {rewards : List (Proposition × ℤ)} (h : ∀ r ∈ rewards, 0 ≤ r.2) :
    ((paymentBoxes env e rewards).map Box.value).sum = (rewards.map Prod.snd).sum := by
  rw [← sum_filter_pos h, ← paymentBoxes_payees env e rewards, List.map_map]
  rfl

theorem feePaymentBoxes_eq_nil_iff (e : ℤ) (infos : List BlockFeeInfo) :
    feePaymentBoxes env e infos = [] ↔ ∀ reward ∈ aggregateRewards (forgersRewards infos), reward.2 ≤ 0 := by
  rw [feePaymentBoxes_by, ← List.map_eq_nil_iff (f := payee), paymentBoxes_payees, List.filter_eq_nil_iff, forgersRewards_by]
  simp only [decide_eq_true_eq, not_lt]

/-- what a forger gets in all is not negative, and all of it is the fees -/
theorem aggregated_rewards {own : ℤ → ℤ} (hown : IsShare own) {infos : List BlockFeeInfo} (hne : infos ≠ [])
    (h : FeesFit infos) :
    (∀ reward ∈ aggregateRewards (forgersRewardsBy own infos), 0 ≤ reward.2) ∧
      ((aggregateRewards (forgersRewardsBy own infos)).map Prod.snd).sum = (infos.map BlockFeeInfo.fee).sum := by
  have hsum := forgersRewards_sum hne hown h
  have hnonneg := forgersRewards_nonneg hown h
  have htotal := h.total
  rw [← hsum] at htotal
  exact ⟨aggregateRewards_nonneg hnonneg htotal, (aggregateRewards_sum hnonneg htotal).trans hsum⟩

/-- no reward is positive exactly if there are no fees -/
theorem rewards_nonpos_iff {infos : List BlockFeeInfo} (hne : infos ≠ []) (h : FeesInRange infos) :
    (∀ reward ∈ aggregateRewards (forgersRewards infos), reward.2 ≤ 0) ↔ ∀ info ∈ infos, info.fee = 0 := by
  obtain ⟨hnonneg, hsum⟩ := aggregated_rewards forgerBlockFee_isShare hne h.fit
  rw [← forgersRewards_by] at hnonneg hsum
  constructor
  · intro hnonpos info hinfo
    have hle := h.fit.fee_le hinfo
    have hfee := h.nonneg info hinfo
    have hall : ∀ x ∈ (aggregateRewards (forgersRewards infos)).map Prod.snd, x ≤ 0 := by
      intro x hx
      obtain ⟨reward, hreward, rfl⟩ := List.mem_map.1 hx
      exact hnonpos reward hreward
    have hzero : ((aggregateRewards (forgersRewards infos)).map Prod.snd).sum ≤ 0 := by
      simpa using List.sum_le_card_nsmul _ 0 hall
    omega
  · intro hzero reward hreward
    have hfees : (infos.map BlockFeeInfo.fee).sum = 0 := by
      apply List.sum_eq_zero
      simpa using hzero
    have hle : reward.2 ≤ ((aggregateRewards (forgersRewards infos)).map Prod.snd).sum := by
      apply List.single_le_sum
      · intro x hx
        obtain ⟨r, hr, rfl⟩ := List.mem_map.1 hx
        exact hnonneg r hr
      · exact List.mem_map_of_mem hreward
    omega

/-! ## Coefficients -/

/-- `new BigDecimal(fee).multiply(forgerPercentage).longValue()` -/
def forgerBlockFeeAt (forgerPercentage : ℚ) (fee : ℤ) : ℤ :=
  let product := fee * forgerPercentage
  Long.wrap (product.num.tdiv product.den)

theorem forgerBlockFeeAt_eq {c : ℚ} (hc : 0 ≤ c) (hc' : c ≤ 1) {fee : ℤ} (hfee : 0 ≤ fee) (hmax : fee < 2 ^ 63) :
    forgerBlockFeeAt c fee = ⌊fee * c⌋ ∧ 0 ≤ ⌊fee * c⌋ ∧ ⌊fee * c⌋ ≤ fee := by
  have hfee' : (0 : ℚ) ≤ fee := by exact_mod_cast hfee
  have hproduct : 0 ≤ fee * c := mul_nonneg hfee' hc
  have hfloor : 0 ≤ ⌊fee * c⌋ := Int.floor_nonneg.2 hproduct
  have hle : ⌊fee * c⌋ ≤ fee := by
    have hlt : fee * c ≤ (fee : ℚ) := mul_le_of_le_one_right hfee' hc'
    exact (Int.floor_mono hlt).trans_eq (Int.floor_intCast fee)
  refine ⟨?_, hfloor, hle⟩
  unfold forgerBlockFeeAt
  dsimp only
  rw [Int.tdiv_eq_ediv_of_nonneg (Rat.num_nonneg.2 hproduct), ← Rat.floor_def']
  exact Long.wrap_eq (by omega) (by omega)

theorem forgerBlockFeeAt_isShare {c : ℚ} (hc : 0 ≤ c) (hc' : c ≤ 1) : IsShare (forgerBlockFeeAt c) := by
  intro fee hfee hmax
  obtain ⟨heq, hbounds⟩ := forgerBlockFeeAt_eq hc hc' hfee hmax
  rwa [heq]

theorem forgerBlockFeeAt_seven_tenths {fee : ℤ} (hfee : 0 ≤ fee) (hmax : fee < 2 ^ 63) :
    forgerBlockFeeAt (7 / 10) fee = forgerBlockFee fee := by
  have hproduct : (fee : ℚ) * (7 / 10) = ((fee * 7 : ℤ) : ℚ) / ((10 : ℕ) : ℚ) := by
    push_cast
    ring
  rw [(forgerBlockFeeAt_eq (by norm_num) (by norm_num) hfee hmax).1, hproduct, Rat.floor_intCast_div_natCast, forgerBlockFee,
    Int.tdiv_eq_ediv_of_nonneg (by omega)]
  rfl

/-- rules that agree on the fees give the same rewards -/
theorem forgersRewardsBy_congr {own own' : ℤ → ℤ} {infos : List BlockFeeInfo}
    (h : ∀ info ∈ infos, own info.fee = own' info.fee) :
    forgersRewardsBy own infos = forgersRewardsBy own' infos := by
  have hpool : poolFeeBy own infos = poolFeeBy own' infos := by
    unfold poolFeeBy
    refine List.foldl_ext _ _ _ ?_
    intro pool info hinfo
    rw [h info hinfo]
  unfold forgersRewardsBy
  rw [hpool]
  refine List.mapIdx_eq_mapIdx_iff.2 ?_
  intro i hi
  rw [h _ (List.getElem_mem hi)]

/-- `getFeePayments` for the infos of an epoch -/
def feePaymentsAt (forgerPercentage : ℚ) (withdrawalEpochNumber : ℤ) (infos : List BlockFeeInfo) : List Box :=
  if infos.isEmpty then []
  else paymentBoxes env withdrawalEpochNumber (aggregateRewards (forgersRewardsBy (forgerBlockFeeAt forgerPercentage) infos))

/-- the coefficient of all networks is 0.7 -/
theorem getFeePayments_at {s : SidechainState σ τ} {e : ℤ} {blockToAppendFeeInfo : Option BlockFeeInfo}
    {infos : List BlockFeeInfo}
    (hinfos : s.contents.blockFeeInfos e ++ blockToAppendFeeInfo.toList = infos) (h : FeesFit infos) :
    s.getFeePayments env e blockToAppendFeeInfo = feePaymentsAt env (7 / 10) e infos := by
  have hshares : ∀ info ∈ infos, forgerBlockFeeAt (7 / 10) info.fee = forgerBlockFee info.fee := by
    intro info hinfo
    exact forgerBlockFeeAt_seven_tenths (h.nonneg info hinfo) (lt_of_le_of_lt (h.fee_le hinfo) h.total)
  unfold SidechainState.getFeePayments feePaymentsAt
  rw [hinfos, forgersRewardsBy_congr hshares]
  rfl

theorem feePaymentsAt_payees (c : ℚ) (e : ℤ) (infos : List BlockFeeInfo) :
    (feePaymentsAt env c e infos).map payee =
      if infos.isEmpty then [] else (aggregateRewards (forgersRewardsBy (forgerBlockFeeAt c) infos)).filter fun r => 0 < r.2 := by
  unfold feePaymentsAt
  split_ifs
  · rfl
  · exact paymentBoxes_payees env e _

/-- **Fee payments.** For every coefficient from 0 to 1 and every list of fees that are not negative and have a `Long` as sum:
the values of the boxes add up to the fees, they are positive, and no forger gets two boxes. To whom which value goes depends on
the list only; the nonces and ids of the boxes depend also on the number of the epoch. -/
theorem fee_payments_exact {c : ℚ} (hc : 0 ≤ c) (hc' : c ≤ 1) (e : ℤ) {infos : List BlockFeeInfo} (h : FeesFit infos) :
    ((feePaymentsAt env c e infos).map Box.value).sum = (infos.map BlockFeeInfo.fee).sum ∧
      (∀ box ∈ feePaymentsAt env c e infos, 0 < box.value) ∧
      ((feePaymentsAt env c e infos).map Box.proposition).Nodup ∧
      (∀ (env' : Externals σ τ) (e' : ℤ), (feePaymentsAt env' c e' infos).map payee = (feePaymentsAt env c e infos).map
        payee) ∧
      (c = 7 / 10 → ∀ (s : SidechainState σ τ) (blockToAppendFeeInfo : Option BlockFeeInfo),
        s.contents.blockFeeInfos e ++ blockToAppendFeeInfo.toList = infos →
          s.getFeePayments env e blockToAppendFeeInfo = feePaymentsAt env c e infos) := by
  have hpayees := feePaymentsAt_payees env c e infos
  have hvalues : (feePaymentsAt env c e infos).map Box.value = ((feePaymentsAt env c e infos).map payee).map Prod.snd := by
    rw [List.map_map]
    rfl
  have hpropositions : (feePaymentsAt env c e infos).map Box.proposition = ((feePaymentsAt env c e infos).map payee).map
      Prod.fst := by
    rw [List.map_map]
    rfl
  refine ⟨?_, ?_, ?_, ?_, ?_⟩
  · rw [hvalues, hpayees]
    by_cases hne : infos = []
    · rw [hne]
      rfl
    · obtain ⟨hnonneg, hsum⟩ := aggregated_rewards (forgerBlockFeeAt_isShare hc hc') hne h
      rw [if_neg (by simpa using hne), sum_filter_pos hnonneg, hsum]
  · intro box hbox
    have hmem : payee box ∈ (feePaymentsAt env c e infos).map payee := List.mem_map_of_mem hbox
    rw [hpayees] at hmem
    split_ifs at hmem
    · cases hmem
    · exact of_decide_eq_true (List.mem_filter.1 hmem).2
  · rw [hpropositions, hpayees]
    split_ifs
    · exact List.nodup_nil
    · exact (aggregateRewards_nodup _).sublist (List.filter_sublist.map _)
  · intro env' e'
    rw [hpayees, feePaymentsAt_payees]
  · rintro rfl s blockToAppendFeeInfo hinfos
    exact getFeePayments_at env hinfos h

/-- three blocks of two forgers: 31 satoshis are shared, and the second reward of forger 1 is added to its first one -/
theorem fee_payments_three_blocks :
    ((feePaymentsAt sampleExternals (7 / 10) 2 [⟨31, 1⟩, ⟨40, 2⟩, ⟨30, 1⟩]).map Box.value).sum = 101 :=
  (fee_payments_exact sampleExternals (by norm_num) (by norm_num) 2 ⟨by decide, by decide⟩).1

/-- the same fees in two epochs are paid with different boxes -/
theorem fee_payments_of_two_epochs :
    ¬ ∀ (c : ℚ) (e e' : ℤ) (infos : List BlockFeeInfo), 0 ≤ c → c ≤ 1 → FeesFit infos →
      feePaymentsAt sampleExternals c e infos = feePaymentsAt sampleExternals c e' infos := by
  intro hclaim
  have heq := hclaim (7 / 10) 0 1 [⟨10, 1⟩] (by norm_num) (by norm_num) ⟨by decide, by decide⟩
  exact absurd heq (by decide +kernel)

end SidechainsSdk.Utxo
