/-
End-of-epoch rewards of the account sidechain (`AccountFeePaymentsUtils`, `AccountStateView.getFeePaymentsInfo`).

At the end of a withdrawal epoch the fees of its blocks and the mainchain rewards of the forger pool are paid out in
three steps, each modelled as the source computes it:
- `getForgersRewards`: the base fees of all blocks are split evenly over the blocks (the remainder goes one wei each to
  the first blocks), tips stay with their block, and what one identifier earned is added up with its pool reward;
- `getForgersAndDelegatorsShares`: a forger registered with a reward share gives that per-mille share, rounded down, to
  its reward address, once on the whole reward and once on its mainchain part; null forger payments are dropped;
- `groupAllPaymentsByAddress`: forger and delegator payments are merged per address.

Results.
- `getForgersRewards_value_sum`: the first step pays out exactly base fees, tips and pool rewards.
- `shares_value_sum`: the second step neither loses nor creates a wei, null payments included.
- `groupAllPaymentsByAddress_value_sum`: nor does the third.
- `feePayments_conserved`: the three together, with every payment non-negative, its two parts adding up to its value,
  and no address paid twice.

Premises: fees, tips and pool rewards are non-negative and reward shares are at most `MAX_REWARD_SHARE`, which the
block checks and the registration command enforce.
-/
import Mathlib.Tactic
import SidechainsSdk.Core.Grouping
import SidechainsSdk.Account.Types

namespace SidechainsSdk.Account.FeePayments

open SidechainsSdk.Grouping

/-- `ForgerStakeV2MsgProcessor.MAX_REWARD_SHARE`, the whole of a reward in per mille -/
def MAX_REWARD_SHARE : ℕ := 1000

/-- the mainchain pool rewards by identifier -/
abbrev PoolRewards := AList fun _ : ForgerIdentifier => ℤ

/-! ## The code -/

/-- the identifier a block's rewards are booked under -/
def identifierOf (feeInfo : AccountBlockFeeInfo) : ForgerIdentifier :=
  ⟨feeInfo.forgerAddress, feeInfo.forgerKeys⟩

/-- tips and the block's part of the pooled base fees; the first `rest` blocks get one wei more -/
def allForgersRewards (blockFeeInfoSeq : List AccountBlockFeeInfo) : List ForgerPayment :=
  let poolFee := blockFeeInfoSeq.foldl (fun acc feeInfo => acc + feeInfo.baseFee) 0
  let forgersBlockRewards := blockFeeInfoSeq.map fun feeInfo =>
    (⟨identifierOf feeInfo, feeInfo.forgerTips, 0⟩ : ForgerPayment)
  let forgerPoolFee := poolFee.tdiv forgersBlockRewards.length
  let rest := poolFee.tmod forgersBlockRewards.length
  forgersBlockRewards.zipIdx.map fun (forgerBlockReward, index) =>
    ⟨forgerBlockReward.identifier, forgerBlockReward.value + forgerPoolFee + (if (index : ℤ) < rest then 1 else 0), 0⟩

/-- `AccountFeePaymentsUtils.getForgersRewards` -/
def getForgersRewards (blockFeeInfoSeq : List AccountBlockFeeInfo) (mcForgerPoolRewards : PoolRewards) :
    List ForgerPayment :=
  if blockFeeInfoSeq = [] then mcForgerPoolRewards.entries.map fun reward => ⟨reward.1, reward.2, reward.2⟩
  else
    let rewards := allForgersRewards blockFeeInfoSeq
    let forgerKeys := (rewards.map ForgerPayment.identifier ++ mcForgerPoolRewards.keys).eraseDups
    forgerKeys.map fun forgerKey =>
      let forgerTotalFee := (rewards.filter fun info => forgerKey = info.identifier).foldl
        (fun sum info => sum + info.value) 0
      let mcForgerPoolReward := (mcForgerPoolRewards.lookup forgerKey).getD 0
      ⟨forgerKey, forgerTotalFee + mcForgerPoolReward, mcForgerPoolReward⟩

/-- the whole payment to the forger's own address -/
def wholePayment (feePayment : ForgerPayment) : AccountPayment :=
  ⟨feePayment.identifier.address, feePayment.value, some feePayment.valueFromMainchain,
    some (feePayment.value - feePayment.valueFromMainchain)⟩

/-- `AccountFeePaymentsUtils.getForgerAndDelegatorShares` -/
def getForgerAndDelegatorShares (feePayment : ForgerPayment) (forgerInfo : ForgerInfo) :
    AccountPayment × Option DelegatorFeePayment :=
  let totalMcReward := feePayment.valueFromMainchain
  if forgerInfo.rewardShare = 0 then (wholePayment feePayment, none)
  else
    let delegatorShare : ℤ := forgerInfo.rewardShare
    let delegatorReward := (feePayment.value * delegatorShare).tdiv MAX_REWARD_SHARE
    let delegatorMcReward := (totalMcReward * delegatorShare).tdiv MAX_REWARD_SHARE
    let delegatorFeeReward := delegatorReward - delegatorMcReward
    let forgerReward := feePayment.value - delegatorReward
    let forgerMcReward := totalMcReward - delegatorMcReward
    let forgerFeeReward := forgerReward - forgerMcReward
    (⟨feePayment.identifier.address, forgerReward, some forgerMcReward, some forgerFeeReward⟩,
      some ⟨⟨forgerInfo.rewardAddress, delegatorReward, some delegatorMcReward, some delegatorFeeReward⟩,
        forgerInfo.forgerPublicKeys⟩)

/-- the shares of one payment; identifiers without keys, or with keys that are not registered, keep everything -/
def sharesOf (getForgerInfo : ForgerPublicKeys → Option ForgerInfo) (feePayment : ForgerPayment) :
    AccountPayment × Option DelegatorFeePayment :=
  match feePayment.identifier.forgerKeys.bind getForgerInfo with
  | some info => getForgerAndDelegatorShares feePayment info
  | none => (wholePayment feePayment, none)

/-- `AccountStateView.getForgersAndDelegatorsShares` -/
def getForgersAndDelegatorsShares (getForgerInfo : ForgerPublicKeys → Option ForgerInfo)
    (feePayments : List ForgerPayment) : List AccountPayment × List DelegatorFeePayment :=
  let allPayments := feePayments.map (sharesOf getForgerInfo)
  ((allPayments.filter fun p => p.1.value.sign = 1).map Prod.fst, allPayments.filterMap Prod.snd)

/-- the payment that merges all payments to one address -/
def mergedPayment (address : Address) (payments : List AccountPayment) : AccountPayment :=
  ⟨address, (payments.map AccountPayment.value).foldl (fun a b => a + b) 0,
    some ((payments.map AccountPayment.valueFromMainchain).foldl (fun a b => a + b.getD 0) 0),
    some ((payments.map AccountPayment.valueFromFees).foldl (fun a b => a + b.getD 0) 0)⟩

/-- `AccountFeePaymentsUtils.groupAllPaymentsByAddress` -/
def groupAllPaymentsByAddress (order : HashOrder (Address × List AccountPayment)) (feePayments : List AccountPayment)
    (delegatorPayments : List DelegatorFeePayment) : List AccountPayment :=
  (order.iterate (groupBy AccountPayment.address
    (feePayments ++ delegatorPayments.map DelegatorFeePayment.feePayment))).map fun g => mergedPayment g.1 g.2

/-! ## First step: rewards per identifier -/

theorem baseFee_foldl (infos : List AccountBlockFeeInfo) :
    infos.foldl (fun acc feeInfo => acc + feeInfo.baseFee) 0 = (infos.map AccountBlockFeeInfo.baseFee).sum := by
  rw [foldl_add_sum, zero_add]

/-- the evenly split base fees and the extra wei add up again -/
theorem allForgersRewards_sum (infos : List AccountBlockFeeInfo) (hne : infos ≠ [])
    (hfees : ∀ i ∈ infos, 0 ≤ i.baseFee) :
    ((allForgersRewards infos).map ForgerPayment.value).sum =
      (infos.map fun i => i.baseFee + i.forgerTips).sum := by
  set n := (infos.length : ℤ) with hn
  set pool := (infos.map AccountBlockFeeInfo.baseFee).sum with hpool
  have hpos : 0 < n := by simpa [hn] using List.length_pos_iff.2 hne
  have hpool0 : 0 ≤ pool := List.sum_nonneg fun x hx => by
    obtain ⟨i, hi, rfl⟩ := List.mem_map.1 hx
    exact hfees i hi
  have hrest : 0 ≤ pool.tmod n ∧ pool.tmod n ≤ n :=
    ⟨Int.tmod_nonneg _ hpool0, (Int.tmod_lt_of_pos pool hpos).le⟩
  set rewards := infos.map fun i => (⟨identifierOf i, i.forgerTips, 0⟩ : ForgerPayment) with hrewards
  have hvalues : (allForgersRewards infos).map ForgerPayment.value =
      rewards.zipIdx.map fun x =>
        (x.1.value + pool.tdiv n) + (if (x.2 : ℤ) < pool.tmod n then 1 else 0) := by
    simp only [allForgersRewards, baseFee_foldl, List.map_map, ← hpool, ← hrewards]
    simp [Function.comp_def, hrewards, hn]
  have htips : (rewards.zipIdx.map fun x => x.1.value + pool.tdiv n).sum =
      (infos.map AccountBlockFeeInfo.forgerTips).sum + n * pool.tdiv n := by
    have : (rewards.zipIdx.map fun x => x.1.value + pool.tdiv n) =
        infos.map fun i => i.forgerTips + pool.tdiv n := by
      rw [show (fun x : ForgerPayment × ℕ => x.1.value + pool.tdiv n) =
        (fun p : ForgerPayment => p.value + pool.tdiv n) ∘ Prod.fst from rfl, ← List.map_map, List.zipIdx_map_fst]
      simp [hrewards, Function.comp_def]
    rw [this, List.sum_map_add]
    simp [hn]
  have hextra : (rewards.zipIdx.map fun x => if (x.2 : ℤ) < pool.tmod n then (1 : ℤ) else 0).sum = pool.tmod n := by
    rw [sum_extra rewards 0 (pool.tmod n) (by simpa [hrewards, hn] using hrest.2)]
    have := hrest.1
    split_ifs <;> omega
  have hdiv : pool.tmod n + n * pool.tdiv n = pool := Int.tmod_add_mul_tdiv pool n
  rw [hvalues, List.sum_map_add, htips, hextra, List.sum_map_add, ← hpool]
  omega

theorem allForgersRewards_identifiers (infos : List AccountBlockFeeInfo) :
    (allForgersRewards infos).map ForgerPayment.identifier = infos.map identifierOf := by
  simp only [allForgersRewards, List.map_map]
  rw [show (ForgerPayment.identifier ∘ fun x : ForgerPayment × ℕ => (⟨x.1.identifier, _, 0⟩ : ForgerPayment)) =
    ForgerPayment.identifier ∘ Prod.fst from rfl, ← List.map_map, List.zipIdx_map_fst]
  simp [Function.comp_def]

theorem allForgersRewards_nonneg (infos : List AccountBlockFeeInfo)
    (hfees : ∀ i ∈ infos, 0 ≤ i.baseFee ∧ 0 ≤ i.forgerTips) (p : ForgerPayment) (hp : p ∈ allForgersRewards infos) :
    0 ≤ p.value := by
  simp only [allForgersRewards, baseFee_foldl, List.length_map] at hp
  obtain ⟨⟨r, idx⟩, hr, rfl⟩ := List.mem_map.1 hp
  obtain ⟨i, hi, rfl⟩ := List.mem_map.1 (List.fst_mem_of_mem_zipIdx hr)
  have hpool : 0 ≤ (infos.map AccountBlockFeeInfo.baseFee).sum := List.sum_nonneg fun x hx => by
    obtain ⟨i, hi, rfl⟩ := List.mem_map.1 hx
    exact (hfees i hi).1
  have hq : 0 ≤ (infos.map AccountBlockFeeInfo.baseFee).sum.tdiv infos.length :=
    Int.tdiv_nonneg hpool (Int.natCast_nonneg _)
  have htips := (hfees i hi).2
  dsimp only
  split_ifs <;> omega

/-- a payment whose mainchain part lies between zero and its value -/
def SoundReward (p : ForgerPayment) : Prop := 0 ≤ p.valueFromMainchain ∧ p.valueFromMainchain ≤ p.value

section Rewards

variable (infos : List AccountBlockFeeInfo) (rewards : PoolRewards) (hne : infos ≠ [])
  (hfees : ∀ i ∈ infos, 0 ≤ i.baseFee ∧ 0 ≤ i.forgerTips)

include hne hfees

/-- **First step.** The rewards per identifier add up to all base fees, tips and pool rewards. -/
theorem getForgersRewards_value_sum :
    ((getForgersRewards infos rewards).map ForgerPayment.value).sum =
      (infos.map fun i => i.baseFee + i.forgerTips).sum + (rewards.entries.map fun e => e.2).sum := by
  set keys := ((allForgersRewards infos).map ForgerPayment.identifier ++ rewards.keys).eraseDups with hkeys
  have hnodup : keys.Nodup := nodup_distinct _
  have hvalues : (getForgersRewards infos rewards).map ForgerPayment.value = keys.map fun k =>
      (((allForgersRewards infos).filter fun p => p.identifier = k).map ForgerPayment.value).sum +
        (rewards.lookup k).getD 0 := by
    simp only [getForgersRewards, if_neg hne, List.map_map, ← hkeys]
    refine List.map_congr_left fun k _ => ?_
    simp only [Function.comp_apply, foldl_add_sum, zero_add, eq_comm (a := k)]
  have hfibres := sum_by_key keys hnodup ForgerPayment.identifier ForgerPayment.value (allForgersRewards infos)
    fun p hp => List.mem_eraseDups.2 (List.mem_append_left _ (List.mem_map_of_mem hp))
  have hlookups := sum_lookup keys hnodup rewards fun k hk => List.mem_eraseDups.2 (List.mem_append_right _ hk)
  rw [hvalues, List.sum_map_add, hfibres, hlookups, allForgersRewards_sum infos hne fun i hi => (hfees i hi).1]

theorem getForgersRewards_sound (hpool : ∀ e ∈ rewards.entries, 0 ≤ e.2) (p : ForgerPayment)
    (hp : p ∈ getForgersRewards infos rewards) : SoundReward p := by
  simp only [getForgersRewards, if_neg hne] at hp
  obtain ⟨k, -, rfl⟩ := List.mem_map.1 hp
  have hmc : 0 ≤ (rewards.lookup k).getD 0 := by
    cases hk : rewards.lookup k with
    | none => simp
    | some x => exact hpool ⟨k, x⟩ (AList.mem_lookup_iff.1 hk)
  have htotal : 0 ≤ ((allForgersRewards infos).filter fun q => k = q.identifier).foldl
      (fun sum info => sum + info.value) 0 := by
    rw [foldl_add_sum, zero_add]
    refine List.sum_nonneg fun x hx => ?_
    obtain ⟨q, hq, rfl⟩ := List.mem_map.1 hx
    exact allForgersRewards_nonneg infos hfees q (List.mem_of_mem_filter hq)
  exact ⟨hmc, by dsimp only; omega⟩

end Rewards

/-! ## Second step: the delegators' share -/

/-- a payment with both parts present, non-negative, and adding up to the value -/
def SoundPayment (p : AccountPayment) : Prop :=
  ∃ mc fees, p.valueFromMainchain = some mc ∧ p.valueFromFees = some fees ∧ 0 ≤ mc ∧ 0 ≤ fees ∧ mc + fees = p.value

theorem SoundPayment.nonneg {p : AccountPayment} (h : SoundPayment p) : 0 ≤ p.value := by
  obtain ⟨mc, fees, -, -, hmc, hfees, hsum⟩ := h
  omega

theorem wholePayment_sound (p : ForgerPayment) (hp : SoundReward p) : SoundPayment (wholePayment p) :=
  ⟨p.valueFromMainchain, p.value - p.valueFromMainchain, rfl, rfl, hp.1, by have := hp.2; omega,
    by simp [wholePayment]⟩

/-- rounding down a share of at most the whole is monotone, and so is what remains -/
theorem share_mono (share : ℕ) (hshare : share ≤ MAX_REWARD_SHARE) (m v : ℤ) (hm : 0 ≤ m) (hmv : m ≤ v) :
    0 ≤ (m * share).tdiv MAX_REWARD_SHARE ∧ (m * share).tdiv MAX_REWARD_SHARE ≤ m ∧
      (m * share).tdiv MAX_REWARD_SHARE ≤ (v * share).tdiv MAX_REWARD_SHARE ∧
      m - (m * share).tdiv MAX_REWARD_SHARE ≤ v - (v * share).tdiv MAX_REWARD_SHARE := by
  have hs : (share : ℤ) ≤ 1000 := by exact_mod_cast hshare
  have hm0 : 0 ≤ m * share := mul_nonneg hm (Int.natCast_nonneg _)
  have hle : m * share ≤ v * share := mul_le_mul_of_nonneg_right hmv (Int.natCast_nonneg _)
  have hm1 : m * share ≤ m * 1000 := mul_le_mul_of_nonneg_left hs hm
  have hdiff : (v - m) * share ≤ (v - m) * 1000 := mul_le_mul_of_nonneg_left hs (by omega)
  have hdiff' : v * share - m * share ≤ (v - m) * 1000 := by rw [← sub_mul]; exact hdiff
  rw [Int.tdiv_eq_ediv_of_nonneg hm0, Int.tdiv_eq_ediv_of_nonneg (hm0.trans hle),
    show ((MAX_REWARD_SHARE : ℕ) : ℤ) = 1000 from rfl]
  generalize m * (share : ℤ) = a at *
  generalize v * (share : ℤ) = b at *
  refine ⟨by omega, by omega, by omega, by omega⟩

section Shares

variable (getForgerInfo : ForgerPublicKeys → Option ForgerInfo)
  (hshare : ∀ keys info, getForgerInfo keys = some info → info.rewardShare ≤ MAX_REWARD_SHARE)

/-- what a payment is worth once it is split -/
def splitValue (shares : AccountPayment × Option DelegatorFeePayment) : ℤ :=
  shares.1.value + (shares.2.map fun d => d.feePayment.value).getD 0

theorem sharesOf_splitValue (p : ForgerPayment) : splitValue (sharesOf getForgerInfo p) = p.value := by
  simp only [sharesOf]
  cases p.identifier.forgerKeys.bind getForgerInfo with
  | none => simp [splitValue, wholePayment]
  | some info =>
    simp only [getForgerAndDelegatorShares]
    split_ifs <;> simp [splitValue, wholePayment]

include hshare in
theorem sharesOf_sound (p : ForgerPayment) (hp : SoundReward p) :
    SoundPayment (sharesOf getForgerInfo p).1 ∧
      ∀ d, (sharesOf getForgerInfo p).2 = some d → SoundPayment d.feePayment := by
  simp only [sharesOf]
  cases h : p.identifier.forgerKeys.bind getForgerInfo with
  | none => exact ⟨wholePayment_sound p hp, by simp⟩
  | some info =>
    obtain ⟨keys, -, hinfo⟩ := Option.bind_eq_some_iff.1 h
    have hmono := share_mono info.rewardShare (hshare keys info hinfo) p.valueFromMainchain p.value hp.1 hp.2
    simp only [getForgerAndDelegatorShares]
    split_ifs with hzero
    · exact ⟨wholePayment_sound p hp, by simp⟩
    · refine ⟨⟨_, _, rfl, rfl, by omega, by omega, by dsimp only; omega⟩, ?_⟩
      rintro d hd
      obtain rfl := Option.some.inj hd
      exact ⟨_, _, rfl, rfl, by omega, by omega, by dsimp only; omega⟩

include hshare in
theorem shares_sound (ps : List ForgerPayment) (hps : ∀ p ∈ ps, SoundReward p) :
    (∀ p ∈ (getForgersAndDelegatorsShares getForgerInfo ps).1, SoundPayment p) ∧
      ∀ d ∈ (getForgersAndDelegatorsShares getForgerInfo ps).2, SoundPayment d.feePayment := by
  refine ⟨fun p hp => ?_, fun d hd => ?_⟩
  · obtain ⟨s, hs, rfl⟩ := List.mem_map.1 hp
    obtain ⟨q, hq, rfl⟩ := List.mem_map.1 (List.mem_of_mem_filter hs)
    exact (sharesOf_sound getForgerInfo hshare q (hps q hq)).1
  · obtain ⟨s, hs, hd⟩ := List.mem_filterMap.1 hd
    obtain ⟨q, hq, rfl⟩ := List.mem_map.1 hs
    exact (sharesOf_sound getForgerInfo hshare q (hps q hq)).2 d hd

include hshare in
/-- **Second step.** Forger and delegator payments together are worth what was split; the payments that are filtered
out are null. -/
theorem shares_value_sum (ps : List ForgerPayment) (hps : ∀ p ∈ ps, SoundReward p) :
    ((getForgersAndDelegatorsShares getForgerInfo ps).1.map AccountPayment.value).sum +
      ((getForgersAndDelegatorsShares getForgerInfo ps).2.map fun d => d.feePayment.value).sum =
      (ps.map ForgerPayment.value).sum := by
  induction ps with
  | nil => simp [getForgersAndDelegatorsShares]
  | cons p ps ih =>
    have ih' := ih fun q hq => hps q (List.mem_cons_of_mem _ hq)
    have hsplit := sharesOf_splitValue getForgerInfo p
    have hsound := sharesOf_sound getForgerInfo hshare p (hps p List.mem_cons_self)
    have hnonneg := hsound.1.nonneg
    simp only [getForgersAndDelegatorsShares, splitValue] at ih' hsplit ⊢
    simp only [List.map_cons, List.sum_cons, List.filter_cons, List.filterMap_cons, decide_eq_true_eq,
      Int.sign_eq_one_iff_pos] at ih' ⊢
    cases hd : (sharesOf getForgerInfo p).2 with
    | none =>
      simp only [hd, Option.map_none, Option.getD_none] at hsplit
      split_ifs
      · simp only [List.map_cons, List.sum_cons]; omega
      · dsimp only; omega
    | some d =>
      simp only [hd, Option.map_some, Option.getD_some] at hsplit
      split_ifs
      · simp only [List.map_cons, List.sum_cons]; omega
      · simp only [List.map_cons, List.sum_cons]; omega

end Shares

/-! ## Third step: one payment per address -/

section Group

variable (order : HashOrder (Address × List AccountPayment)) (fs : List AccountPayment)
  (ds : List DelegatorFeePayment)

/-- **Third step.** Merging per address keeps the total. -/
theorem groupAllPaymentsByAddress_value_sum :
    ((groupAllPaymentsByAddress order fs ds).map AccountPayment.value).sum =
      (fs.map AccountPayment.value).sum + (ds.map fun d => d.feePayment.value).sum := by
  set all := fs ++ ds.map DelegatorFeePayment.feePayment with hall
  have hvalues : (groupAllPaymentsByAddress order fs ds).map AccountPayment.value =
      (order.iterate (groupBy AccountPayment.address all)).map fun g => (g.2.map AccountPayment.value).sum := by
    simp only [groupAllPaymentsByAddress, List.map_map, ← hall]
    refine List.map_congr_left fun g _ => ?_
    simp only [Function.comp_apply, mergedPayment]
    rw [foldl_add_sum (fun x => x), zero_add, List.map_id']
  rw [hvalues, ((order.perm _).map _).sum_eq, groupBy_sum, hall, List.map_append, List.sum_append, List.map_map]
  rfl

theorem groupAllPaymentsByAddress_addresses_nodup :
    ((groupAllPaymentsByAddress order fs ds).map AccountPayment.address).Nodup := by
  set all := fs ++ ds.map DelegatorFeePayment.feePayment with hall
  have haddr : (groupAllPaymentsByAddress order fs ds).map AccountPayment.address =
      (order.iterate (groupBy AccountPayment.address all)).map Prod.fst := by
    simp only [groupAllPaymentsByAddress, List.map_map, ← hall]
    rfl
  rw [haddr, ((order.perm _).map _).nodup_iff]
  exact groupBy_keys_nodup _ _

theorem mergedPayment_sound (address : Address) (ps : List AccountPayment)
    (hps : ∀ p ∈ ps, SoundPayment p) : SoundPayment (mergedPayment address ps) := by
  have hsums : 0 ≤ ((ps.map AccountPayment.valueFromMainchain).map fun o => o.getD 0).sum ∧
      0 ≤ ((ps.map AccountPayment.valueFromFees).map fun o => o.getD 0).sum ∧
      ((ps.map AccountPayment.valueFromMainchain).map fun o => o.getD 0).sum +
        ((ps.map AccountPayment.valueFromFees).map fun o => o.getD 0).sum = (ps.map AccountPayment.value).sum := by
    induction ps with
    | nil => simp
    | cons p ps ih =>
      have ih' := ih fun q hq => hps q (List.mem_cons_of_mem _ hq)
      obtain ⟨mc, fees, hmc, hfees, hmc0, hfees0, hsum⟩ := hps p List.mem_cons_self
      simp only [List.map_cons, List.sum_cons, hmc, hfees, Option.getD_some]
      omega
  refine ⟨_, _, rfl, rfl, ?_, ?_, ?_⟩
  · rw [foldl_add_sum (fun o : Option ℤ => o.getD 0), zero_add]; exact hsums.1
  · rw [foldl_add_sum (fun o : Option ℤ => o.getD 0), zero_add]; exact hsums.2.1
  · simp only [mergedPayment]
    rw [foldl_add_sum (fun o : Option ℤ => o.getD 0), foldl_add_sum (fun o : Option ℤ => o.getD 0),
      foldl_add_sum (fun x => x), zero_add, zero_add, zero_add, List.map_id']
    exact hsums.2.2

theorem groupAllPaymentsByAddress_sound (hfs : ∀ p ∈ fs, SoundPayment p)
    (hds : ∀ d ∈ ds, SoundPayment d.feePayment) (p : AccountPayment)
    (hp : p ∈ groupAllPaymentsByAddress order fs ds) : SoundPayment p := by
  obtain ⟨g, hg, rfl⟩ := List.mem_map.1 hp
  obtain ⟨hgroup, -⟩ := mem_groupBy _ _ g ((order.perm _).mem_iff.1 hg)
  refine mergedPayment_sound _ _ fun q hq => ?_
  rw [hgroup] at hq
  rcases List.mem_append.1 (List.mem_of_mem_filter hq) with hq | hq
  · exact hfs q hq
  · obtain ⟨d, hd, rfl⟩ := List.mem_map.1 hq
    exact hds d hd

end Group

/-! ## The three steps together -/

/-- the payments of a distribution: forger payments, delegator payments, and both merged per address -/
def distribution (order : HashOrder (Address × List AccountPayment))
    (getForgerInfo : ForgerPublicKeys → Option ForgerInfo) (infos : List AccountBlockFeeInfo)
    (rewards : PoolRewards) : List AccountPayment × List DelegatorFeePayment × List AccountPayment :=
  let shares := getForgersAndDelegatorsShares getForgerInfo (getForgersRewards infos rewards)
  (shares.1, shares.2, groupAllPaymentsByAddress order shares.1 shares.2)

/-- **Conservation.** The grouped payments are worth exactly the base fees, tips and pool rewards of the epoch; every
payment of every step is non-negative with a mainchain and a fee part that add up to it, and no address is paid
twice. -/
theorem feePayments_conserved (order : HashOrder (Address × List AccountPayment))
    (getForgerInfo : ForgerPublicKeys → Option ForgerInfo) (infos : List AccountBlockFeeInfo) (rewards : PoolRewards)
    (hne : infos ≠ []) (hfees : ∀ i ∈ infos, 0 ≤ i.baseFee ∧ 0 ≤ i.forgerTips)
    (hpool : ∀ e ∈ rewards.entries, 0 ≤ e.2)
    (hshare : ∀ keys info, getForgerInfo keys = some info → info.rewardShare ≤ MAX_REWARD_SHARE) :
    let (forgerPayments, delegatorPayments, allPayments) := distribution order getForgerInfo infos rewards
    (allPayments.map AccountPayment.value).sum =
        (infos.map fun i => i.baseFee + i.forgerTips).sum + (rewards.entries.map fun e => e.2).sum ∧
      (∀ p ∈ forgerPayments ++ delegatorPayments.map DelegatorFeePayment.feePayment ++ allPayments,
        0 ≤ p.value ∧ ∃ mc fees, p.valueFromMainchain = some mc ∧ p.valueFromFees = some fees ∧
          0 ≤ mc ∧ 0 ≤ fees ∧ mc + fees = p.value) ∧
      (allPayments.map AccountPayment.address).Nodup := by
  have hrewards := getForgersRewards_sound infos rewards hne hfees hpool
  have hshares := shares_sound getForgerInfo hshare _ hrewards
  simp only [distribution]
  refine ⟨?_, fun p hp => ?_, groupAllPaymentsByAddress_addresses_nodup order _ _⟩
  · rw [groupAllPaymentsByAddress_value_sum, shares_value_sum getForgerInfo hshare _ hrewards,
      getForgersRewards_value_sum infos rewards hne hfees]
  · have hp' : SoundPayment p := by
      rcases List.mem_append.1 hp with hp | hp
      · rcases List.mem_append.1 hp with hp | hp
        · exact hshares.1 p hp
        · obtain ⟨d, hd, rfl⟩ := List.mem_map.1 hp
          exact hshares.2 d hd
      · exact groupAllPaymentsByAddress_sound order _ _ hshares.1 hshares.2 p hp
    exact ⟨hp'.nonneg, hp'⟩

/-- two blocks with an odd base fee, the second by a forger that shares 30 percent, and a pool reward of 15 for it -/
theorem feePayments_conserved_two_blocks :
    ((distribution (HashOrder.insertion _) (fun keys => some ⟨keys, 300, 7⟩)
      [⟨11, 3, 1, none⟩, ⟨10, 2, 2, some ⟨5, ⟨6, 0⟩⟩⟩]
      (AList.insert ⟨2, some ⟨5, ⟨6, 0⟩⟩⟩ 15 ∅)).2.2.map AccountPayment.value).sum = 41 :=
  (feePayments_conserved _ _ _ _ (by simp) (by simp) (by decide)
    (by rintro keys info h; obtain rfl := Option.some.inj h; simp [MAX_REWARD_SHARE])).1.trans (by decide)

end SidechainsSdk.Account.FeePayments
