/-
The fee payments of a withdrawal epoch, as they are applied and as they are reported (`AccountStateView.getFeePaymentsInfo`,
`AccountState.getFeePaymentsInfo`).

The last block of an epoch computes them on its view, from the recorded fees, its own fees and the live counters and balance
of the forger pool, and pays them. Once the block is committed the node view holder asks the state for the same payments,
for the history: the counters have been reset and the pool has been paid out by then, so the rewards of the pool are read back
from where the block has stored them.

- `getForgersRewards_perm`, `shares_perm`, `groupAllPaymentsByAddress_perm`: the order of the pool rewards, which the storage
  does not keep, only changes the order of the payments.
- `commit_getFeePayments`: the fees that are recorded once the block is committed, those of the block included.
- `evalForgersReward_ends`: what the last block of an epoch pays, and what it leaves for the commit.
- `reported_payments_applied`: in every run, what is reported of the last block of an epoch is what it has paid.
-/
import Mathlib.Tactic
import SidechainsSdk.Account.PoolRewards

namespace SidechainsSdk.Account.ForgerPool

open FeePayments MetadataStorage StateView RemainderShares

/-! ## The order of the rewards -/

section Order

variable {rewards rewards' : PoolRewards}

theorem getForgersRewards_perm (infos : List AccountBlockFeeInfo) (h : rewards'.entries.Perm rewards.entries) :
    (getForgersRewards infos rewards').Perm (getForgersRewards infos rewards) := by
  unfold getForgersRewards
  split_ifs
  · exact h.map _
  · have hlookup : ∀ k, rewards'.lookup k = rewards.lookup k := fun k => AList.perm_lookup h
    simp only [hlookup]
    refine List.Perm.map _ (Grouping.distinct_perm fun k => ?_)
    have hkeys : k ∈ rewards'.keys ↔ k ∈ rewards.keys := (h.map Sigma.fst).mem_iff
    rw [List.mem_append, List.mem_append, hkeys]

theorem shares_perm (getForgerInfo : ForgerPublicKeys → Option ForgerInfo) {payments payments' : List ForgerPayment}
    (h : payments'.Perm payments) :
    (getForgersAndDelegatorsShares getForgerInfo payments').1.Perm (getForgersAndDelegatorsShares getForgerInfo payments).1 ∧
      (getForgersAndDelegatorsShares getForgerInfo payments').2.Perm
        (getForgersAndDelegatorsShares getForgerInfo payments).2 := by
  have hall := h.map (sharesOf getForgerInfo)
  exact ⟨(hall.filter _).map _, hall.filterMap _⟩

theorem mergedPayment_perm (address : Address) {payments payments' : List AccountPayment} (h : payments'.Perm payments) :
    mergedPayment address payments' = mergedPayment address payments := by
  unfold mergedPayment
  congr 1
  · rw [Grouping.foldl_add_sum fun x => x, Grouping.foldl_add_sum fun x => x, ((h.map _).map _).sum_eq]
  · rw [Grouping.foldl_add_sum fun o : Option ℤ => o.getD 0, Grouping.foldl_add_sum fun o : Option ℤ => o.getD 0,
      ((h.map _).map _).sum_eq]
  · rw [Grouping.foldl_add_sum fun o : Option ℤ => o.getD 0, Grouping.foldl_add_sum fun o : Option ℤ => o.getD 0,
      ((h.map _).map _).sum_eq]

theorem groupAllPaymentsByAddress_perm (order order' : HashOrder (Address × List AccountPayment))
    {payments payments' : List AccountPayment} {delegators delegators' : List DelegatorFeePayment}
    (h : payments'.Perm payments) (hdelegators : delegators'.Perm delegators) :
    (groupAllPaymentsByAddress order' payments' delegators').Perm (groupAllPaymentsByAddress order payments delegators) := by
  have hgroups := Grouping.groupBy_map_perm AccountPayment.address mergedPayment
    (fun address _ _ hperm => mergedPayment_perm address hperm) (h.append (hdelegators.map DelegatorFeePayment.feePayment))
  exact (((order'.perm _).map _).trans hgroups).trans ((order.perm _).map _).symm

end Order

/-! ## The records of a commit -/

section Records

variable {s s' : Storage} {view : View} {version : Hash} {root : Octets} {g : Bool} {info : WithdrawalEpochInfo}
  {feeInfo : AccountBlockFeeInfo}

/-- the fees of the epoch before are cleaned up, no others -/
theorem removeList_epoch (hinfo : view.withdrawalEpochInfoOpt = some info) {key : Key} (h : key ∈ removeList s view) :
    (∃ e, key = .topQualityCertificate e) ∨ (∃ c, key = .blockFeeInfo (info.epoch - 1) c) ∨
      key = .blockFeeInfoCounter (info.epoch - 1) := by
  unfold removeList at h
  rw [hinfo] at h
  cases hstored : getWithdrawalEpochInfoFromStorage s with
  | none =>
    rw [hstored] at h
    cases h
  | some stored =>
    rw [hstored] at h
    dsimp only at h
    split_ifs at h with hswitch hcert
    · simp only [List.mem_append, List.mem_singleton, List.mem_map] at h
      rcases h with (rfl | ⟨c, -, rfl⟩) | rfl
      · exact .inl ⟨_, rfl⟩
      · exact .inr (.inl ⟨c, rfl⟩)
      · exact .inr (.inr rfl)
    · simp only [List.nil_append, List.mem_append, List.mem_singleton, List.mem_map] at h
      rcases h with ⟨c, -, rfl⟩ | rfl
      · exact .inr (.inl ⟨c, rfl⟩)
      · exact .inr (.inr rfl)
    · cases h

theorem blockFeeInfo_not_removed (hinfo : view.withdrawalEpochInfoOpt = some info) (c : ℤ) :
    Key.blockFeeInfo info.epoch c ∉ removeList s view := by
  intro h
  rcases removeList_epoch hinfo h with ⟨e, he⟩ | ⟨c', hc⟩ | he
  · cases he
  · injection hc with hepoch
    omega
  · cases he

theorem blockFeeInfoCounter_not_removed (hinfo : view.withdrawalEpochInfoOpt = some info) :
    Key.blockFeeInfoCounter info.epoch ∉ removeList s view := by
  intro h
  rcases removeList_epoch hinfo h with ⟨e, he⟩ | ⟨c', hc⟩ | he
  · cases he
  · cases hc
  · injection he with hepoch
    omega

section Saved

variable (h : saveToStorage s view version g = .ok s') (hroot : view.accountStateRootOpt = some root)
  (hinfo : view.withdrawalEpochInfoOpt = some info) (hfee : view.blockFeeInfoOpt = some feeInfo)
  (hkeys : ∀ p ∈ view.delegatorPaymentsSeq, p.1.place = 14)

include h hroot hinfo hfee hkeys

omit hkeys in
/-- the counter goes up by one, and the fees of the block are the record it points to -/
theorem saved_record : getBlockFeeInfoCounter s' info.epoch = getBlockFeeInfoCounter s info.epoch + 1 ∧
    getBlockFeeInfo s' info.epoch (getBlockFeeInfoCounter s info.epoch + 1) = .ok feeInfo := by
  have hepoch : (getWithdrawalEpochInfo s view).epoch = info.epoch := by simp [getWithdrawalEpochInfo, hinfo]
  have hcounter := saveToStorage_written (k := .blockFeeInfoCounter info.epoch)
    (x := .int (getBlockFeeInfoCounter s info.epoch + 1)) h hroot (by simp [updateList, hfee, hepoch])
    (blockFeeInfoCounter_not_removed hinfo)
  have hrecord := saveToStorage_written (k := .blockFeeInfo info.epoch (getBlockFeeInfoCounter s info.epoch + 1))
    (x := .blockFeeInfo feeInfo) h hroot (by simp [updateList, hfee, hepoch]) (blockFeeInfo_not_removed hinfo _)
  exact ⟨by rw [getBlockFeeInfoCounter, hcounter], by rw [getBlockFeeInfo, hrecord]⟩

theorem saved_older {c : ℤ} (hc : c ≤ getBlockFeeInfoCounter s info.epoch) :
    getBlockFeeInfo s' info.epoch c = getBlockFeeInfo s info.epoch c := by
  have hepoch : (getWithdrawalEpochInfo s view).epoch = info.epoch := by simp [getWithdrawalEpochInfo, hinfo]
  have hne : c ≠ getBlockFeeInfoCounter s info.epoch + 1 := by omega
  have hsame := saveToStorage_unchanged (k := .blockFeeInfo info.epoch c) h hroot
    (by simp [updateList, hfee, hepoch, hne]) (fun p hp heq => by simpa [heq, Key.place] using hkeys p hp)
    (blockFeeInfo_not_removed hinfo c)
  rw [getBlockFeeInfo, getBlockFeeInfo, hsame]

/-- no counter falls below the one of an epoch without records -/
theorem saved_counter (hcounters : ∀ e, -1 ≤ getBlockFeeInfoCounter s e) (e : ℤ) : -1 ≤ getBlockFeeInfoCounter s' e := by
  have hepoch : (getWithdrawalEpochInfo s view).epoch = info.epoch := by simp [getWithdrawalEpochInfo, hinfo]
  by_cases he : e = info.epoch
  · rw [he, (saved_record h hroot hinfo hfee).1]
    have := hcounters info.epoch
    omega
  · by_cases hremoved : Key.blockFeeInfoCounter e ∈ removeList s view
    · rw [getBlockFeeInfoCounter, saveToStorage_removed h hroot hremoved]
    · have hsame := saveToStorage_unchanged (k := .blockFeeInfoCounter e) h hroot
        (by simp [updateList, hfee, hepoch, he]) (fun p hp heq => by simpa [heq, Key.place] using hkeys p hp) hremoved
      rw [getBlockFeeInfoCounter, hsame]
      exact hcounters e

/-- what is recorded of the epoch is what the view has shown -/
theorem saved_getFeePayments (hcounter : -1 ≤ getBlockFeeInfoCounter s info.epoch) :
    getFeePayments s' {} info.epoch = getFeePayments s view info.epoch := by
  have hepoch : (getWithdrawalEpochInfo s view).epoch = info.epoch := by simp [getWithdrawalEpochInfo, hinfo]
  obtain ⟨hnext, hrecord⟩ := saved_record h hroot hinfo hfee
  have hrange : rangeTo (getBlockFeeInfoCounter s info.epoch + 1) =
      rangeTo (getBlockFeeInfoCounter s info.epoch) ++ [getBlockFeeInfoCounter s info.epoch + 1] := by
    have hlength : (getBlockFeeInfoCounter s info.epoch + 1 + 1).toNat =
        (getBlockFeeInfoCounter s info.epoch + 1).toNat + 1 := by omega
    rw [rangeTo, rangeTo, hlength, List.range_succ, List.map_append, List.map_singleton]
    congr 2
    omega
  have holder : (rangeTo (getBlockFeeInfoCounter s info.epoch)).mapM (getBlockFeeInfo s' info.epoch) =
      (rangeTo (getBlockFeeInfoCounter s info.epoch)).mapM (getBlockFeeInfo s info.epoch) := by
    refine Fallible.mapM_congr fun c hc => saved_older h hroot hinfo hfee hkeys ?_
    obtain ⟨i, hi, rfl⟩ := List.mem_map.1 hc
    have := List.mem_range.1 hi
    omega
  have hlast : [getBlockFeeInfoCounter s info.epoch + 1].mapM (getBlockFeeInfo s' info.epoch) = .ok [feeInfo] := by
    refine Fallible.mapM_ok (g := fun _ => feeInfo) fun c hc => ?_
    rw [List.mem_singleton.1 hc, hrecord]
  have hnone : ({} : View).blockFeeInfoOpt.toList = [] := rfl
  simp only [getFeePayments, hnext, hrange, List.mapM_append, holder, hlast, hepoch, if_true, hfee, hnone, List.append_nil,
    ite_self]
  cases (rangeTo (getBlockFeeInfoCounter s info.epoch)).mapM (getBlockFeeInfo s info.epoch) with
  | error e => rfl
  | ok older => rfl

end Saved

end Records

/-! ## The committed state -/

/-- a map read back from the storage, where its entries stand in the order in which it has been iterated -/
def parsed (order : HashOrder (ForgerIdentifier × ℤ)) (rewards : PoolRewards) : PoolRewards :=
  toMap (order.iterate (itemsOf rewards))

theorem parsed_perm (order : HashOrder (ForgerIdentifier × ℤ)) (rewards : PoolRewards) :
    (parsed order rewards).entries.Perm rewards.entries := by
  have hperm := order.perm (itemsOf rewards)
  have hitems : itemsOf (parsed order rewards) = order.iterate (itemsOf rewards) :=
    itemsOf_toMap ((hperm.map Prod.fst).nodup_iff.2 (itemsOf_nodup _))
  have hback : ∀ m : PoolRewards, m.entries = (itemsOf m).map fun x => ⟨x.1, x.2⟩ := by
    intro m
    simp [itemsOf, Function.comp_def]
  rw [hback, hback rewards, hitems]
  exact hperm.map _

/-- `AccountStateMetadataStorageView.getMcForgerPoolRewards`, with nothing in the view -/
def getMcForgerPoolRewardsFromStorage (order : HashOrder (ForgerIdentifier × ℤ)) (s : Storage) : PoolRewards :=
  match s.data .mcForgerPoolRewards with
  | some (.poolRewards rewards) => parsed order rewards
  | _ => ∅

namespace AccountState

variable {TX : Type} (env : Env TX)

/-- the cap and the block to append, which are arguments of the view's method as well, are not looked at -/
def getFeePaymentsInfo (rewardsOrder : HashOrder (ForgerIdentifier × ℤ))
    (paymentsOrder : HashOrder (Address × List AccountPayment)) (s : State) (withdrawalEpoch consensusEpochNumber : ℤ) :
    Except Exc (List AccountPayment × ℤ) := do
  let feePaymentInfoSeq ← getFeePayments s.metadata {} withdrawalEpoch
  let mcForgerPoolRewards := getMcForgerPoolRewardsFromStorage rewardsOrder s.metadata
  let poolBalanceDistributed := (mcForgerPoolRewards.entries.map Sigma.snd).foldl (fun a b => a + b) 0
  let forgerRewards := getForgersRewards feePaymentInfoSeq mcForgerPoolRewards
  if env.isForkV1_4Active consensusEpochNumber then
    let shares := getForgersAndDelegatorsShares s.getForgerInfo forgerRewards
    return (groupAllPaymentsByAddress paymentsOrder shares.1 shares.2, poolBalanceDistributed)
  else
    return (forgerRewards.map fun fp => ⟨fp.identifier.address, fp.value, none, none⟩, poolBalanceDistributed)

end AccountState

/-- the payments of recorded fees and pool rewards -/
def paymentsOf {TX : Type} (env : Env TX) (paymentsOrder : HashOrder (Address × List AccountPayment))
    (getForgerInfo : ForgerPublicKeys → Option ForgerInfo) (consensusEpochNumber : ℤ) (infos : List AccountBlockFeeInfo)
    (rewards : PoolRewards) : List AccountPayment :=
  if env.isForkV1_4Active consensusEpochNumber then
    let shares := getForgersAndDelegatorsShares getForgerInfo (getForgersRewards infos rewards)
    groupAllPaymentsByAddress paymentsOrder shares.1 shares.2
  else (getForgersRewards infos rewards).map fun fp => ⟨fp.identifier.address, fp.value, none, none⟩

def total (rewards : PoolRewards) : ℤ := (rewards.entries.map Sigma.snd).foldl (fun a b => a + b) 0

section Payments

variable {TX : Type} {env : Env TX} {getForgerInfo : ForgerPublicKeys → Option ForgerInfo} {consensusEpoch : ℤ}

theorem paymentsOf_perm (order order' : HashOrder (Address × List AccountPayment)) (infos : List AccountBlockFeeInfo)
    {rewards rewards' : PoolRewards} (h : rewards'.entries.Perm rewards.entries) :
    (paymentsOf env order' getForgerInfo consensusEpoch infos rewards').Perm
      (paymentsOf env order getForgerInfo consensusEpoch infos rewards) := by
  have hforgers := getForgersRewards_perm infos h
  unfold paymentsOf
  split_ifs
  · obtain ⟨hpayments, hdelegators⟩ := shares_perm getForgerInfo hforgers
    exact groupAllPaymentsByAddress_perm order order' hpayments hdelegators
  · exact hforgers.map _

theorem total_perm {rewards rewards' : PoolRewards} (h : rewards'.entries.Perm rewards.entries) :
    total rewards' = total rewards := by
  rw [total, total, Grouping.foldl_add_sum fun x => x, Grouping.foldl_add_sum fun x => x, ((h.map _).map _).sum_eq]

/-- what the view computes, and what it keeps of it -/
theorem view_payments {v v' : StateView} {withdrawalEpoch cap distributed : ℤ} {payments : List AccountPayment}
    (h : getFeePaymentsInfo env v getForgerInfo withdrawalEpoch consensusEpoch cap none = .ok (payments, distributed, v')) :
    ∃ recorded rewards, getFeePayments v.metadata v.view withdrawalEpoch = .ok recorded ∧
      getMcForgerPoolRewards env v consensusEpoch cap = .ok rewards ∧
      payments = paymentsOf env env.paymentsOrder getForgerInfo consensusEpoch recorded rewards ∧
      distributed = total rewards ∧ v'.view.mcForgerPoolRewardsOpt = some rewards ∧
      v'.view.withdrawalEpochInfoOpt = v.view.withdrawalEpochInfoOpt ∧ v'.view.blockFeeInfoOpt = v.view.blockFeeInfoOpt := by
  unfold getFeePaymentsInfo at h
  obtain ⟨recorded, hrecorded, h⟩ := Fallible.bind_ok h
  obtain ⟨rewards, hrewards, h⟩ := Fallible.bind_ok h
  refine ⟨recorded, rewards, hrecorded, hrewards, ?_⟩
  simp only [Option.toList_none, List.append_nil] at h
  unfold paymentsOf
  split_ifs at h ⊢
  · injection h with h
    injection h with hpayments h
    injection h with hdistributed hv
    subst hpayments hdistributed hv
    exact ⟨rfl, rfl, rfl, rfl, rfl⟩
  · injection h with h
    injection h with hpayments h
    injection h with hdistributed hv
    subst hpayments hdistributed hv
    exact ⟨rfl, rfl, rfl, rfl, rfl⟩

/-- what the state computes -/
theorem state_payments {rewardsOrder : HashOrder (ForgerIdentifier × ℤ)}
    {paymentsOrder : HashOrder (Address × List AccountPayment)} {s : State} {withdrawalEpoch : ℤ}
    {recorded : List AccountBlockFeeInfo} (h : getFeePayments s.metadata {} withdrawalEpoch = .ok recorded) :
    AccountState.getFeePaymentsInfo env rewardsOrder paymentsOrder s withdrawalEpoch consensusEpoch =
      .ok (paymentsOf env paymentsOrder s.getForgerInfo consensusEpoch recorded
          (getMcForgerPoolRewardsFromStorage rewardsOrder s.metadata),
        total (getMcForgerPoolRewardsFromStorage rewardsOrder s.metadata)) := by
  unfold AccountState.getFeePaymentsInfo paymentsOf
  rw [h]
  show (if _ then _ else _) = _
  split_ifs <;> rfl

end Payments

/-! ## The last block of an epoch -/

/-- what an address is paid -/
def paidTo (payments : List AccountPayment) (address : Address) : ℤ :=
  ((payments.filter fun payment => payment.address = address).map AccountPayment.value).sum

theorem addBalance_ok {balances balances' : Balances} {payee : Address} {amount : ℤ}
    (h : addBalance balances payee amount = .ok balances') (address : Address) :
    balances' address = balances address + if payee = address then amount else 0 := by
  unfold addBalance at h
  split_ifs at h with hzero hneg
  · injection h with h
    rw [← h, Int.sign_eq_zero_iff_zero.1 hzero, ite_self, add_zero]
  · injection h with h
    rw [← h]
    by_cases hpayee : payee = address
    · rw [if_pos hpayee, hpayee, Function.update_self]
    · rw [if_neg hpayee, add_zero, Function.update_of_ne (Ne.symm hpayee)]

theorem payments_balances {payments : List AccountPayment} {balances balances' : Balances}
    (h : payments.foldlM (fun balances payment => addBalance balances payment.address payment.value) balances = .ok balances')
    (address : Address) : balances' address = balances address + paidTo payments address := by
  induction payments generalizing balances with
  | nil =>
    injection h with h
    rw [← h]
    exact (add_zero _).symm
  | cons payment payments ih =>
    rw [List.foldlM_cons] at h
    obtain ⟨balances₁, hfirst, h⟩ := Fallible.bind_ok h
    rw [ih h, addBalance_ok hfirst, add_assoc]
    congr 1
    by_cases hpayee : payment.address = address
    · simp [paidTo, hpayee]
    · simp [paidTo, hpayee]

section Ends

variable {TX : Type} {env : Env TX}

/-- nothing is distributed of a pool without a balance -/
theorem total_eq_zero {v : StateView} {consensusEpoch cap : ℤ} {rewards : PoolRewards}
    (h : getMcForgerPoolRewards env v consensusEpoch cap = .ok rewards)
    (hnone : ¬ (env.isForkV1_2Active consensusEpoch = true ∧ (v.balances FORGER_POOL_RECIPIENT_ADDRESS).sign = 1)) :
    total rewards = 0 := by
  unfold getMcForgerPoolRewards at h
  by_cases hfork : env.isForkV1_2Active consensusEpoch = true
  · rw [if_pos hfork] at h
    have hempty := Except.ok.inj ((if_neg fun hsign => hnone ⟨hfork, hsign⟩).symm.trans h)
    rw [← hempty]
    rfl
  · rw [if_neg hfork] at h
    rw [← Except.ok.inj h]
    rfl

/-- the pool pays what is distributed; of the view only the counters are touched -/
theorem subtract_balances {v v' : StateView} {consensusEpoch distributed : ℤ}
    (h : subtractForgerPoolBalanceAndResetBlockCounters env v consensusEpoch distributed = .ok v')
    (hnone : ¬ (env.isForkV1_2Active consensusEpoch = true ∧ (v.balances FORGER_POOL_RECIPIENT_ADDRESS).sign = 1) →
      distributed = 0) :
    (∀ address, v'.balances address =
      v.balances address - if FORGER_POOL_RECIPIENT_ADDRESS = address then distributed else 0) ∧
    v'.metadata = v.metadata ∧ v'.view = { v.view with forgerBlockCountersOpt := v'.view.forgerBlockCountersOpt } := by
  unfold subtractForgerPoolBalanceAndResetBlockCounters at h
  split_ifs at h with hfork
  · simp only [Fallible.failIf_bind_ok] at h
    split_ifs at h with hsign
    · obtain ⟨balances, hsub, h⟩ := Fallible.bind_ok h.2
      obtain rfl := Except.ok.inj h
      refine ⟨fun address => ?_, rfl, rfl⟩
      show balances address = _
      unfold subBalance at hsub
      split_ifs at hsub with hzero hneg
      · injection hsub with hsub
        rw [← hsub, Int.sign_eq_zero_iff_zero.1 hzero, ite_self, sub_zero]
      · injection hsub with hsub
        rw [← hsub]
        by_cases hpool : FORGER_POOL_RECIPIENT_ADDRESS = address
        · rw [if_pos hpool, ← hpool, Function.update_self]
        · rw [if_neg hpool, sub_zero, Function.update_of_ne (Ne.symm hpool)]
    · obtain rfl := Except.ok.inj h.2
      rw [hnone fun hboth => hsign hboth.2]
      exact ⟨fun address => by rw [ite_self, sub_zero], rfl, rfl⟩
  · obtain rfl := Except.ok.inj h
    rw [hnone fun hboth => hfork hboth.1]
    exact ⟨fun address => by rw [ite_self, sub_zero], rfl, rfl⟩

/-- what the last block of an epoch pays, and what it leaves for the commit -/
theorem evalForgersReward_ends {b : AccountBlock TX} {info : Withdrawals.WithdrawalEpochInfo} {outcome : Outcome}
    {v v' : StateView} (h : evalForgersReward env b info outcome v = .ok v')
    (hends : Withdrawals.WithdrawalEpochUtils.isEpochLastIndex info env.withdrawalEpochLength = true) :
    ∃ recorded rewards v₁,
      getFeePaymentsInfo env v outcome.getForgerInfo info.epoch b.consensusEpochNumber
        (distributionCap env b.consensusEpochNumber info.epoch) none =
        .ok (paymentsOf env env.paymentsOrder outcome.getForgerInfo b.consensusEpochNumber recorded rewards, total rewards,
          v₁) ∧
      getFeePayments v.metadata v.view info.epoch = .ok recorded ∧
      (∀ address, v'.balances address = v.balances address +
        paidTo (paymentsOf env env.paymentsOrder outcome.getForgerInfo b.consensusEpochNumber recorded rewards) address -
        if FORGER_POOL_RECIPIENT_ADDRESS = address then total rewards else 0) ∧
      v'.view.mcForgerPoolRewardsOpt = some rewards ∧ v'.view.withdrawalEpochInfoOpt = v.view.withdrawalEpochInfoOpt ∧
      v'.view.blockFeeInfoOpt = v.view.blockFeeInfoOpt := by
  unfold evalForgersReward at h
  rw [if_pos hends] at h
  obtain ⟨⟨payments, distributed, v₁⟩, hinfo, h⟩ := Fallible.bind_ok h
  simp only [Fallible.failIf_bind_ok] at h
  obtain ⟨v₂, hreset, h⟩ := Fallible.bind_ok h.2
  obtain ⟨balances, hpaid, h⟩ := Fallible.bind_ok h
  obtain rfl := Except.ok.inj h
  obtain ⟨hmetadata₁, hbalances₁, -, -⟩ := getFeePaymentsInfo_ok hinfo
  obtain ⟨recorded, rewards, hrecorded, hrewards, rfl, rfl, hpool, hepoch, hfee⟩ := view_payments hinfo
  obtain ⟨hbalances₂, -, hview₂⟩ := subtract_balances hreset fun hnone => total_eq_zero hrewards (hbalances₁ ▸ hnone)
  refine ⟨recorded, rewards, v₁, hinfo, hrecorded, fun address => ?_, ?_, ?_, ?_⟩
  · show balances address = _
    rw [payments_balances hpaid, hbalances₂, hbalances₁, sub_add_eq_add_sub]
  · rw [show ({ v₂ with balances := balances } : StateView).view = v₂.view from rfl, hview₂]
    exact hpool
  · rw [show ({ v₂ with balances := balances } : StateView).view = v₂.view from rfl, hview₂]
    exact hepoch
  · rw [show ({ v₂ with balances := balances } : StateView).view = v₂.view from rfl, hview₂]
    exact hfee

end Ends

/-! ## Committed blocks -/

section Committed

variable {TX : Type} {env : Env TX} {s s' : State} {b : AccountBlock TX} {info : Withdrawals.WithdrawalEpochInfo}
  {outcome : Outcome} {v v' : StateView}

theorem updateForgerBlockCounter_keeps (env : Env TX) (v : StateView) (forger : ForgerIdentifier) (consensusEpoch : ℤ) :
    (updateForgerBlockCounter env v forger consensusEpoch).view.withdrawalEpochInfoOpt = v.view.withdrawalEpochInfoOpt ∧
      (updateForgerBlockCounter env v forger consensusEpoch).view.blockFeeInfoOpt = v.view.blockFeeInfoOpt := by
  unfold updateForgerBlockCounter
  split_ifs
  · exact ⟨rfl, rfl⟩
  · exact ⟨rfl, rfl⟩

theorem beforeRewards_fees (h : beforeRewards env s b = .ok (info, outcome, v)) :
    v.view.withdrawalEpochInfoOpt = some ⟨info.epoch, info.lastEpochIndex⟩ ∧
      ∃ feeInfo, v.view.blockFeeInfoOpt = some feeInfo := by
  unfold beforeRewards at h
  simp only [Fallible.failIf_bind_ok] at h
  obtain ⟨info', -, h⟩ := Fallible.bind_ok h.2
  obtain ⟨outcome', -, h⟩ := Fallible.bind_ok h
  injection h with h
  injection h with hi h
  injection h with ho hv
  subst hi ho hv
  obtain ⟨hepoch, hfee⟩ := updateForgerBlockCounter_keeps env _ (forgerIdentifier env b) b.consensusEpochNumber
  exact ⟨hepoch, _, hfee⟩

/-- the rewards keep the epoch and the fees of the block -/
theorem evalForgersReward_keeps (h : evalForgersReward env b info outcome v = .ok v') :
    v'.view.withdrawalEpochInfoOpt = v.view.withdrawalEpochInfoOpt ∧ v'.view.blockFeeInfoOpt = v.view.blockFeeInfoOpt := by
  by_cases hends : Withdrawals.WithdrawalEpochUtils.isEpochLastIndex info env.withdrawalEpochLength = true
  · obtain ⟨_, _, _, -, -, -, -, hepoch, hfee⟩ := evalForgersReward_ends h hends
    exact ⟨hepoch, hfee⟩
  · unfold evalForgersReward at h
    rw [if_neg hends] at h
    simp only [Fallible.failIf_bind_ok] at h
    obtain rfl := Except.ok.inj h.2
    exact ⟨rfl, rfl⟩

/-- the view that is saved, and what else the state is made of -/
theorem commit_saved (h : commit env b outcome v = .ok s') : ∃ view root,
    saveToStorage v.metadata view b.id false = .ok s'.metadata ∧ view.accountStateRootOpt = some root ∧
      view.withdrawalEpochInfoOpt = v.view.withdrawalEpochInfoOpt ∧ view.blockFeeInfoOpt = v.view.blockFeeInfoOpt ∧
      view.mcForgerPoolRewardsOpt = v.view.mcForgerPoolRewardsOpt ∧
      view.delegatorPaymentsSeq = v.view.delegatorPaymentsSeq ∧ s'.balances = v.balances ∧
      s'.getForgerInfo = outcome.getForgerInfo := by
  unfold commit at h
  obtain ⟨⟨⟩, -, h⟩ := Fallible.bind_ok h
  obtain ⟨metadata, hsave, h⟩ := Fallible.bind_ok h
  obtain rfl := Except.ok.inj h
  exact ⟨_, _, hsave, rfl, rfl, rfl, rfl, rfl, rfl, rfl⟩

/-- an epoch without records has the counter -1, and no epoch a lower one -/
def CountersFrom (s : Storage) : Prop := ∀ e, -1 ≤ getBlockFeeInfoCounter s e

theorem applyModifier_countersFrom (h : applyModifier env s b = .ok s') (hcounters : CountersFrom s.metadata) :
    CountersFrom s'.metadata := by
  unfold applyModifier at h
  obtain ⟨⟨info, outcome, v⟩, hbefore, h⟩ := Fallible.bind_ok h
  obtain ⟨v', heval, hcommit⟩ := Fallible.bind_ok h
  obtain ⟨hmetadata, hnone, -⟩ := beforeRewards_view hbefore
  obtain ⟨hmetadata', hkeys, -⟩ := evalForgersReward_view heval hnone
  obtain ⟨hepoch, feeInfo, hfee⟩ := beforeRewards_fees hbefore
  obtain ⟨hepoch', hfee'⟩ := evalForgersReward_keeps heval
  obtain ⟨view, root, hsave, hroot, hviewEpoch, hviewFee, -, hviewKeys, -⟩ := commit_saved hcommit
  rw [hmetadata', hmetadata] at hsave
  exact saved_counter hsave hroot (hviewEpoch.trans (hepoch'.trans hepoch)) (hviewFee.trans (hfee'.trans hfee))
    (hviewKeys ▸ hkeys) hcounters

theorem run_countersFrom (balances : Balances) (blocks : List (AccountBlock TX)) {past : List Applied}
    (h : run env balances blocks = .ok (past, s)) : CountersFrom s.metadata := by
  induction blocks generalizing past s with
  | nil =>
    injection h with h
    injection h with _ hs
    subst hs
    exact fun _ => le_rfl
  | cons b older ih =>
    obtain ⟨past', s₁, a, s₂, hpast, hblock, hr⟩ := run_cons_ok h
    injection hr with _ hs
    subst hs
    unfold processBlock at hblock
    obtain ⟨⟨⟩, -, hblock⟩ := Fallible.bind_ok hblock
    obtain ⟨_, -, hblock⟩ := Fallible.bind_ok hblock
    obtain ⟨s₃, happly, hblock⟩ := Fallible.bind_ok hblock
    injection hblock with hblock
    injection hblock with _ hs
    subst hs
    exact applyModifier_countersFrom happly (ih hpast)

/-- what the committed state reports of the last block of an epoch -/
theorem applyModifier_reported (rewardsOrder : HashOrder (ForgerIdentifier × ℤ))
    (paymentsOrder : HashOrder (Address × List AccountPayment)) (h : applyModifier env s b = .ok s')
    (hbefore : beforeRewards env s b = .ok (info, outcome, v)) (hcounters : CountersFrom s.metadata)
    (hends : Withdrawals.WithdrawalEpochUtils.isEpochLastIndex info env.withdrawalEpochLength = true) :
    ∃ applied distributed v₁,
      getFeePaymentsInfo env v outcome.getForgerInfo info.epoch b.consensusEpochNumber
        (distributionCap env b.consensusEpochNumber info.epoch) none = .ok (applied, distributed, v₁) ∧
      (∀ address, s'.balances address = v.balances address + paidTo applied address -
        if FORGER_POOL_RECIPIENT_ADDRESS = address then distributed else 0) ∧
      ∃ reported, AccountState.getFeePaymentsInfo env rewardsOrder paymentsOrder s' info.epoch b.consensusEpochNumber =
        .ok (reported, distributed) ∧ reported.Perm applied := by
  unfold applyModifier at h
  rw [hbefore] at h
  have h' : (evalForgersReward env b info outcome v >>= commit env b outcome) = .ok s' := h
  obtain ⟨v', heval, hcommit⟩ := Fallible.bind_ok h'
  obtain ⟨hmetadata, hnone, -⟩ := beforeRewards_view hbefore
  obtain ⟨hmetadata', hkeys, -⟩ := evalForgersReward_view heval hnone
  obtain ⟨hepoch, feeInfo, hfee⟩ := beforeRewards_fees hbefore
  obtain ⟨recorded, rewards, v₁, hinfo, hrecorded, hbalances, hpool, hepoch', hfee'⟩ := evalForgersReward_ends heval hends
  obtain ⟨view, root, hsave, hroot, hviewEpoch, hviewFee, hviewPool, hviewKeys, hcommitted, hforgers⟩ := commit_saved hcommit
  rw [hmetadata', hmetadata] at hsave
  have hviewEpoch' := hviewEpoch.trans (hepoch'.trans hepoch)
  have hviewFee' := hviewFee.trans (hfee'.trans hfee)
  -- the fees are those of the view, the rewards the stored ones
  have hreported : getFeePayments s'.metadata {} info.epoch = .ok recorded := by
    have hsaved := saved_getFeePayments hsave hroot hviewEpoch' hviewFee' (hviewKeys ▸ hkeys) (hcounters _)
    rw [hsaved, ← hrecorded, hmetadata, getFeePayments, getFeePayments, getWithdrawalEpochInfo, getWithdrawalEpochInfo,
      hviewEpoch', hepoch, hviewFee', hfee]
  have hstored : getMcForgerPoolRewardsFromStorage rewardsOrder s'.metadata = parsed rewardsOrder rewards := by
    have hdata := saveToStorage_data (k := .mcForgerPoolRewards) (x := .poolRewards rewards) hsave hroot
      (by simp [updateList, hviewPool, hpool]) (by simp [Key.place])
    rw [getMcForgerPoolRewardsFromStorage, hdata]
  have hperm := parsed_perm rewardsOrder rewards
  refine ⟨_, _, v₁, hinfo, fun address => hcommitted ▸ hbalances address, _, ?_,
    paymentsOf_perm _ paymentsOrder recorded hperm⟩
  rw [state_payments hreported, hstored, hforgers, total_perm hperm]

end Committed

/-- **Reported payments.** In every run, for every block that ends a withdrawal epoch, with and without the forks, the committed
state reports the payments that the block has made, in whatever order it reads them back, and what they have distributed of
the pool. -/
theorem reported_payments_applied {TX : Type} (env : Env TX) (rewardsOrder : HashOrder (ForgerIdentifier × ℤ))
    (paymentsOrder : HashOrder (Address × List AccountPayment)) (balances : Balances) (blocks : List (AccountBlock TX))
    (past : List Applied) (s s' : State) (b : AccountBlock TX) (a : Applied) (hrun : run env balances blocks = .ok (past, s))
    (hblock : processBlock env s b = .ok (a, s')) (hends : a.Ends env) :
    ∃ outcome v applied distributed v₁, beforeRewards env s b = .ok (a.info, outcome, v) ∧
      getFeePaymentsInfo env v outcome.getForgerInfo a.info.epoch b.consensusEpochNumber
        (distributionCap env b.consensusEpochNumber a.info.epoch) none = .ok (applied, distributed, v₁) ∧
      (∀ address, s'.balances address = v.balances address + paidTo applied address -
        if FORGER_POOL_RECIPIENT_ADDRESS = address then distributed else 0) ∧
      ∃ reported, AccountState.getFeePaymentsInfo env rewardsOrder paymentsOrder s' a.info.epoch b.consensusEpochNumber =
        .ok (reported, distributed) ∧ reported.Perm applied := by
  unfold processBlock at hblock
  obtain ⟨⟨⟩, -, hblock⟩ := Fallible.bind_ok hblock
  obtain ⟨⟨info, outcome, v⟩, hbefore, hblock⟩ := Fallible.bind_ok hblock
  obtain ⟨s₁, happly, hblock⟩ := Fallible.bind_ok hblock
  injection hblock with hblock
  injection hblock with ha hs
  subst ha hs
  obtain ⟨applied, distributed, v₁, hinfo, hbalances, hreported⟩ :=
    applyModifier_reported rewardsOrder paymentsOrder happly hbefore (run_countersFrom balances blocks hrun) hends
  exact ⟨outcome, v, applied, distributed, v₁, hbefore, hinfo, hbalances, hreported⟩

/-- fork 1.4, with a forger that shares half of its rewards with its delegators -/
def delegatorEnv : Env Unit := { sampleEnv with
  isForkV1_4Active := fun _ => true
  applyContents := fun s b => (sampleEnv.applyContents s b).map fun outcome =>
    { outcome with cumBaseFee := 5, getForgerInfo := fun keys => some ⟨keys, 500, 9⟩ } }

/-- an epoch of two blocks, with a balance of 7 of the pool: the forger and its delegators are paid 9 and 8 -/
theorem reported_payments_delegators : ∃ past s a s',
    run delegatorEnv (fun _ => 7) [sampleBlock 0 1 1 []] = .ok (past, s) ∧
    processBlock delegatorEnv s (sampleBlock 1 1 1 [1, 1]) = .ok (a, s') ∧ s'.balances 1 = 16 ∧ s'.balances 9 = 15 ∧
    ∃ outcome v applied distributed v₁, beforeRewards delegatorEnv s (sampleBlock 1 1 1 [1, 1]) = .ok (a.info, outcome, v) ∧
      getFeePaymentsInfo delegatorEnv v outcome.getForgerInfo a.info.epoch 0 (distributionCap delegatorEnv 0 a.info.epoch) none =
        .ok (applied, distributed, v₁) ∧
      (∀ address, s'.balances address = v.balances address + paidTo applied address -
        if FORGER_POOL_RECIPIENT_ADDRESS = address then distributed else 0) ∧
      ∃ reported, AccountState.getFeePaymentsInfo delegatorEnv (.insertion _) (.insertion _) s' a.info.epoch 0 =
        .ok (reported, distributed) ∧ reported.Perm applied := by
  have hlast : lastBlock (fun a _ => a.Ends delegatorEnv)
      (run delegatorEnv (fun _ => 7) [sampleBlock 1 1 1 [1, 1], sampleBlock 0 1 1 []]) = true := by
    decide +kernel
  have hpaid : (run delegatorEnv (fun _ => 7) [sampleBlock 1 1 1 [1, 1], sampleBlock 0 1 1 []]).toOption.map
      (fun r => (r.2.balances 1, r.2.balances 9)) = some (16, 15) := by
    decide +kernel
  obtain ⟨a, past, s', hrun, hends⟩ := lastBlock_spec hlast
  rw [hrun] at hpaid
  injection hpaid with hpaid
  injection hpaid with hforger hdelegators
  obtain ⟨past', s, a', s'', hpast, hblock, hr⟩ := run_cons_ok hrun
  injection hr with hp hs
  injection hp with ha hp
  subst ha hp hs
  exact ⟨past, s, a, s', hpast, hblock, hforger, hdelegators,
    reported_payments_applied delegatorEnv (.insertion _) (.insertion _) (fun _ => 7) _ past s s' _ a hpast hblock
      (of_decide_eq_true hends)⟩

end SidechainsSdk.Account.ForgerPool
