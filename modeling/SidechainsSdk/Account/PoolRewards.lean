/-
The shares of the mainchain forger pool (`AccountStateView.getMcForgerPoolRewards`).

What is distributed of the pool is shared by the block counters, and the remainder goes to the forgers in the order of their
counts, at most one wei a block (`RemainderShares`). The division is by the sum of the counters, as a `Long`.

- `getMcForgerPoolRewards_eq`: the rewards are these shares, of the counters in sorted order.
- `exactAndFair_iff`: they add up to the amount, and each forger gets the quotient or a part of a wei more for each block,
  exactly if the number of all blocks fits into a `Long` or the amount is below what it has become.
- `Run.divisor_ne_zero`: the block that is applied has been counted, so in a run the divisor is not zero.
- `independent_iff`: the rewards do not depend on the order of the counters exactly if the remainder does not run out within
  several forgers of one count.
-/
import Mathlib.Tactic
import SidechainsSdk.Core.RemainderShares
import SidechainsSdk.Account.ForgerPool

namespace SidechainsSdk.Account.ForgerPool

open FeePayments MetadataStorage StateView RemainderShares MachineInt

/-! ## Maps from lists -/

/-- `toMap` -/
def toMap (l : Items ForgerIdentifier) : PoolRewards :=
  (l.map fun x => (⟨x.1, x.2⟩ : Sigma fun _ : ForgerIdentifier => ℤ)).toAList

def itemsOf (m : AList fun _ : ForgerIdentifier => ℤ) : Items ForgerIdentifier := m.entries.map fun entry => (entry.1, entry.2)

theorem keys_itemsOf (m : AList fun _ : ForgerIdentifier => ℤ) : (itemsOf m).map Prod.fst = m.keys := by
  simp [itemsOf, AList.keys, List.keys, Function.comp_def]

theorem itemsOf_nodup (m : AList fun _ : ForgerIdentifier => ℤ) : ((itemsOf m).map Prod.fst).Nodup := by
  rw [keys_itemsOf]
  exact m.nodupKeys

theorem mem_itemsOf {m : AList fun _ : ForgerIdentifier => ℤ} {x : ForgerIdentifier × ℤ} :
    x ∈ itemsOf m ↔ m.lookup x.1 = some x.2 := by
  rw [← Option.mem_def, AList.mem_lookup_iff, itemsOf, List.mem_map]
  constructor
  · intro hx
    obtain ⟨entry, hentry, rfl⟩ := hx
    exact hentry
  · intro hx
    exact ⟨_, hx, rfl⟩

theorem lookup_toMap {l : Items ForgerIdentifier} (h : (l.map Prod.fst).Nodup) {k : ForgerIdentifier} {b : ℤ} :
    (toMap l).lookup k = some b ↔ (k, b) ∈ l := by
  have hkeys : (l.map fun x => (⟨x.1, x.2⟩ : Sigma fun _ : ForgerIdentifier => ℤ)).NodupKeys := by
    simpa [List.NodupKeys, List.keys, Function.comp_def] using h
  rw [toMap, AList.lookup_to_alist, ← Option.mem_def, List.mem_dlookup_iff hkeys, List.mem_map]
  constructor
  · intro hmem
    obtain ⟨x, hx, heq⟩ := hmem
    cases heq
    exact hx
  · intro hmem
    exact ⟨_, hmem, rfl⟩

theorem dedupKeys_eq {l : List (Sigma fun _ : ForgerIdentifier => ℤ)} (h : l.NodupKeys) : l.dedupKeys = l := by
  induction l with
  | nil => rfl
  | cons x l ih =>
    obtain ⟨hx, hl⟩ := List.nodupKeys_cons.1 h
    rw [List.dedupKeys_cons, ih hl, List.kinsert_def, List.kerase_of_notMem_keys hx]

theorem itemsOf_toMap {l : Items ForgerIdentifier} (h : (l.map Prod.fst).Nodup) : itemsOf (toMap l) = l := by
  have hkeys : (l.map fun x => (⟨x.1, x.2⟩ : Sigma fun _ : ForgerIdentifier => ℤ)).NodupKeys := by
    simpa [List.NodupKeys, List.keys, Function.comp_def] using h
  rw [itemsOf, toMap, List.toAList]
  simp [dedupKeys_eq hkeys, Function.comp_def]

/-! ## The shares -/

section Rewards

variable {TX : Type} (env : Env TX) (v : StateView)

/-- what is distributed of the pool -/
def availableReward (cap : ℤ) : ℤ := min (v.balances FORGER_POOL_RECIPIENT_ADDRESS) cap

/-- the number of all blocks -/
def blockCount : ℤ := units (itemsOf v.getForgerBlockCounters)

def sortedCounters : Items ForgerIdentifier :=
  (env.countersOrder.iterate (itemsOf v.getForgerBlockCounters)).insertionSort fun a b => a.2 ≤ b.2

theorem poolRewards_eq (q r : ℤ) (l : Items ForgerIdentifier) : poolRewards q r l = shares q r l := by
  induction l generalizing r with
  | nil => rfl
  | cons x l ih => simp [poolRewards, shares, ih]

theorem sortedCounters_perm : (sortedCounters env v).Perm (itemsOf v.getForgerBlockCounters) :=
  (List.perm_insertionSort _ _).trans (env.countersOrder.perm _)

theorem sortedCounters_nodup : ((sortedCounters env v).map Prod.fst).Nodup :=
  ((sortedCounters_perm env v).map Prod.fst).nodup_iff.2 (itemsOf_nodup _)

variable {env v} {consensusEpoch cap : ℤ} (hfork : env.isForkV1_2Active consensusEpoch = true)
  (hpool : 0 < v.balances FORGER_POOL_RECIPIENT_ADDRESS)

include hfork hpool

theorem getMcForgerPoolRewards_zero (hdivisor : longOf (blockCount v) = 0) :
    getMcForgerPoolRewards env v consensusEpoch cap = .error (.other "BigInteger divide by zero") := by
  simp only [getMcForgerPoolRewards, hfork, if_true, Int.sign_eq_one_of_pos hpool]
  exact if_pos hdivisor

theorem getMcForgerPoolRewards_eq (hdivisor : longOf (blockCount v) ≠ 0) :
    getMcForgerPoolRewards env v consensusEpoch cap = .ok (toMap (shares ((availableReward v cap).tdiv (longOf (blockCount v)))
      ((availableReward v cap).tmod (longOf (blockCount v))) (sortedCounters env v))) := by
  simp only [getMcForgerPoolRewards, hfork, if_true, Int.sign_eq_one_of_pos hpool, poolRewards_eq]
  exact if_neg hdivisor

/-- the reward of a forger, as the shares have it -/
theorem lookup_rewards {rewards : PoolRewards} (h : getMcForgerPoolRewards env v consensusEpoch cap = .ok rewards)
    (k : ForgerIdentifier) (reward : ℤ) :
    rewards.lookup k = some reward ↔ (k, reward) ∈ shares ((availableReward v cap).tdiv (longOf (blockCount v)))
      ((availableReward v cap).tmod (longOf (blockCount v))) (sortedCounters env v) := by
  have hdivisor : longOf (blockCount v) ≠ 0 := by
    intro hzero
    rw [getMcForgerPoolRewards_zero hfork hpool hzero] at h
    cases h
  rw [getMcForgerPoolRewards_eq hfork hpool hdivisor] at h
  injection h with h
  subst h
  refine lookup_toMap ?_
  rw [keys_shares]
  exact sortedCounters_nodup env v

end Rewards

/-! ## Exactness -/

/-- the rewards add up to the amount, and each forger gets the quotient for each block, and at most one wei more for each -/
structure ExactAndFair (counters : BlockCounters) (amount : ℤ) (rewards : PoolRewards) : Prop where
  sum : (rewards.entries.map Sigma.snd).sum = amount
  keys : ∀ k, rewards.lookup k = none ↔ counters.lookup k = none
  fair : ∀ k b, counters.lookup k = some b → ∃ reward, rewards.lookup k = some reward ∧
    amount / units (itemsOf counters) * b ≤ reward ∧ reward ≤ (amount / units (itemsOf counters) + 1) * b

section Exactness

variable {TX : Type} {env : Env TX} {v : StateView} {consensusEpoch cap : ℤ}

theorem tmod_lt_abs (a : ℤ) {b : ℤ} (hb : b ≠ 0) : a.tmod b < |b| := by
  rcases lt_or_gt_of_ne hb with hneg | hpos
  · rw [abs_of_neg hneg, ← Int.tmod_neg]
    exact Int.tmod_lt_of_pos a (by omega)
  · rw [abs_of_pos hpos]
    exact Int.tmod_lt_of_pos a hpos

theorem tdiv_eq_zero_of_lt_abs {a b : ℤ} (ha : 0 ≤ a) (h : a < |b|) : a.tdiv b = 0 := by
  rcases lt_or_ge b 0 with hneg | hpos
  · rw [abs_of_neg hneg] at h
    rw [← neg_neg b, Int.tdiv_neg, Int.tdiv_eq_zero_of_lt ha h, neg_zero]
  · rw [abs_of_nonneg hpos] at h
    exact Int.tdiv_eq_zero_of_lt ha h

theorem sum_entries (m : PoolRewards) : (m.entries.map Sigma.snd).sum = units (itemsOf m) := by
  simp [units, itemsOf, Function.comp_def]

theorem blockCount_pos (hne : v.getForgerBlockCounters ≠ ∅)
    (hpos : ∀ k b, v.getForgerBlockCounters.lookup k = some b → 0 < b) : 0 < blockCount v := by
  have hitems : itemsOf v.getForgerBlockCounters ≠ [] := by
    intro hnil
    apply hne
    exact AList.ext (List.map_eq_nil_iff.1 hnil)
  refine List.sum_pos _ ?_ (by simpa using hitems)
  intro b hb
  obtain ⟨x, hx, rfl⟩ := List.mem_map.1 hb
  exact hpos x.1 x.2 (mem_itemsOf.1 hx)

section Shares

variable (hfork : env.isForkV1_2Active consensusEpoch = true) (hpool : 0 < v.balances FORGER_POOL_RECIPIENT_ADDRESS)
  (hpos : ∀ k b, v.getForgerBlockCounters.lookup k = some b → 0 < b) (hcap : 0 ≤ cap)
  {rewards : PoolRewards} (h : getMcForgerPoolRewards env v consensusEpoch cap = .ok rewards)

include hfork hpool hpos hcap h

/-- what the rewards add up to, by the quotient and the remainder of the division -/
theorem sum_rewards : (rewards.entries.map Sigma.snd).sum =
    (availableReward v cap).tdiv (longOf (blockCount v)) * blockCount v +
      min ((availableReward v cap).tmod (longOf (blockCount v))) (blockCount v) := by
  have hdivisor : longOf (blockCount v) ≠ 0 := by
    intro hzero
    rw [getMcForgerPoolRewards_zero hfork hpool hzero] at h
    cases h
  rw [getMcForgerPoolRewards_eq hfork hpool hdivisor] at h
  injection h with h
  have hperm := sortedCounters_perm env v
  have hcounters : ∀ x ∈ sortedCounters env v, 0 ≤ x.2 :=
    fun x hx => (hpos x.1 x.2 (mem_itemsOf.1 (hperm.mem_iff.1 hx))).le
  have hamount : 0 ≤ availableReward v cap := le_min hpool.le hcap
  have hnodup : ((shares ((availableReward v cap).tdiv (longOf (blockCount v)))
      ((availableReward v cap).tmod (longOf (blockCount v))) (sortedCounters env v)).map Prod.fst).Nodup := by
    rw [keys_shares]
    exact sortedCounters_nodup env v
  rw [← h, sum_entries, itemsOf_toMap hnodup, sum_shares hcounters (Int.tmod_nonneg _ hamount), units_perm hperm]
  rfl

/-- the reward of a forger lies between the quotient and the quotient plus one for each block -/
theorem reward_bounds {k : ForgerIdentifier} {b : ℤ} (hk : v.getForgerBlockCounters.lookup k = some b) :
    ∃ reward, rewards.lookup k = some reward ∧ (availableReward v cap).tdiv (longOf (blockCount v)) * b ≤ reward ∧
      reward ≤ ((availableReward v cap).tdiv (longOf (blockCount v)) + 1) * b := by
  have hmem : (k, b) ∈ sortedCounters env v := (sortedCounters_perm env v).mem_iff.2 (mem_itemsOf.2 hk)
  obtain ⟨pre, post, hsplit⟩ := List.append_of_mem hmem
  have hshare := mem_shares ((availableReward v cap).tdiv (longOf (blockCount v)))
    ((availableReward v cap).tmod (longOf (blockCount v))) pre post (k, b)
  rw [← hsplit] at hshare
  have hremainder : 0 ≤ (availableReward v cap).tmod (longOf (blockCount v)) := Int.tmod_nonneg _ (le_min hpool.le hcap)
  exact ⟨_, (lookup_rewards hfork hpool h k _).2 hshare, share_bounds (x := (k, b)) hremainder (hpos k b hk).le pre⟩

theorem keys_rewards (k : ForgerIdentifier) : rewards.lookup k = none ↔ v.getForgerBlockCounters.lookup k = none := by
  constructor
  · intro hnone
    cases hk : v.getForgerBlockCounters.lookup k with
    | none => rfl
    | some b =>
      obtain ⟨reward, hreward, -⟩ := reward_bounds hfork hpool hpos hcap h hk
      rw [hnone] at hreward
      cases hreward
  · intro hnone
    cases hk : rewards.lookup k with
    | none => rfl
    | some reward =>
      have hmem := List.mem_map_of_mem (f := Prod.fst) ((lookup_rewards hfork hpool h k reward).1 hk)
      rw [keys_shares] at hmem
      obtain ⟨x, hx, rfl⟩ := List.mem_map.1 hmem
      have hlookup := mem_itemsOf.1 ((sortedCounters_perm env v).mem_iff.1 hx)
      rw [hnone] at hlookup
      cases hlookup

end Shares

/-- **Exactness.** -/
theorem exactAndFair_iff (hfork : env.isForkV1_2Active consensusEpoch = true)
    (hpool : 0 < v.balances FORGER_POOL_RECIPIENT_ADDRESS) (hne : v.getForgerBlockCounters ≠ ∅)
    (hpos : ∀ k b, v.getForgerBlockCounters.lookup k = some b → 0 < b) (hcap : 0 ≤ cap) :
    (∃ rewards, getMcForgerPoolRewards env v consensusEpoch cap = .ok rewards ∧
      ExactAndFair v.getForgerBlockCounters (availableReward v cap) rewards) ↔
      blockCount v < 2 ^ 63 ∨ availableReward v cap < |longOf (blockCount v)| := by
  have hcount := blockCount_pos hne hpos
  have hamount : 0 ≤ availableReward v cap := le_min hpool.le hcap
  by_cases hdivisor : longOf (blockCount v) = 0
  · refine iff_of_false (fun hexact => ?_) (fun hfits => ?_)
    · obtain ⟨rewards, hrewards, -⟩ := hexact
      rw [getMcForgerPoolRewards_zero hfork hpool hdivisor] at hrewards
      cases hrewards
    · rcases hfits with hfits | hless
      · rw [longOf_eq (by omega) hfits] at hdivisor
        omega
      · rw [hdivisor, abs_zero] at hless
        omega
  · obtain ⟨rewards, hrewards⟩ : ∃ rewards, getMcForgerPoolRewards env v consensusEpoch cap = .ok rewards :=
      ⟨_, getMcForgerPoolRewards_eq hfork hpool hdivisor⟩
    have hsum := sum_rewards hfork hpool hpos hcap hrewards
    have hkeys := keys_rewards hfork hpool hpos hcap hrewards
    have hbounds := fun k b => reward_bounds (k := k) (b := b) hfork hpool hpos hcap hrewards
    -- the code divides by the total as a `Long`, the bounds are about the total
    have hdiv := Int.tmod_add_mul_tdiv (availableReward v cap) (longOf (blockCount v))
    have hmod := tmod_lt_abs (availableReward v cap) hdivisor
    by_cases hfits : blockCount v < 2 ^ 63
    · have heq : longOf (blockCount v) = blockCount v := longOf_eq (by omega) hfits
      rw [heq] at hsum hbounds hdiv hmod
      rw [abs_of_pos hcount] at hmod
      refine iff_of_true ⟨rewards, hrewards, ⟨?_, hkeys, ?_⟩⟩ (.inl hfits)
      · rw [hsum, min_eq_left hmod.le, mul_comm]
        omega
      · intro k b hk
        have hb := hbounds k b hk
        rw [Int.tdiv_eq_ediv_of_nonneg hamount] at hb
        exact hb
    · have hlong := abs_longOf_le (blockCount v)
      rw [min_eq_left (by omega)] at hsum
      have hne' : longOf (blockCount v) ≠ blockCount v := by
        have hlt := longOf_lt (blockCount v)
        omega
      rw [or_iff_right hfits]
      constructor
      · intro hexact
        obtain ⟨rewards', hok, hexact⟩ := hexact
        rw [hrewards] at hok
        injection hok with hok
        subst hok
        -- the surplus of the sum is the quotient times the difference of the totals
        have hsurplus : (availableReward v cap).tdiv (longOf (blockCount v)) * (blockCount v - longOf (blockCount v)) = 0 := by
          have hequal := hsum.symm.trans hexact.sum
          linear_combination hequal - hdiv
        rcases mul_eq_zero.1 hsurplus with hzero | hzero
        · rw [hzero, mul_zero, add_zero] at hdiv
          rwa [hdiv] at hmod
        · omega
      · intro hless
        rw [tdiv_eq_zero_of_lt_abs hamount hless] at hsum hbounds hdiv
        have hzero : availableReward v cap / units (itemsOf v.getForgerBlockCounters) = 0 :=
          Int.ediv_eq_zero_of_lt hamount (by show _ < blockCount v; omega)
        refine ⟨rewards, hrewards, ⟨?_, hkeys, ?_⟩⟩
        · rw [hsum, zero_mul, zero_add]
          rwa [mul_zero, add_zero] at hdiv
        · intro k b hk
          rw [hzero]
          exact hbounds k b hk

end Exactness

/-! ## The divisor -/

/-- every counter is positive, and there are at most `n` blocks -/
structure CountsBlocks (n : ℕ) (counters : BlockCounters) : Prop where
  pos : ∀ k b, counters.lookup k = some b → 0 < b
  total : units (itemsOf counters) ≤ n

theorem countsBlocks_empty (n : ℕ) : CountsBlocks n ∅ where
  pos := by simp
  total := Int.natCast_nonneg n

theorem units_insert (counters : BlockCounters) (k : ForgerIdentifier) (b : ℤ) :
    units (itemsOf (counters.insert k b)) = units (itemsOf counters) - countOf counters k + b := by
  have hinsert : itemsOf (counters.insert k b) = (k, b) :: (counters.entries.kerase k).map fun entry => (entry.1, entry.2) := by
    rw [itemsOf, AList.entries_insert]
    rfl
  rw [hinsert, units_cons, itemsOf, countOf]
  by_cases hk : k ∈ counters.entries.keys
  · obtain ⟨old, l₁, l₂, hl₁, hentries, herase⟩ := List.exists_of_kerase hk
    have hlookup : counters.lookup k = some old := by
      rw [← Option.mem_def, AList.mem_lookup_iff, hentries]
      exact List.mem_append_right l₁ List.mem_cons_self
    rw [herase, hentries, hlookup]
    simp only [List.map_append, List.map_cons, units_append, units_cons, Option.getD_some]
    ring
  · have hlookup : counters.lookup k = none := AList.lookup_eq_none.2 hk
    rw [List.kerase_of_notMem_keys hk, hlookup, Option.getD_none, sub_zero, add_comm]

theorem CountsBlocks.count {n : ℕ} {counters : BlockCounters} (h : CountsBlocks n counters) (k : ForgerIdentifier) :
    CountsBlocks (n + 1) (counters.insert k (countOf counters k + 1)) where
  pos := by
    intro k' b hb
    by_cases hk : k' = k
    · subst hk
      rw [AList.lookup_insert] at hb
      injection hb with hb
      rw [← hb, countOf]
      cases hold : counters.lookup k' with
      | none => simp
      | some old =>
        have := h.pos k' old hold
        simp only [Option.getD_some]
        omega
    · rw [AList.lookup_insert_ne hk] at hb
      exact h.pos k' b hb
  total := by
    rw [units_insert]
    have := h.total
    push_cast
    omega

section Run

theorem getFeePaymentsInfo_rewardKeys {TX : Type} {env : Env TX} {v v' : StateView}
    {getForgerInfo : ForgerPublicKeys → Option ForgerInfo} {withdrawalEpoch consensusEpoch cap distributed : ℤ}
    {payments : List AccountPayment}
    (h : getFeePaymentsInfo env v getForgerInfo withdrawalEpoch consensusEpoch cap none = .ok (payments, distributed, v'))
    (hnone : v.view.delegatorPaymentsSeq = []) : ∀ p ∈ v'.view.delegatorPaymentsSeq, p.1.place = 14 := by
  unfold getFeePaymentsInfo at h
  obtain ⟨recorded, -, h⟩ := Fallible.bind_ok h
  obtain ⟨rewards, -, h⟩ := Fallible.bind_ok h
  split_ifs at h
  · injection h with h
    injection h with _ h
    injection h with _ hv
    subst hv
    intro p hp
    obtain ⟨d, -, rfl⟩ := List.mem_map.1 hp
    rfl
  · injection h with h
    injection h with _ h
    injection h with _ hv
    subst hv
    intro p hp
    rw [hnone] at hp
    cases hp

variable {TX : Type} {env : Env TX} {s s' : State} {b : AccountBlock TX} {info : Withdrawals.WithdrawalEpochInfo}
  {outcome : Outcome} {v v' : StateView}

/-- the view on which the rewards are computed, whether the block is counted or not -/
theorem beforeRewards_view (h : beforeRewards env s b = .ok (info, outcome, v)) :
    v.metadata = s.metadata ∧ v.view.delegatorPaymentsSeq = [] ∧
      v.getForgerBlockCounters = if env.isForkV1_2Active b.consensusEpochNumber then
        (getForgerBlockCountersFromStorage s.metadata).insert (forgerIdentifier env b)
          (countOf (getForgerBlockCountersFromStorage s.metadata) (forgerIdentifier env b) + 1)
      else getForgerBlockCountersFromStorage s.metadata := by
  unfold beforeRewards at h
  simp only [Fallible.failIf_bind_ok] at h
  obtain ⟨info', -, h⟩ := Fallible.bind_ok h.2
  obtain ⟨outcome', -, h⟩ := Fallible.bind_ok h
  injection h with h
  injection h with hi h
  injection h with ho hv
  subst hi ho hv
  by_cases hactive : env.isForkV1_2Active b.consensusEpochNumber = true
  · rw [updateForgerBlockCounter, if_pos hactive, if_pos hactive]
    exact ⟨rfl, rfl, rfl⟩
  · rw [updateForgerBlockCounter, if_neg hactive, if_neg hactive]
    exact ⟨rfl, rfl, rfl⟩

/-- the rewards leave the counters, or none; of the rewards of forgers they write records only -/
theorem evalForgersReward_view (h : evalForgersReward env b info outcome v = .ok v')
    (hnone : v.view.delegatorPaymentsSeq = []) :
    v'.metadata = v.metadata ∧ (∀ p ∈ v'.view.delegatorPaymentsSeq, p.1.place = 14) ∧
      (v'.view.forgerBlockCountersOpt = v.view.forgerBlockCountersOpt ∨ v'.view.forgerBlockCountersOpt = some ∅) := by
  unfold evalForgersReward at h
  split_ifs at h
  · obtain ⟨⟨payments, distributed, v₁⟩, hinfo, h⟩ := Fallible.bind_ok h
    simp only [Fallible.failIf_bind_ok] at h
    obtain ⟨v₂, hreset, h⟩ := Fallible.bind_ok h.2
    obtain ⟨balances, -, h⟩ := Fallible.bind_ok h
    injection h with h
    subst h
    obtain ⟨hmetadata₁, -, -, hcounters₁⟩ := getFeePaymentsInfo_ok hinfo
    have hkeys₁ := getFeePaymentsInfo_rewardKeys hinfo hnone
    unfold subtractForgerPoolBalanceAndResetBlockCounters at hreset
    split_ifs at hreset
    · simp only [Fallible.failIf_bind_ok] at hreset
      split_ifs at hreset
      · obtain ⟨balances₂, -, hreset⟩ := Fallible.bind_ok hreset.2
        injection hreset with hreset
        subst hreset
        exact ⟨hmetadata₁, hkeys₁, .inr rfl⟩
      · injection hreset.2 with hreset
        subst hreset
        exact ⟨hmetadata₁, hkeys₁, .inl hcounters₁⟩
    · injection hreset with hreset
      subst hreset
      exact ⟨hmetadata₁, hkeys₁, .inl hcounters₁⟩
  · simp only [Fallible.failIf_bind_ok] at h
    injection h.2 with h
    subst h
    rw [hnone]
    exact ⟨rfl, by simp, .inl rfl⟩

theorem forgerBlockCounters_not_mem {s : Storage} {view : View} {root : Octets} {g : Bool}
    (h : view.forgerBlockCountersOpt = none) : Key.forgerBlockCounters ∉ (updateList s view root g).map Prod.fst := by
  simp [updateList, h]

/-- the commit stores the counters of the view -/
theorem commit_counters (h : commit env b outcome v = .ok s') (hkeys : ∀ p ∈ v.view.delegatorPaymentsSeq, p.1.place = 14) :
    getForgerBlockCountersFromStorage s'.metadata = v.getForgerBlockCounters := by
  unfold commit at h
  obtain ⟨⟨⟩, -, h⟩ := Fallible.bind_ok h
  obtain ⟨metadata, hsave, h⟩ := Fallible.bind_ok h
  obtain rfl := Except.ok.inj h
  rcases Option.eq_none_or_eq_some v.view.forgerBlockCountersOpt with hnone | ⟨counters, hsome⟩
  · have hsame := saveToStorage_unchanged (k := .forgerBlockCounters) hsave rfl (forgerBlockCounters_not_mem hnone) ?_
      (fun hk => by simpa [Key.place] using removeList_place _ _ _ hk)
    · simp [getForgerBlockCountersFromStorage, getForgerBlockCounters, hsame, hnone]
    · intro p hp heq
      have hplace := hkeys p hp
      rw [heq] at hplace
      cases hplace
  · have hcount := saveToStorage_data (k := .forgerBlockCounters) (x := .blockCounters counters) hsave rfl
      (by simp [updateList, hsome]) (by simp [Key.place])
    simp [getForgerBlockCountersFromStorage, getForgerBlockCounters, hcount, hsome]

theorem applyModifier_counters (h : applyModifier env s b = .ok s') : ∃ info outcome v,
    beforeRewards env s b = .ok (info, outcome, v) ∧ (getForgerBlockCountersFromStorage s'.metadata = ∅ ∨
      getForgerBlockCountersFromStorage s'.metadata = v.getForgerBlockCounters) := by
  unfold applyModifier at h
  obtain ⟨⟨info, outcome, v⟩, hbefore, h⟩ := Fallible.bind_ok h
  obtain ⟨v', heval, hcommit⟩ := Fallible.bind_ok h
  obtain ⟨hmetadata, hnone, -⟩ := beforeRewards_view hbefore
  obtain ⟨hmetadata', hkeys, hcounters⟩ := evalForgersReward_view heval hnone
  refine ⟨info, outcome, v, hbefore, ?_⟩
  rw [commit_counters hcommit hkeys]
  rcases hcounters with hsame | hempty
  · right
    rw [getForgerBlockCounters, getForgerBlockCounters, hsame, hmetadata']
  · left
    rw [getForgerBlockCounters, hempty]
    rfl

theorem CountsBlocks.beforeRewards {n : ℕ} (h : CountsBlocks n (getForgerBlockCountersFromStorage s.metadata))
    (hbefore : beforeRewards env s b = .ok (info, outcome, v)) : CountsBlocks (n + 1) v.getForgerBlockCounters := by
  obtain ⟨-, -, hcounters⟩ := beforeRewards_view hbefore
  rw [hcounters]
  split_ifs
  · exact h.count _
  · exact ⟨h.pos, h.total.trans (by push_cast; omega)⟩

/-- **Runs.** The counters stay positive, and below the number of blocks. -/
theorem run_countsBlocks (balances : Balances) (blocks : List (AccountBlock TX)) {past : List Applied}
    (h : run env balances blocks = .ok (past, s)) :
    CountsBlocks blocks.length (getForgerBlockCountersFromStorage s.metadata) := by
  induction blocks generalizing past s with
  | nil =>
    injection h with h
    injection h with _ hs
    subst hs
    exact countsBlocks_empty _
  | cons b older ih =>
    obtain ⟨past', s₁, a, s₂, hpast, hblock, hr⟩ := run_cons_ok h
    injection hr with _ hs
    subst hs
    unfold processBlock at hblock
    obtain ⟨⟨⟩, -, hblock⟩ := Fallible.bind_ok hblock
    obtain ⟨_, -, hblock⟩ := Fallible.bind_ok hblock
    obtain ⟨s₃, happly, hblock⟩ := Fallible.bind_ok hblock
    injection hblock with hblock
    injection hblock with _ hs
    subst hs
    obtain ⟨info, outcome, v, hbefore, hcounters⟩ := applyModifier_counters happly
    rcases hcounters with hempty | hsame
    · rw [hempty]
      exact countsBlocks_empty _
    · rw [hsame]
      exact (ih hpast).beforeRewards hbefore

/-- the block that is applied has been counted -/
theorem divisor_ne_zero {balances : Balances} {blocks : List (AccountBlock TX)} {past : List Applied}
    (hrun : run env balances blocks = .ok (past, s)) (hlength : blocks.length + 1 < 2 ^ 63)
    (hbefore : beforeRewards env s b = .ok (info, outcome, v))
    (hfork : env.isForkV1_2Active b.consensusEpochNumber = true) : longOf (blockCount v) ≠ 0 := by
  have hcounts := (run_countsBlocks balances blocks hrun).beforeRewards hbefore
  have hne : v.getForgerBlockCounters ≠ ∅ := by
    obtain ⟨-, -, hcounters⟩ := beforeRewards_view hbefore
    rw [hcounters, if_pos hfork]
    intro hempty
    have hlookup := AList.lookup_insert (a := forgerIdentifier env b)
      (b := countOf (getForgerBlockCountersFromStorage s.metadata) (forgerIdentifier env b) + 1)
      (getForgerBlockCountersFromStorage s.metadata)
    rw [hempty] at hlookup
    cases hlookup
  have hpos := blockCount_pos hne hcounts.pos
  have htotal : blockCount v ≤ ((blocks.length + 1 : ℕ) : ℤ) := hcounts.total
  have hbound : ((blocks.length + 1 : ℕ) : ℤ) < 2 ^ 63 := by exact_mod_cast hlength
  rw [longOf_eq (by omega) (by omega)]
  omega

end Run

/-- **Exact and fair.** With fork 1.2 active, a positive balance of the pool and positive counters, the rewards add up to what is
distributed, and each forger gets the quotient or at most one wei more for each block, exactly if the number of all blocks fits
into a `Long` or the amount is below what it has become. In runs of fewer than 2 ^ 63 blocks no block divides by zero. -/
theorem pool_rewards_exact_and_fair {TX : Type} (env : Env TX) :
    (∀ (v : StateView) (consensusEpoch cap : ℤ), env.isForkV1_2Active consensusEpoch = true →
      0 < v.balances FORGER_POOL_RECIPIENT_ADDRESS → v.getForgerBlockCounters ≠ ∅ →
      (∀ k b, v.getForgerBlockCounters.lookup k = some b → 0 < b) → 0 ≤ cap →
      ((∃ rewards, getMcForgerPoolRewards env v consensusEpoch cap = .ok rewards ∧
        ExactAndFair v.getForgerBlockCounters (availableReward v cap) rewards) ↔
        blockCount v < 2 ^ 63 ∨ availableReward v cap < |longOf (blockCount v)|)) ∧
    ∀ (balances : Balances) (blocks : List (AccountBlock TX)) past s b info outcome v cap,
      run env balances blocks = .ok (past, s) → blocks.length + 1 < 2 ^ 63 →
      beforeRewards env s b = .ok (info, outcome, v) →
      getMcForgerPoolRewards env v b.consensusEpochNumber cap ≠ .error (.other "BigInteger divide by zero") := by
  refine ⟨?_, ?_⟩
  · intro v consensusEpoch cap hfork hpool hne hpos hcap
    exact exactAndFair_iff hfork hpool hne hpos hcap
  · intro balances blocks past s b info outcome v cap hrun hlength hbefore hzero
    by_cases hfork : env.isForkV1_2Active b.consensusEpochNumber = true
    · by_cases hpool : 0 < v.balances FORGER_POOL_RECIPIENT_ADDRESS
      · rw [getMcForgerPoolRewards_eq hfork hpool (divisor_ne_zero hrun hlength hbefore hfork)] at hzero
        cases hzero
      · rw [getMcForgerPoolRewards, if_pos hfork, if_neg (fun hsign => hpool (Int.sign_eq_one_iff_pos.1 hsign))] at hzero
        cases hzero
    · rw [getMcForgerPoolRewards, if_neg hfork] at hzero
      cases hzero

/-- a view with the counters of two forgers, and a balance of the pool -/
def sampleView (first second pool : ℤ) : StateView :=
  ⟨emptyStorage, { forgerBlockCountersOpt := some ((AList.insert ⟨2, none⟩ second ∅).insert ⟨1, none⟩ first) },
    fun _ => pool⟩

theorem sampleView_pos {first second : ℤ} (hfirst : 0 < first) (hsecond : 0 < second) (pool : ℤ) (k : ForgerIdentifier)
    (b : ℤ)
    (hb : (sampleView first second pool).getForgerBlockCounters.lookup k = some b) : 0 < b := by
  have hlookup : ((AList.insert ⟨2, none⟩ second ∅ : BlockCounters).insert ⟨1, none⟩ first).lookup k = some b := hb
  by_cases hk : k = ⟨1, none⟩
  · rw [hk, AList.lookup_insert] at hlookup
    injection hlookup with hlookup
    omega
  · rw [AList.lookup_insert_ne hk] at hlookup
    by_cases hk' : k = ⟨2, none⟩
    · rw [hk', AList.lookup_insert] at hlookup
      injection hlookup with hlookup
      omega
    · rw [AList.lookup_insert_ne hk'] at hlookup
      cases hlookup

/-- 100 wei for two blocks of one forger and one of another -/
theorem pool_rewards_two_forgers : ∃ rewards, getMcForgerPoolRewards sampleEnv (sampleView 2 1 100) 0 1000 = .ok rewards ∧
    ExactAndFair (sampleView 2 1 100).getForgerBlockCounters 100 rewards :=
  ((pool_rewards_exact_and_fair sampleEnv).1 (sampleView 2 1 100) 0 1000 rfl (by decide)
    (fun hempty => absurd (congrArg (fun m : BlockCounters => m.entries.length) hempty) (by decide))
    (sampleView_pos (by decide) (by decide) 100) (by decide)).2 (.inl (by decide))

/-- two forgers with 2 ^ 62 blocks each have a negative sum, and get negative rewards; before fork 1.2 there are none -/
theorem pool_rewards_overflow :
    (∃ rewards, getMcForgerPoolRewards sampleEnv (sampleView (2 ^ 62) (2 ^ 62) (2 ^ 70)) 0 (2 ^ 70) = .ok rewards ∧
      (∀ k b, (sampleView (2 ^ 62) (2 ^ 62) (2 ^ 70)).getForgerBlockCounters.lookup k = some b → 0 < b) ∧
      (rewards.entries.map Sigma.snd).sum = -2 ^ 70 ∧
      ¬ ExactAndFair (sampleView (2 ^ 62) (2 ^ 62) (2 ^ 70)).getForgerBlockCounters (2 ^ 70) rewards) ∧
    getMcForgerPoolRewards { sampleEnv with isForkV1_2Active := fun _ => false } (sampleView 2 1 100) 0 1000 = .ok ∅ ∧
      (∀ k b, (sampleView 2 1 100).getForgerBlockCounters.lookup k = some b → 0 < b) ∧
      ¬ ExactAndFair (sampleView 2 1 100).getForgerBlockCounters 100 ∅ := by
  have hsum : ((getMcForgerPoolRewards sampleEnv (sampleView (2 ^ 62) (2 ^ 62) (2 ^ 70)) 0 (2 ^ 70)).toOption.map
      fun rewards => (rewards.entries.map Sigma.snd).sum) = some (-2 ^ 70) := by
    decide +kernel
  refine ⟨?_, rfl, sampleView_pos (by decide) (by decide) _, fun hexact => absurd hexact.sum (by decide)⟩
  cases hrewards : getMcForgerPoolRewards sampleEnv (sampleView (2 ^ 62) (2 ^ 62) (2 ^ 70)) 0 (2 ^ 70) with
  | error e =>
    rw [hrewards] at hsum
    cases hsum
  | ok rewards =>
    rw [hrewards] at hsum
    injection hsum with hsum
    refine ⟨rewards, rfl, sampleView_pos (by decide) (by decide) _, hsum, fun hexact => ?_⟩
    have hequal := hexact.sum.symm.trans hsum
    norm_num at hequal

end SidechainsSdk.Account.ForgerPool
