/-
The order of the counters, and the shares of the mainchain forger pool.

The counters are sorted by their counts only, and the sorting is stable: forgers with the same number of blocks stay in the
order of the map. A map of at most four entries is gone through in the order of insertion, which two equal maps need not share,
a larger one by hash codes; a `HashOrder` stands for either, as the language leaves the order of a `Map` open.

- `lookup_reward`: the reward of a forger, by how many of those with the same count come before.
- `independent_iff`: equal counters give the same rewards in every order exactly if the remainder does not run out within
  several forgers of the same count.
-/
import Mathlib.Tactic
import SidechainsSdk.Account.PoolRewards

namespace SidechainsSdk.Account.ForgerPool

open FeePayments MetadataStorage StateView RemainderShares MachineInt

variable {TX : Type} (env : Env TX) (v : StateView)

def inOrder (order : HashOrder (ForgerIdentifier × ℤ)) : Env TX := { env with countersOrder := order }

def withCounters (counters : BlockCounters) : StateView := { v with view.forgerBlockCountersOpt := some counters }

/-- the rewards from a map of counters that is iterated in an order -/
def rewardsOf (order : HashOrder (ForgerIdentifier × ℤ)) (counters : BlockCounters) (consensusEpoch cap : ℤ) :
    Except Exc PoolRewards :=
  getMcForgerPoolRewards (inOrder env order) (withCounters v counters) consensusEpoch cap

def rewardOf (order : HashOrder (ForgerIdentifier × ℤ)) (counters : BlockCounters) (consensusEpoch cap : ℤ)
    (k : ForgerIdentifier) : Except Exc (Option ℤ) :=
  (rewardsOf env v order counters consensusEpoch cap).map fun rewards => rewards.lookup k

/-- maps that are equal as functions give every forger the same reward -/
def OrderIndependent (counters : BlockCounters) (consensusEpoch cap : ℤ) : Prop :=
  ∀ order order' counters₁ counters₂, (∀ k, counters₁.lookup k = counters.lookup k) →
    (∀ k, counters₂.lookup k = counters.lookup k) → ∀ k,
    rewardOf env v order counters₁ consensusEpoch cap k = rewardOf env v order' counters₂ consensusEpoch cap k

/-- the pool is distributed, and the remainder runs out within the forgers of one count -/
def CutTie (counters : BlockCounters) (consensusEpoch cap : ℤ) : Prop :=
  env.isForkV1_2Active consensusEpoch = true ∧ 0 < v.balances FORGER_POOL_RECIPIENT_ADDRESS ∧
    longOf (units (itemsOf counters)) ≠ 0 ∧
    ∃ b, Cut ((availableReward v cap).tmod (longOf (units (itemsOf counters)))) (itemsOf counters) b

variable {env v} {counters counters' : BlockCounters} {order : HashOrder (ForgerIdentifier × ℤ)} {consensusEpoch cap : ℤ}

theorem itemsOf_perm (h : ∀ k, counters'.lookup k = counters.lookup k) : (itemsOf counters').Perm (itemsOf counters) := by
  refine (List.perm_ext_iff_of_nodup (List.Nodup.of_map _ (itemsOf_nodup _)) (List.Nodup.of_map _ (itemsOf_nodup _))).2 ?_
  intro x
  rw [mem_itemsOf, mem_itemsOf, h]

/-- the counters as they are gone through -/
def sortedBy (order : HashOrder (ForgerIdentifier × ℤ)) (counters : BlockCounters) : Items ForgerIdentifier :=
  (order.iterate (itemsOf counters)).insertionSort fun a b => a.2 ≤ b.2

theorem sortedBy_perm (order : HashOrder (ForgerIdentifier × ℤ)) (counters : BlockCounters) :
    (sortedBy order counters).Perm (itemsOf counters) :=
  (List.perm_insertionSort _ _).trans (order.perm _)

section Distributed

variable (hfork : env.isForkV1_2Active consensusEpoch = true) (hpool : 0 < v.balances FORGER_POOL_RECIPIENT_ADDRESS)
  (hdivisor : longOf (units (itemsOf counters)) ≠ 0)

include hfork hpool hdivisor

theorem rewardsOf_eq : ∃ rewards, rewardsOf env v order counters consensusEpoch cap = .ok rewards ∧
    ∀ k reward, rewards.lookup k = some reward ↔
      (k, reward) ∈ shares ((availableReward v cap).tdiv (longOf (units (itemsOf counters))))
        ((availableReward v cap).tmod (longOf (units (itemsOf counters)))) (sortedBy order counters) := by
  have hfork' : (inOrder env order).isForkV1_2Active consensusEpoch = true := hfork
  have hpool' : 0 < (withCounters v counters).balances FORGER_POOL_RECIPIENT_ADDRESS := hpool
  obtain ⟨rewards, hrewards⟩ : ∃ rewards, rewardsOf env v order counters consensusEpoch cap = .ok rewards :=
    ⟨_, getMcForgerPoolRewards_eq hfork' hpool' hdivisor⟩
  exact ⟨rewards, hrewards, lookup_rewards hfork' hpool' hrewards⟩

/-- the reward of a forger where the sorted counters are split -/
theorem lookup_split (hcap : 0 ≤ cap) {pre post : Items ForgerIdentifier} {x : ForgerIdentifier × ℤ}
    (hsplit : sortedBy order counters = pre ++ x :: post) :
    rewardOf env v order counters consensusEpoch cap x.1 =
      .ok (some ((availableReward v cap).tdiv (longOf (units (itemsOf counters))) * x.2 +
        min (max 0 ((availableReward v cap).tmod (longOf (units (itemsOf counters))) - below (itemsOf counters) x.2 -
          x.2 * ties pre x.2)) x.2)) := by
  obtain ⟨rewards, hrewards, hlookup⟩ := @rewardsOf_eq _ env v _ order consensusEpoch cap hfork hpool hdivisor
  have hascending : Ascending (pre ++ x :: post) := hsplit ▸ ascending_insertionSort _
  have hremainder : 0 ≤ (availableReward v cap).tmod (longOf (units (itemsOf counters))) :=
    Int.tmod_nonneg _ (le_min hpool.le hcap)
  have hshare := share_eq (q := (availableReward v cap).tdiv (longOf (units (itemsOf counters)))) hascending hremainder
  rw [← hsplit, below_perm (sortedBy_perm order counters), ← hlookup] at hshare
  rw [rewardOf, hrewards]
  exact congrArg Except.ok hshare

/-- the reward of a forger, by the number of those with the same count that come before -/
theorem lookup_reward (hcap : 0 ≤ cap) {k : ForgerIdentifier} {b : ℤ} (hk : counters.lookup k = some b) :
    ∃ j < ties (itemsOf counters) b, rewardOf env v order counters consensusEpoch cap k =
      .ok (some ((availableReward v cap).tdiv (longOf (units (itemsOf counters))) * b +
        min (max 0 ((availableReward v cap).tmod (longOf (units (itemsOf counters))) - below (itemsOf counters) b -
          b * j)) b)) := by
  have hperm := sortedBy_perm order counters
  obtain ⟨pre, post, hsplit⟩ := List.append_of_mem (hperm.mem_iff.2 (mem_itemsOf (x := (k, b)).2 hk))
  refine ⟨ties pre b, ?_, lookup_split hfork hpool hdivisor hcap hsplit⟩
  rw [← ties_perm hperm, hsplit, ties, ties, List.countP_append, List.countP_cons_of_pos (by simp)]
  omega

theorem lookup_none {k : ForgerIdentifier} (hk : counters.lookup k = none) :
    rewardOf env v order counters consensusEpoch cap k = .ok none := by
  obtain ⟨rewards, hrewards, hlookup⟩ := @rewardsOf_eq _ env v _ order consensusEpoch cap hfork hpool hdivisor
  rw [rewardOf, hrewards]
  refine congrArg Except.ok (Option.eq_none_iff_forall_ne_some.2 ?_)
  intro reward hreward
  have hmem := List.mem_map_of_mem (f := Prod.fst) ((hlookup k reward).1 hreward)
  rw [keys_shares] at hmem
  obtain ⟨x, hx, rfl⟩ := List.mem_map.1 hmem
  have hfound := mem_itemsOf.1 ((sortedBy_perm order counters).mem_iff.1 hx)
  rw [hk] at hfound
  cases hfound

end Distributed

/-- nothing is distributed, in whatever order the counters are -/
theorem rewardsOf_undistributed (h : ¬ (env.isForkV1_2Active consensusEpoch = true ∧
    0 < v.balances FORGER_POOL_RECIPIENT_ADDRESS)) : rewardsOf env v order counters consensusEpoch cap = .ok ∅ := by
  by_cases hfork : (inOrder env order).isForkV1_2Active consensusEpoch = true
  · have hsign : ¬ ((withCounters v counters).balances FORGER_POOL_RECIPIENT_ADDRESS).sign = 1 :=
      fun hsign => h ⟨hfork, Int.sign_eq_one_iff_pos.1 hsign⟩
    rw [rewardsOf, getMcForgerPoolRewards, if_pos hfork]
    exact if_neg hsign
  · rw [rewardsOf, getMcForgerPoolRewards, if_neg hfork]

/-- an order in which a forger comes first -/
def firstOrder (x : ForgerIdentifier × ℤ) : HashOrder (ForgerIdentifier × ℤ) where
  iterate l := if x ∈ l then x :: l.erase x else l
  perm := by
    intro l
    split_ifs with hx
    · exact (List.perm_cons_erase hx).symm
    · exact List.Perm.refl l

/-- **Order.** -/
theorem independent_iff (env : Env TX) (v : StateView) (counters : BlockCounters) (consensusEpoch cap : ℤ) (hcap : 0 ≤ cap) :
    OrderIndependent env v counters consensusEpoch cap ↔ ¬ CutTie env v counters consensusEpoch cap := by
  constructor
  · intro hsame hcut
    obtain ⟨hfork, hpool, hdivisor, b, hcut⟩ := hcut
    -- the last forger of the count in one order, and the same one as the first of all
    have hties : 0 < ties (sortedBy (.insertion _) counters) b := by
      rw [ties_perm (sortedBy_perm _ _)]
      exact lt_of_lt_of_le Nat.zero_lt_two hcut.several
    obtain ⟨pre, x, post, hsplit, hb, hlast⟩ := exists_last hties
    subst hb
    have hmem : x ∈ itemsOf counters := by
      rw [← (sortedBy_perm (.insertion _) counters).mem_iff, hsplit]
      exact List.mem_append_right _ List.mem_cons_self
    obtain ⟨pre', post', hfirst, hzero⟩ := ties_of_first x ((itemsOf counters).erase x)
    have hsplit' : sortedBy (firstOrder x) counters = pre' ++ x :: post' := by
      rw [← hfirst, sortedBy, firstOrder]
      exact congrArg _ (if_pos hmem)
    have hequal := hsame (.insertion _) (firstOrder x) counters counters (fun _ => rfl) (fun _ => rfl) x.1
    rw [lookup_split hfork hpool hdivisor hcap hsplit, lookup_split hfork hpool hdivisor hcap hsplit'] at hequal
    have hused := add_left_cancel (Option.some.inj (Except.ok.inj hequal))
    have hcount : ties pre x.2 = ties (itemsOf counters) x.2 - 1 := by
      rw [← ties_perm (sortedBy_perm (.insertion _) counters), ← hlast]
      rfl
    rw [hcount, hzero] at hused
    exact used_ne hcut hused.symm
  · intro hcut order order' counters₁ counters₂ h₁ h₂ k
    by_cases hdistributed : env.isForkV1_2Active consensusEpoch = true ∧ 0 < v.balances FORGER_POOL_RECIPIENT_ADDRESS
    · obtain ⟨hfork, hpool⟩ := hdistributed
      have hunits₁ := units_perm (itemsOf_perm h₁)
      have hunits₂ := units_perm (itemsOf_perm h₂)
      by_cases hdivisor : longOf (units (itemsOf counters)) = 0
      · have herror : ∀ order counters', units (itemsOf counters') = units (itemsOf counters) →
            rewardsOf env v order counters' consensusEpoch cap = .error (.other "BigInteger divide by zero") := by
          intro order counters' hunits
          refine getMcForgerPoolRewards_zero hfork hpool ?_
          show longOf (units (itemsOf counters')) = 0
          rw [hunits, hdivisor]
        rw [rewardOf, rewardOf, herror _ _ hunits₁, herror _ _ hunits₂]
      · have hdivisor₁ : longOf (units (itemsOf counters₁)) ≠ 0 := by rwa [hunits₁]
        have hdivisor₂ : longOf (units (itemsOf counters₂)) ≠ 0 := by rwa [hunits₂]
        cases hk : counters.lookup k with
        | none =>
          rw [lookup_none hfork hpool hdivisor₁ ((h₁ k).trans hk), lookup_none hfork hpool hdivisor₂ ((h₂ k).trans hk)]
        | some b =>
          obtain ⟨i, hi, hreward₁⟩ :=
            @lookup_reward _ env v _ order consensusEpoch cap hfork hpool hdivisor₁ hcap k b ((h₁ k).trans hk)
          obtain ⟨j, hj, hreward₂⟩ :=
            @lookup_reward _ env v _ order' consensusEpoch cap hfork hpool hdivisor₂ hcap k b ((h₂ k).trans hk)
          rw [ties_perm (itemsOf_perm h₁)] at hi
          rw [ties_perm (itemsOf_perm h₂)] at hj
          have hnocut : ¬ Cut ((availableReward v cap).tmod (longOf (units (itemsOf counters)))) (itemsOf counters) b :=
            fun hc => hcut ⟨hfork, hpool, hdivisor, b, hc⟩
          rw [hreward₁, hreward₂, hunits₁, hunits₂, below_perm (itemsOf_perm h₁), below_perm (itemsOf_perm h₂),
            used_eq hnocut hi hj]
    · rw [rewardOf, rewardOf, rewardsOf_undistributed hdistributed, rewardsOf_undistributed hdistributed]

/-- two forgers with a block each, counted in either order -/
def twoForgers (first second : Address) : BlockCounters := (AList.insert ⟨second, none⟩ 1 ∅).insert ⟨first, none⟩ 1

theorem twoForgers_lookup (k : ForgerIdentifier) : (twoForgers 2 1).lookup k = (twoForgers 1 2).lookup k :=
  AList.perm_lookup (List.Perm.swap _ _ _)

/-- 100 wei divide by two -/
theorem independent_evenShares : OrderIndependent sampleEnv (sampleView 1 1 100) (twoForgers 1 2) 0 1000 := by
  refine (independent_iff sampleEnv (sampleView 1 1 100) (twoForgers 1 2) 0 1000 (by decide)).2 fun hcut => ?_
  obtain ⟨-, -, -, b, hcut⟩ := hcut
  have hbelow : 0 ≤ below (itemsOf (twoForgers 1 2)) b := by
    refine units_nonneg fun x hx => ?_
    have hx' : x ∈ ([(⟨1, none⟩, 1), (⟨2, none⟩, 1)] : Items ForgerIdentifier) := List.mem_of_mem_filter hx
    rcases List.mem_cons.1 hx' with rfl | hx'
    · decide
    · rw [List.mem_singleton.1 hx']
      decide
  exact absurd hcut.starts (not_lt.2 hbelow)

/-- of 101 wei the odd one goes to the forger that comes first in the map -/
theorem order_decides_oddWei :
    rewardOf sampleEnv (sampleView 1 1 101) (.insertion _) (twoForgers 1 2) 0 1000 ⟨1, none⟩ = .ok (some 51) ∧
    rewardOf sampleEnv (sampleView 1 1 101) (.insertion _) (twoForgers 2 1) 0 1000 ⟨1, none⟩ = .ok (some 50) ∧
    ¬ OrderIndependent sampleEnv (sampleView 1 1 101) (twoForgers 1 2) 0 1000 := by
  have hfirst : rewardOf sampleEnv (sampleView 1 1 101) (.insertion _) (twoForgers 1 2) 0 1000 ⟨1, none⟩ = .ok (some 51) := by
    rfl
  have hsecond : rewardOf sampleEnv (sampleView 1 1 101) (.insertion _) (twoForgers 2 1) 0 1000
      ⟨1, none⟩ = .ok (some 50) := by
    rfl
  refine ⟨hfirst, hsecond, fun hsame => ?_⟩
  have hequal := hsame (.insertion _) (.insertion _) (twoForgers 1 2) (twoForgers 2 1) (fun _ => rfl) twoForgers_lookup
      ⟨1, none⟩
  rw [hfirst, hsecond] at hequal
  cases hequal

end SidechainsSdk.Account.ForgerPool
