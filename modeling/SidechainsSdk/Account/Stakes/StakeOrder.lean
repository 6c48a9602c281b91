/-
The stakes of the lottery do not depend on the order of stake operations (`getOrderedForgingStakesInfoSeq` with the first
contract). The list that is stored depends on it, and so do the delegations that make up the total of a forger; and the groups
come out of a hash map. What is left in the end are the forgers and their totals.

- `SameTotals`: lists with the same forgers and the same total for each of them.
- `foldl_addLong_eq`: a `Long` sum is the sum taken back into the range once.
- `forgingStakesV1_entries`: the groups are one entry for each forger, computed from its total.
- `ordered_stakes_unordered_storage`: the sequence is the same for both lists; if the totals fit in a `Long` it has exactly the
  entries of the forgers, in one strict order.
-/
import Mathlib.Tactic
import SidechainsSdk.Core.MachineInt
import SidechainsSdk.Account.Stakes.ForgingStakes

namespace SidechainsSdk.Account.ForgingStakes

open Fallible StakeStorage ForgerStakeStorage
open MachineInt (longOf longOf_eq)

/-! ## Totals -/

def StakesWith (stakes : List AccountForgingStakeInfo) (f : ForgerPublicKeys) : Prop :=
  ∃ s ∈ stakes, s.forgerStakeData.forgerPublicKeys = f

/-- the same forgers, each with the same total -/
structure SameTotals (stakes stakes' : List AccountForgingStakeInfo) : Prop where
  forgers : ∀ f, StakesWith stakes f ↔ StakesWith stakes' f
  totals : ∀ f, stakedWith stakes f = stakedWith stakes' f

theorem SameTotals.of_perm {stakes stakes' : List AccountForgingStakeInfo} (h : stakes.Perm stakes') :
    SameTotals stakes stakes' where
  forgers f := by
    unfold StakesWith
    simp only [h.mem_iff]
  totals f := ((h.filter _).map _).sum_eq

theorem foldl_addLong_longOf (l : List ℤ) (x : ℤ) : l.foldl addLong (longOf x) = longOf (x + l.sum) := by
  induction l generalizing x with
  | nil => rw [List.foldl_nil, List.sum_nil, add_zero]
  | cons y l ih =>
    have hadd : addLong (longOf x) y = longOf (x + y) := Int.bmod_add_bmod
    rw [List.foldl_cons, hadd, ih, List.sum_cons, add_assoc]

theorem foldl_addLong_eq (l : List ℤ) : l.foldl addLong 0 = longOf l.sum := by
  have h := foldl_addLong_longOf l 0
  rwa [zero_add, longOf_eq (by norm_num) (by norm_num)] at h

/-! ## Entries -/

/-- the entry of a forger with a total in wei, whose zennies are added up as `Long`s -/
def entryOf (total : ForgerPublicKeys → ℤ) (f : ForgerPublicKeys) : Except Exc ForgingStakeInfo :=
  newForgingStakeInfo f (longOf (total f / ZENNY_TO_WEI_MULTIPLIER))

section Entries

variable {stakes stakes' : List AccountForgingStakeInfo}
    (hvalid : ∀ s ∈ stakes, isValidZenAmount s.forgerStakeData.stakedAmount)

include hvalid

theorem forgingStakeInfoOf_entry (f : ForgerPublicKeys) :
    forgingStakeInfoOf f (stakes.filter fun s => s.forgerStakeData.forgerPublicKeys = f) = entryOf (stakedWith stakes) f := by
  have hgroup : ∀ s ∈ stakes.filter (fun s => s.forgerStakeData.forgerPublicKeys = f),
      isValidZenAmount s.forgerStakeData.stakedAmount = true := fun s hs => hvalid s (List.mem_of_mem_filter hs)
  have hsum : ((stakes.filter fun s => s.forgerStakeData.forgerPublicKeys = f).map fun s =>
      s.forgerStakeData.stakedAmount / ZENNY_TO_WEI_MULTIPLIER).sum = stakedWith stakes f / ZENNY_TO_WEI_MULTIPLIER := by
    rw [stakedWith, ← sum_ediv_zennies, List.map_map]
    · rfl
    · intro w hw
      obtain ⟨s, hs, rfl⟩ := List.mem_map.1 hw
      exact (isValidZenAmount_iff.1 (hgroup s hs)).2.2
  rw [forgingStakeInfoOf, mapM_ok fun s hs => convertWeiToZennies_valid (hgroup s hs)]
  show newForgingStakeInfo f _ = _
  rw [foldl_addLong_eq, hsum]
  rfl

/-- one entry for every forger, in the order of the map -/
theorem forgingStakesV1_entries (order : HashOrder (ForgerPublicKeys × List AccountForgingStakeInfo)) :
    ∃ fs : List ForgerPublicKeys, fs.Nodup ∧ (∀ f, f ∈ fs ↔ StakesWith stakes f) ∧
      forgingStakesV1 order stakes = fs.mapM (entryOf (stakedWith stakes)) := by
  let groups := Grouping.groupBy (fun s : AccountForgingStakeInfo => s.forgerStakeData.forgerPublicKeys) stakes
  have hperm : ((order.iterate groups).map Prod.fst).Perm (groups.map Prod.fst) := (order.perm groups).map _
  refine ⟨(order.iterate groups).map Prod.fst, ?_, ?_, ?_⟩
  · exact hperm.nodup_iff.2 (Grouping.groupBy_keys_nodup _ _)
  · intro f
    rw [hperm.mem_iff, Grouping.mem_groupBy_keys, List.mem_map]
    rfl
  · rw [List.mapM_map]
    refine mapM_congr ?_
    intro g hg
    obtain ⟨hstakes, -⟩ := Grouping.mem_groupBy _ _ _ ((order.perm groups).mem_iff.1 hg)
    rw [Function.comp_apply, hstakes]
    exact forgingStakeInfoOf_entry hvalid g.1

end Entries

/-- with one exception for all that are refused, a map over a list fails in the same way wherever the first of them stands -/
theorem mapM_entryOf (total : ForgerPublicKeys → ℤ) (fs : List ForgerPublicKeys) :
    fs.mapM (entryOf total) =
      if ∀ f ∈ fs, 0 ≤ longOf (total f / ZENNY_TO_WEI_MULTIPLIER) then
        .ok (fs.map fun f => ⟨f.blockSignPublicKey, f.vrfPublicKey, longOf (total f / ZENNY_TO_WEI_MULTIPLIER)⟩)
      else .error (.illegalArgument "requirement failed: stakeAmount expected to be non negative.") := by
  induction fs with
  | nil => rfl
  | cons f fs ih =>
    rw [List.mapM_cons, ih, entryOf, newForgingStakeInfo]
    simp only [List.forall_mem_cons]
    by_cases hf : 0 ≤ longOf (total f / ZENNY_TO_WEI_MULTIPLIER)
    · by_cases hfs : ∀ f ∈ fs, 0 ≤ longOf (total f / ZENNY_TO_WEI_MULTIPLIER)
      · rw [if_pos hf, if_pos hfs, if_pos ⟨hf, hfs⟩]
        rfl
      · rw [if_pos hf, if_neg hfs, if_neg fun hall => hfs hall.2]
        rfl
    · have hneg : ¬ (0 ≤ longOf (total f / ZENNY_TO_WEI_MULTIPLIER) ∧
          ∀ f ∈ fs, 0 ≤ longOf (total f / ZENNY_TO_WEI_MULTIPLIER)) := fun hall => hf hall.1
      rw [if_neg hf, if_neg hneg]
      rfl

/-! ## The sequence -/

/-- the sequence that is made of the entries of a source -/
def filteredSorted (forkV1_4Active : Bool) (stakes : List ForgingStakeInfo) : List ForgingStakeInfo :=
  sortedReverse (stakes.filter fun fsi => !forkV1_4Active || minForgerStake ≤ fsi.stakeAmount)

theorem ordered_eq {forks : Forks} {order : HashOrder (ForgerPublicKeys × List AccountForgingStakeInfo)} {v1 : ForgerStakeDb}
    {v2 : StakeDb} {epoch : ℕ} {stakes : List AccountForgingStakeInfo}
    (hbranch : (forks.v1_4 epoch && v2.active) = false) (hlist : getListOfForgersStakes v1 (forks.v1_3 epoch) = .ok stakes) :
    getOrderedForgingStakesInfoSeq forks order v1 v2 epoch =
      (forgingStakesV1 order stakes).map (filteredSorted (forks.v1_4 epoch)) := by
  simp only [getOrderedForgingStakesInfoSeq, hbranch, hlist]
  show (forgingStakesV1 order stakes >>= fun stakes => pure (filteredSorted (forks.v1_4 epoch) stakes)) = _
  cases forgingStakesV1 order stakes <;> rfl

theorem mapM_entryOf_perm (forkV1_4Active : Bool) {total total' : ForgerPublicKeys → ℤ} {fs fs' : List ForgerPublicKeys}
    (htotal : ∀ f, total f = total' f) (h : fs.Perm fs') :
    (fs.mapM (entryOf total)).map (filteredSorted forkV1_4Active) = (fs'.mapM (entryOf total')).map
      (filteredSorted forkV1_4Active) := by
  obtain rfl : total = total' := funext htotal
  rw [mapM_entryOf, mapM_entryOf]
  simp only [h.mem_iff]
  split_ifs
  · exact congrArg Except.ok (sortedReverse_perm ((h.map _).filter _))
  · rfl

/-- what the sequence is: the entries of the forgers with their totals, each once, by decreasing stake with the keys as ties, and
without those below the minimum -/
structure StakeSequence (stakes : List AccountForgingStakeInfo) (forkV1_4Active : Bool) (result : List ForgingStakeInfo) :
    Prop where
  mem : ∀ info, info ∈ result ↔ ∃ f, StakesWith stakes f ∧ info = forgingStake (stakedWith stakes) f ∧
    (forkV1_4Active = true → minForgerStake ≤ info.stakeAmount)
  keys_nodup : (result.map fun info => (info.blockSignPublicKey, info.vrfPublicKey)).Nodup
  sorted : result.Pairwise fun a b => b.rank < a.rank

theorem keys_nodup_of_map {total : ForgerPublicKeys → ℤ} {fs : List ForgerPublicKeys} (h : fs.Nodup) :
    ((fs.map (forgingStake total)).map fun info => (info.blockSignPublicKey, info.vrfPublicKey)).Nodup := by
  rw [List.map_map]
  refine h.map ?_
  rintro ⟨b, v⟩ ⟨b', v'⟩ hkeys
  obtain ⟨rfl, rfl⟩ := Prod.mk.inj hkeys
  rfl

theorem stakeSequence_of_entries {stakes : List AccountForgingStakeInfo} (forkV1_4Active : Bool) {fs : List ForgerPublicKeys}
    (hnodup : fs.Nodup) (hmem : ∀ f, f ∈ fs ↔ StakesWith stakes f) :
    StakeSequence stakes forkV1_4Active (filteredSorted forkV1_4Active (fs.map (forgingStake (stakedWith stakes)))) := by
  have hperm : (filteredSorted forkV1_4Active (fs.map (forgingStake (stakedWith stakes)))).Perm
      ((fs.map (forgingStake (stakedWith stakes))).filter fun fsi => !forkV1_4Active || minForgerStake ≤ fsi.stakeAmount) :=
    List.perm_insertionSort _ _
  have hkeys : ((filteredSorted forkV1_4Active (fs.map (forgingStake (stakedWith stakes)))).map fun info =>
      (info.blockSignPublicKey, info.vrfPublicKey)).Nodup :=
    (hperm.map _).nodup_iff.2 ((keys_nodup_of_map hnodup).sublist (List.filter_sublist.map _))
  refine ⟨?_, hkeys, ?_⟩
  · intro info
    rw [hperm.mem_iff, List.mem_filter, List.mem_map]
    simp only [hmem, Bool.or_eq_true, Bool.not_eq_true', decide_eq_true_eq]
    constructor
    · rintro ⟨⟨f, hf, rfl⟩, hmin⟩
      exact ⟨f, hf, rfl, fun hfork => hmin.resolve_left (by rw [hfork]; exact Bool.noConfusion)⟩
    · rintro ⟨f, hf, rfl, hmin⟩
      refine ⟨⟨f, hf, rfl⟩, ?_⟩
      cases hfork : forkV1_4Active with
      | false => exact .inl rfl
      | true => exact .inr (hmin hfork)
  · have htrans : IsTrans ForgingStakeInfo fun a b => b.rank ≤ a.rank := ⟨fun _ _ _ h1 h2 => h2.trans h1⟩
    have htotal : Std.Total fun a b : ForgingStakeInfo => b.rank ≤ a.rank := ⟨fun a b => le_total b.rank a.rank⟩
    have hsorted := List.pairwise_insertionSort (fun a b : ForgingStakeInfo => b.rank ≤ a.rank)
      ((fs.map (forgingStake (stakedWith stakes))).filter fun fsi => !forkV1_4Active || minForgerStake ≤ fsi.stakeAmount)
    refine (hsorted.and hkeys.of_map).imp ?_
    rintro a b ⟨hle, hne⟩
    exact lt_of_le_of_ne hle fun heq => hne (rank_injective heq).symm

/-- **Order of storage.** For two lists of stakes with valid amounts that are permutations of each other, or split the same
totals into other delegations, and any orders of the maps: the sequence is the same. It is the one of the forgers with their
totals if these fit in a `Long`. -/
theorem ordered_stakes_unordered_storage (forks : Forks)
    (order order' : HashOrder (ForgerPublicKeys × List AccountForgingStakeInfo))
    (v1 v1' : ForgerStakeDb) (v2 v2' : StakeDb) (epoch : ℕ) (stakes stakes' : List AccountForgingStakeInfo)
    (hbranch : (forks.v1_4 epoch && v2.active) = false) (hbranch' : (forks.v1_4 epoch && v2'.active) = false)
    (hlist : getListOfForgersStakes v1 (forks.v1_3 epoch) = .ok stakes)
    (hlist' : getListOfForgersStakes v1' (forks.v1_3 epoch) = .ok stakes')
    (hvalid : ∀ s ∈ stakes, isValidZenAmount s.forgerStakeData.stakedAmount)
    (hvalid' : ∀ s ∈ stakes', isValidZenAmount s.forgerStakeData.stakedAmount)
    (hsame : stakes.Perm stakes' ∨ SameTotals stakes stakes') :
    getOrderedForgingStakesInfoSeq forks order v1 v2 epoch = getOrderedForgingStakesInfoSeq forks order' v1' v2' epoch ∧
      ((∀ f, stakedWith stakes f / ZENNY_TO_WEI_MULTIPLIER < 2 ^ 63) →
        ∃ result, getOrderedForgingStakesInfoSeq forks order v1 v2 epoch = .ok result ∧
          StakeSequence stakes (forks.v1_4 epoch) result) := by
  have hsame : SameTotals stakes stakes' := hsame.elim SameTotals.of_perm id
  obtain ⟨fs, hnodup, hmem, hentries⟩ := forgingStakesV1_entries hvalid order
  obtain ⟨fs', hnodup', hmem', hentries'⟩ := forgingStakesV1_entries hvalid' order'
  rw [ordered_eq hbranch hlist, ordered_eq hbranch' hlist', hentries, hentries']
  constructor
  · have hperm : fs.Perm fs' := by
      refine (List.perm_ext_iff_of_nodup hnodup hnodup').2 ?_
      intro f
      rw [hmem, hmem', hsame.forgers]
    exact mapM_entryOf_perm _ hsame.totals hperm
  · intro hfits
    have hnonneg : ∀ f, 0 ≤ stakedWith stakes f := by
      intro f
      refine List.sum_nonneg ?_
      intro w hw
      obtain ⟨s, hs, rfl⟩ := List.mem_map.1 hw
      exact (isValidZenAmount_iff.1 (hvalid s (List.mem_of_mem_filter hs))).1
    have hexact : ∀ f, entryOf (stakedWith stakes) f = .ok (forgingStake (stakedWith stakes) f) := by
      intro f
      have hzennies : 0 ≤ stakedWith stakes f / ZENNY_TO_WEI_MULTIPLIER := Int.ediv_nonneg (hnonneg f) (by decide)
      rw [entryOf, longOf_eq (by linarith) (hfits f)]
      exact newForgingStakeInfo_total _ (hnonneg f)
    rw [mapM_ok fun f _ => hexact f]
    exact ⟨_, rfl, stakeSequence_of_entries _ hnodup hmem⟩

/-! Two orders of two stakes; and so many stakes of the maximum money with one forger that their total is beyond a `Long`. -/

section Sample

def stakeOf (id : StakeId) (amount : ℤ) : AccountForgingStakeInfo := ⟨id, ⟨⟨7, 8, 9⟩, 100, amount⟩⟩

/-- the array of version 2 with the ids from 0 on, each with the amount -/
def arrayOf (ids : List ℕ) (amount : ℤ) : ForgerStakeDb where
  version := .VERSION_2
  disabled := false
  stakeData _ := some ⟨⟨7, 8, 9⟩, 100, amount⟩
  linkedListTip := none
  linkedListNodes := ∅
  forgerStakeArray := ⟨fun _ => ids.length, fun _ i => BitVec.ofNat 256 (ids.getD i 0)⟩

def forkV1_3 : Forks := ⟨fun _ => true, fun _ => false⟩

theorem arrayOf_list (ids : List ℕ) (amount : ℤ) :
    getListOfForgersStakes (arrayOf ids amount) true = .ok (ids.map fun id => stakeOf (BitVec.ofNat 256 id) amount) := by
  have hids : (arrayOf ids amount).forgerStakeArray.toList () = ids.map (BitVec.ofNat 256) := by
    refine List.ext_getElem (by simp [StateDbArray.toList, arrayOf]) ?_
    intro i hi hi'
    rw [List.length_map] at hi'
    simp [StateDbArray.toList, arrayOf, hi']
  show ((arrayOf ids amount).forgerStakeArray.toList ()).mapM (findStakeData (arrayOf ids amount)) = _
  rw [hids, List.mapM_map]
  exact mapM_ok fun id _ => rfl

theorem two_orders_one_sequence :
    getOrderedForgingStakesInfoSeq forkV1_3 (HashOrder.insertion _) (arrayOf [1, 2] MAX_MONEY_IN_WEI) StakeDb.empty 5 =
      getOrderedForgingStakesInfoSeq forkV1_3 (HashOrder.insertion _) (arrayOf [2, 1] MAX_MONEY_IN_WEI) StakeDb.empty 5 := by
  refine (ordered_stakes_unordered_storage forkV1_3 (HashOrder.insertion _) (HashOrder.insertion _)
    (arrayOf [1, 2] MAX_MONEY_IN_WEI)
    (arrayOf [2, 1] MAX_MONEY_IN_WEI) StakeDb.empty StakeDb.empty 5 _ _ rfl rfl (arrayOf_list _ _) (arrayOf_list _ _) (by decide)
    (by decide) (.inl ?_)).1
  decide

def manyStakes : List AccountForgingStakeInfo := (List.range 4393).map fun id => stakeOf (BitVec.ofNat 256 id) MAX_MONEY_IN_WEI

theorem manyStakes_total : stakedWith manyStakes ⟨7, 8, 9⟩ = 4393 * MAX_MONEY_IN_WEI := by
  have hall : (manyStakes.filter fun s => s.forgerStakeData.forgerPublicKeys = ⟨7, 8, 9⟩) = manyStakes := by
    refine List.filter_eq_self.2 ?_
    intro s hs
    obtain ⟨id, -, rfl⟩ := List.mem_map.1 hs
    rfl
  rw [stakedWith, hall, manyStakes, List.map_map]
  show ((List.range 4393).map fun _ => MAX_MONEY_IN_WEI).sum = _
  rw [List.map_const', List.sum_replicate, List.length_range]
  simp

theorem manyStakes_valid : ∀ s ∈ manyStakes, isValidZenAmount s.forgerStakeData.stakedAmount = true := by
  intro s hs
  obtain ⟨id, -, rfl⟩ := List.mem_map.1 hs
  show isValidZenAmount MAX_MONEY_IN_WEI = true
  decide

/-- the sum of the zennies is negative -/
theorem manyStakes_no_sequence :
    getListOfForgersStakes (arrayOf (List.range 4393) MAX_MONEY_IN_WEI) true = .ok manyStakes ∧
      (∀ s ∈ manyStakes, isValidZenAmount s.forgerStakeData.stakedAmount = true) ∧
      (getOrderedForgingStakesInfoSeq forkV1_3 (HashOrder.insertion _) (arrayOf (List.range 4393) MAX_MONEY_IN_WEI) StakeDb.empty
        5).isOk = false := by
  have hlist := arrayOf_list (List.range 4393) MAX_MONEY_IN_WEI
  refine ⟨hlist, manyStakes_valid, ?_⟩
  obtain ⟨fs, -, hmem, hentries⟩ := forgingStakesV1_entries manyStakes_valid (HashOrder.insertion _)
  have hforger : (⟨7, 8, 9⟩ : ForgerPublicKeys) ∈ fs :=
    (hmem _).2 ⟨stakeOf (BitVec.ofNat 256 0) MAX_MONEY_IN_WEI, List.mem_map.2 ⟨0, List.mem_range.2 (by norm_num), rfl⟩,
      rfl⟩
  have hnegative : ¬ 0 ≤ longOf (stakedWith manyStakes ⟨7, 8, 9⟩ / ZENNY_TO_WEI_MULTIPLIER) := by
    rw [manyStakes_total]
    decide
  rw [@ordered_eq forkV1_3 _ _ _ _ _ rfl hlist]
  show ((forgingStakesV1 (HashOrder.insertion _) manyStakes).map _).isOk = false
  rw [hentries, mapM_entryOf, if_neg fun hall => hnegative (hall _ hforger)]
  rfl

end Sample

end SidechainsSdk.Account.ForgingStakes
