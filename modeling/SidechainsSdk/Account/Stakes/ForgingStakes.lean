/-
The stakes that take part in the slot leader lottery (`getOrderedForgingStakesInfoSeq`), from either stake contract.

Stakes of the first contract are grouped by forger and summed; the second one keeps a total for every forger. In both cases
amounts are converted to zennies, forgers with less than the minimum are dropped, and the rest is sorted by decreasing
stake, ties being broken by the keys.

- `forgingStakesV1_eq`, `getForgingStakes_eq`: what the two sources give, when no conversion fails.
- `sortedReverse_perm`: the sorted sequence does not depend on the order it is computed from.
-/
import Mathlib.Tactic
import Mathlib.Data.List.Sort
import Mathlib.Data.Prod.Lex
import SidechainsSdk.Core.Fallible
import SidechainsSdk.Core.Grouping
import SidechainsSdk.Account.Stakes.StakeStorage
import SidechainsSdk.Account.Stakes.ForgerStakeStorage

namespace SidechainsSdk.Account.ForgingStakes

open Fallible StakeStorage ForgerStakeStorage

structure ForgingStakeInfo where
  blockSignPublicKey : BitVec 256
  vrfPublicKey : VrfPublicKey
  stakeAmount : ℤ
deriving DecidableEq

/-- `ForgingStakeInfo(..)` -/
def newForgingStakeInfo (keys : ForgerPublicKeys) (stakeAmount : ℤ) : Except Exc ForgingStakeInfo :=
  if stakeAmount ≥ 0 then .ok ⟨keys.blockSignPublicKey, keys.vrfPublicKey, stakeAmount⟩
  else .error (.illegalArgument "requirement failed: stakeAmount expected to be non negative.")

/-- `ZenWeiConverter.convertWeiToZennies` -/
def convertWeiToZennies (valueInWei : ℤ) : Except Exc ℤ :=
  if isValidZenAmount valueInWei then .ok (valueInWei.tdiv ZENNY_TO_WEI_MULTIPLIER)
  else .error (.illegalArgument s!"requirement failed: Amount {valueInWei} wei is not a valid Zen sum")

/-- `Long` addition -/
def addLong (a b : ℤ) : ℤ := (a + b).bmod (2 ^ 64)

/-- the entry of one forger, from its stakes with the first contract -/
def forgingStakeInfoOf (forger : ForgerPublicKeys) (stakes : List AccountForgingStakeInfo) : Except Exc ForgingStakeInfo := do
  let zennies ← stakes.mapM fun s => convertWeiToZennies s.forgerStakeData.stakedAmount
  newForgingStakeInfo forger (zennies.foldl addLong 0)

/-- the stakes of the first contract, by forger; `order` is that of the map made by `groupBy` -/
def forgingStakesV1 (order : HashOrder (ForgerPublicKeys × List AccountForgingStakeInfo))
    (stakes : List AccountForgingStakeInfo) : Except Exc (List ForgingStakeInfo) :=
  (order.iterate (Grouping.groupBy (fun s => s.forgerStakeData.forgerPublicKeys) stakes)).mapM fun group =>
    forgingStakeInfoOf group.1 group.2

/-- `ForgerMap.getForger` -/
def getForger (db : StakeDb) (forgerKey : ForgerPublicKeys) : Except Exc ForgerInfo :=
  match db.forgerInfo forgerKey with
  | some forger => .ok forger
  | none => .error (.other "no data to parse")

/-- `StakeStorage.getForgingStakes` -/
def getForgingStakes (db : StakeDb) : Except Exc (List ForgingStakeInfo) :=
  (db.listOfForgers.toList ()).mapM fun forgerKey => do
    let forger ← getForger db forgerKey
    let zennies ← convertWeiToZennies (getLatestAmount db (.forger forgerKey))
    newForgingStakeInfo forger.forgerPublicKeys zennies

/-- the order of `compare`: by stake, then by the bytes of the keys -/
def ForgingStakeInfo.rank (i : ForgingStakeInfo) : ℤ ×ₗ ℕ ×ₗ ℕ ×ₗ ℕ :=
  toLex (i.stakeAmount, toLex (i.blockSignPublicKey.toNat, toLex (i.vrfPublicKey.vrf1.toNat, i.vrfPublicKey.vrf2.toNat)))

/-- `sorted(Ordering[ForgingStakeInfo].reverse)` -/
def sortedReverse (l : List ForgingStakeInfo) : List ForgingStakeInfo := l.insertionSort fun a b => b.rank ≤ a.rank

def minForgerStake : ℤ := 10 * COIN

/-- the forks whose activation is looked up by epoch -/
structure Forks where
  v1_3 : ℕ → Bool
  v1_4 : ℕ → Bool

def getOrderedForgingStakesInfoSeq (forks : Forks)
    (order : HashOrder (ForgerPublicKeys × List AccountForgingStakeInfo)) (v1 : ForgerStakeDb) (v2 : StakeDb)
    (stateEpochNumber : ℕ) : Except Exc (List ForgingStakeInfo) := do
  let forkV1_4Active := forks.v1_4 stateEpochNumber
  let stakes ← if forkV1_4Active && v2.active then getForgingStakes v2
    else do
      let listOfStakes ← getListOfForgersStakes v1 (forks.v1_3 stateEpochNumber)
      forgingStakesV1 order listOfStakes
  return sortedReverse (stakes.filter fun fsi => !forkV1_4Active || minForgerStake ≤ fsi.stakeAmount)

/-! ## Sorting -/

theorem rank_injective : Function.Injective ForgingStakeInfo.rank := by
  rintro ⟨b, ⟨v1, v2⟩, n⟩ ⟨b', ⟨v1', v2'⟩, n'⟩ h
  simp only [ForgingStakeInfo.rank, EmbeddingLike.apply_eq_iff_eq, Prod.mk.injEq, BitVec.toNat_inj] at h
  obtain ⟨rfl, rfl, rfl, rfl⟩ := h
  rfl

theorem sortedReverse_perm {l l' : List ForgingStakeInfo} (h : l.Perm l') : sortedReverse l = sortedReverse l' := by
  have htrans : IsTrans ForgingStakeInfo fun a b => b.rank ≤ a.rank := ⟨fun _ _ _ h1 h2 => h2.trans h1⟩
  have htotal : Std.Total fun a b : ForgingStakeInfo => b.rank ≤ a.rank := ⟨fun a b => le_total b.rank a.rank⟩
  have hantisymm : Std.Antisymm fun a b : ForgingStakeInfo => b.rank ≤ a.rank :=
    ⟨fun _ _ h1 h2 => rank_injective (le_antisymm h2 h1)⟩
  have hperm : (sortedReverse l).Perm (sortedReverse l') :=
    (List.perm_insertionSort _ l).trans (h.trans (List.perm_insertionSort _ l').symm)
  exact hperm.eq_of_pairwise' (List.pairwise_insertionSort _ l) (List.pairwise_insertionSort _ l')

/-! ## The two sources -/

theorem convertWeiToZennies_valid {w : ℤ} (h : isValidZenAmount w = true) :
    convertWeiToZennies w = .ok (w / ZENNY_TO_WEI_MULTIPLIER) := by
  unfold convertWeiToZennies
  rw [if_pos h, Int.tdiv_eq_ediv_of_nonneg (isValidZenAmount_iff.1 h).1]

/-- the stakes with one forger, in wei -/
def stakedWith (stakes : List AccountForgingStakeInfo) (f : ForgerPublicKeys) : ℤ :=
  ((stakes.filter fun s => s.forgerStakeData.forgerPublicKeys = f).map fun s => s.forgerStakeData.stakedAmount).sum

/-- the entry of a forger, from its total in wei -/
def forgingStake (total : ForgerPublicKeys → ℤ) (f : ForgerPublicKeys) : ForgingStakeInfo :=
  ⟨f.blockSignPublicKey, f.vrfPublicKey, total f / ZENNY_TO_WEI_MULTIPLIER⟩

theorem newForgingStakeInfo_total (total : ForgerPublicKeys → ℤ) {f : ForgerPublicKeys} (h : 0 ≤ total f) :
    newForgingStakeInfo f (total f / ZENNY_TO_WEI_MULTIPLIER) = .ok (forgingStake total f) := by
  have hnonneg : total f / ZENNY_TO_WEI_MULTIPLIER ≥ 0 := Int.ediv_nonneg h (by decide)
  rw [newForgingStakeInfo, if_pos hnonneg]
  rfl

/-- `Long` addition is exact as long as the sum of the summands fits -/
theorem foldl_addLong (l : List ℤ) (x : ℤ) (hx : 0 ≤ x) (hl : ∀ y ∈ l, 0 ≤ y) (hsum : x + l.sum < 2 ^ 63) :
    l.foldl addLong x = x + l.sum := by
  induction l generalizing x with
  | nil => simp
  | cons y l ih =>
    have hy := hl y List.mem_cons_self
    have hl' : ∀ z ∈ l, 0 ≤ z := fun z hz => hl z (List.mem_cons_of_mem _ hz)
    have hrest : 0 ≤ l.sum := List.sum_nonneg hl'
    rw [List.sum_cons] at hsum
    have hadd : addLong x y = x + y := by
      unfold addLong
      exact Int.bmod_eq_of_le (by omega) (by omega)
    rw [List.foldl_cons, hadd, ih (x + y) (by omega) hl' (by omega), List.sum_cons]
    ring

/-- amounts in whole zennies can be converted before or after they are summed -/
theorem sum_ediv_zennies (l : List ℤ) (h : ∀ w ∈ l, ZENNY_TO_WEI_MULTIPLIER ∣ w) :
    (l.map (· / ZENNY_TO_WEI_MULTIPLIER)).sum = l.sum / ZENNY_TO_WEI_MULTIPLIER := by
  induction l with
  | nil => rfl
  | cons w l ih =>
    rw [List.map_cons, List.sum_cons, List.sum_cons, ih fun w' hw' => h w' (List.mem_cons_of_mem _ hw'),
      Int.add_ediv_of_dvd_left (h w List.mem_cons_self)]

section First

variable {stakes : List AccountForgingStakeInfo} (hvalid : ∀ s ∈ stakes, isValidZenAmount s.forgerStakeData.stakedAmount)

include hvalid

theorem stakedWith_valid {f : ForgerPublicKeys} (hmax : stakedWith stakes f ≤ MAX_MONEY_IN_WEI) :
    isValidZenAmount (stakedWith stakes f) = true := by
  refine isValidZenAmount_iff.2 ⟨?_, hmax, ?_⟩
  · refine List.sum_nonneg ?_
    intro w hw
    obtain ⟨s, hs, rfl⟩ := List.mem_map.1 hw
    exact (isValidZenAmount_iff.1 (hvalid s (List.mem_of_mem_filter hs))).1
  · refine List.dvd_sum ?_
    intro w hw
    obtain ⟨s, hs, rfl⟩ := List.mem_map.1 hw
    exact (isValidZenAmount_iff.1 (hvalid s (List.mem_of_mem_filter hs))).2.2

/-- the entry of one forger: the conversions succeed and the sum does not overflow -/
theorem forgingStakeInfoOf_eq {f : ForgerPublicKeys} (hmax : stakedWith stakes f ≤ MAX_MONEY_IN_WEI) :
    forgingStakeInfoOf f (stakes.filter fun s => s.forgerStakeData.forgerPublicKeys = f) =
      .ok (forgingStake (stakedWith stakes) f) := by
  have hgroup : ∀ s ∈ stakes.filter (fun s => s.forgerStakeData.forgerPublicKeys = f),
      isValidZenAmount s.forgerStakeData.stakedAmount = true := fun s hs => hvalid s (List.mem_of_mem_filter hs)
  unfold forgingStakeInfoOf
  rw [mapM_ok fun s hs => convertWeiToZennies_valid (hgroup s hs)]
  have htotal := isValidZenAmount_iff.1 (stakedWith_valid hvalid hmax)
  have hsum : ((stakes.filter fun s => s.forgerStakeData.forgerPublicKeys = f).map fun s =>
      s.forgerStakeData.stakedAmount / ZENNY_TO_WEI_MULTIPLIER).sum = stakedWith stakes f / ZENNY_TO_WEI_MULTIPLIER := by
    rw [stakedWith, ← sum_ediv_zennies, List.map_map]
    · rfl
    · intro w hw
      obtain ⟨s, hs, rfl⟩ := List.mem_map.1 hw
      exact (isValidZenAmount_iff.1 (hgroup s hs)).2.2
  have hfits : stakedWith stakes f / ZENNY_TO_WEI_MULTIPLIER < 2 ^ 63 := by
    have hle : stakedWith stakes f / ZENNY_TO_WEI_MULTIPLIER ≤ MAX_MONEY_IN_WEI / ZENNY_TO_WEI_MULTIPLIER :=
      Int.ediv_le_ediv (by decide) hmax
    exact lt_of_le_of_lt hle (by decide)
  show newForgingStakeInfo f _ = _
  rw [foldl_addLong _ 0 le_rfl ?_ (by rw [hsum]; simpa using hfits), hsum, zero_add]
  · exact newForgingStakeInfo_total _ htotal.1
  · intro w hw
    obtain ⟨s, hs, rfl⟩ := List.mem_map.1 hw
    exact Int.ediv_nonneg (isValidZenAmount_iff.1 (hgroup s hs)).1 (by decide)

/-- the first contract: one entry for every forger with a stake -/
theorem forgingStakesV1_eq (order : HashOrder (ForgerPublicKeys × List AccountForgingStakeInfo))
    (hmax : ∀ f, stakedWith stakes f ≤ MAX_MONEY_IN_WEI) :
    ∃ fs : List ForgerPublicKeys, fs.Nodup ∧
      (∀ f, f ∈ fs ↔ ∃ s ∈ stakes, s.forgerStakeData.forgerPublicKeys = f) ∧
      forgingStakesV1 order stakes = .ok (fs.map (forgingStake (stakedWith stakes))) := by
  let groups := Grouping.groupBy (fun s : AccountForgingStakeInfo => s.forgerStakeData.forgerPublicKeys) stakes
  have hperm : ((order.iterate groups).map Prod.fst).Perm (groups.map Prod.fst) := (order.perm groups).map _
  refine ⟨(order.iterate groups).map Prod.fst, ?_, ?_, ?_⟩
  · exact hperm.nodup_iff.2 (Grouping.groupBy_keys_nodup _ _)
  · intro f
    rw [hperm.mem_iff, Grouping.mem_groupBy_keys, List.mem_map]
  · rw [List.map_map]
    refine mapM_ok ?_
    intro g hg
    obtain ⟨hstakes, -⟩ := Grouping.mem_groupBy _ _ _ ((order.perm groups).mem_iff.1 hg)
    rw [hstakes]
    exact forgingStakeInfoOf_eq hvalid (hmax g.1)

end First

/-- the second contract: one entry for every registered forger -/
theorem getForgingStakes_eq {db : StakeDb} (hdb : (content db).Registry)
    (hvalid : ∀ f ∈ (content db).forgers, isValidZenAmount (latestAmount ((content db).history (.forger f)))) :
    getForgingStakes db =
      .ok ((content db).forgers.map (forgingStake fun f => latestAmount ((content db).history (.forger f)))) := by
  refine mapM_ok ?_
  intro f hf
  obtain ⟨info, hinfo⟩ := Option.isSome_iff_exists.1 ((hdb.registered f).1 hf)
  have hkeys := hdb.info_keys f info hinfo
  have hforger : getForger db f = .ok info := by
    have hinfo' : db.forgerInfo f = some info := hinfo
    simp only [getForger, hinfo']
  rw [hforger, getLatestAmount_eq, ← hkeys]
  show (convertWeiToZennies _ >>= fun zennies => newForgingStakeInfo info.forgerPublicKeys zennies) = _
  rw [hkeys, convertWeiToZennies_valid (hvalid f hf)]
  have hnonneg := (isValidZenAmount_iff.1 (hvalid f hf)).1
  exact newForgingStakeInfo_total (fun f => latestAmount ((content db).history (.forger f))) hnonneg

end SidechainsSdk.Account.ForgingStakes
