/-
Sync info (`AbstractHistory.syncInfo` and `compare`): what a node tells another about its chain, and what the other makes of it.

A node sends the ids of its blocks at sampled heights, the newest first: ten from the tip, then with steps that double, and
the genesis block. The receiver looks for the first of them in its own active chain and counts the ids before it. From that
count and the height of the common block it computes the height of the other tip, and whether the sample before the common
block would stand within its own chain, where the two chains must then differ.

- `knownBlocksHeightToSync`, `divergentSuffix`, `calculateOtherNodeApproxHeight`, `compare`: the code.
- `approxHeight_eq`: the steps are added up in the opposite order, which gives the same sum.
- `compare_eq`: the result, from the position and the height of the common block.
- `compare_recognises_iff`: when the result is the one that lengths and forks call for. Among the ten newest samples the
  height of the sample before is computed as that of the block above the other tip, so a fork is not seen there; further
  down the height of that sample must not be the height of the own tip.

`compare` is `none` where the source throws. Heights are natural numbers; a power of two that is a step between two samples
is an `Int` in the source as well, where heights are.
-/
import Mathlib.Tactic
import SidechainsSdk.Core.Locator
import SidechainsSdk.History.ForkChoice

namespace SidechainsSdk.History

open Fallible Chain ElementsChain ActiveChain ParentTree

inductive HistoryComparisonResult where
  | Equal
  | Younger
  | Fork
  | Older
  | Nonsense
  | Unknown
deriving DecidableEq, Repr

namespace HistoryStorage

variable (s : HistoryStorage)

def activeChainBlockId (height : ℕ) : Option ModifierId := s.activeChain.idByHeight height

def heightOf (blockId : ModifierId) : Option ℕ := (s.blockInfoOptionById blockId).map SidechainBlockInfo.height

end HistoryStorage

/-! ## The code -/

def knownBlocksHeightToSync (s : HistoryStorage) : List ℕ :=
  if s.height = 0 then [] else Locator.indexes 1 s.height s.height 1 [] ++ [1]

def syncInfo (s : HistoryStorage) : Option (List ModifierId) := (knownBlocksHeightToSync s).mapM s.activeChainBlockId

/-- the loop of `calculateOtherNodeApproxHeight` -/
def approxHeight : (currentSequencePosition currentHeight step : ℕ) → ℕ
  | 0, currentHeight, _ => currentHeight
  | position + 1, currentHeight, step =>
    if position + 1 < 10 then approxHeight position (currentHeight + 1) step
    else approxHeight position (currentHeight + step * 2) (step * 2)

def calculateOtherNodeApproxHeight (startingHeight sequenceSize : ℕ) : ℤ :=
  if startingHeight = 1 then -1 else approxHeight (sequenceSize - 1) startingHeight 1

def checkForkAtSecondToLastDivergentSuffixIndex (s : HistoryStorage) (otherBestKnownBlockHeight dSuffixSize : ℕ) : Bool :=
  let heightAtPreviousIndex :=
    if dSuffixSize > 10 then otherBestKnownBlockHeight + 2 ^ (dSuffixSize - 10)
    else otherBestKnownBlockHeight + dSuffixSize
  heightAtPreviousIndex < s.height

/-- the common block, followed by the ids that are not known, the oldest first -/
def divergentSuffix (s : HistoryStorage) : (otherBlockIds suffix : List ModifierId) → List ModifierId
  | [], _ => []
  | blockId :: restOfOtherBlockIds, suffix =>
    if s.isInActiveChain blockId then blockId :: suffix else divergentSuffix s restOfOtherBlockIds (blockId :: suffix)

def compare (params : NetworkParams) (s : HistoryStorage) (otherBlockIds : List ModifierId) :
    Option HistoryComparisonResult :=
  match divergentSuffix s otherBlockIds [] with
  | [] => some .Nonsense
  | [blockId] => some (if blockId = bestBlockId params s then .Equal else .Younger)
  | blockId :: suffix => do
    let dSuffixSize := suffix.length + 1
    let otherBestKnownBlockHeight ← s.heightOf blockId
    let otherBestBlockApproxHeight := calculateOtherNodeApproxHeight otherBestKnownBlockHeight dSuffixSize
    if otherBestBlockApproxHeight > 0 then
      if otherBestBlockApproxHeight > s.height then
        if checkForkAtSecondToLastDivergentSuffixIndex s otherBestKnownBlockHeight dSuffixSize then pure .Fork
        else pure .Older
      else pure .Fork
    else pure .Unknown

/-! ## Heights from positions -/

theorem approxHeight_of_lt {position : ℕ} (h : position < 10) (height step : ℕ) :
    approxHeight position height step = height + position := by
  induction position generalizing height with
  | zero => rfl
  | succ position ih =>
    rw [approxHeight, if_pos h, ih (by omega)]
    omega

theorem approxHeight_nine_add (m height step : ℕ) :
    approxHeight (9 + m) height step = height + 2 * step * (2 ^ m - 1) + 9 := by
  induction m generalizing height step with
  | zero => simp [approxHeight_of_lt]
  | succ m ih =>
    have hpow := Nat.one_le_two_pow (n := m)
    obtain ⟨k, hk⟩ : ∃ k, 2 ^ m = k + 1 := ⟨2 ^ m - 1, by omega⟩
    rw [← Nat.add_assoc, approxHeight, if_neg (by omega), ih, Nat.pow_succ, hk, Nat.add_sub_cancel,
      show (k + 1) * 2 - 1 = 2 * k + 1 by omega]
    ring

/-- the steps, added up from the widest to the narrowest or the other way round -/
theorem approxHeight_eq (position height : ℕ) : approxHeight position height 1 = height + Locator.offset position := by
  by_cases hlt : position < 10
  · rw [approxHeight_of_lt hlt, Locator.offset_le_nine hlt]
  · obtain ⟨m, rfl⟩ : ∃ m, position = 9 + m := ⟨position - 9, by omega⟩
    rw [approxHeight_nine_add, Locator.offset_nine_add]
    omega

/-! ## The samples -/

theorem mapM_some {α β : Type} {f : α → Option β} {g : α → β} {l : List α} (h : ∀ a ∈ l, f a = some (g a)) :
    l.mapM f = some (l.map g) := by
  induction l with
  | nil => rfl
  | cons a l ih =>
    rw [List.mapM_cons, h a List.mem_cons_self, ih fun x hx => h x (List.mem_cons_of_mem _ hx)]
    rfl

theorem knownBlocksHeightToSync_eq {s : HistoryStorage} (hheight : s.height ≠ 0) :
    ∃ samples, knownBlocksHeightToSync s = samples ++ [1] ∧ (∀ x ∈ samples, 1 < x ∧ x ≤ s.height) ∧
      ∀ i x : ℕ, samples[i]? = some x → x + Locator.offset i = s.height := by
  obtain ⟨tail, htail, hrange, -⟩ := @Locator.indexes_spec 1 s.height s.height 1 [] le_rfl Nat.one_pos
  rw [List.nil_append] at htail
  refine ⟨tail, by rw [knownBlocksHeightToSync, if_neg hheight, htail], hrange, ?_⟩
  intro i x hx
  have hoffset := @Locator.indexes_offset 1 s.height s.height [] (by simp) i x
  rw [List.length_nil, Locator.offset, Nat.sub_zero, Locator.gap, if_pos (by omega), htail] at hoffset
  have heq := hoffset hx
  have := hrange x (List.mem_of_getElem? hx)
  omega

theorem mem_knownBlocksHeightToSync {s : HistoryStorage} {x : ℕ} (hx : x ∈ knownBlocksHeightToSync s) :
    1 ≤ x ∧ x ≤ s.height := by
  by_cases hheight : s.height = 0
  · rw [knownBlocksHeightToSync, if_pos hheight] at hx
    cases hx
  · obtain ⟨samples, heq, hrange, -⟩ := knownBlocksHeightToSync_eq hheight
    rw [heq] at hx
    rcases List.mem_append.1 hx with hx | hx
    · have := hrange x hx
      omega
    · rw [List.mem_singleton.1 hx]
      omega

/-- samples down to one that is not the genesis block are at their offsets -/
theorem sample_offset {s : HistoryStorage} {newer older : List ℕ} {c : ℕ}
    (h : knownBlocksHeightToSync s = newer ++ c :: older) (hc : c ≠ 1) {i x : ℕ} (hx : (newer ++ [c])[i]? = some x) :
    x + Locator.offset i = s.height := by
  have hheight : s.height ≠ 0 := by
    intro hzero
    rw [knownBlocksHeightToSync, if_pos hzero] at h
    simp at h
  obtain ⟨samples, heq, -, hoffset⟩ := knownBlocksHeightToSync_eq hheight
  have hprefix : newer ++ [c] <+: samples := by
    rcases List.eq_nil_or_concat older with rfl | ⟨init, last, rfl⟩
    · -- the last sample is the genesis block
      have hlast := List.append_inj_right' (heq.symm.trans h) rfl
      injection hlast with hlast
      exact absurd hlast.symm hc
    · rw [List.concat_eq_append, ← List.cons_append, ← List.append_assoc] at h
      have hinit := List.append_inj_left' (heq.symm.trans h) rfl
      exact ⟨init, by rw [hinit, List.append_assoc, List.singleton_append]⟩
  obtain ⟨rest, rfl⟩ := hprefix
  refine hoffset i x ?_
  rw [List.getElem?_append_left (List.getElem?_eq_some_iff.1 hx).1]
  exact hx

/-! ## Comparison -/

theorem divergentSuffix_eq {s : HistoryStorage} {newer older suffix : List ModifierId} {blockId : ModifierId}
    (hnewer : ∀ x ∈ newer, s.isInActiveChain x = false) (hblock : s.isInActiveChain blockId = true) :
    divergentSuffix s (newer ++ blockId :: older) suffix = blockId :: (newer.reverse ++ suffix) := by
  induction newer generalizing suffix with
  | nil => simp [divergentSuffix, hblock]
  | cons x newer ih =>
    have hx := hnewer x List.mem_cons_self
    rw [List.cons_append, divergentSuffix, hx]
    rw [if_neg Bool.false_ne_true, ih fun y hy => hnewer y (List.mem_cons_of_mem _ hy)]
    simp

section Compare

variable {params : NetworkParams} {s : HistoryStorage} {newer older : List ModifierId} {blockId : ModifierId}
  (hnewer : ∀ x ∈ newer, s.isInActiveChain x = false) (hblock : s.isInActiveChain blockId = true)
include hnewer hblock

/-- the newest sample is known -/
theorem compare_known (hempty : newer = []) :
    compare params s (newer ++ blockId :: older) =
      some (if blockId = bestBlockId params s then .Equal else .Younger) := by
  subst hempty
  rw [compare, divergentSuffix_eq hnewer hblock]
  rfl

/-- it is not: the result, from the height of the common block and the number of newer samples -/
theorem compare_unknown (hne : newer ≠ []) {c : ℕ} (hc : s.heightOf blockId = some c) (hgenesis : 1 < c) :
    compare params s (newer ++ blockId :: older) =
      some (if c + Locator.offset newer.length ≤ s.height then .Fork
        else if 10 ≤ newer.length ∧ c + Locator.gap newer.length < s.height then .Fork else .Older) := by
  have hlength : (newer.reverse ++ []).length = newer.length := by simp
  obtain ⟨y, suffix, hsuffix⟩ : ∃ y suffix, newer.reverse ++ [] = y :: suffix :=
    List.exists_cons_of_ne_nil (by simpa using hne)
  have hpositive : 0 < newer.length := List.length_pos_iff.2 hne
  have happrox : calculateOtherNodeApproxHeight c (newer.length + 1) = (c + Locator.offset newer.length : ℕ) := by
    rw [calculateOtherNodeApproxHeight, if_neg (by omega), Nat.add_sub_cancel, approxHeight_eq]
  have hprevious : checkForkAtSecondToLastDivergentSuffixIndex s c (newer.length + 1) =
      if 10 ≤ newer.length then decide (c + Locator.gap newer.length < s.height)
      else decide (c + (newer.length + 1) < s.height) := by
    rw [checkForkAtSecondToLastDivergentSuffixIndex]
    by_cases hten : 10 ≤ newer.length
    · rw [if_pos (by omega), if_pos hten, Locator.gap, if_neg (by omega), show newer.length + 1 - 10 = newer.length - 9 by omega]
    · rw [if_neg (by omega), if_neg hten]
  have hsize : suffix.length + 1 + 1 = newer.length + 1 := by
    rw [← hlength, hsuffix, List.length_cons]
  rw [compare, divergentSuffix_eq hnewer hblock, hsuffix]
  simp only [List.length_cons, hsize, hc, Option.bind_eq_bind, Option.bind_some, happrox, hprevious]
  have hpos : ((c + Locator.offset newer.length : ℕ) : ℤ) > 0 := by exact_mod_cast (by omega : 0 < c + Locator.offset
      newer.length)
  rw [if_pos hpos]
  by_cases hle : c + Locator.offset newer.length ≤ s.height
  · rw [if_neg (by exact_mod_cast hle.not_gt), if_pos hle]
    rfl
  · rw [if_pos (by exact_mod_cast not_le.1 hle), if_neg hle]
    by_cases hten : 10 ≤ newer.length
    · by_cases hfork : c + Locator.gap newer.length < s.height
      · simp [hten, hfork]
      · simp [hten, hfork]
    · -- the height used here is that of the block above the other tip
      have hoffset : Locator.offset newer.length = newer.length := Locator.offset_le_nine (by omega)
      have hnot : ¬ c + (newer.length + 1) < s.height := by omega
      simp [hten, hnot]

end Compare

/-! ## Two nodes -/

section Nodes

variable {params : NetworkParams} {s s' : HistoryStorage} {bs bs' : List SidechainBlock} {best best' : SidechainBlock}
  (h : Consistent params s bs best) (h' : Consistent params s' bs' best')

theorem Consistent.activeChainBlockId_eq (h : Consistent params s bs best) (n : ℕ) :
    s.activeChainBlockId (n + 1) = (paths bs best.id)[n]?.map SidechainBlock.id := by
  have hlinked := (h.wellFormed h.active.mem).linked
  rw [HistoryStorage.activeChainBlockId, h.active.chain, ActiveChain.idByHeight, ofBlocks, idByHeight_ofList hlinked,
    withInfos, List.getElem?_map, Option.map_map]
  rfl

/-- the path to a block of the active chain is as long as its height -/
theorem Consistent.path_length_at (h : Consistent params s bs best) {n : ℕ} {b : SidechainBlock}
    (hb : (paths bs best.id)[n]? = some b) : (paths bs b.id).length = n + 1 := by
  have hmem := h.heightById_of_mem (List.mem_of_getElem? hb)
  have hat : s.activeChain.heightById b.id = some (n + 1) := by
    rw [h.active.chain, ActiveChain.heightById, ofBlocks, heightById_ofList]
    refine heightIn_at (h.wellFormed h.active.mem).linked.nodup ?_
    rw [map_fst_withInfos, List.getElem?_map, hb]
    rfl
  rw [hmem] at hat
  injection hat

theorem Consistent.best_at (h : Consistent params s bs best) :
    s.activeChainBlockId s.height = some (bestBlockId params s) ∧ s.height ≠ 0 := by
  have hne : paths bs best.id ≠ [] := h.tree.grown.path_ne_nil h.active.mem
  have hlast : (paths bs best.id).getLast? = some best := h.tree.grown.path_last h.active.mem
  have hpositive := List.length_pos_iff.2 hne
  obtain ⟨n, hn⟩ : ∃ n, (paths bs best.id).length = n + 1 := ⟨(paths bs best.id).length - 1, by omega⟩
  rw [List.getLast?_eq_getElem?, hn, Nat.add_sub_cancel] at hlast
  refine ⟨?_, by rw [h.height_eq, hn]; omega⟩
  rw [h.height_eq, hn, h.activeChainBlockId_eq, hlast, h.bestBlockId_eq]
  rfl

include h h'

/-- ids are hashes: the two nodes have the same block behind an id, and so the same genesis block -/
theorem head_eq (hids : ∀ a ∈ bs, ∀ a' ∈ bs', a.id = a'.id → a = a') : bs.head? = bs'.head? := by
  obtain ⟨g, hg⟩ : ∃ g, bs.head? = some g := ⟨_, List.head?_eq_some_head h.tree.grown.ne_nil⟩
  obtain ⟨g', hg'⟩ : ∃ g', bs'.head? = some g' := ⟨_, List.head?_eq_some_head h'.tree.grown.ne_nil⟩
  have heq : g.id = g'.id := (h.tree.genesis g hg).id.trans (h'.tree.genesis g' hg').id.symm
  rw [hg, hg', hids g (List.mem_of_mem_head? hg) g' (List.mem_of_mem_head? hg') heq]

/-- a block of the other active chain that is in ours has the same height in both -/
theorem heightOf_common (hids : ∀ a ∈ bs, ∀ a' ∈ bs', a.id = a'.id → a = a') {n : ℕ} {x : SidechainBlock}
    (hx : (paths bs' best'.id)[n]? = some x) (hactive : s.isInActiveChain x.id = true) :
    s.heightOf x.id = some (n + 1) ∧ n + 1 ≤ s.height := by
  have hx' : x ∈ bs' := h'.mem_of_mem_best (List.mem_of_getElem? hx)
  have hours : x ∈ paths bs best.id := by
    by_contra hnot
    have hnone : s.activeChain.heightById x.id = none := by
      refine h.heightById_of_not_mem ?_
      intro y hy heq
      exact hnot (hids y (h.mem_of_mem_best hy) x hx' heq ▸ hy)
    have hcontains : s.isInActiveChain x.id = (s.activeChain.heightById x.id).isSome := rfl
    rw [hcontains, hnone] at hactive
    cases hactive
  have hmem : x ∈ bs := h.mem_of_mem_best hours
  have hpath : paths bs x.id = paths bs' x.id :=
    h.tree.grown.paths_agree h'.tree.grown (head_eq h h' hids) hids hmem hx'
  constructor
  · rw [HistoryStorage.heightOf, h.blockInfoOptionById_of_mem hmem, Option.map_some, h.holds.height x hmem, hpath,
      h'.path_length_at hx]
  · obtain ⟨l, hl, -⟩ := h.split_best hours
    rw [h.height_eq, hl, List.length_append, hpath, h'.path_length_at hx]
    omega

omit h h' in
/-- what lengths and forks call for: the other tip against ours, and the sample of the other chain above the last common one;
`newer` and `c` are the sampled heights down to the common block -/
structure Recognises (params : NetworkParams) (s s' : HistoryStorage) (newer : List ℕ) (c : ℕ)
    (result : Option HistoryComparisonResult) : Prop where
  equal : bestBlockId params s' = bestBlockId params s → result = some .Equal
  younger : s.isInActiveChain (bestBlockId params s') = true → bestBlockId params s' ≠ bestBlockId params s →
    result = some .Younger
  fork : s.isInActiveChain (bestBlockId params s') = false →
    (∃ x ∈ newer.getLast?, x ≤ s.height) ∨ s'.height ≤ s.height → result = some .Fork
  older : s.isInActiveChain (bestBlockId params s') = false →
    ¬ ((∃ x ∈ newer.getLast?, x ≤ s.height) ∨ s'.height ≤ s.height) → result = some .Older
  height : calculateOtherNodeApproxHeight c (newer.length + 1) = s'.height

omit h' in
theorem best_active : s.isInActiveChain (bestBlockId params s) = true := by
  have hlast : (paths bs best.id).getLast? = some best := h.tree.grown.path_last h.active.mem
  rw [h.bestBlockId_eq]
  exact (h.isInActiveChain_iff h.active.mem).2 (List.mem_of_getLast? hlast)

omit h in
/-- the ids at the samples -/
theorem syncInfo_eq : syncInfo s' = some ((knownBlocksHeightToSync s').map fun x => (s'.activeChainBlockId x).getD 0) := by
  refine mapM_some ?_
  intro x hx
  obtain ⟨hone, hle⟩ := mem_knownBlocksHeightToSync hx
  obtain ⟨n, rfl⟩ : ∃ n, x = n + 1 := ⟨x - 1, by omega⟩
  rw [h'.height_eq] at hle
  rw [h'.activeChainBlockId_eq, List.getElem?_eq_getElem (by omega)]
  rfl

section Recognised

variable (hids : ∀ a ∈ bs, ∀ a' ∈ bs', a.id = a'.id → a = a') {newer older : List ℕ} {c : ℕ}
  (hsamples : knownBlocksHeightToSync s' = newer ++ c :: older)
  (hunknown : ∀ x ∈ newer, ∀ id, s'.activeChainBlockId x = some id → s.isInActiveChain id = false)
  (hknown : ∀ id, s'.activeChainBlockId c = some id → s.isInActiveChain id = true) (hgenesis : c ≠ 1)
include hids hsamples hunknown hknown hgenesis

omit h h' hids hunknown hknown in
theorem approxHeight_true : calculateOtherNodeApproxHeight c (newer.length + 1) = s'.height := by
  have hlast : (newer ++ [c])[newer.length]? = some c := by simp
  rw [calculateOtherNodeApproxHeight, if_neg hgenesis, Nat.add_sub_cancel, approxHeight_eq,
    sample_offset hsamples hgenesis hlast]

omit h hids hunknown in
/-- the tip of the other chain is ours as well -/
theorem recognises_known (hempty : newer = []) {ids : List ModifierId} (hinfo : syncInfo s' = some ids) :
    Recognises params s s' newer c (compare params s ids) := by
  have htop : c = s'.height := by
    have := sample_offset hsamples hgenesis (i := 0) (x := c) (by simp [hempty])
    simpa [Locator.offset] using this
  obtain ⟨hbest, -⟩ := h'.best_at
  have hid : (s'.activeChainBlockId c).getD 0 = bestBlockId params s' := by
    rw [htop, hbest]
    rfl
  have hactive : s.isInActiveChain (bestBlockId params s') = true := hknown _ (htop ▸ hbest)
  rw [syncInfo_eq h', hsamples, List.map_append, List.map_cons, hid] at hinfo
  injection hinfo with hinfo
  subst hinfo
  rw [compare_known (by simp [hempty]) hactive (by simp [hempty])]
  refine ⟨?_, ?_, ?_, ?_, approxHeight_true hsamples hgenesis⟩
  · intro heq
    rw [if_pos heq]
  · intro _ hne
    rw [if_neg hne]
  · intro hfalse
    rw [hactive] at hfalse
    cases hfalse
  · intro hfalse
    rw [hactive] at hfalse
    cases hfalse

/-- it is not: the result of the comparison, in terms of the heights -/
theorem compare_of_unknown (hne : newer ≠ []) {ids : List ModifierId} (hinfo : syncInfo s' = some ids) :
    ∃ x, newer.getLast? = some x ∧ x = c + Locator.gap newer.length ∧ c ≤ s.height ∧
      s.isInActiveChain (bestBlockId params s') = false ∧
      compare params s ids = some (if s'.height ≤ s.height then .Fork
        else if 10 ≤ newer.length ∧ x < s.height then .Fork else .Older) := by
  obtain ⟨init, x, hconcat⟩ : ∃ init x, newer = init ++ [x] := ⟨_, _, (List.dropLast_append_getLast hne).symm⟩
  have hheight : c + Locator.offset newer.length = s'.height := sample_offset hsamples hgenesis (by simp)
  have hnext : x = c + Locator.gap newer.length := by
    have hx : x + Locator.offset init.length = s'.height := sample_offset hsamples hgenesis (by simp [hconcat])
    rw [hconcat, List.length_append, List.length_singleton, Locator.offset] at hheight
    rw [hconcat, List.length_append, List.length_singleton]
    omega
  -- the common block
  have hcrange := mem_knownBlocksHeightToSync (s := s') (x := c) (by rw [hsamples]; simp)
  obtain ⟨n, rfl⟩ : ∃ n, c = n + 1 := ⟨c - 1, by omega⟩
  rw [h'.height_eq] at hcrange
  obtain ⟨b, hb⟩ : ∃ b, (paths bs' best'.id)[n]? = some b := ⟨_, List.getElem?_eq_getElem (by omega)⟩
  have hat : s'.activeChainBlockId (n + 1) = some b.id := by rw [h'.activeChainBlockId_eq, hb, Option.map_some]
  have hactive := hknown b.id hat
  obtain ⟨hcommon, hle⟩ := heightOf_common h h' hids hb hactive
  -- the newer ones
  have hnewer : ∀ id ∈ newer.map fun x => (s'.activeChainBlockId x).getD 0, s.isInActiveChain id = false := by
    intro id hid
    obtain ⟨y, hy, rfl⟩ := List.mem_map.1 hid
    obtain ⟨hone, hyle⟩ := mem_knownBlocksHeightToSync (s := s') (x := y) (by rw [hsamples]; simp [hy])
    obtain ⟨m, rfl⟩ : ∃ m, y = m + 1 := ⟨y - 1, by omega⟩
    rw [h'.height_eq] at hyle
    refine hunknown (m + 1) hy _ ?_
    rw [h'.activeChainBlockId_eq, List.getElem?_eq_getElem (by omega)]
    rfl
  have htip : s.isInActiveChain (bestBlockId params s') = false := by
    obtain ⟨hbest, -⟩ := h'.best_at
    refine hunknown s'.height ?_ _ hbest
    obtain ⟨first, rest, rfl⟩ := List.exists_cons_of_ne_nil hne
    have hfirst := sample_offset hsamples hgenesis (i := 0) (x := first) (by simp)
    simp only [Locator.offset, Nat.add_zero] at hfirst
    rw [← hfirst]
    exact List.mem_cons_self
  refine ⟨x, by rw [hconcat]; simp, hnext, hle, htip, ?_⟩
  rw [syncInfo_eq h', hsamples, List.map_append, List.map_cons, hat, Option.getD_some] at hinfo
  injection hinfo with hinfo
  subst hinfo
  rw [compare_unknown hnewer hactive (by simpa using hne) hcommon (by omega), List.length_map, hheight, hnext]

end Recognised

omit h' in
/-- with a tip that is not in our chain: the forks that are seen against those that there are -/
theorem recognises_iff {newer : List ℕ} {c x : ℕ} {result : Option HistoryComparisonResult}
    (hlast : newer.getLast? = some x) (htip : s.isInActiveChain (bestBlockId params s') = false)
    (hresult : result = some (if s'.height ≤ s.height then .Fork
      else if 10 ≤ newer.length ∧ x < s.height then .Fork else .Older))
    (happrox : calculateOtherNodeApproxHeight c (newer.length + 1) = s'.height) :
    Recognises params s s' newer c result ↔
      (x ≤ s.height ∨ s'.height ≤ s.height ↔ s'.height ≤ s.height ∨ (10 ≤ newer.length ∧ x < s.height)) := by
  have hdiffer : bestBlockId params s' ≠ bestBlockId params s := by
    intro heq
    rw [heq, best_active h] at htip
    cases htip
  have hfork : (∃ y ∈ newer.getLast?, y ≤ s.height) ∨ s'.height ≤ s.height ↔ x ≤ s.height ∨
      s'.height ≤ s.height := by
    simp [hlast]
  rw [hresult]
  constructor
  · intro hrec
    have h1 := hrec.fork htip
    have h2 := hrec.older htip
    rw [hfork] at h1 h2
    by_cases hshort : s'.height ≤ s.height
    · simp [hshort]
    · by_cases hseen : 10 ≤ newer.length ∧ x < s.height
      · simp [hseen, hseen.2.le]
      · by_cases hx : x ≤ s.height
        · simp [hshort, hseen, hx] at h1
        · simp [hshort, hseen, hx]
  · intro hiff
    refine ⟨fun heq => absurd heq hdiffer, ?_, ?_, ?_, happrox⟩
    · intro htrue
      rw [htip] at htrue
      cases htrue
    · intro _ hcond
      rcases hiff.1 (hfork.1 hcond) with hshort | hseen
      · rw [if_pos hshort]
      · rw [if_pos hseen, ite_self]
    · intro _ hcond
      have hnot : ¬ (s'.height ≤ s.height ∨ (10 ≤ newer.length ∧ x < s.height)) :=
        fun hor => hcond (hfork.2 (hiff.2 hor))
      rw [not_or] at hnot
      rw [if_neg hnot.1, if_neg hnot.2]

/-- **Comparison of sync infos.** For two nodes with blocks of one tree, `newer` and `c` the heights that the other node
samples down to the newest one that is in our active chain, and not the genesis block: the comparison gives what lengths and
forks call for exactly if our chain has the other tip or is at least as long; or its tip is the common block, if that is among
the ten newest samples; or, further down, the sample above the common block is not at the height of our tip. -/
theorem compare_recognises_iff (hids : ∀ a ∈ bs, ∀ a' ∈ bs', a.id = a'.id → a = a') (newer older : List ℕ) (c : ℕ)
    (hsamples : knownBlocksHeightToSync s' = newer ++ c :: older)
    (hunknown : ∀ x ∈ newer, ∀ id, s'.activeChainBlockId x = some id → s.isInActiveChain id = false)
    (hknown : ∀ id, s'.activeChainBlockId c = some id → s.isInActiveChain id = true) (hgenesis : c ≠ 1) :
    ∃ ids, syncInfo s' = some ids ∧ (Recognises params s s' newer c (compare params s ids) ↔
      newer = [] ∨ s'.height ≤ s.height ∨ (newer.length < 10 ∧ c = s.height) ∨
        (10 ≤ newer.length ∧ newer.getLast? ≠ some s.height)) := by
  refine ⟨_, syncInfo_eq h', ?_⟩
  by_cases hempty : newer = []
  · exact iff_of_true (recognises_known h' hsamples hknown hgenesis hempty (syncInfo_eq h')) (.inl hempty)
  · obtain ⟨x, hlast, hnext, hle, htip, hresult⟩ :=
      compare_of_unknown h h' hids hsamples hunknown hknown hgenesis hempty (syncInfo_eq h')
    have hpositive : 0 < newer.length := List.length_pos_iff.2 hempty
    rw [recognises_iff h hlast htip hresult (approxHeight_true hsamples hgenesis), hlast]
    by_cases hten : 10 ≤ newer.length
    · simp only [hempty, false_or, Option.some_inj, ne_eq]
      omega
    · have hgap : Locator.gap newer.length = 1 := by rw [Locator.gap, if_pos (by omega)]
      simp only [hempty, false_or]
      omega

end Nodes

/-! Two nodes that share the blocks 1 and 2. -/

def onTop (id parentId : ModifierId) : SidechainBlock := ⟨id, parentId, [], [], []⟩

theorem headersOf_onTop (l : List SidechainBlock) (id parentId : ModifierId) :
    headersOf (l ++ [onTop id parentId]) = headersOf l ∧ dataOf (l ++ [onTop id parentId]) = dataOf l := by
  constructor
  · rw [headersOf, headersOf, List.flatMap_append]
    exact List.append_nil _
  · rw [dataOf, dataOf, List.flatMap_append]
    exact List.append_nil _

/-- a block without mainchain data on top of the best one -/
theorem consistent_onTop {bs : List SidechainBlock} {best : SidechainBlock}
    (h : Consistent sampleParams (historyOf sampleParams bs) bs best) (hnone : NoneInvalid (historyOf sampleParams bs) bs)
    (id : ModifierId) (hfresh : ∀ x ∈ bs, x.id ≠ id) (hlength : bs.length < 10) :
    Consistent sampleParams (historyOf sampleParams (bs ++ [onTop id best.id])) (bs ++ [onTop id best.id]) (onTop id best.id) ∧
      NoneInvalid (historyOf sampleParams (bs ++ [onTop id best.id])) (bs ++ [onTop id best.id]) := by
  obtain ⟨hheaders, hdata⟩ := headersOf_onTop (paths bs best.id) id best.id
  have hwf := h.wellFormed h.active.mem
  have hdescribes : ∀ b ∈ paths bs best.id, Describes (infoAt (historyOf sampleParams bs) b.id) b :=
    fun b hb => h.holds.describes b (h.mem_of_mem_best hb)
  have hcontinues : Continues (paths bs best.id) (onTop id best.id) := by
    refine ⟨by simp [SidechainBlock.mainchainParent, onTop], ?_, ?_⟩
    · rw [hheaders, ← headerHashes_withInfos hdescribes]
      exact hwf.nodup
    · rw [hheaders, hdata]
      exact (dataFollows_withInfos hdescribes).1 (hwf.follows _ (List.prefix_refl _))
  have happendable : Appendable sampleParams (fun _ _ => true) (historyOf sampleParams bs) bs (onTop id best.id) :=
    ⟨⟨best, h.active.mem, rfl⟩, hfresh, hcontinues, rfl⟩
  obtain ⟨s', hexec, hnone', hcons⟩ := h.step hnone happendable
    (withinLimit_of_length h.tree.grown (hlength.le.trans (by decide))) hlength
  have hrun : historyOf sampleParams (bs ++ [onTop id best.id]) = s' := by
    rw [historyOf, List.foldl_append]
    show (exec (appendAndApply sampleParams (fun _ _ => true) 10 (onTop id best.id)) (historyOf sampleParams bs)).2 = s'
    rw [hexec]
  obtain ⟨-, hpath⟩ := paths_new (b := onTop id best.id) h.active.mem rfl hfresh
  have hrank : rank (paths bs best.id) < rank (paths (bs ++ [onTop id best.id]) (onTop id best.id).id) := by
    rw [hpath]
    exact rank_lt_concat _ _
  rw [if_pos hrank] at hcons
  rw [hrun]
  exact ⟨hcons, hnone'⟩

def ownBlocks : List SidechainBlock := [sampleGenesisBlock, onTop 2 1]

def ownForkBlocks : List SidechainBlock := ownBlocks ++ [onTop 3 2]

def otherBlocks : List SidechainBlock := ownBlocks ++ [onTop 4 2] ++ [onTop 5 4]

theorem consistent_ownBlocks : Consistent sampleParams (historyOf sampleParams ownBlocks) ownBlocks (onTop 2 1) ∧
    NoneInvalid (historyOf sampleParams ownBlocks) ownBlocks := by
  have hrun : Run sampleParams (fun _ _ => true) (historyOf sampleParams [sampleGenesisBlock]) [sampleGenesisBlock] :=
    .genesis 10 sampleGenesisBlock_genesis rfl
  obtain ⟨best, hbest⟩ := hrun.maximal
  obtain rfl := List.mem_singleton.1 hbest.consistent.active.mem
  exact consistent_onTop hbest.consistent hbest.noneInvalid 2 (by simp [sampleGenesisBlock]) (by simp)

theorem consistent_otherBlocks :
    Consistent sampleParams (historyOf sampleParams otherBlocks) otherBlocks (onTop 5 4) := by
  obtain ⟨h, hnone⟩ := consistent_ownBlocks
  obtain ⟨h', hnone'⟩ := consistent_onTop h hnone 4 (by simp [ownBlocks, sampleGenesisBlock, onTop]) (by simp [ownBlocks])
  exact (consistent_onTop h' hnone' 5 (by simp [ownBlocks, sampleGenesisBlock, onTop]) (by simp [ownBlocks])).1

/-- our tip is the common block, and the other chain is ahead -/
theorem compare_recognises_older : ∃ ids, syncInfo (historyOf sampleParams otherBlocks) = some ids ∧
    Recognises sampleParams (historyOf sampleParams ownBlocks) (historyOf sampleParams otherBlocks) [4, 3] 2
      (compare sampleParams (historyOf sampleParams ownBlocks) ids) := by
  obtain ⟨ids, hinfo, hiff⟩ := compare_recognises_iff consistent_ownBlocks.1 consistent_otherBlocks
    (by simp [ownBlocks, otherBlocks, sampleGenesisBlock, onTop]) [4, 3] [1] 2 (by decide +kernel) (by decide +kernel)
    (by decide +kernel) (by decide)
  exact ⟨ids, hinfo, hiff.2 (.inr (.inr (.inl ⟨by decide, by decide +kernel⟩)))⟩

/-- our chain has another block at height 3: the chains have parted, and the result is `Older` -/
theorem compare_misses_fork : syncInfo (historyOf sampleParams otherBlocks) = some [5, 4, 2, 1] ∧
    knownBlocksHeightToSync (historyOf sampleParams otherBlocks) = [4, 3] ++ 2 :: [1] ∧
    (historyOf sampleParams ownForkBlocks).height = 3 ∧
    compare sampleParams (historyOf sampleParams ownForkBlocks) [5, 4, 2, 1] = some .Older ∧
    ¬ Recognises sampleParams (historyOf sampleParams ownForkBlocks) (historyOf sampleParams otherBlocks) [4, 3] 2
      (compare sampleParams (historyOf sampleParams ownForkBlocks) [5, 4, 2, 1]) := by
  have hresult : compare sampleParams (historyOf sampleParams ownForkBlocks) [5, 4, 2, 1] = some .Older := by decide +kernel
  refine ⟨by decide +kernel, by decide +kernel, by decide +kernel, hresult, ?_⟩
  intro hrec
  have hfork := hrec.fork (by decide +kernel) (.inl ⟨3, rfl, by decide +kernel⟩)
  rw [hresult] at hfork
  cases hfork

end SidechainsSdk.History
