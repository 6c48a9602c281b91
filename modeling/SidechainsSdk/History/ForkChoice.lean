/-
Fork choice. Blocks of a tree are appended in any order in which parents come first, and after each append the blocks to apply
are reported as valid. A chain is ranked by its score, and by its height among equal scores.

The mainchain data of every block continues that of its parent's chain. The validators do not see to this: the walk back over
the mainchain headers stops at that of the genesis block, so that a later block may begin with this header again. Such a block
is recorded as the best one before the active chain refuses it.

- `Consistent.step`: a block that ranks above the best block becomes the best block; otherwise the best block stays.
- `best_is_maximal`: after every run the best block has the highest rank in the tree, and equal trees lead to equal ranks
  whatever the order was.
- `replayed_header_breaks_choice`: what a block with the genesis header does.
-/
import Mathlib.Tactic
import SidechainsSdk.History.Tree

namespace SidechainsSdk.History

open Fallible Chain ActiveChain ParentTree

/-- `append`, and `reportModifierIsValid` for the blocks to apply -/
def appendAndApply (params : NetworkParams) (validators : HistoryStorage → SidechainBlock → Bool) (fuel : ℕ)
    (block : SidechainBlock) : Historic Unit := do
  let progressInfo ← append params validators fuel block
  progressInfo.toApply.forM reportModifierIsValid

/-- no block is known as invalid -/
def NoneInvalid (s : HistoryStorage) (bs : List SidechainBlock) : Prop :=
  ∀ x ∈ bs, (infoAt s x.id).semanticValidity ≠ .Invalid

/-- blocks that are applied are not invalid -/
theorem NoneInvalid.applied {s s' : HistoryStorage} {bs l : List SidechainBlock} (h : NoneInvalid s bs)
    (hinfos : ∀ x ∈ bs, (x ∈ l ∧ (infoAt s' x.id).semanticValidity = .Valid) ∨
      (x ∉ l ∧ infoAt s' x.id = infoAt s x.id)) :
    NoneInvalid s' bs := by
  intro x hx
  rcases hinfos x hx with ⟨-, hvalid⟩ | ⟨-, hsame⟩
  · rw [hvalid]
    exact SemanticValidity.noConfusion
  · rw [hsame]
    exact h x hx

section Apply

variable {params : NetworkParams} {s : HistoryStorage} {bs : List SidechainBlock} {best : SidechainBlock}

/-- a block that comes after its parent and has passed the validators, and whose mainchain data continues that of the parent's
chain -/
structure Appendable (params : NetworkParams) (validators : HistoryStorage → SidechainBlock → Bool) (s : HistoryStorage)
    (bs : List SidechainBlock) (b : SidechainBlock) : Prop where
  parent : ∃ a ∈ bs, a.id = b.parentId
  fresh : ∀ x ∈ bs, x.id ≠ b.id
  continues : Continues (paths bs b.parentId) b
  valid : validators s b = true

/-- the fork of `b` does not branch off too far below the tip -/
def WithinLimit (params : NetworkParams) (s : HistoryStorage) (bs : List SidechainBlock) (b : SidechainBlock) : Prop :=
  ∀ best a c l₁ l₂, best ∈ bs → bestBlockId params s = best.id → a ∈ bs → a.id = b.parentId →
    Consistent.Fork bs best a c l₁ l₂ → l₁.length ≤ params.maxHistoryRewritingLength

variable {validators : HistoryStorage → SidechainBlock → Bool} {b : SidechainBlock} {fuel : ℕ}

/-- a chain with one more block ranks higher -/
theorem rank_lt_concat (l : List SidechainBlock) (b : SidechainBlock) : rank l < rank (l ++ [b]) := by
  have hscore : chainScore (l ++ [b]) = chainScore l + b.score := by simp [chainScore]
  have hpos : 0 < b.score := by
    rw [SidechainBlock.score]
    omega
  rw [rank, rank, Prod.Lex.toLex_lt_toLex]
  left
  simp only [hscore]
  omega

/-- the path of a new block -/
theorem paths_new {a : SidechainBlock} (ha : a ∈ bs) (hid : a.id = b.parentId) (hfresh : ∀ x ∈ bs, x.id ≠ b.id) :
    paths (bs ++ [b]) b.id = paths (bs ++ [b]) a.id ++ [b] ∧ paths (bs ++ [b]) b.id = paths bs a.id ++ [b] := by
  have hself : paths (bs ++ [b]) b.id = paths bs b.parentId ++ [b] := paths_concat_self bs b
  have hold : paths (bs ++ [b]) a.id = paths bs a.id := paths_concat_of_ne (hfresh a ha)
  rw [hold, hself, hid]
  exact ⟨rfl, rfl⟩

/-- **One append.** The better of the best block and the new block is the best block, the old one among equals. -/
theorem Consistent.step (h : Consistent params s bs best) (hnone : NoneInvalid s bs) (hb : Appendable params validators s bs b)
    (hlimit : WithinLimit params s bs b) (hfuel : bs.length < fuel) :
    ∃ s', exec (appendAndApply params validators fuel b) s = (.ok (), s') ∧ NoneInvalid s' (bs ++ [b]) ∧
      Consistent params s' (bs ++ [b]) (if rank (paths bs best.id) < rank (paths (bs ++ [b]) b.id) then b else best) := by
  obtain ⟨a, ha, hid⟩ := hb.parent
  obtain ⟨progress, s₁, hexec, houtcome, h₁, hsame, hunknown, -⟩ :=
    h.exec_append ha hid hb.fresh hb.continues hb.valid hfuel
  have hnone₁ : NoneInvalid s₁ (bs ++ [b]) := by
    intro x hx
    rcases List.mem_append.1 hx with hx | hx
    · rw [hsame x hx]
      exact hnone x hx
    · rw [List.mem_singleton.1 hx, hunknown]
      exact SemanticValidity.noConfusion
  have hbmem : b ∈ bs ++ [b] := by simp
  have hbest : paths (bs ++ [b]) best.id = paths bs best.id := paths_concat_of_ne (hb.fresh best h.active.mem)
  obtain ⟨hpath, hpath'⟩ := paths_new ha hid hb.fresh
  have hrun : exec (appendAndApply params validators fuel b) s = exec (progress.toApply.forM reportModifierIsValid) s₁ :=
    exec_bind_of_ok hexec
  rw [hrun]
  cases houtcome with
  | onTop hparent =>
    have hab : a = best := h.tree.grown.id_inj ha h.active.mem (hid.trans hparent)
    rw [hab] at hpath hpath'
    have hmem : best ∈ paths (bs ++ [b]) best.id := List.mem_of_getLast? (h₁.tree.grown.path_last h₁.active.mem)
    obtain ⟨s', hs', hc', hinfos⟩ := h₁.applyAll hbmem hmem hpath (by simp)
    refine ⟨s', hs', hnone₁.applied hinfos, ?_⟩
    rw [hpath', if_pos (rank_lt_concat _ _)]
    exact hc'
  | @switches c l₁ l₂ hparent hfork hbetter hcan =>
    have hcmem := h.mem_of_mem_best hfork.common
    have hc : paths (bs ++ [b]) c.id = paths bs c.id := paths_concat_of_ne (hb.fresh c hcmem)
    have hmem : c ∈ paths (bs ++ [b]) best.id := hbest ▸ hfork.common
    have hway : paths (bs ++ [b]) b.id = paths (bs ++ [b]) c.id ++ (l₂ ++ [b]) := by
      rw [hpath', hfork.new, hc, List.append_assoc]
    obtain ⟨s', hs', hc', hinfos⟩ := h₁.applyAll hbmem hmem hway (by simp)
    refine ⟨s', hs', hnone₁.applied hinfos, ?_⟩
    rw [hpath', if_pos hbetter]
    exact hc'
  | @stays c l₁ l₂ hparent hfork hnot =>
    have hcan : Consistent.CanSwitch params s l₁ l₂ := by
      refine ⟨hlimit best a c l₁ l₂ h.active.mem h.bestBlockId_eq ha hid hfork, .inr fun x hx => hnone x ?_⟩
      exact h.tree.grown.mem_of_mem_path ha x (hfork.new ▸ List.mem_append_right _ hx)
    refine ⟨s₁, rfl, hnone₁, ?_⟩
    rw [hpath', if_neg fun hbetter => hnot ⟨hbetter, hcan⟩]
    exact h₁

end Apply

/-! The first block. -/

def emptyHistory (params : NetworkParams) : HistoryStorage where
  blocks _ := none
  infos _ := none
  best := none
  activeChain := ActiveChain.empty params.mainchainCreationBlockHeight

section First

variable {params : NetworkParams} {g : SidechainBlock}

/-- the info of the genesis block, once it is applied -/
def genesisInfo (params : NetworkParams) (g : SidechainBlock) (header : MainchainHeader) (validity : SemanticValidity) :
    SidechainBlockInfo :=
  ⟨1, g.score, g.parentId, validity, [⟨header.hash, params.initialCumulativeCommTreeHash⟩],
    g.mainchainReferenceDataHeaderHashesFromBlock⟩

/-- the history of the genesis block alone -/
def genesisHistory (params : NetworkParams) (g : SidechainBlock) (info : SidechainBlockInfo) : HistoryStorage where
  blocks := Function.update (fun _ => none) g.id (some g)
  infos := Function.update (fun _ => none) g.id (some info)
  best := some g.id
  activeChain := ofBlocks (mainchainRoot [g]) params.mainchainCreationBlockHeight [(g.id, info)]

theorem infoAt_genesisHistory (info : SidechainBlockInfo) : infoAt (genesisHistory params g info) g.id = info := by
  simp [infoAt, genesisHistory]

theorem genesisHistory_consistent (hg : Genesis params g) {info : SidechainBlockInfo} (hdescribes : Describes info g)
    (hheight : info.height = 1) (hscore : info.score = g.score) (hvalid : info.semanticValidity = .Valid) :
    Consistent params (genesisHistory params g info) [g] g := by
  have hgrown : Grown [g] := .root g
  have hpath : paths [g] g.id = [g] := by
    rcases hgrown.path_cases (List.mem_singleton_self g) with ⟨-, hroot⟩ | ⟨hne, -⟩
    · exact hroot
    · exact absurd rfl hne
  have hinfo : infoAt (genesisHistory params g info) g.id = info := infoAt_genesisHistory info
  have hchain : withInfos (infoAt (genesisHistory params g info)) [g] = [(g.id, info)] := by
    rw [withInfos, List.map_singleton, hinfo]
  refine ⟨⟨hgrown, ?_, ?_⟩, ⟨?_, ?_, ?_, ?_, ?_, ?_⟩, List.mem_singleton_self g, rfl, ?_, ?_⟩
  · intro x hx
    obtain rfl : g = x := by simpa using hx
    exact hg
  · intro x hx hne
    rw [List.mem_singleton.1 hx] at hne
    exact absurd rfl hne
  · intro x hx
    rw [List.mem_singleton.1 hx]
    simp [genesisHistory]
  · intro x hx
    rw [List.mem_singleton.1 hx, hinfo]
    simp [genesisHistory]
  · intro x hx
    rw [List.mem_singleton.1 hx, hinfo]
    exact hdescribes
  · intro x hx
    rw [List.mem_singleton.1 hx, hinfo, hheight, hpath]
    rfl
  · intro x hx
    rw [List.mem_singleton.1 hx, hinfo, hscore, hpath]
    simp [chainScore]
  · intro id hid
    have hne : id ≠ g.id := (hid g (List.mem_singleton_self g)).symm
    simp [genesisHistory, hne]
  · rw [hpath, hchain]
    rfl
  · intro x hx
    rw [hpath] at hx
    rw [List.mem_singleton.1 hx, hinfo]
    exact hvalid

/-- the history after `append`: the block is stored, the active chain is still empty -/
def storedGenesis (params : NetworkParams) (g : SidechainBlock) (info : SidechainBlockInfo) : HistoryStorage where
  blocks := Function.update (fun _ => none) g.id (some g)
  infos := Function.update (fun _ => none) g.id (some info)
  best := none
  activeChain := ActiveChain.empty params.mainchainCreationBlockHeight

theorem blockInfoOptionById_storedGenesis (info : SidechainBlockInfo) :
    (storedGenesis params g info).blockInfoOptionById g.id = some info := by
  have hnone : (storedGenesis params g info).activeChain.blockInfoById g.id = none := rfl
  rw [HistoryStorage.blockInfoOptionById, hnone, Option.none_or]
  simp [storedGenesis]

theorem exec_append_genesis {validators : HistoryStorage → SidechainBlock → Bool} (hg : Genesis params g)
    (hvalid : validators (emptyHistory params) g = true) (fuel : ℕ) {header : MainchainHeader}
    (hheaders : g.mainchainHeaders = [header]) :
    exec (append params validators fuel g) (emptyHistory params) =
      (.ok ⟨none, [], [g]⟩, storedGenesis params g (genesisInfo params g header .Unknown)) := by
  have hcalculate : calculateGenesisBlockInfo params g = some (genesisInfo params g header .Unknown) := by
    simp [calculateGenesisBlockInfo, hheaders, genesisInfo]
  have hknown : ¬ (g.id ≠ params.sidechainGenesisBlockId ∧
      (emptyHistory params).blockInfoOptionById g.parentId = none) := fun hand => hand.1 hg.id
  have hpasses : ¬ validators (emptyHistory params) g = false := by simp [hvalid]
  rw [append, exec_get_bind]
  simp only
  rw [exec_throwIf_neg_bind hknown, exec_throwIf_neg_bind hpasses, if_pos hg.id, hcalculate, exec_getOrThrow_some_bind]
  rfl

theorem exec_updateSemanticValidity_genesis (header : MainchainHeader) :
    exec (updateSemanticValidity g .Valid) (storedGenesis params g (genesisInfo params g header .Unknown)) =
      (.ok (), storedGenesis params g (genesisInfo params g header .Valid)) := by
  simp only [updateSemanticValidity, exec_get_bind, blockInfoOptionById_storedGenesis, exec_getOrThrow_some_bind, exec_modify]
  simp [storedGenesis, genesisInfo]

theorem genesisInfo_describes {header : MainchainHeader} (hheaders : g.mainchainHeaders = [header])
    (validity : SemanticValidity) :
    Describes (genesisInfo params g header validity) g := by
  refine ⟨rfl, ?_, rfl⟩
  simp [SidechainBlockInfo.mainchainHeaderHashes, SidechainBlock.mainchainHeaderHashesFromBlock, hheaders, genesisInfo]

theorem exec_setBestBlock_genesis (hg : Genesis params g) {header : MainchainHeader} (hheaders : g.mainchainHeaders = [header]) :
    exec (setBestBlock g.id (genesisInfo params g header .Valid) g.mainchainParent)
        (ActiveChain.empty params.mainchainCreationBlockHeight) =
      (.ok (), (genesisHistory params g (genesisInfo params g header .Valid)).activeChain) := by
  obtain ⟨_, data, -, hdata, -⟩ := hg.reference
  have hempty : (ActiveChain.empty params.mainchainCreationBlockHeight).height = 0 := rfl
  have hwell : WellFormed (mainchainRoot [g]) [(g.id, genesisInfo params g header .Valid)] :=
    hg.wellFormed (f := fun _ => genesisInfo params g header .Valid) rfl (genesisInfo_describes hheaders .Valid)
  have hheaders' : (genesisInfo params g header .Valid).mainchainHeaderHashes ≠ [] := by
    simp [genesisInfo, SidechainBlockInfo.mainchainHeaderHashes]
  have hdata' : (genesisInfo params g header .Valid).mainchainReferenceDataHeaderHashes ≠ [] := by
    simp [genesisInfo, SidechainBlock.mainchainReferenceDataHeaderHashesFromBlock, hdata]
  have hparent : g.mainchainParent = some (mainchainRoot [g]) := by
    simp [mainchainRoot, SidechainBlock.mainchainParent, hheaders]
  rw [setBestBlock, exec_get_bind, if_pos hempty, hparent]
  exact exec_setGenesisBlock_ok (x := ⟨g.id, genesisInfo params g header .Valid, g.mainchainParent⟩) hheaders' hdata' hwell

/-- **The genesis block** is stored and becomes the best block. -/
theorem exec_genesis {validators : HistoryStorage → SidechainBlock → Bool} (hg : Genesis params g)
    (hvalid : validators (emptyHistory params) g = true) (fuel : ℕ) :
    ∃ s, exec (appendAndApply params validators fuel g) (emptyHistory params) = (.ok (), s) ∧ Consistent params s [g] g ∧
      NoneInvalid s [g] := by
  obtain ⟨header, -, hheaders, -⟩ := hg.reference
  have hreport : exec (reportModifierIsValid g) (storedGenesis params g (genesisInfo params g header .Unknown)) =
      (.ok (), genesisHistory params g (genesisInfo params g header .Valid)) := by
    rw [reportModifierIsValid, exec_bind_of_ok (exec_updateSemanticValidity_genesis header), exec_get_bind,
      blockInfoOptionById_storedGenesis, exec_getOrThrow_some_bind, setAsBestBlock, exec_modify_bind]
    exact Consistent.exec_onActiveChain_ok (exec_setBestBlock_genesis hg hheaders)
  refine ⟨genesisHistory params g (genesisInfo params g header .Valid), ?_,
    genesisHistory_consistent hg (genesisInfo_describes hheaders .Valid) rfl rfl rfl, ?_⟩
  · rw [appendAndApply, exec_bind_of_ok (exec_append_genesis hg hvalid fuel hheaders)]
    exact exec_bind_of_ok hreport
  · intro x hx
    rw [List.mem_singleton.1 hx, infoAt_genesisHistory]
    exact SemanticValidity.noConfusion

end First

/-- `s` is the history after the blocks `bs` were appended in this order, each followed by `reportModifierIsValid` for the blocks
to apply -/
inductive Run (params : NetworkParams) (validators : HistoryStorage → SidechainBlock → Bool) :
    HistoryStorage → List SidechainBlock → Prop
  | genesis {g : SidechainBlock} (fuel : ℕ) (hg : Genesis params g) (hvalid : validators (emptyHistory params) g = true) :
      Run params validators (exec (appendAndApply params validators fuel g) (emptyHistory params)).2 [g]
  | append {s : HistoryStorage} {bs : List SidechainBlock} {b : SidechainBlock} (fuel : ℕ) (hrun : Run params validators s bs)
      (hb : Appendable params validators s bs b) (hlimit : WithinLimit params s bs b) (hfuel : bs.length < fuel) :
      Run params validators (exec (appendAndApply params validators fuel b) s).2 (bs ++ [b])

section Runs

variable {params : NetworkParams} {validators : HistoryStorage → SidechainBlock → Bool} {s : HistoryStorage}
  {bs : List SidechainBlock}

/-- what holds after every append: no block of the tree ranks above the best one -/
structure Maximal (params : NetworkParams) (s : HistoryStorage) (bs : List SidechainBlock) (best : SidechainBlock) : Prop where
  consistent : Consistent params s bs best
  noneInvalid : NoneInvalid s bs
  le_best : ∀ x ∈ bs, rank (paths bs x.id) ≤ rank (paths bs best.id)

theorem Maximal.step {best b : SidechainBlock} {fuel : ℕ} (h : Maximal params s bs best)
    (hb : Appendable params validators s bs b)
    (hlimit : WithinLimit params s bs b) (hfuel : bs.length < fuel) :
    ∃ s', exec (appendAndApply params validators fuel b) s = (.ok (), s') ∧
      Maximal params s' (bs ++ [b]) (if rank (paths bs best.id) < rank (paths (bs ++ [b]) b.id) then b else best) := by
  obtain ⟨s', hexec, hnone, hcons⟩ := h.consistent.step h.noneInvalid hb hlimit hfuel
  refine ⟨s', hexec, hcons, hnone, ?_⟩
  have hold : ∀ x ∈ bs, paths (bs ++ [b]) x.id = paths bs x.id := fun x hx => Grown.paths_of_mem hb.fresh hx
  intro x hx
  by_cases hbetter : rank (paths bs best.id) < rank (paths (bs ++ [b]) b.id)
  · rw [if_pos hbetter]
    rcases List.mem_append.1 hx with hx | hx
    · rw [hold x hx]
      exact (h.le_best x hx).trans hbetter.le
    · rw [List.mem_singleton.1 hx]
  · rw [if_neg hbetter, hold best h.consistent.active.mem]
    rcases List.mem_append.1 hx with hx | hx
    · rw [hold x hx]
      exact h.le_best x hx
    · rw [List.mem_singleton.1 hx]
      exact not_lt.1 hbetter

/-- the invariant of a run -/
theorem Run.maximal (h : Run params validators s bs) : ∃ best, Maximal params s bs best := by
  induction h with
  | @genesis g fuel hg hvalid =>
    obtain ⟨s, hexec, hcons, hnone⟩ := exec_genesis hg hvalid fuel
    rw [hexec]
    refine ⟨g, hcons, hnone, ?_⟩
    intro x hx
    rw [List.mem_singleton.1 hx]
  | append fuel _ hb hlimit hfuel ih =>
    obtain ⟨best, hbest⟩ := ih
    obtain ⟨s', hexec, hnext⟩ := hbest.step hb hlimit hfuel
    rw [hexec]
    exact ⟨_, hnext⟩

/-- two trees of the same blocks have the same root -/
theorem Tree.head_eq {bs' : List SidechainBlock} (h : Tree params bs) (h' : Tree params bs')
    (hmem : ∀ x, x ∈ bs ↔ x ∈ bs') :
    bs.head? = bs'.head? := by
  obtain ⟨g, rest, hg⟩ := List.exists_cons_of_ne_nil h.grown.ne_nil
  obtain ⟨g', rest', hg'⟩ := List.exists_cons_of_ne_nil h'.grown.ne_nil
  have hhead : bs.head? = some g := by rw [hg]; rfl
  have hhead' : bs'.head? = some g' := by rw [hg']; rfl
  have hids : g.id = g'.id := (h.genesis g hhead).id.trans (h'.genesis g' hhead').id.symm
  have heq : g = g' := h.grown.id_inj (List.mem_of_mem_head? hhead) ((hmem g').2 (List.mem_of_mem_head? hhead')) hids
  rw [hhead, hhead', heq]

/-- the ranks do not depend on the order -/
theorem Maximal.rank_eq {bs' : List SidechainBlock} {s' : HistoryStorage} {best best' : SidechainBlock}
    (h : Maximal params s bs best) (h' : Maximal params s' bs' best') (hmem : ∀ x, x ∈ bs ↔ x ∈ bs') :
    rank (paths bs' best'.id) = rank (paths bs best.id) := by
  have htree := h.consistent.tree
  have htree' := h'.consistent.tree
  have hpaths : ∀ x ∈ bs, paths bs x.id = paths bs' x.id := fun x hx =>
    htree.grown.paths_eq htree'.grown (htree.head_eq htree' hmem) hmem hx
  have hbest := h.consistent.active.mem
  have hbest' := (hmem best').2 h'.consistent.active.mem
  refine le_antisymm ?_ ?_
  · rw [← hpaths best' hbest']
    exact h.le_best best' hbest'
  · rw [hpaths best hbest]
    exact h'.le_best best ((hmem best).1 hbest)

/-- **Fork choice.** After every run the best block has the highest rank; the recorded scores and heights are those of the tree;
a new block becomes the best one exactly if it ranks above it; and the same blocks in another order lead to the same rank. -/
theorem best_is_maximal (hrun : Run params validators s bs) :
    ∃ best ∈ bs, bestBlockId params s = best.id ∧
      (∀ x ∈ bs, rank (paths bs x.id) ≤ rank (paths bs best.id)) ∧
      (∀ x ∈ bs, s.infos x.id = some (infoAt s x.id) ∧
        rank (paths bs x.id) = toLex ((infoAt s x.id).score, (infoAt s x.id).height)) ∧
      (∀ a ∈ bs, ∀ b ∈ bs, bs.head? ≠ some b → a.id = b.parentId →
        (infoAt s b.id).score = (infoAt s a.id).score + b.score ∧ (infoAt s b.id).height = (infoAt s a.id).height + 1) ∧
      (∀ b fuel, Appendable params validators s bs b → WithinLimit params s bs b → bs.length < fuel →
        ∃ s', exec (appendAndApply params validators fuel b) s = (.ok (), s') ∧
          bestBlockId params s' = if rank (paths bs best.id) < rank (paths (bs ++ [b]) b.id) then b.id else best.id) ∧
      ∀ validators' s' bs', Run params validators' s' bs' → (∀ x, x ∈ bs ↔ x ∈ bs') →
        ∃ best' ∈ bs', bestBlockId params s' = best'.id ∧ chainScore (paths bs' best'.id) = chainScore
          (paths bs best.id) ∧
          (paths bs' best'.id).length = (paths bs best.id).length := by
  obtain ⟨best, h⟩ := hrun.maximal
  have hholds := h.consistent.holds
  have hgrown := h.consistent.tree.grown
  refine ⟨best, h.consistent.active.mem, h.consistent.bestBlockId_eq, h.le_best, ?_, ?_, ?_, ?_⟩
  · intro x hx
    refine ⟨hholds.info x hx, ?_⟩
    rw [rank, hholds.score x hx, hholds.height x hx]
  · intro a ha b hb hne hid
    rcases hgrown.path_cases hb with ⟨hroot, -⟩ | ⟨-, a', ha', hid', hpath⟩
    · exact absurd hroot hne
    · have haa' : a' = a := hgrown.id_inj ha' ha (hid'.trans hid.symm)
      have hpath' : paths bs b.id = paths bs a.id ++ [b] := haa' ▸ hpath
      rw [hholds.score a ha, hholds.score b hb, hholds.height a ha, hholds.height b hb, hpath']
      simp [chainScore]
  · intro b fuel hb hlimit hfuel
    obtain ⟨s', hexec, hnext⟩ := h.step hb hlimit hfuel
    refine ⟨s', hexec, ?_⟩
    rw [hnext.consistent.bestBlockId_eq]
    split_ifs <;> rfl
  · intro validators' s' bs' hrun' hmem
    obtain ⟨best', h'⟩ := hrun'.maximal
    have hrank := toLex.injective (h.rank_eq h' hmem)
    exact ⟨best', h'.consistent.active.mem, h'.consistent.bestBlockId_eq, congrArg Prod.fst hrank, congrArg Prod.snd hrank⟩

end Runs

/-! The genesis block, one block on top of it, and one with an ommer beside this. -/

def sampleGenesisBlock : SidechainBlock := ⟨1, 0, [⟨10, 1, 9, 0⟩], [⟨10, none, none, none, [], none⟩], []⟩

def sampleChild (id : ModifierId) (ommers : List Ommer) : SidechainBlock := ⟨id, 1, [], [], ommers⟩

/-- the history after some blocks -/
def historyOf (params : NetworkParams) (bs : List SidechainBlock) : HistoryStorage :=
  bs.foldl (fun s b => (exec (appendAndApply params (fun _ _ => true) 10 b) s).2) (emptyHistory params)

theorem sampleGenesisBlock_genesis : Genesis sampleParams sampleGenesisBlock :=
  ⟨rfl, by decide, _, _, rfl, rfl, rfl, by decide⟩

/-- a small tree has no fork that is too long -/
theorem withinLimit_of_length {params : NetworkParams} {s : HistoryStorage} {bs : List SidechainBlock} {b : SidechainBlock}
    (hgrown : Grown bs) (hlen : bs.length ≤ params.maxHistoryRewritingLength) : WithinLimit params s bs b := by
  intro best a c l₁ l₂ hbest _ _ _ hfork
  have hpath : (paths bs best.id).length ≤ bs.length := hgrown.path_length_le hbest
  rw [hfork.current, List.length_append] at hpath
  omega

theorem sampleChild_appendable {s : HistoryStorage} {bs : List SidechainBlock} (hgenesis : sampleGenesisBlock ∈ bs)
    (hpath : paths bs (1 : ModifierId) = [sampleGenesisBlock]) {id : ModifierId} {ommers : List Ommer}
    (hfresh : ∀ x ∈ bs, x.id ≠ id) :
    Appendable sampleParams (fun _ _ => true) s bs (sampleChild id ommers) := by
  have hparent : (sampleChild id ommers).parentId = 1 := rfl
  refine ⟨⟨sampleGenesisBlock, hgenesis, rfl⟩, hfresh, ?_, rfl⟩
  rw [hparent, hpath]
  refine ⟨by simp [SidechainBlock.mainchainParent, sampleChild], ?_, ?_⟩
  · exact List.nodup_singleton 10
  · exact List.prefix_refl [10]

theorem sample_run (ommers : List Ommer) :
    Run sampleParams (fun _ _ => true) (historyOf sampleParams [sampleGenesisBlock, sampleChild 2 [], sampleChild 3 ommers])
      [sampleGenesisBlock, sampleChild 2 [], sampleChild 3 ommers] := by
  have hgrown₁ : Grown [sampleGenesisBlock] := .root _
  have hgrown₂ : Grown ([sampleGenesisBlock] ++ [sampleChild 2 []]) :=
    hgrown₁.child ⟨sampleGenesisBlock, by simp, rfl⟩ (by simp [Node.id, sampleGenesisBlock, sampleChild])
  have hrun₁ : Run sampleParams (fun _ _ => true) (historyOf sampleParams [sampleGenesisBlock]) [sampleGenesisBlock] :=
    .genesis 10 sampleGenesisBlock_genesis rfl
  have hrun₂ : Run sampleParams (fun _ _ => true) (historyOf sampleParams [sampleGenesisBlock, sampleChild 2 []])
      ([sampleGenesisBlock] ++ [sampleChild 2 []]) :=
    hrun₁.append 10 (sampleChild_appendable (by simp) rfl (by simp [sampleGenesisBlock]))
      (withinLimit_of_length hgrown₁ (by decide)) (by decide)
  exact hrun₂.append 10 (sampleChild_appendable (by simp) rfl (by simp [sampleGenesisBlock, sampleChild]))
    (withinLimit_of_length hgrown₂ (by decide)) (by decide)

/-- the block with the ommer wins -/
theorem best_is_maximal_fork :
    bestBlockId sampleParams (historyOf sampleParams [sampleGenesisBlock, sampleChild 2 [], sampleChild 3 [.mk []]]) = 3 := by
  obtain ⟨best, hmem, hid, hle, -⟩ := best_is_maximal (sample_run [.mk []])
  have hrank := hle (sampleChild 3 [.mk []]) (by simp)
  have hpath : paths [sampleGenesisBlock, sampleChild 2 [], sampleChild 3 [.mk []]] (sampleChild 3 [.mk []]).id =
      [sampleGenesisBlock, sampleChild 3 [.mk []]] := rfl
  have hscore : rank [sampleGenesisBlock, sampleChild 3 [.mk []]] = toLex (3, 2) := by
    simp [rank, chainScore, sampleGenesisBlock, sampleChild, SidechainBlock.score, Ommer.score]
  rw [hpath, hscore] at hrank
  rw [hid]
  simp only [List.mem_cons, List.not_mem_nil, or_false] at hmem
  rcases hmem with rfl | rfl | rfl
  · exact absurd hrank (by decide)
  · exact absurd hrank (by decide)
  · rfl

/-! A block with the header of the genesis block. -/

def sampleReplay (id : ModifierId) : SidechainBlock := ⟨id, 1, [⟨10, 1, 9, 0⟩], [], []⟩

theorem replay_passes (checks : ReferenceChecks) (s : HistoryStorage) (fuel : ℕ) {id : ModifierId} (hid : id ≠ 1) :
    MainchainBlockReferenceValidator.validate sampleParams checks s fuel (sampleReplay id) = .ok () := by
  have hother : (sampleReplay id).id ≠ sampleParams.sidechainGenesisBlockId := hid
  rw [MainchainBlockReferenceValidator.validate, if_neg hother]
  rfl

/-- It becomes the best block and yields to a later one of the same rank. Where another block came before it, a block on top of
it has the highest rank of all, and the best block is the one with the replayed header. -/
theorem replayed_header_breaks_choice :
    (bestBlockId sampleParams (historyOf sampleParams [sampleGenesisBlock, sampleReplay 2]) = 2 ∧
      bestBlockId sampleParams (historyOf sampleParams [sampleGenesisBlock, sampleReplay 2, sampleChild 3 []]) = 3 ∧
      rank (paths [sampleGenesisBlock, sampleReplay 2, sampleChild 3 []] (2 : ModifierId)) =
        rank (paths [sampleGenesisBlock, sampleReplay 2, sampleChild 3 []] (3 : ModifierId))) ∧
    bestBlockId sampleParams
    (historyOf sampleParams [sampleGenesisBlock, sampleChild 3 [], sampleReplay 2, ⟨4, 2, [], [], []⟩]) = 2 ∧
      rank (paths [sampleGenesisBlock, sampleChild 3 [], sampleReplay 2, ⟨4, 2, [], [], []⟩] (2 : ModifierId)) <
        rank (paths [sampleGenesisBlock, sampleChild 3 [], sampleReplay 2, ⟨4, 2, [], [], []⟩] (4 : ModifierId)) := by
  refine ⟨⟨rfl, rfl, rfl⟩, rfl, ?_⟩
  decide

end SidechainsSdk.History
