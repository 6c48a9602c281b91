/-
The history over a tree of blocks. `Consistent params s bs best`: the storage `s` holds the blocks `bs`, which make a tree and
have passed the validators of mainchain data, each with the height and the chain score it has in the tree; the best block is
`best`, and the active chain is the path to it.

- `Consistent.exec_reportModifierIsValid`: a block on top of any block of the active chain becomes the best one.
- `Consistent.bestForkChanges_cases`: the blocks to remove and to apply are the two paths after the last common block.
- `Consistent.exec_append`: a new block is stored, nothing else changes, and the state is told what to do.
-/
import Mathlib.Tactic
import SidechainsSdk.Core.ParentTree
import SidechainsSdk.History.History
import SidechainsSdk.History.ReferenceData

namespace SidechainsSdk.History

open Fallible Chain ElementsChain ActiveChain ParentTree

instance : Node SidechainBlock ModifierId := ⟨SidechainBlock.id, SidechainBlock.parentId⟩

def headersOf (l : List SidechainBlock) : List MainchainHeaderHash := l.flatMap SidechainBlock.mainchainHeaderHashesFromBlock

def dataOf (l : List SidechainBlock) : List MainchainHeaderHash :=
  l.flatMap SidechainBlock.mainchainReferenceDataHeaderHashesFromBlock

/-- the score of a chain: that of its blocks, each one more than its ommers -/
def chainScore (l : List SidechainBlock) : ℕ := (l.map SidechainBlock.score).sum

/-- how a chain is ranked: by its score, and by its height among equal scores -/
def rank (l : List SidechainBlock) : ℕ ×ₗ ℕ := toLex (chainScore l, l.length)

/-- the mainchain data of `b` continues that of the chain `l` -/
structure Continues (l : List SidechainBlock) (b : SidechainBlock) : Prop where
  parent : ∀ q ∈ b.mainchainParent, (headersOf l).getLast? = some q
  nodup : (headersOf (l ++ [b])).Nodup
  follows : dataOf (l ++ [b]) <+: headersOf (l ++ [b])

/-- one header and its data -/
structure Genesis (params : NetworkParams) (g : SidechainBlock) : Prop where
  id : g.id = params.sidechainGenesisBlockId
  parent : g.parentId ≠ g.id
  reference : ∃ header data, g.mainchainHeaders = [header] ∧ g.mainchainBlockReferencesData = [data] ∧
    data.headerHash = header.hash ∧ header.hash ≠ header.hashPrevBlock

/-- a tree of blocks whose mainchain data has passed the validators -/
structure Tree (params : NetworkParams) (bs : List SidechainBlock) : Prop where
  grown : Grown bs
  genesis : ∀ g ∈ bs.head?, Genesis params g
  continues : ∀ b ∈ bs, bs.head? ≠ some b → Continues (paths bs b.parentId) b

/-- the mainchain parent of the first block -/
def mainchainRoot (bs : List SidechainBlock) : MainchainHeaderHash := (bs.head?.bind SidechainBlock.mainchainParent).getD 0

def withInfos (f : ModifierId → SidechainBlockInfo) (l : List SidechainBlock) : Blocks := l.map fun b => (b.id, f b.id)

section WellFormed

variable {params : NetworkParams} {bs : List SidechainBlock} {f : ModifierId → SidechainBlockInfo} {l : List SidechainBlock}

@[simp] theorem withInfos_append (l₁ l₂ : List SidechainBlock) :
    withInfos f (l₁ ++ l₂) = withInfos f l₁ ++ withInfos f l₂ :=
  List.map_append

theorem headerHashes_withInfos (h : ∀ b ∈ l, Describes (f b.id) b) : headerHashes (withInfos f l) = headersOf l := by
  induction l with
  | nil => rfl
  | cons b l ih =>
    have hb : (f b.id).mainchainHeaderHashes = b.mainchainHeaderHashesFromBlock := (h b (by simp)).headers
    have hcons : headerHashes (withInfos f (b :: l)) = (f b.id).mainchainHeaderHashes ++ headerHashes (withInfos f l) := rfl
    rw [hcons, ih fun x hx => h x (by simp [hx]), hb]
    rfl

theorem dataHashes_withInfos (h : ∀ b ∈ l, Describes (f b.id) b) : dataHashes (withInfos f l) = dataOf l := by
  induction l with
  | nil => rfl
  | cons b l ih =>
    have hb : (f b.id).mainchainReferenceDataHeaderHashes = b.mainchainReferenceDataHeaderHashesFromBlock := (h b (by simp)).data
    have hcons : dataHashes (withInfos f (b :: l)) =
        (f b.id).mainchainReferenceDataHeaderHashes ++ dataHashes (withInfos f l) := rfl
    rw [hcons, ih fun x hx => h x (by simp [hx]), hb]
    rfl

theorem dataFollows_withInfos (h : ∀ b ∈ l, Describes (f b.id) b) :
    DataFollows (withInfos f l) ↔ dataOf l <+: headersOf l := by
  rw [DataFollows, headerHashes_withInfos h, dataHashes_withInfos h]

theorem map_fst_withInfos : (withInfos f l).map Prod.fst = l.map SidechainBlock.id := by
  simp [withInfos, Function.comp_def]

theorem Genesis.wellFormed {g : SidechainBlock} (hg : Genesis params g) (hhead : bs.head? = some g)
    (hf : Describes (f g.id) g) : WellFormed (mainchainRoot bs) (withInfos f [g]) := by
  obtain ⟨header, data, hheaders, hdata, hhash, hroot⟩ := hg.reference
  have hf' : ∀ b ∈ [g], Describes (f b.id) b := by
    intro b hb
    rw [List.mem_singleton.1 hb]
    exact hf
  have hheaders' : headersOf [g] = [header.hash] := by
    simp [headersOf, SidechainBlock.mainchainHeaderHashesFromBlock, hheaders]
  have hdata' : dataOf [g] = [header.hash] := by
    simp [dataOf, SidechainBlock.mainchainReferenceDataHeaderHashesFromBlock, hdata, hhash]
  have hprev : mainchainRoot bs = header.hashPrevBlock := by
    rw [mainchainRoot, hhead]
    simp [SidechainBlock.mainchainParent, hheaders]
  refine ⟨⟨List.nodup_singleton _, .singleton _, ?_⟩, ?_, ?_, ?_, ?_⟩
  · intro x hx
    obtain rfl : (g.id, f g.id) = x := by simpa [withInfos] using hx
    exact fun heq => hg.parent (hf.parentId.symm.trans heq)
  · rw [headerHashes_withInfos hf', hheaders']
    exact List.nodup_singleton _
  · rw [headerHashes_withInfos hf', hheaders', hprev]
    simpa using hroot
  · intro bs' hbs'
    have hconcat : bs' <+: [] ++ withInfos f [g] := hbs'
    rcases List.prefix_concat_iff.1 hconcat with rfl | hnil
    · rw [List.nil_append]
      refine (dataFollows_withInfos hf').2 ?_
      rw [hdata', hheaders']
    · rw [List.prefix_nil.1 hnil]
      exact List.prefix_refl _
  · intro x hx
    obtain rfl : (g.id, f g.id) = x := by simpa [withInfos] using hx
    have h₁ : (f g.id).mainchainHeaderHashes = _ := hf.headers
    have h₂ : (f g.id).mainchainReferenceDataHeaderHashes = _ := hf.data
    constructor
    · rw [h₁, SidechainBlock.mainchainHeaderHashesFromBlock, hheaders]
      simp
    · rw [h₂, SidechainBlock.mainchainReferenceDataHeaderHashesFromBlock, hdata]
      simp

/-- **Every path of the tree is the blocks of an active chain.** -/
theorem Tree.wellFormed (h : Tree params bs) (hf : ∀ b ∈ bs, Describes (f b.id) b) {b : SidechainBlock} (hb : b ∈ bs) :
    WellFormed (mainchainRoot bs) (withInfos f (paths bs b.id)) := by
  refine h.grown.path_induction (P := fun b => WellFormed (mainchainRoot bs) (withInfos f (paths bs (Node.id b)))) ?_ ?_ hb
  · intro r hr
    have hmem := List.mem_of_mem_head? hr
    rcases h.grown.path_cases hmem with ⟨-, hpath⟩ | ⟨hne, -⟩
    · rw [hpath]
      exact (h.genesis r hr).wellFormed hr (hf r hmem)
    · exact absurd hr hne
  · intro a b ha hb hne hid hpath ih
    have hcont := h.continues b hb hne
    have hparent : paths bs b.parentId = paths bs (Node.id a) := by rw [hid]; rfl
    rw [hparent] at hcont
    have hdescribes : ∀ x ∈ paths bs (Node.id a), Describes (f x.id) x := fun x hx => hf x (h.grown.mem_of_mem_path ha x hx)
    have hall : ∀ x ∈ paths bs (Node.id a) ++ [b], Describes (f x.id) x := by
      intro x hx
      rw [← hpath] at hx
      exact hf x (h.grown.mem_of_mem_path hb x hx)
    have hids := h.grown.path_nodup hb
    rw [hpath, List.map_append] at hids
    have hheaders := hcont.nodup
    have happ : headersOf (paths bs (Node.id a) ++ [b]) = headersOf
        (paths bs (Node.id a)) ++ b.mainchainHeaderHashesFromBlock := by
      simp [headersOf]
    rw [happ] at hheaders
    have hnew : (f b.id).mainchainHeaderHashes = b.mainchainHeaderHashesFromBlock := (hf b hb).headers
    have hlast : (withInfos f (paths bs (Node.id a))).getLast? = some (a.id, f a.id) := by
      rw [withInfos, List.getLast?_map, h.grown.path_last ha]
      rfl
    rw [hpath, withInfos_append]
    refine ih.concat hlast ((hf b hb).parentId.trans hid.symm) ?_ ?_ ?_ ?_
    · rw [map_fst_withInfos]
      intro hmem
      exact (List.nodup_append.1 hids).2.2 _ hmem _ (by simp [Node.id]) rfl
    · rw [hnew]
      exact (List.nodup_append.1 hheaders).2.1
    · intro x hx hmem
      rw [hnew] at hx
      rw [headerHashes_withInfos hdescribes] at hmem
      exact (List.nodup_append.1 hheaders).2.2 x hmem x hx rfl
    · have hconcat : withInfos f (paths bs (Node.id a)) ++ [(b.id, f b.id)] = withInfos f (paths bs (Node.id a) ++ [b]) := by
        rw [withInfos_append]
        rfl
      rw [hconcat]
      exact (dataFollows_withInfos hall).2 hcont.follows

/-- the headers of a block connect to its parent's chain -/
theorem Tree.headersConnect (h : Tree params bs) (hf : ∀ b ∈ bs, Describes (f b.id) b) {a b : SidechainBlock} (ha : a ∈ bs)
    (hb : b ∈ bs) (hne : bs.head? ≠ some b) (hid : a.id = b.parentId) :
    HeadersConnect (withInfos f (paths bs a.id)) (f b.id) b.mainchainParent := by
  have hcont := h.continues b hb hne
  rw [← hid] at hcont
  have hdescribes : ∀ x ∈ paths bs (Node.id a), Describes (f x.id) x := fun x hx => hf x (h.grown.mem_of_mem_path ha x hx)
  constructor
  · rw [(hf b hb).headers, SidechainBlock.mainchainHeaderHashesFromBlock, SidechainBlock.mainchainParent]
    cases b.mainchainHeaders <;> simp
  · intro g hg
    have hlast : headerHashes (withInfos f (paths bs a.id)) = headersOf (paths bs a.id) := headerHashes_withInfos hdescribes
    rw [hlast]
    exact hcont.parent g hg

end WellFormed

/-- one more block -/
theorem Tree.child {params : NetworkParams} {bs : List SidechainBlock} {a b : SidechainBlock} (h : Tree params bs) (ha : a ∈ bs)
    (hid : a.id = b.parentId) (hfresh : ∀ x ∈ bs, x.id ≠ b.id) (hcont : Continues (paths bs b.parentId) b) :
    Tree params (bs ++ [b]) := by
  have hgrown : Grown (bs ++ [b]) := h.grown.child ⟨a, ha, hid⟩ hfresh
  have hhead : (bs ++ [b]).head? = bs.head? := List.head?_append_of_ne_nil bs h.grown.ne_nil
  refine ⟨hgrown, fun g hg => h.genesis g (hhead ▸ hg), ?_⟩
  intro x hx hne
  rw [hhead] at hne
  rcases List.mem_append.1 hx with hx | hx
  · rcases h.grown.path_cases hx with ⟨hroot, -⟩ | ⟨-, y, hy, hyid, -⟩
    · exact absurd hroot hne
    · have hparent : x.parentId ≠ b.id := by
        intro heq
        exact hfresh y hy (hyid.trans heq)
      rw [paths_concat_of_ne hparent]
      exact h.continues x hx hne
  · rw [List.mem_singleton.1 hx]
    have hparent : b.parentId ≠ b.id := fun heq => hfresh a ha (hid.trans heq)
    rw [paths_concat_of_ne hparent]
    exact hcont

/-! The storage of a tree. -/

def infoAt (s : HistoryStorage) (id : ModifierId) : SidechainBlockInfo := (s.infos id).getD default

/-- the blocks and their infos are stored -/
structure Holds (s : HistoryStorage) (bs : List SidechainBlock) : Prop where
  block : ∀ b ∈ bs, s.blocks b.id = some b
  info : ∀ b ∈ bs, s.infos b.id = some (infoAt s b.id)
  describes : ∀ b ∈ bs, Describes (infoAt s b.id) b
  height : ∀ b ∈ bs, (infoAt s b.id).height = (paths bs b.id).length
  score : ∀ b ∈ bs, (infoAt s b.id).score = chainScore (paths bs b.id)
  absent : ∀ id, (∀ b ∈ bs, b.id ≠ id) → s.infos id = none

/-- the best block and its path -/
structure ActiveIs (params : NetworkParams) (s : HistoryStorage) (bs : List SidechainBlock) (best : SidechainBlock) : Prop where
  mem : best ∈ bs
  recorded : s.best = some best.id
  chain : s.activeChain =
    ofBlocks (mainchainRoot bs) params.mainchainCreationBlockHeight (withInfos (infoAt s) (paths bs best.id))
  valid : ∀ b ∈ paths bs best.id, (infoAt s b.id).semanticValidity = .Valid

structure Consistent (params : NetworkParams) (s : HistoryStorage) (bs : List SidechainBlock) (best : SidechainBlock) : Prop where
  tree : Tree params bs
  holds : Holds s bs
  active : ActiveIs params s bs best

/-- the storage with another validity for a block -/
def withValidity (s : HistoryStorage) (b : SidechainBlock) (status : SemanticValidity) : HistoryStorage :=
  { s with infos := Function.update s.infos b.id (some { infoAt s b.id with semanticValidity := status }) }

section Validity

variable {s : HistoryStorage} {bs : List SidechainBlock} {b x : SidechainBlock} {status : SemanticValidity}

theorem infoAt_withValidity_self : infoAt (withValidity s b status) b.id = { infoAt s b.id with semanticValidity := status } := by
  simp [infoAt, withValidity]

theorem infoAt_withValidity_of_ne {id : ModifierId} (hne : id ≠ b.id) : infoAt (withValidity s b status) id = infoAt s id := by
  simp [infoAt, withValidity, Function.update_of_ne hne]

/-- only the validity is another one -/
theorem infoAt_withValidity (s : HistoryStorage) (b : SidechainBlock) (status : SemanticValidity) (id : ModifierId) :
    infoAt (withValidity s b status) id = infoAt s id ∨
      infoAt (withValidity s b status) id = { infoAt s id with semanticValidity := status } := by
  by_cases hid : id = b.id
  · subst hid
    exact .inr infoAt_withValidity_self
  · exact .inl (infoAt_withValidity_of_ne hid)

theorem Holds.withValidity (h : Holds s bs) (hb : b ∈ bs) (status : SemanticValidity) : Holds (withValidity s b status) bs where
  block := h.block
  info := by
    intro x hx
    by_cases hid : x.id = b.id
    · rw [hid, infoAt_withValidity_self]
      exact Function.update_self ..
    · rw [infoAt_withValidity_of_ne hid]
      exact (Function.update_of_ne hid ..).trans (h.info x hx)
  describes := by
    intro x hx
    rcases infoAt_withValidity s b status x.id with heq | heq
    · rw [heq]
      exact h.describes x hx
    · rw [heq]
      exact ⟨(h.describes x hx).parentId, (h.describes x hx).headers, (h.describes x hx).data⟩
  height := by
    intro x hx
    rcases infoAt_withValidity s b status x.id with heq | heq
    · rw [heq, h.height x hx]
    · rw [heq]
      exact h.height x hx
  score := by
    intro x hx
    rcases infoAt_withValidity s b status x.id with heq | heq
    · rw [heq, h.score x hx]
    · rw [heq]
      exact h.score x hx
  absent := by
    intro id hid
    exact (Function.update_of_ne (hid b hb).symm ..).trans (h.absent id hid)

end Validity

namespace Consistent

variable {params : NetworkParams} {s : HistoryStorage} {bs : List SidechainBlock} {best b : SidechainBlock}
  (h : Consistent params s bs best)

include h

theorem wellFormed (hb : b ∈ bs) : WellFormed (mainchainRoot bs) (withInfos (infoAt s) (paths bs b.id)) :=
  h.tree.wellFormed h.holds.describes hb

theorem mem_of_mem_best (hb : b ∈ paths bs best.id) : b ∈ bs := h.tree.grown.mem_of_mem_path h.active.mem b hb

theorem height_eq : s.height = (paths bs best.id).length := by
  rw [HistoryStorage.height, ActiveChain.height, h.active.chain, ofBlocks, height_ofList, withInfos, List.length_map]

theorem bestBlockId_eq : bestBlockId params s = best.id := by
  rw [bestBlockId, StoredHistory.bestBlockId, h.active.recorded]
  rfl

/-- a block of the active chain, at its height -/
theorem split_best (hb : b ∈ paths bs best.id) :
    ∃ l, paths bs best.id = paths bs b.id ++ l ∧
      withInfos (infoAt s) (paths bs best.id) = withInfos (infoAt s) (paths bs b.id) ++ withInfos (infoAt s) l ∧
      (withInfos (infoAt s) (paths bs b.id)).getLast? = some (b.id, infoAt s b.id) := by
  obtain ⟨l, hl⟩ := h.tree.grown.path_prefix h.active.mem hb
  have hl' : paths bs b.id ++ l = paths bs best.id := hl
  refine ⟨l, hl'.symm, ?_, ?_⟩
  · rw [← hl', withInfos_append]
  · have hlast : (paths bs b.id).getLast? = some b := h.tree.grown.path_last (h.mem_of_mem_best hb)
    rw [withInfos, List.getLast?_map, hlast]
    rfl

theorem heightById_of_mem (hb : b ∈ paths bs best.id) : s.activeChain.heightById b.id = some (paths bs b.id).length := by
  obtain ⟨l, -, hsplit, hlast⟩ := h.split_best hb
  have hwell := h.wellFormed h.active.mem
  rw [hsplit] at hwell
  rw [h.active.chain, hsplit, heightById_last hwell hlast, withInfos, List.length_map]

theorem heightById_of_not_mem {id : ModifierId} (hid : ∀ x ∈ paths bs best.id, x.id ≠ id) :
    s.activeChain.heightById id = none := by
  rw [h.active.chain, ActiveChain.heightById, ofBlocks, heightById_ofList]
  refine heightIn_eq_none ?_
  rw [map_fst_withInfos]
  intro hmem
  obtain ⟨x, hx, rfl⟩ := List.mem_map.1 hmem
  exact hid x hx rfl

theorem isInActiveChain_iff (hb : b ∈ bs) : s.isInActiveChain b.id = true ↔ b ∈ paths bs best.id := by
  have hcontains : s.isInActiveChain b.id = (s.activeChain.heightById b.id).isSome := rfl
  rw [hcontains]
  constructor
  · intro hsome
    by_contra hnot
    have hnone : s.activeChain.heightById b.id = none :=
      h.heightById_of_not_mem fun x hx heq => hnot (h.tree.grown.id_inj (h.mem_of_mem_best hx) hb heq ▸ hx)
    rw [hnone] at hsome
    cases hsome
  · intro hmem
    rw [h.heightById_of_mem hmem]
    rfl

/-- the infos in memory are those on disk -/
theorem blockInfoOptionById_eq (id : ModifierId) : s.blockInfoOptionById id = s.infos id := by
  by_cases hid : ∃ x ∈ paths bs best.id, x.id = id
  · obtain ⟨x, hx, rfl⟩ := hid
    have hwell := h.wellFormed h.active.mem
    obtain ⟨i, hi, hxi⟩ := List.getElem_of_mem hx
    have hat : (withInfos (infoAt s) (paths bs best.id))[i]? = some (x.id, infoAt s x.id) := by
      rw [withInfos, List.getElem?_map, List.getElem?_eq_getElem hi, hxi]
      rfl
    have hinfo := (blockInfoById_at (d := params.mainchainCreationBlockHeight) hwell hat).2
    rw [← h.active.chain] at hinfo
    rw [HistoryStorage.blockInfoOptionById, hinfo, h.holds.info x (h.mem_of_mem_best hx)]
    rfl
  · have hnone : s.activeChain.heightById id = none := h.heightById_of_not_mem fun x hx heq => hid ⟨x, hx, heq⟩
    have hinfo : s.activeChain.blockInfoById id = none := by
      have hsc : s.activeChain.sidechainCache.heightById id = none := hnone
      rw [ActiveChain.blockInfoById, hsc]
      rfl
    rw [HistoryStorage.blockInfoOptionById, hinfo, Option.none_or]

theorem blockInfoOptionById_of_mem (hb : b ∈ bs) : s.blockInfoOptionById b.id = some (infoAt s b.id) :=
  (h.blockInfoOptionById_eq b.id).trans (h.holds.info b hb)

omit h in
theorem exec_onActiveChain_ok {x : Chained Unit} {s : HistoryStorage} {c : ActiveChain}
    (hx : exec x s.activeChain = (.ok (), c)) :
    exec (onActiveChain x) s = (.ok (), { s with activeChain := c }) := by
  unfold onActiveChain exec
  unfold exec at hx
  simp only [ExceptT.run_mk, StateT.run] at hx ⊢
  rw [hx]

/-- a new validity is not seen on the active chain -/
theorem withValidity (hb : b ∈ bs) {status : SemanticValidity} (hstatus : b ∈ paths bs best.id → status = .Valid) :
    Consistent params (withValidity s b status) bs best := by
  have hsame : ∀ x ∈ paths bs best.id, infoAt (History.withValidity s b status) x.id = infoAt s x.id := by
    intro x hx
    by_cases hid : x.id = b.id
    · have hxb : x = b := h.tree.grown.id_inj (h.mem_of_mem_best hx) hb hid
      have hvalid := h.active.valid x hx
      rw [hxb] at hx hvalid ⊢
      rw [infoAt_withValidity_self, hstatus hx, ← hvalid]
    · exact infoAt_withValidity_of_ne hid
  refine ⟨h.tree, h.holds.withValidity hb status, h.active.mem, h.active.recorded, ?_, ?_⟩
  · have hchain : withInfos (infoAt (History.withValidity s b status)) (paths bs best.id) =
        withInfos (infoAt s) (paths bs best.id) := by
      refine List.map_congr_left fun x hx => ?_
      rw [hsame x hx]
    rw [hchain]
    exact h.active.chain
  · intro x hx
    rw [hsame x hx]
    exact h.active.valid x hx

theorem exec_updateSemanticValidity (hb : b ∈ bs) (status : SemanticValidity) :
    exec (updateSemanticValidity b status) s = (.ok (), History.withValidity s b status) := by
  simp only [updateSemanticValidity, exec_get_bind, h.blockInfoOptionById_of_mem hb, exec_getOrThrow_some_bind, exec_modify]
  rfl

/-- **A block on top of the active chain becomes the best one.** Its parent is any block of the active chain. -/
theorem exec_reportModifierIsValid {a : SidechainBlock} (hb : b ∈ bs) (hne : bs.head? ≠ some b) (ha : a ∈ paths bs best.id)
    (hid : a.id = b.parentId) :
    ∃ s', exec (reportModifierIsValid b) s = (.ok (), s') ∧ Consistent params s' bs b ∧
      s'.infos = (History.withValidity s b .Valid).infos ∧ s'.blocks = s.blocks := by
  have hs := h.withValidity hb fun _ => rfl
  have hupdate := h.exec_updateSemanticValidity hb .Valid
  set s₁ := History.withValidity s b .Valid with hs₁
  have hamem := h.mem_of_mem_best ha
  have hpath : paths bs b.id = paths bs a.id ++ [b] := by
    rcases h.tree.grown.path_cases hb with ⟨hhead, -⟩ | ⟨-, a', ha', hid', hpath⟩
    · exact absurd hhead hne
    · have haa' : a = a' := h.tree.grown.id_inj hamem ha' (hid.trans hid'.symm)
      rw [haa']
      exact hpath
  obtain ⟨l, hl, hsplit, hlast⟩ := hs.split_best ha
  have hwell := hs.wellFormed hs.active.mem
  rw [hsplit] at hwell
  have hwellb := hs.wellFormed hb
  have hpathb : withInfos (infoAt s₁) (paths bs b.id) = withInfos (infoAt s₁)
      (paths bs a.id) ++ [(b.id, infoAt s₁ b.id)] := by
    rw [hpath, withInfos_append]
    rfl
  rw [hpathb] at hwellb
  have hparent : (b.id, infoAt s₁ b.id).2.parentId = (a.id, infoAt s₁ a.id).1 :=
    (hs.holds.describes b hb).parentId.trans hid.symm
  have hset : exec (setBestBlock b.id (infoAt s₁ b.id) b.mainchainParent) s₁.activeChain =
      (.ok (), ofBlocks (mainchainRoot bs) params.mainchainCreationBlockHeight (withInfos (infoAt s₁) (paths bs b.id))) := by
    have hheight : ¬ s₁.activeChain.height = 0 := by
      have hlen : s₁.activeChain.height = (paths bs best.id).length := hs.height_eq
      have hpos := hs.tree.grown.path_ne_nil hs.active.mem
      rw [hlen]
      exact fun hzero => hpos (List.length_eq_zero_iff.1 hzero)
    rw [setBestBlock, exec_get_bind, if_neg hheight, hs.active.chain, hsplit, hpathb]
    rcases exec_setNonGenesisBlock (x := (b.id, infoAt s₁ b.id)) (d := params.mainchainCreationBlockHeight) hwell hlast hparent
      b.mainchainParent with ⟨hconnect, -⟩ | ⟨-, hdata, -⟩ | ⟨-, -, hexec⟩
    · exact absurd (hs.tree.headersConnect hs.holds.describes hamem hb hne hid) hconnect
    · exact absurd (hwellb.follows _ (List.prefix_refl _)) hdata
    · exact hexec.trans (exec_addToStorages hwellb)
  have hinfo : s₁.blockInfoOptionById b.id = some (infoAt s₁ b.id) := hs.blockInfoOptionById_of_mem hb
  refine ⟨{ s₁ with
    best := some b.id
    activeChain := ofBlocks (mainchainRoot bs) params.mainchainCreationBlockHeight (withInfos (infoAt s₁) (paths bs b.id)) },
    ?_, ?_, rfl, rfl⟩
  · rw [reportModifierIsValid, exec_bind_of_ok hupdate, exec_get_bind, hinfo, exec_getOrThrow_some_bind, setAsBestBlock,
      exec_modify_bind]
    exact exec_onActiveChain_ok hset
  · refine ⟨hs.tree, ⟨hs.holds.block, hs.holds.info, hs.holds.describes, hs.holds.height, hs.holds.score, hs.holds.absent⟩,
      hb, rfl, rfl, ?_⟩
    intro x hx
    rw [hpath] at hx
    rcases List.mem_append.1 hx with hx | hx
    · exact hs.active.valid x (hl ▸ List.mem_append_left _ hx)
    · have hvalid : infoAt s₁ b.id = { infoAt s b.id with semanticValidity := .Valid } := infoAt_withValidity_self
      rw [List.mem_singleton.1 hx]
      exact congrArg SidechainBlockInfo.semanticValidity hvalid

/-- **A path that starts at a block of the active chain is applied block by block.** -/
theorem exec_forM_reportModifierIsValid {c y : SidechainBlock} {l : List SidechainBlock} (hy : y ∈ bs)
    (hc : c ∈ paths bs best.id)
    (hl : paths bs y.id = paths bs c.id ++ l) :
    ∃ s' tip, exec (l.forM reportModifierIsValid) s = (.ok (), s') ∧ Consistent params s' bs tip ∧
    (l = [] → s' = s ∧ tip = best) ∧
      (l ≠ [] → tip = y) ∧
      ∀ x ∈ bs, (x ∈ l ∧ (infoAt s' x.id).semanticValidity = .Valid) ∨
        (x ∉ l ∧ infoAt s' x.id = infoAt s x.id) := by
  induction l generalizing s best c with
  | nil => exact ⟨s, best, rfl, h, fun _ => ⟨rfl, rfl⟩, absurd rfl, fun x _ => .inr ⟨List.not_mem_nil, rfl⟩⟩
  | cons x l ih =>
    have hcmem := h.mem_of_mem_best hc
    obtain ⟨hx, hroot, hparent, hpathx⟩ := h.tree.grown.path_next hy hcmem hl
    obtain ⟨s₁, hexec, h₁, hinfos, -⟩ := h.exec_reportModifierIsValid hx hroot hc hparent
    have hlast : (paths bs x.id).getLast? = some x := h.tree.grown.path_last hx
    have hrest : paths bs y.id = paths bs x.id ++ l := by
      have hpath : paths bs x.id = paths bs c.id ++ [x] := hpathx
      rw [hl, hpath, List.append_assoc]
      rfl
    obtain ⟨s', tip, hforM, h', hnil, hcons, hinfos'⟩ := ih h₁ (List.mem_of_getLast? hlast) hrest
    refine ⟨s', tip, (exec_bind_of_ok hexec).trans hforM, h', nofun, fun _ => ?_, ?_⟩
    · rcases List.eq_nil_or_concat l with rfl | ⟨init, z, hz⟩
      · have hlasty : (paths bs y.id).getLast? = some y := h.tree.grown.path_last hy
        rw [hrest, List.append_nil, hlast] at hlasty
        rw [(hnil rfl).2]
        exact Option.some.inj hlasty
      · exact hcons (by rw [hz]; simp)
    · intro z hz
      have hat : infoAt s₁ z.id = infoAt (History.withValidity s x .Valid) z.id := by rw [infoAt, hinfos]; rfl
      rcases hinfos' z hz with ⟨hmem, hvalid⟩ | ⟨hnot, hsame⟩
      · exact .inl ⟨List.mem_cons_of_mem _ hmem, hvalid⟩
      · rw [hsame, hat]
        by_cases hzx : z = x
        · subst hzx
          rw [infoAt_withValidity_self]
          exact .inl ⟨List.mem_cons_self, rfl⟩
        · have hne : z.id ≠ x.id := fun heq => hzx (h.tree.grown.id_inj hz hx heq)
          rw [infoAt_withValidity_of_ne hne]
          exact .inr ⟨by simp [hzx, hnot], rfl⟩

theorem applyAll {c y : SidechainBlock} {l : List SidechainBlock} (hy : y ∈ bs) (hc : c ∈ paths bs best.id)
    (hl : paths bs y.id = paths bs c.id ++ l) (hne : l ≠ []) :
    ∃ s', exec (l.forM reportModifierIsValid) s = (.ok (), s') ∧ Consistent params s' bs y ∧
      ∀ x ∈ bs, (x ∈ l ∧ (infoAt s' x.id).semanticValidity = .Valid) ∨
        (x ∉ l ∧ infoAt s' x.id = infoAt s x.id) := by
  obtain ⟨s', tip, hexec, h', -, htip, hinfos⟩ := h.exec_forM_reportModifierIsValid hy hc hl
  exact ⟨s', hexec, htip hne ▸ h', hinfos⟩

/-! A new block. -/

theorem parentId_of_mem (hb : b ∈ bs) : s.parentBlockId b.id = some b.parentId := by
  rw [HistoryStorage.parentBlockId, h.blockInfoOptionById_of_mem hb, Option.map_some, (h.holds.describes b hb).parentId]

/-- there is a last mainchain header up to every block -/
theorem exists_lastMainchainHeaderBaseInfo (hb : b ∈ bs) {fuel : ℕ} (hfuel : (paths bs b.id).length ≤ fuel) :
    ∃ base, s.getLastMainchainHeaderBaseInfoInclusion fuel b.id = some base := by
  refine h.tree.grown.path_induction (P := fun b => ∀ fuel, (paths bs (Node.id b)).length ≤ fuel →
    ∃ base, s.getLastMainchainHeaderBaseInfoInclusion fuel b.id = some base) ?_ ?_ hb fuel hfuel
  · intro r hr fuel hfuel
    have hmem := List.mem_of_mem_head? hr
    have hpos : 0 < (paths bs (Node.id r)).length := List.length_pos_iff.2 (h.tree.grown.path_ne_nil hmem)
    obtain ⟨fuel, rfl⟩ : ∃ n, fuel = n + 1 := ⟨fuel - 1, by omega⟩
    have hwell := h.wellFormed hmem
    obtain ⟨header, data, hheaders, -⟩ := (h.tree.genesis r hr).reference
    have hbase : (infoAt s r.id).mainchainHeaderBaseInfo ≠ [] := by
      intro hnil
      have hhashes := (h.holds.describes r hmem).headers
      rw [SidechainBlockInfo.mainchainHeaderHashes, hnil, SidechainBlock.mainchainHeaderHashesFromBlock, hheaders] at hhashes
      cases hhashes
    refine ⟨(infoAt s r.id).mainchainHeaderBaseInfo.getLast hbase, ?_⟩
    rw [HistoryStorage.getLastMainchainHeaderBaseInfoInclusion, h.blockInfoOptionById_of_mem hmem]
    simp only [List.getLast?_eq_some_getLast hbase]
  · intro a b ha hb _ hid hpath ih fuel hfuel
    rw [hpath, List.length_append, List.length_singleton] at hfuel
    obtain ⟨fuel, rfl⟩ : ∃ n, fuel = n + 1 := ⟨fuel - 1, by omega⟩
    obtain ⟨base, hbase⟩ := ih fuel (by omega)
    have hparent : (infoAt s b.id).parentId = a.id := (h.holds.describes b hb).parentId.trans hid.symm
    rw [HistoryStorage.getLastMainchainHeaderBaseInfoInclusion, h.blockInfoOptionById_of_mem hb]
    cases hlast : (infoAt s b.id).mainchainHeaderBaseInfo.getLast? with
    | some last => exact ⟨last, by simp only [hlast]⟩
    | none => exact ⟨base, by simp only [hlast, hparent, hbase]⟩

omit h in
theorem map_hash_baseInfoSeq (prev : ℕ) (hs : List MainchainHeader) :
    (getMainchainHeaderBaseInfoSeqFromBlock params prev hs).map MainchainHeaderBaseInfo.hash = hs.map MainchainHeader.hash := by
  induction hs generalizing prev with
  | nil => rfl
  | cons x hs ih => rw [getMainchainHeaderBaseInfoSeqFromBlock, List.map_cons, ih, List.map_cons]

/-- the info of a new block -/
theorem exists_blockInfo {a : SidechainBlock} (ha : a ∈ bs) (hid : a.id = b.parentId) {fuel : ℕ}
    (hfuel : (paths bs a.id).length ≤ fuel) :
    ∃ info, calculateBlockInfo params s fuel b (infoAt s a.id) = some info ∧ Describes info b ∧
      info.height = (paths bs a.id).length + 1 ∧ info.score = chainScore (paths bs a.id) + b.score ∧
      info.semanticValidity = .Unknown := by
  obtain ⟨base, hbase⟩ := h.exists_lastMainchainHeaderBaseInfo ha hfuel
  rw [hid] at hbase
  unfold calculateBlockInfo
  by_cases hempty : b.mainchainHeaders = []
  · rw [if_pos hempty]
    refine ⟨_, rfl, ⟨rfl, ?_, rfl⟩, congrArg (· + 1) (h.holds.height a ha), congrArg (· + b.score) (h.holds.score a ha),
      rfl⟩
    simp [SidechainBlockInfo.mainchainHeaderHashes, SidechainBlock.mainchainHeaderHashesFromBlock, hempty]
  · rw [if_neg hempty, hbase]
    refine ⟨_, rfl, ⟨rfl, ?_, rfl⟩, congrArg (· + 1) (h.holds.height a ha), congrArg (· + b.score) (h.holds.score a ha),
      rfl⟩
    exact map_hash_baseInfoSeq base.cumulativeCommTreeHash b.mainchainHeaders

/-- **A new block is stored.** -/
theorem stored {a : SidechainBlock} (ha : a ∈ bs) (hid : a.id = b.parentId) (hfresh : ∀ x ∈ bs, x.id ≠ b.id)
    (hcont : Continues (paths bs b.parentId) b) {info : SidechainBlockInfo} (hdescribes : Describes info b)
    (hheight : info.height = (paths bs a.id).length + 1) (hscore : info.score = chainScore (paths bs a.id) + b.score) :
    Consistent params { s with
      infos := Function.update s.infos b.id (some info)
      blocks := Function.update s.blocks b.id (some b) } (bs ++ [b]) best := by
  have htree := h.tree.child ha hid hfresh hcont
  have hself : paths (bs ++ [b]) b.id = paths bs a.id ++ [b] := by
    have hpath := paths_concat_self bs b
    rw [show Node.parentId b = a.id from hid.symm] at hpath
    exact hpath
  have hold : ∀ x ∈ bs, paths (bs ++ [b]) x.id = paths bs x.id := fun x hx => Grown.paths_of_mem hfresh hx
  have hinfo : ∀ x ∈ bs, infoAt { s with
      infos := Function.update s.infos b.id (some info)
      blocks := Function.update s.blocks b.id (some b) } x.id = infoAt s x.id := by
    intro x hx
    simp [infoAt, Function.update_of_ne (hfresh x hx)]
  have hnew : infoAt { s with
      infos := Function.update s.infos b.id (some info)
      blocks := Function.update s.blocks b.id (some b) } b.id = info := by
    simp [infoAt]
  have hroot : mainchainRoot (bs ++ [b]) = mainchainRoot bs := by
    rw [mainchainRoot, List.head?_append_of_ne_nil bs h.tree.grown.ne_nil]
    rfl
  have hbest : paths (bs ++ [b]) best.id = paths bs best.id := hold best h.active.mem
  refine ⟨htree, ⟨?_, ?_, ?_, ?_, ?_, ?_⟩, List.mem_append_left _ h.active.mem, h.active.recorded, ?_, ?_⟩
  · intro x hx
    rcases List.mem_append.1 hx with hx | hx
    · exact (Function.update_of_ne (hfresh x hx) ..).trans (h.holds.block x hx)
    · rw [List.mem_singleton.1 hx]
      exact Function.update_self ..
  · intro x hx
    rcases List.mem_append.1 hx with hx | hx
    · rw [hinfo x hx]
      exact (Function.update_of_ne (hfresh x hx) ..).trans (h.holds.info x hx)
    · rw [List.mem_singleton.1 hx, hnew]
      exact Function.update_self ..
  · intro x hx
    rcases List.mem_append.1 hx with hx | hx
    · rw [hinfo x hx]
      exact h.holds.describes x hx
    · rw [List.mem_singleton.1 hx, hnew]
      exact hdescribes
  · intro x hx
    rcases List.mem_append.1 hx with hx | hx
    · rw [hinfo x hx, hold x hx]
      exact h.holds.height x hx
    · rw [List.mem_singleton.1 hx, hnew, hself, hheight]
      simp
  · intro x hx
    rcases List.mem_append.1 hx with hx | hx
    · rw [hinfo x hx, hold x hx]
      exact h.holds.score x hx
    · rw [List.mem_singleton.1 hx, hnew, hself, hscore]
      simp [chainScore]
  · intro id hid
    have hne : id ≠ b.id := (hid b (by simp)).symm
    exact (Function.update_of_ne hne ..).trans (h.holds.absent id fun x hx => hid x (List.mem_append_left _ hx))
  · rw [hbest, hroot]
    refine h.active.chain.trans ?_
    congr 1
    refine List.map_congr_left fun x hx => ?_
    rw [hinfo x (h.mem_of_mem_best hx)]
  · intro x hx
    rw [hbest] at hx
    rw [hinfo x (h.mem_of_mem_best hx)]
    exact h.active.valid x hx

/-! The switch to a fork. -/

/-- back to the last common block -/
theorem chainBack_eq {c : SidechainBlock} {l : List SidechainBlock} (hb : b ∈ bs) (hc : c ∈ paths bs best.id)
    (hl : paths bs b.id = paths bs c.id ++ l) (hdisjoint : ∀ x ∈ l, x ∉ paths bs best.id) {fuel : ℕ}
    (hfuel : l.length < fuel)
    (acc : List ModifierId) :
    chainBack s s.isInActiveChain fuel b.id acc = some (c.id :: (l.map SidechainBlock.id ++ acc)) := by
  have hcmem := h.mem_of_mem_best hc
  obtain ⟨fuel, rfl⟩ : ∃ n, fuel = n + 1 := ⟨fuel - 1, by omega⟩
  have hlast : (paths bs b.id).getLast? = some b := h.tree.grown.path_last hb
  induction l using List.reverseRecOn generalizing b fuel acc with
  | nil =>
    have hlastc : (paths bs c.id).getLast? = some c := h.tree.grown.path_last hcmem
    rw [hl, List.append_nil, hlastc] at hlast
    obtain rfl := Option.some.inj hlast
    rw [chainBack, if_pos ((h.isInActiveChain_iff hcmem).2 hc)]
    rfl
  | append_singleton l x ih =>
    obtain rfl : x = b := by
      rw [hl] at hlast
      simpa using hlast
    have hnot : ¬ s.isInActiveChain x.id = true := by
      rw [h.isInActiveChain_iff hb]
      exact hdisjoint x (by simp)
    rcases h.tree.grown.path_cases hb with ⟨-, hroot⟩ | ⟨-, a, ha, hid, hpath⟩
    · have hnil : paths bs c.id = [] := by
        have hlen := congrArg List.length (hl.symm.trans hroot)
        simp only [List.length_append, List.length_singleton] at hlen
        exact List.length_eq_zero_iff.1 (by omega)
      exact absurd hnil (h.tree.grown.path_ne_nil hcmem)
    · have hla : paths bs a.id = paths bs c.id ++ l := by
        have heq : paths bs a.id ++ [x] = paths bs c.id ++ l ++ [x] := by
          rw [List.append_assoc, ← hl]
          exact hpath.symm
        exact List.append_cancel_right heq
      rw [List.length_append, List.length_singleton] at hfuel
      obtain ⟨fuel, rfl⟩ : ∃ n, fuel = n + 1 := ⟨fuel - 1, by omega⟩
      have hparent : s.parentBlockId x.id = some a.id := (h.parentId_of_mem hb).trans (congrArg some hid.symm)
      rw [chainBack, if_neg hnot, hparent]
      simp only
      rw [ih ha hla (fun y hy => hdisjoint y (by simp [hy])) (x.id :: acc) fuel (by omega) (h.tree.grown.path_last ha)]
      simp

/-- the active chain from a block on -/
theorem activeChainSince_eq {c : SidechainBlock} {l : List SidechainBlock} (hc : c ∈ paths bs best.id)
    (hl : paths bs best.id = paths bs c.id ++ l) : s.activeChainSince c.id = .ok (c.id :: l.map SidechainBlock.id) := by
  have hwell := h.wellFormed h.active.mem
  have hcmem := h.mem_of_mem_best hc
  obtain ⟨init, hinit⟩ : ∃ init, paths bs c.id = init ++ [c] :=
    ⟨_, (List.dropLast_append_getLast? c (h.tree.grown.path_last hcmem)).symm⟩
  have hheight : s.activeChain.sidechainCache.heightById c.id = some (init.length + 1) := by
    have hat := h.heightById_of_mem hc
    rw [hinit, List.length_append, List.length_singleton] at hat
    exact hat
  have hlen : s.activeChain.sidechainCache.height = (paths bs best.id).length := h.height_eq
  have hcount : (paths bs best.id).length = init.length + 1 + l.length := by
    rw [hl, hinit, List.length_append, List.length_append, List.length_singleton]
  have hdrop : (withInfos (infoAt s) (paths bs best.id)).drop init.length = withInfos (infoAt s) (c :: l) := by
    rw [hl, hinit, List.append_assoc, withInfos_append, List.drop_left' (by simp [withInfos])]
    rfl
  rw [HistoryStorage.activeChainSince, ElementsChain.chainSince, hheight]
  simp only [hlen, hcount, Nat.add_sub_cancel_left]
  have hsince := chainSinceHeight_ofList hwell.linked l.length init.length (by rw [withInfos, List.length_map, hcount]; omega)
  rw [h.active.chain]
  rw [hdrop, map_fst_withInfos] at hsince
  exact hsince

theorem storedBlocks_eq {l : List SidechainBlock} (hl : ∀ x ∈ l, x ∈ bs) :
    storedBlocks s (l.map SidechainBlock.id) = .ok l := by
  induction l with
  | nil => rfl
  | cons x l ih =>
    have hrest := ih fun y hy => hl y (by simp [hy])
    rw [storedBlocks] at hrest ⊢
    rw [List.map_cons, List.mapM_cons, h.holds.block x (hl x (by simp)), hrest]
    rfl

/-- the last common block and the two ways from it -/
structure Fork (bs : List SidechainBlock) (best b c : SidechainBlock) (l₁ l₂ : List SidechainBlock) : Prop where
  common : c ∈ paths bs best.id
  current : paths bs best.id = paths bs c.id ++ l₁
  new : paths bs b.id = paths bs c.id ++ l₂
  disjoint : ∀ x ∈ l₂, x ∉ paths bs best.id

theorem exists_fork (hb : b ∈ bs) : ∃ c l₁ l₂, Fork bs best b c l₁ l₂ := by
  obtain ⟨c, hc, l₁, l₂, hl₁, hl₂, hdisjoint⟩ := h.tree.grown.fork h.active.mem hb
  have hlast : (paths bs c.id).getLast? = some c := h.tree.grown.path_last hc
  refine ⟨c, l₁, l₂, ?_, hl₁, hl₂, hdisjoint⟩
  have hmem : c ∈ paths bs c.id := List.mem_of_getLast? hlast
  have hcurrent : paths bs best.id = paths bs c.id ++ l₁ := hl₁
  rw [hcurrent]
  exact List.mem_append_left _ hmem

theorem commonBlockSuffixes_eq {c : SidechainBlock} {l₁ l₂ : List SidechainBlock} (hb : b ∈ bs)
    (hfork : Fork bs best b c l₁ l₂)
    {fuel : ℕ} (hfuel : l₂.length < fuel) :
    commonBlockSuffixes params s fuel b =
      if params.maxHistoryRewritingLength < l₁.length then .ok ([], [])
      else .ok (c.id :: l₂.map SidechainBlock.id, c.id :: l₁.map SidechainBlock.id) := by
  have hcmem := h.mem_of_mem_best hfork.common
  have hback := h.chainBack_eq hb hfork.common hfork.new hfork.disjoint hfuel []
  have hlen : s.height - (infoAt s c.id).height = l₁.length := by
    rw [h.height_eq, h.holds.height c hcmem, hfork.current, List.length_append, Nat.add_sub_cancel_left]
  rw [List.append_nil] at hback
  unfold commonBlockSuffixes
  simp only [hback, List.head?_cons, Option.elim_some, h.blockInfoOptionById_of_mem hcmem, bind, Except.bind, hlen,
    h.activeChainSince_eq hfork.common hfork.current]
  split_ifs <;> rfl

/-- the fork is not longer than allowed, and (unless they are all tried again) none of its blocks is known as invalid -/
def CanSwitch (params : NetworkParams) (s : HistoryStorage) (l₁ l₂ : List SidechainBlock) : Prop :=
  l₁.length ≤ params.maxHistoryRewritingLength ∧
    (params.resetModifiersStatus = true ∨ ∀ x ∈ l₂, (infoAt s x.id).semanticValidity ≠ .Invalid)

/-- **What a better block on a fork makes the state do.** `a` is its parent. -/
theorem bestForkChanges_cases {a c : SidechainBlock} {l₁ l₂ : List SidechainBlock} (ha : a ∈ bs) (hid : a.id = b.parentId)
    (hfork : Fork bs best a c l₁ l₂) {fuel : ℕ} (hfuel : l₂.length < fuel) :
    (CanSwitch params s l₁ l₂ ∧ bestForkChanges params s fuel b = .ok ⟨some c.id, l₁, l₂ ++ [b]⟩) ∨
      ¬ CanSwitch params s l₁ l₂ ∧
        (bestForkChanges params s fuel b = .ok .none ∨ ∃ e, bestForkChanges params s fuel b = .error e) := by
  have hmem₁ : ∀ x ∈ l₁, x ∈ bs := fun x hx => h.mem_of_mem_best (hfork.current ▸ List.mem_append_right _ hx)
  have hmem₂ : ∀ x ∈ l₂, x ∈ bs :=
    fun x hx => h.tree.grown.mem_of_mem_path ha x (hfork.new ▸ List.mem_append_right _ hx)
  have hparent : s.blocks b.parentId = some a := hid ▸ h.holds.block a ha
  have hvalidity : ∀ x ∈ l₂, s.semanticValidity x.id = some (infoAt s x.id).semanticValidity := by
    intro x hx
    rw [HistoryStorage.semanticValidity, h.blockInfoOptionById_of_mem (hmem₂ x hx)]
    rfl
  have hchanges : bestForkChanges params s fuel b =
      if params.maxHistoryRewritingLength < l₁.length then .error .forkTooLong
      else forkProgress params s b (c.id :: l₂.map SidechainBlock.id) (c.id :: l₁.map SidechainBlock.id) := by
    unfold bestForkChanges
    simp only [hparent, Option.elim_some, bind, Except.bind, h.commonBlockSuffixes_eq ha hfork hfuel]
    split_ifs <;> rfl
  rw [hchanges]
  by_cases hlong : params.maxHistoryRewritingLength < l₁.length
  · exact .inr ⟨fun hcan => absurd hcan.1 (by omega), .inr ⟨.forkTooLong, if_pos hlong⟩⟩
  have hiff : (params.resetModifiersStatus = true ∨
      ∀ id ∈ (c.id :: l₂.map SidechainBlock.id).tail, s.semanticValidity id ≠ some .Invalid) ↔
        CanSwitch params s l₁ l₂ := by
    have hall : (∀ id ∈ l₂.map SidechainBlock.id, s.semanticValidity id ≠ some .Invalid) ↔
        ∀ x ∈ l₂, (infoAt s x.id).semanticValidity ≠ .Invalid := by
      simp only [List.forall_mem_map]
      refine forall₂_congr fun x hx => ?_
      rw [hvalidity x hx]
      simp
    rw [List.tail_cons, hall, CanSwitch]
    exact ⟨fun hor => ⟨by omega, hor⟩, fun hand => hand.2⟩
  have hne : ¬ (c.id :: l₂.map SidechainBlock.id = [] ∧ c.id :: l₁.map SidechainBlock.id = []) := by simp
  rw [if_neg hlong, forkProgress, if_neg hne]
  by_cases hcan : CanSwitch params s l₁ l₂
  · refine .inl ⟨hcan, ?_⟩
    rw [if_pos (hiff.2 hcan), List.tail_cons, List.tail_cons, h.storedBlocks_eq hmem₁, h.storedBlocks_eq hmem₂]
    rfl
  · exact .inr ⟨hcan, .inl (if_neg fun hor => hcan (hiff.1 hor))⟩

/-! What `append` returns. -/

theorem isBestBlock_eq {a : SidechainBlock} (ha : a ∈ bs) :
    isBestBlock params s b (infoAt s a.id) = some (decide (rank (paths bs best.id) < rank (paths bs a.id ++ [b]))) := by
  have hscore : s.chainScoreFor (bestBlockId params s) = some (chainScore (paths bs best.id)) := by
    rw [HistoryStorage.chainScoreFor, h.bestBlockId_eq, h.blockInfoOptionById_of_mem h.active.mem, Option.map_some,
      h.holds.score best h.active.mem]
  have hnew : chainScore (paths bs a.id ++ [b]) = chainScore (paths bs a.id) + b.score := by simp [chainScore]
  unfold isBestBlock
  simp only [hscore, Option.bind_eq_bind, Option.bind_some, calculateChainScore, h.holds.score a ha, h.holds.height a ha,
    h.height_eq,
    rank, Prod.Lex.toLex_lt_toLex, hnew, List.length_append, List.length_singleton]
  split_ifs with heq
  · simp [heq]
  · have hne : ¬ chainScore (paths bs best.id) = chainScore (paths bs a.id) + b.score := fun hc => heq hc.symm
    simp [hne]

/-- the three things a new block can lead to -/
inductive Outcome (params : NetworkParams) (s : HistoryStorage) (bs : List SidechainBlock) (best a b : SidechainBlock) :
    ProgressInfo → Prop
  | onTop (hparent : b.parentId = best.id) : Outcome params s bs best a b ⟨none, [], [b]⟩
  | switches {c : SidechainBlock} {l₁ l₂ : List SidechainBlock} (hparent : b.parentId ≠ best.id)
      (hfork : Fork bs best a c l₁ l₂)
      (hbetter : rank (paths bs best.id) < rank (paths bs a.id ++ [b])) (hcan : CanSwitch params s l₁ l₂) :
      Outcome params s bs best a b ⟨some c.id, l₁, l₂ ++ [b]⟩
  | stays {c : SidechainBlock} {l₁ l₂ : List SidechainBlock} (hparent : b.parentId ≠ best.id)
      (hfork : Fork bs best a c l₁ l₂)
      (hnot : ¬ (rank (paths bs best.id) < rank (paths bs a.id ++ [b]) ∧ CanSwitch params s l₁ l₂)) :
      Outcome params s bs best a b .none

theorem appendProgress_outcome {a : SidechainBlock} (ha : a ∈ bs) (hid : a.id = b.parentId) {fuel : ℕ}
    (hfuel : bs.length < fuel) :
    ∃ progress, appendProgress params s fuel b (infoAt s a.id) = .ok progress ∧ Outcome params s bs best a b progress := by
  obtain ⟨c, l₁, l₂, hfork⟩ := h.exists_fork ha
  have hlen : l₂.length < fuel := by
    have hpath : (paths bs a.id).length ≤ bs.length := h.tree.grown.path_length_le ha
    rw [hfork.new, List.length_append] at hpath
    omega
  unfold appendProgress
  rw [h.bestBlockId_eq, h.isBestBlock_eq ha]
  by_cases hparent : b.parentId = best.id
  · exact ⟨_, if_pos hparent, .onTop hparent⟩
  rw [if_neg hparent]
  by_cases hbetter : rank (paths bs best.id) < rank (paths bs a.id ++ [b])
  · rw [decide_eq_true hbetter]
    rcases h.bestForkChanges_cases ha hid hfork hlen with ⟨hcan, heq⟩ | ⟨hcan, heq | ⟨e, heq⟩⟩
    · exact ⟨_, by rw [heq], .switches hparent hfork hbetter hcan⟩
    · exact ⟨_, by rw [heq], .stays hparent hfork fun hand => hcan hand.2⟩
    · exact ⟨_, by rw [heq], .stays hparent hfork fun hand => hcan hand.2⟩
  · rw [decide_eq_false hbetter]
    exact ⟨_, rfl, .stays hparent hfork fun hand => hbetter hand.1⟩

/-- a new block is not the genesis block -/
theorem id_ne_genesis (hfresh : ∀ x ∈ bs, x.id ≠ b.id) : b.id ≠ params.sidechainGenesisBlockId := by
  obtain ⟨g, rest, hg⟩ := List.exists_cons_of_ne_nil h.tree.grown.ne_nil
  have hhead : bs.head? = some g := by rw [hg]; rfl
  rw [← (h.tree.genesis g hhead).id]
  exact (hfresh g (List.mem_of_mem_head? hhead)).symm

/-- **A new block.** It is stored with its info, and the state is told what to do. -/
theorem exec_append {validators : HistoryStorage → SidechainBlock → Bool} {a : SidechainBlock} (ha : a ∈ bs)
    (hid : a.id = b.parentId)
    (hfresh : ∀ x ∈ bs, x.id ≠ b.id) (hcont : Continues (paths bs b.parentId) b) (hvalid : validators s b = true)
    {fuel : ℕ}
    (hfuel : bs.length < fuel) :
    ∃ progress s', exec (append params validators fuel b) s = (.ok progress, s') ∧ Outcome params s bs best a b progress ∧
      Consistent params s' (bs ++ [b]) best ∧ (∀ x ∈ bs, infoAt s' x.id = infoAt s x.id) ∧
      (infoAt s' b.id).semanticValidity = .Unknown ∧ s'.activeChain = s.activeChain := by
  have hother := h.id_ne_genesis hfresh
  have hpath : (paths bs a.id).length ≤ bs.length := h.tree.grown.path_length_le ha
  obtain ⟨info, hinfo, hdescribes, hheight, hscore, hunknown⟩ := h.exists_blockInfo (b := b) ha hid (hpath.trans hfuel.le)
  obtain ⟨progress, hprogress, houtcome⟩ := h.appendProgress_outcome ha hid hfuel
  have hparent : s.blockInfoOptionById b.parentId = some (infoAt s a.id) := hid ▸ h.blockInfoOptionById_of_mem ha
  have hknown : ¬ (b.id ≠ params.sidechainGenesisBlockId ∧ s.blockInfoOptionById b.parentId = none) := by
    rw [hparent]
    simp
  have hpasses : ¬ validators s b = false := by simp [hvalid]
  refine ⟨progress, { s with
      infos := Function.update s.infos b.id (some info)
      blocks := Function.update s.blocks b.id (some b) }, ?_, houtcome, h.stored ha hid hfresh hcont hdescribes hheight hscore,
    ?_, ?_, rfl⟩
  · rw [append, exec_get_bind]
    simp only
    rw [exec_throwIf_neg_bind hknown, exec_throwIf_neg_bind hpasses, if_neg hother, hparent, exec_getOrThrow_some_bind, hinfo,
      exec_getOrThrow_some_bind, hprogress]
    rfl
  · intro x hx
    simp [infoAt, Function.update_of_ne (hfresh x hx)]
  · simpa [infoAt] using hunknown

end Consistent

end SidechainsSdk.History
