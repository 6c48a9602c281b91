/-
The active chain over a run of `setBestBlock` calls, and the one loaded after a restart.

`Reachable d c bs`: after some calls the active chain is `c`, and `bs` are the calls whose blocks are the best chain. Every
call of the run is `Fresh`: neither the block nor one of its headers is already in the part of the chain that stays. Ids and
header hashes are hashes over the parent's, so that this means that hashes differ.

- `rebuilt_after_restart`: `loadActiveChain` gives `c` again from any storage that holds the best chain; the reference data is
  a prefix of the headers; a call that throws leaves the chain as it was.
-/
import Mathlib.Tactic
import SidechainsSdk.Chain.Blocks
import SidechainsSdk.History.HistoryStorage

namespace SidechainsSdk.Chain

open Fallible ElementsChain History

/-- the arguments of `setBestBlock` -/
structure BestBlock where
  id : ModifierId
  info : SidechainBlockInfo
  mainchainParentHashOpt : Option MainchainHeaderHash

namespace BestBlock

def block (x : BestBlock) : ModifierId × SidechainBlockInfo := (x.id, x.info)

def set (x : BestBlock) : ActiveChain.Chained Unit := ActiveChain.setBestBlock x.id x.info x.mainchainParentHashOpt

end BestBlock

namespace ActiveChain

/-- the best chain up to the parent of `x`, and `x` -/
def onTop (bs : List BestBlock) (x : BestBlock) : List BestBlock :=
  bs.take ((heightIn (bs.map BestBlock.block) x.info.parentId).getD 0) ++ [x]

/-- the best chain after a call -/
def bestChainAfter (c : ActiveChain) (bs : List BestBlock) (x : BestBlock) : List BestBlock :=
  match (exec x.set c).1 with
  | .ok _ => onTop bs x
  | .error _ => bs

/-- the block and its headers are not in the chain yet, or only in the part that is cut off; the data of a first block is
that of its headers -/
structure Fresh (c : ActiveChain) (x : BestBlock) : Prop where
  nodup : x.info.mainchainHeaderHashes.Nodup
  id : ∀ parentHeight ∈ c.heightById x.info.parentId, ∀ h ∈ c.heightById x.id, parentHeight < h
  headers : ∀ parentHeight ∈ c.heightById x.info.parentId, ∀ last ∈ c.getLastMainchainHeaderHashTillHeight parentHeight,
    ∀ lastHeight ∈ c.mcHeadersHeightByMcHash last, ∀ hash ∈ x.info.mainchainHeaderHashes,
      ∀ h ∈ c.mcHeadersHeightByMcHash hash, lastHeight < h
  genesis : c.height = 0 → (∀ hash ∈ x.info.mainchainHeaderHashes.head?, x.mainchainParentHashOpt ≠ some hash) ∧
    x.info.mainchainReferenceDataHeaderHashes <+: x.info.mainchainHeaderHashes

/-- the runs from the empty chain, with the best chain -/
inductive Reachable (d : ℕ) : ActiveChain → List BestBlock → Prop
  | start : Reachable d (empty d) []
  | call {c : ActiveChain} {bs : List BestBlock} {x : BestBlock} (h : Reachable d c bs) (hfresh : Fresh c x) :
      Reachable d (exec x.set c).2 (bestChainAfter c bs x)

/-- the active chain is that of the best chain -/
def Represents (d : ℕ) (c : ActiveChain) (bs : List BestBlock) : Prop :=
  ∃ p, (∀ x ∈ bs.head?, x.mainchainParentHashOpt = some p) ∧ WellFormed p (bs.map BestBlock.block) ∧
    c = ofBlocks p d (bs.map BestBlock.block)

theorem ofBlocks_nil (p : MainchainHeaderHash) (d : ℕ) : ofBlocks p d [] = empty d := rfl

theorem wellFormed_nil (p : MainchainHeaderHash) : WellFormed p [] := by
  refine ⟨⟨by simp, .nil, by simp⟩, by simp [headerHashes, carried], by simp [headerHashes, carried], ?_, by simp⟩
  intro bs' hbs'
  rw [List.prefix_nil.1 hbs']
  exact List.prefix_refl _

section Step

variable {d : ℕ} {p : MainchainHeaderHash} {x : BestBlock}

/-- a first block that fits -/
theorem wellFormed_genesis (hfresh : Fresh (empty d) x) (hheaders : x.info.mainchainHeaderHashes ≠ [])
    (hdata : x.info.mainchainReferenceDataHeaderHashes ≠ []) (hp : x.mainchainParentHashOpt = some p)
    (hself : x.info.parentId ≠ x.id) : WellFormed p [x.block] := by
  obtain ⟨hparent, hpre⟩ := hfresh.genesis rfl
  refine ⟨⟨List.nodup_singleton _, .singleton _, ?_⟩, ?_, ?_, ?_, ?_⟩
  · intro b hb
    obtain rfl : x.block = b := by simpa using hb
    exact hself
  · rw [headerHashes, carried_singleton]
    exact hfresh.nodup
  · intro y hy
    rw [headerHashes, carried_singleton] at hy
    rintro rfl
    exact hparent y hy hp
  · intro bs' hbs'
    have hconcat : bs' <+: [] ++ [x.block] := hbs'
    rcases List.prefix_concat_iff.1 hconcat with rfl | hnil
    · rw [DataFollows, dataHashes, headerHashes, List.nil_append, carried_singleton, carried_singleton]
      exact hpre
    · rw [List.prefix_nil.1 hnil]
      exact List.prefix_refl _
  · intro b hb
    obtain rfl : x.block = b := by simpa using hb
    exact ⟨hheaders, hdata⟩

/-- a first block that fits -/
theorem exec_setGenesisBlock_ok {q : MainchainHeaderHash} (hheaders : x.info.mainchainHeaderHashes ≠ [])
    (hdata : x.info.mainchainReferenceDataHeaderHashes ≠ []) (hwell : WellFormed q [x.block]) :
    exec (setGenesisBlock x.id x.info (some q)) (empty d) = (.ok (), ofBlocks q d [x.block]) := by
  have hheight : ¬ (empty d).height ≠ 0 := not_not.2 rfl
  have hparent : ¬ (some q : Option MainchainHeaderHash) = none := by simp
  have hwell' : WellFormed q ([] ++ [x.block]) := hwell
  have hadd := exec_addToStorages (d := d) hwell'
  simp only [setGenesisBlock, exec_get_bind, exec_throwIf_neg_bind hheight, exec_throwIf_neg_bind hheaders,
    exec_throwIf_neg_bind hdata, exec_throwIf_neg_bind hparent]
  rw [← ofBlocks_nil q d]
  exact hadd

theorem exec_setGenesisBlock (hfresh : Fresh (empty d) x) :
    (∃ q, x.mainchainParentHashOpt = some q ∧ WellFormed q [x.block] ∧
      exec x.set (empty d) = (.ok (), ofBlocks q d [x.block])) ∨
    ∃ e, exec x.set (empty d) = (.error e, empty d) := by
  have hset : exec x.set (empty d) = exec (setGenesisBlock x.id x.info x.mainchainParentHashOpt) (empty d) := rfl
  have hheight : ¬ (empty d).height ≠ 0 := not_not.2 rfl
  rw [hset]
  by_cases hheaders : x.info.mainchainHeaderHashes = []
  · simp only [setGenesisBlock, exec_get_bind, exec_throwIf_neg_bind hheight]
    exact .inr ⟨_, exec_throwIf_pos_bind hheaders⟩
  by_cases hdata : x.info.mainchainReferenceDataHeaderHashes = []
  · simp only [setGenesisBlock, exec_get_bind, exec_throwIf_neg_bind hheight]
    exact .inr ⟨_, (exec_throwIf_neg_bind hheaders).trans (exec_throwIf_pos_bind hdata)⟩
  cases hp : x.mainchainParentHashOpt with
  | none =>
    simp only [setGenesisBlock, exec_get_bind, exec_throwIf_neg_bind hheight]
    exact .inr ⟨_, (exec_throwIf_neg_bind hheaders).trans ((exec_throwIf_neg_bind hdata).trans (exec_throwIf_pos_bind rfl))⟩
  | some q =>
    by_cases hself : x.info.parentId = x.id
    · -- thrown by the first of the three caches, before anything has changed
      have happend : exec (appendData x.id x.info) (ElementsChain.empty : ElementsChain ModifierId SidechainBlockInfo) =
          (.error .himselfAsParent, .empty) := by
        have hfirst : ¬ (0 < (ElementsChain.empty : ElementsChain ModifierId SidechainBlockInfo).height ∧
            (ElementsChain.empty : ElementsChain ModifierId SidechainBlockInfo).bestId ≠ some x.info.parentId) := by
          rintro ⟨hpos, -⟩
          exact absurd hpos (by decide)
        simp only [appendData, exec_get_bind]
        exact (exec_throwIf_neg_bind hfirst).trans (exec_throwIf_pos_bind hself)
      have hparent : ¬ (some q : Option MainchainHeaderHash) = none := by simp
      refine .inr ⟨.himselfAsParent, ?_⟩
      simp only [setGenesisBlock, exec_get_bind, exec_throwIf_neg_bind hheight, exec_throwIf_neg_bind hheaders,
        exec_throwIf_neg_bind hdata, exec_throwIf_neg_bind hparent]
      have hpart : exec (appendData x.id x.info) (empty d).sidechainCache = (.error .himselfAsParent, .empty) := happend
      rw [addToStorages, exec_bind, onSidechain, exec_onPart, hpart]
      rfl
    · have hwell : WellFormed q [x.block] := wellFormed_genesis hfresh hheaders hdata hp hself
      exact .inl ⟨q, rfl, hwell, exec_setGenesisBlock_ok hheaders hdata hwell⟩

/-- the entries of the part that stays have the heights up to that of the last of them -/
theorem Fresh.not_mem {bs₁ bs₂ : Blocks} {y : ModifierId × SidechainBlockInfo} (h : WellFormed p (bs₁ ++ bs₂))
    (hfresh : Fresh (ofBlocks p d (bs₁ ++ bs₂)) x) (hy : bs₁.getLast? = some y) (hparent : x.info.parentId = y.1) :
    x.id ∉ bs₁.map Prod.fst ∧ ∀ a ∈ x.info.mainchainHeaderHashes, a ∉ headerHashes bs₁ := by
  have hheight : (ofBlocks p d (bs₁ ++ bs₂)).heightById x.info.parentId = some bs₁.length := by
    rw [hparent]
    exact heightById_last h hy
  constructor
  · intro hmem
    obtain ⟨n, hn, hin⟩ := heightIn_left hmem bs₂
    exact absurd (hfresh.id _ hheight n hin) (by omega)
  · intro a ha hmem
    have hne : bs₁ ≠ [] := by
      rintro rfl
      cases hy
    obtain ⟨hd, -, hhd, -⟩ := (h.of_prefix (List.prefix_append _ _)).exists_last hne
    have hlast : (ofBlocks p d (bs₁ ++ bs₂)).mcHeadersHeightByMcHash hd = some ((headerHashes bs₁).length + (d - 1)) :=
      mcHeadersHeightByMcHash_last h hhd
    have hids := map_fst_entries SidechainBlockInfo.mainchainHeaderHashes p 1 bs₁
    have hmem' : a ∈ (entries SidechainBlockInfo.mainchainHeaderHashes p 1 bs₁).map Prod.fst := hids ▸ hmem
    obtain ⟨n, hn, hin⟩ := heightIn_left hmem' (entries SidechainBlockInfo.mainchainHeaderHashes _ _ bs₂)
    rw [← entries_append] at hin
    have hfound : (ofBlocks p d (bs₁ ++ bs₂)).mcHeadersHeightByMcHash a = some (n + (d - 1)) := congrArg _ hin
    have hlen : (entries SidechainBlockInfo.mainchainHeaderHashes p 1 bs₁).length = (headerHashes bs₁).length := by
      rw [← List.length_map Prod.fst, hids]
      rfl
    have hlookup : (ofBlocks p d (bs₁ ++ bs₂)).getLastMainchainHeaderHashTillHeight bs₁.length = some hd :=
      getLastMainchainHeaderHashTillHeight_ofBlocks.trans hhd
    exact absurd (hfresh.headers _ hheight hd hlookup _ hlast a ha _ hfound) (by omega)

/-- **One call.** It sets the block on top of its parent, or throws and changes nothing. -/
theorem Represents.call {c : ActiveChain} {bs : List BestBlock} (h : Represents d c bs) (hfresh : Fresh c x) :
    (∃ c', exec x.set c = (.ok (), c') ∧ Represents d c' (onTop bs x)) ∨ ∃ e, exec x.set c = (.error e, c) := by
  obtain ⟨q, hq, hwell, rfl⟩ := h
  rcases List.eq_nil_or_concat bs with rfl | ⟨_, _, hbs⟩
  · rcases exec_setGenesisBlock hfresh with ⟨q', hq', hwell', hexec⟩ | ⟨e, hexec⟩
    · exact .inl ⟨_, hexec, q', by simpa [onTop] using hq', hwell', rfl⟩
    · exact .inr ⟨e, hexec⟩
  · have hne : bs ≠ [] := by
      rw [hbs]
      simp
    clear hbs
    have hheight : ¬ (ofBlocks q d (bs.map BestBlock.block)).height = 0 := by
      rw [height, ofBlocks, height_ofList, List.length_map]
      exact fun hzero => hne (List.length_eq_zero_iff.1 hzero)
    have hset : exec x.set (ofBlocks q d (bs.map BestBlock.block)) =
        exec (setNonGenesisBlock x.id x.info x.mainchainParentHashOpt) (ofBlocks q d (bs.map BestBlock.block)) := by
      rw [BestBlock.set, setBestBlock, exec_get_bind, if_neg hheight]
    cases hparent : heightIn (bs.map BestBlock.block) x.info.parentId with
    | none =>
      refine .inr ⟨.unconnectedBlock, ?_⟩
      rw [hset, setNonGenesisBlock, exec_get_bind, heightById, ofBlocks, heightById_ofList, hparent, exec_getOrThrow_none_bind]
    | some n =>
      obtain ⟨front, y, back, hsplit, hy, rfl⟩ := mem_of_heightIn hparent
      rw [List.append_cons] at hsplit
      have hlast : (front ++ [y]).getLast? = some y := by simp
      have htop : (onTop bs x).map BestBlock.block = front ++ [y] ++ [x.block] := by
        have htake : (bs.map BestBlock.block).take (front.length + 1) = front ++ [y] := by
          rw [hsplit]
          exact List.take_left' (by simp)
        rw [onTop, hparent, Option.getD_some, List.map_append, List.map_take, htake]
        rfl
      rw [hset]
      rw [hsplit] at hwell hfresh ⊢
      rcases exec_setNonGenesisBlock (x := x.block) hwell hlast hy.symm x.mainchainParentHashOpt with
        ⟨-, e, -, hexec⟩ | ⟨-, -, hexec⟩ | ⟨-, hfollows, hexec⟩
      · exact .inr ⟨e, hexec⟩
      · exact .inr ⟨_, hexec⟩
      · obtain ⟨hid, hnew⟩ := hfresh.not_mem hwell hlast hy.symm
        have hwell' : WellFormed q (front ++ [y] ++ [x.block]) :=
          (hwell.of_prefix (List.prefix_append _ _)).concat hlast hy.symm hid hfresh.nodup hnew hfollows
        refine .inl ⟨_, hexec.trans (exec_addToStorages hwell'), q, ?_, by rwa [htop], by rw [htop]⟩
        intro z hz
        rw [onTop, hparent] at hz
        obtain ⟨b, rest, rfl⟩ := List.exists_cons_of_ne_nil hne
        exact hq z (by simpa using hz)

end Step

theorem Reachable.represents {d : ℕ} {c : ActiveChain} {bs : List BestBlock} (h : Reachable d c bs) : Represents d c bs := by
  induction h with
  | start => exact ⟨0, by simp, wellFormed_nil 0, (ofBlocks_nil 0 d).symm⟩
  | call _ hfresh ih =>
    rcases ih.call hfresh with ⟨c', hexec, hc'⟩ | ⟨e, hexec⟩
    · rw [bestChainAfter, hexec]
      exact hc'
    · rw [bestChainAfter, hexec]
      exact ih

/-! The restart. -/

/-- the storage holds the blocks of the best chain, with their heights, and the id of the last of them -/
structure Stored (params : NetworkParams) (s : StoredHistory) (bs : List BestBlock) : Prop where
  info : ∀ x ∈ bs, s.infos x.id = some x.info
  height : ∀ i x, bs[i]? = some x → x.info.height = i + 1
  parent : ∀ x ∈ bs.head?, (s.blocks x.id).bind SidechainBlock.mainchainParent = x.mainchainParentHashOpt
  best : ∀ x ∈ bs.getLast?, s.bestBlockId params = x.id

theorem loadBlocksInfo_chain {s : StoredHistory} {bs : List BestBlock} {x : BestBlock}
    (hlinked : Linked ((bs ++ [x]).map BestBlock.block)) (hinfo : ∀ y ∈ bs, s.infos y.id = some y.info)
    (hheight : ∀ i y, (bs ++ [x])[i]? = some y → y.info.height = i + 1) (collected : Blocks) (fuel : ℕ)
    (hfuel : bs.length < fuel) :
    s.loadBlocksInfo fuel x.id x.info collected = .ok ((bs ++ [x]).map BestBlock.block ++ collected) := by
  induction bs using List.reverseRecOn generalizing x collected fuel with
  | nil =>
    obtain ⟨fuel, rfl⟩ : ∃ n, fuel = n + 1 := ⟨fuel - 1, by omega⟩
    have hone : x.info.height = 1 := hheight 0 x rfl
    rw [StoredHistory.loadBlocksInfo, if_neg (by omega)]
    rfl
  | append_singleton bs y ih =>
    obtain ⟨fuel, rfl⟩ : ∃ n, fuel = n + 1 := ⟨fuel - 1, by omega⟩
    have hmany : x.info.height = (bs ++ [y]).length + 1 := hheight (bs ++ [y]).length x (by simp)
    rw [List.map_append] at hlinked
    have hparent : x.info.parentId = y.id := hlinked.next.2.2 y.block (by simp)
    have hstored : s.infos y.id = some y.info := hinfo y (by simp)
    have hlen : (bs ++ [y]).length = bs.length + 1 := by simp
    have hrest := ih hlinked.left (fun z hz => hinfo z (by simp [hz]))
      (fun i z hz => hheight i z ((List.getElem?_append_left (List.getElem?_eq_some_iff.1 hz).1).trans hz))
      ((x.id, x.info) :: collected) fuel (by omega)
    rw [StoredHistory.loadBlocksInfo, if_pos (by omega), StoredHistory.blockInfoByIdFromStorage, hparent, hstored]
    exact hrest.trans (by simp [BestBlock.block])

theorem loadActiveChain_stored {params : NetworkParams} {s : StoredHistory} {bs : List BestBlock} {c : ActiveChain}
    (h : Represents params.mainchainCreationBlockHeight c bs) (hs : Stored params s bs) {fuel : ℕ}
    (hfuel : bs.length ≤ fuel) :
    s.loadActiveChain params fuel (decide (bs = [])) = .ok c := by
  obtain ⟨p, hp, hwell, rfl⟩ := h
  rcases List.eq_nil_or_concat bs with rfl | ⟨init, x, rfl⟩
  · rfl
  rw [List.concat_eq_append] at *
  have hne : ¬ (init ++ [x] = []) := by simp
  have hbest : s.bestBlockId params = x.id := hs.best x (by simp)
  have hlen : (init ++ [x]).length = init.length + 1 := by simp
  have hload := loadBlocksInfo_chain hwell.linked (fun y hy => hs.info y (by simp [hy])) hs.height [] fuel (by omega)
  have happly : apply ((init ++ [x]).map BestBlock.block) p params.mainchainCreationBlockHeight = _ :=
    apply_ofBlocks hwell (by simp)
  obtain ⟨b, rest, hb⟩ := List.exists_cons_of_ne_nil hne
  obtain ⟨first, hstored, hfirst⟩ := Option.bind_eq_some_iff.1
    ((hs.parent b (by rw [hb]; rfl)).trans (hp b (by rw [hb]; rfl)))
  have hblock : s.blocks b.block.1 = some first := hstored
  rw [StoredHistory.loadActiveChain, decide_eq_false hne, if_neg (by simp), hbest, StoredHistory.blockInfoByIdFromStorage,
    hs.info x (by simp)]
  rw [hb, List.map_cons] at hload happly
  simp only [Option.elim_some, hload, List.append_nil, List.head?, bind, Except.bind, Option.bind, hblock, hfirst, happly]
  rw [hb, List.map_cons]

/-- the reference data is a prefix of the headers -/
theorem Represents.data_prefix {d : ℕ} {c : ActiveChain} {bs : List BestBlock} (h : Represents d c bs) :
    c.mainchainReferenceDataCache.ids <+: c.mainchainHeadersCache.ids := by
  obtain ⟨p, -, hwell, rfl⟩ := h
  rw [ofBlocks, ids_ofList hwell.linked_data, ids_ofList hwell.linked_headers, map_fst_entries, map_fst_entries]
  exact hwell.follows _ (List.prefix_refl _)

/-- **After a restart the active chain is the same.** It is the one rebuilt from the blocks of the best chain, as a whole, so
all lookups agree. Reference data never runs ahead of the headers. A further call that throws changes nothing. -/
theorem rebuilt_after_restart {d : ℕ} {c : ActiveChain} {bs : List BestBlock} (h : Reachable d c bs) :
    (∀ x ∈ bs.head?, ∃ p, x.mainchainParentHashOpt = some p ∧ apply (bs.map BestBlock.block) p d = .ok c) ∧
    (∀ params s fuel, params.mainchainCreationBlockHeight = d → Stored params s bs → bs.length ≤ fuel →
      s.loadActiveChain params fuel (decide (bs = [])) = .ok c) ∧
    c.mainchainReferenceDataCache.ids <+: c.mainchainHeadersCache.ids ∧
    ∀ x e c', Fresh c x → exec x.set c = (.error e, c') → c' = c := by
  have hc := h.represents
  refine ⟨?_, ?_, hc.data_prefix, ?_⟩
  · intro x hx
    obtain ⟨p, hp, hwell, rfl⟩ := hc
    refine ⟨p, hp x hx, apply_ofBlocks hwell ?_⟩
    rintro hnil
    rw [List.map_eq_nil_iff.1 hnil] at hx
    cases hx
  · rintro params s fuel rfl hs hfuel
    exact loadActiveChain_stored hc hs hfuel
  · intro x e c' hfresh hexec
    rcases hc.call hfresh with ⟨c'', hok, -⟩ | ⟨e', herr⟩
    · rw [hok] at hexec
      cases hexec
    · rw [herr] at hexec
      exact (Prod.mk.inj hexec).2.symm

/-! A first block, a block that carries two headers, and a fork from the first block that carries one header and its data. -/

def sampleBlock (id height parentId : ℕ) (headers data : List MainchainHeaderHash) (given : Option MainchainHeaderHash) :
    BestBlock :=
  ⟨id, ⟨height, height, parentId, .Valid, headers.map (⟨·, 0⟩), data⟩, given⟩

def sampleGenesis : BestBlock := sampleBlock 1 1 0 [10] [10] (some 9)

def sampleHeaders : BestBlock := sampleBlock 2 2 1 [11, 12] [] (some 10)

def sampleFork : BestBlock := sampleBlock 3 2 1 [11] [11] (some 10)

def sampleStored : StoredHistory where
  blocks id := if id = 1 then some ⟨1, 0, [⟨10, 1, 9, 0⟩], [⟨10, none, none, none, [], none⟩], []⟩ else none
  infos id := if id = 1 then some sampleGenesis.info else if id = 3 then some sampleFork.info else none
  best := some 3

def sampleParams : NetworkParams := ⟨1, 1, 100, false, 0, fun a b => a + b⟩

def runBestBlocks (d : ℕ) (xs : List BestBlock) : ActiveChain := xs.foldl (fun c x => (exec x.set c).2) (empty d)

theorem fresh_genesis : Fresh (runBestBlocks 1 []) sampleGenesis := ⟨by decide, by decide, by decide, by decide⟩

theorem fresh_headers : Fresh (runBestBlocks 1 [sampleGenesis]) sampleHeaders := ⟨by decide, by decide, by decide, by decide⟩

theorem fresh_fork : Fresh (runBestBlocks 1 [sampleGenesis, sampleHeaders]) sampleFork :=
  ⟨by decide, by decide, by decide, by decide⟩

theorem reachable_sample :
    Reachable 1 (runBestBlocks 1 [sampleGenesis, sampleHeaders, sampleFork]) [sampleGenesis, sampleFork] :=
  ((Reachable.start.call fresh_genesis).call fresh_headers).call fresh_fork

theorem stored_sample : Stored sampleParams sampleStored [sampleGenesis, sampleFork] := by
  refine ⟨by decide, ?_, by decide, by decide⟩
  intro i x hx
  match i, hx with
  | 0, hx => cases hx; rfl
  | 1, hx => cases hx; rfl

theorem rebuilt_after_restart_fork :
    sampleStored.loadActiveChain sampleParams 2 false =
      .ok (runBestBlocks 1 [sampleGenesis, sampleHeaders, sampleFork]) :=
  (rebuilt_after_restart reachable_sample).2.1 sampleParams sampleStored 2 rfl stored_sample le_rfl

end ActiveChain

end SidechainsSdk.Chain
