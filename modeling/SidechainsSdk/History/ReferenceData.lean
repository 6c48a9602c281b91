/-
What the reference data validator accepts. Along a chain of blocks the headers and the data the blocks carry make two lists,
and the property is `DataFollows`: the second is a prefix of the first.

- `missedHeaders_eq`: the walk back ends and gives the headers beyond the prefix. It ends because the first block has data,
  and the data accepted so far is that of headers of the chain.
- `validate_iff_dataFollows`: a block whose chain has no header twice is accepted exactly when `DataFollows` still holds with it
  and each reference it completes is valid by itself. On the active chain the check of `setBestBlock` agrees, and the headers
  reported as missing data are those beyond the prefix.
- `validate_rejects_invalid_reference`: the second condition is needed.
-/
import Mathlib.Tactic
import SidechainsSdk.Chain.Rebuild
import SidechainsSdk.History.ReferenceValidator

namespace SidechainsSdk.History

open Fallible Chain ElementsChain ActiveChain MainchainBlockReferenceValidator

/-- a chain of blocks with their infos, the first block first -/
abbrev Lineage := List (SidechainBlock × SidechainBlockInfo)

/-- the info is made from the block -/
structure Describes (info : SidechainBlockInfo) (b : SidechainBlock) : Prop where
  parentId : info.parentId = b.parentId
  headers : info.mainchainHeaderHashes = b.mainchainHeaderHashesFromBlock
  data : info.mainchainReferenceDataHeaderHashes = b.mainchainReferenceDataHeaderHashesFromBlock

namespace Lineage

variable (l : Lineage)

def toBlocks : Blocks := l.map fun y => (y.1.id, y.2)

/-- the headers along the chain, each with its block -/
def headers : List (MainchainHeader × SidechainBlock) := l.flatMap fun y => y.1.mainchainHeaders.map (·, y.1)

/-- the references that `v` completes: its data with the headers beyond those that have data -/
def references (v : SidechainBlock × SidechainBlockInfo) :
    List (MainchainBlockReferenceData × MainchainHeader × SidechainBlock) :=
  v.1.mainchainBlockReferencesData.zip ((headers (l ++ [v])).drop (dataHashes (toBlocks l)).length)

end Lineage

open Lineage

/-- a header with its block, as the validator keeps it -/
def tag (h : MainchainHeader × SidechainBlock) : MainchainHeaderHash × ModifierId := (h.1.hash, h.2.id)

/-- the chain is in the history -/
structure Recorded (s : HistoryStorage) (l : Lineage) : Prop where
  describes : ∀ y ∈ l, Describes y.2 y.1
  info : ∀ y ∈ l, s.blockInfoOptionById y.1.id = some y.2
  block : ∀ y ∈ l, s.blocks y.1.id = some y.1
  parents : l.IsChain fun a b => b.1.parentId = a.1.id

section Hashes

variable {l l₁ l₂ : Lineage}

@[simp] theorem toBlocks_append : toBlocks (l₁ ++ l₂) = toBlocks l₁ ++ toBlocks l₂ := List.map_append

@[simp] theorem headers_append : headers (l₁ ++ l₂) = headers l₁ ++ headers l₂ := List.flatMap_append

theorem map_hash_headers (h : ∀ y ∈ l, Describes y.2 y.1) :
    (headers l).map (fun x => x.1.hash) = headerHashes (toBlocks l) := by
  induction l with
  | nil => rfl
  | cons y l ih =>
    have hy : y.2.mainchainHeaderHashes = y.1.mainchainHeaders.map MainchainHeader.hash :=
      (h y (by simp)).headers
    have hcons : headerHashes (toBlocks (y :: l)) = y.2.mainchainHeaderHashes ++ headerHashes (toBlocks l) := rfl
    rw [hcons, ← ih fun z hz => h z (by simp [hz]), hy]
    simp [headers, Function.comp_def]

theorem dataHashes_append : dataHashes (toBlocks (l₁ ++ l₂)) = dataHashes (toBlocks l₁) ++ dataHashes (toBlocks l₂) := by
  rw [toBlocks_append]
  exact carried_append ..

theorem headerHashes_append :
    headerHashes (toBlocks (l₁ ++ l₂)) = headerHashes (toBlocks l₁) ++ headerHashes (toBlocks l₂) := by
  rw [toBlocks_append]
  exact carried_append ..

theorem length_headers (h : ∀ y ∈ l, Describes y.2 y.1) : (headers l).length = (headerHashes (toBlocks l)).length := by
  rw [← map_hash_headers h, List.length_map]

theorem map_tag_headers_cons (y : SidechainBlock × SidechainBlockInfo) (hy : Describes y.2 y.1) :
    (headers (y :: l)).map tag = y.2.mainchainHeaderHashes.map (·, y.1.id) ++ (headers l).map tag := by
  have hhashes : y.2.mainchainHeaderHashes = y.1.mainchainHeaders.map MainchainHeader.hash := hy.headers
  rw [hhashes]
  simp [headers, tag, Function.comp_def]

end Hashes

/-! The walk back. -/

section Walk

variable {s : HistoryStorage} {l : Lineage}

/-- with distinct header hashes, the header of the last data is where the prefix ends -/
theorem index_of_last_data {hs ds front back : List MainchainHeaderHash} (hnodup : hs.Nodup) (hpre : ds <+: hs)
    (hsplit : hs = front ++ back) {best : MainchainHeaderHash} (hbest : ds.getLast? = some best) {i : ℕ}
    (hi : back[i]? = some best) : front.length + i + 1 = ds.length := by
  obtain ⟨t, ht⟩ := hpre
  have hpos : 0 < ds.length := by
    rcases ds with _ | ⟨a, ds⟩
    · cases hbest
    · simp
  have hlast : hs[ds.length - 1]? = some best := by
    rw [← ht, List.getElem?_append_left (by omega), ← List.getLast?_eq_getElem?, hbest]
  have hfound : hs[front.length + i]? = some best := by
    rw [hsplit, List.getElem?_append_right (by omega), Nat.add_sub_cancel_left, hi]
  have hlt : front.length + i < hs.length := (List.getElem?_eq_some_iff.1 hfound).1
  have heq := (List.getElem?_inj hlt hnodup).1 (hfound.trans hlast.symm)
  omega

/-- the last data of a chain is that of its end, if there is any -/
theorem getLast?_dataHashes {l₁ l₂ : Lineage} {best : MainchainHeaderHash}
    (h : (dataHashes (toBlocks l₂)).getLast? = some best) : (dataHashes (toBlocks (l₁ ++ l₂))).getLast? = some best := by
  rw [dataHashes_append, List.getLast?_append, h]
  rfl

/-- the header of the last data of `l`, looked up among the headers of `l` -/
def found (l : Lineage) : Option ℕ :=
  (dataHashes (toBlocks l)).getLast?.bind fun best => ((headers l).map tag).findIdx? fun info => info.1 = best

theorem missedHeaders_step {l₂ : Lineage} {y : SidechainBlock × SidechainBlockInfo} (hy : Describes y.2 y.1)
    (hinfo : s.blockInfoOptionById y.1.id = some y.2) (fuel : ℕ) :
    missedHeaders s (fuel + 1) y.1.id (dataHashes (toBlocks l₂)).getLast? ((headers l₂).map tag) =
      match found (y :: l₂) with
      | some index => .ok (((headers (y :: l₂)).map tag).drop (index + 1))
      | none => missedHeaders s fuel y.2.parentId (dataHashes (toBlocks (y :: l₂))).getLast?
          ((headers (y :: l₂)).map tag) := by
  have hlast : (dataHashes (toBlocks l₂)).getLast?.or y.2.mainchainReferenceDataHeaderHashes.getLast? =
      (dataHashes (toBlocks (y :: l₂))).getLast? := by
    have hcons : dataHashes (toBlocks (y :: l₂)) = y.2.mainchainReferenceDataHeaderHashes ++ dataHashes (toBlocks l₂) := rfl
    rw [hcons, List.getLast?_append]
  rw [missedHeaders, hinfo]
  simp only [hlast, ← map_tag_headers_cons y hy]
  rfl

/-- where the walk stops -/
theorem drop_of_found {l₁ l₂ : Lineage} (hl : l = l₁ ++ l₂) (h : ∀ y ∈ l, Describes y.2 y.1)
    (hnodup : (headerHashes (toBlocks l)).Nodup) (hfollows : DataFollows (toBlocks l)) {index : ℕ}
    (hfound : found l₂ = some index) :
    ((headers l₂).map tag).drop (index + 1) = ((headers l).drop (dataHashes (toBlocks l)).length).map tag := by
  subst hl
  obtain ⟨best, hbest, hindex⟩ := Option.bind_eq_some_iff.1 hfound
  obtain ⟨hlt, htag, -⟩ := List.findIdx?_eq_some_iff_getElem.1 hindex
  have h₁ : (headers l₁).length = (headerHashes (toBlocks l₁)).length := length_headers fun y hy => h y (by simp [hy])
  have hhashes := map_hash_headers fun y (hy : y ∈ l₂) => h y (by simp [hy])
  have hat : (headerHashes (toBlocks l₂))[index]? = some best := by
    have hlt' : index < (headers l₂).length := by simpa using hlt
    rw [← hhashes, List.getElem?_map, List.getElem?_eq_getElem hlt']
    simpa [tag] using htag
  have hcount : (headerHashes (toBlocks l₁)).length + index + 1 = (dataHashes (toBlocks (l₁ ++ l₂))).length :=
    index_of_last_data hnodup hfollows headerHashes_append (getLast?_dataHashes hbest) hat
  rw [← hcount, ← h₁, Nat.add_assoc, headers_append, List.drop_length_add_append, List.map_drop]

/-- a chain whose data follows the headers has the header of its last data -/
theorem found_ne_none (h : ∀ y ∈ l, Describes y.2 y.1) (hfollows : DataFollows (toBlocks l))
    (hdata : dataHashes (toBlocks l) ≠ []) : found l ≠ none := by
  intro hnone
  have hlast := List.getLast?_eq_some_getLast hdata
  rw [found, hlast, Option.bind_some, List.findIdx?_eq_none_iff] at hnone
  have hmem : (dataHashes (toBlocks l)).getLast hdata ∈ headerHashes (toBlocks l) :=
    hfollows.subset (List.getLast_mem hdata)
  rw [← map_hash_headers h] at hmem
  obtain ⟨x, hx, heq⟩ := List.mem_map.1 hmem
  have hx' := hnone (tag x) (List.mem_map_of_mem hx)
  rw [tag, heq] at hx'
  simp at hx'

/-- **The walk back ends at the headers beyond the prefix.** Here it has passed `l₂` and comes to `y`. -/
theorem missedHeaders_eq {l₁ l₂ : Lineage} {y : SidechainBlock × SidechainBlockInfo} (hl : l = l₁ ++ y :: l₂)
    (h : Recorded s l) (hnodup : (headerHashes (toBlocks l)).Nodup) (hfollows : DataFollows (toBlocks l))
    (hdata : dataHashes (toBlocks l) ≠ []) (fuel : ℕ) (hfuel : l₁.length < fuel) :
    missedHeaders s fuel y.1.id (dataHashes (toBlocks l₂)).getLast? ((headers l₂).map tag) =
      .ok (((headers l).drop (dataHashes (toBlocks l)).length).map tag) := by
  have hy : y ∈ l := by
    rw [hl]
    simp
  obtain ⟨fuel, rfl⟩ : ∃ n, fuel = n + 1 := ⟨fuel - 1, by omega⟩
  rw [missedHeaders_step (h.describes y hy) (h.info y hy)]
  induction l₁ using List.reverseRecOn generalizing y l₂ fuel with
  | nil =>
    cases hfound : found (y :: l₂) with
    | some index => exact congrArg _ (drop_of_found hl h.describes hnodup hfollows hfound)
    | none =>
      -- the first block is reached at the latest
      rw [List.nil_append] at hl
      subst hl
      exact absurd hfound (found_ne_none h.describes hfollows hdata)
  | append_singleton l₁ z ih =>
    cases hfound : found (y :: l₂) with
    | some index => exact congrArg _ (drop_of_found hl h.describes hnodup hfollows hfound)
    | none =>
      have hz : l = l₁ ++ z :: y :: l₂ := by
        rw [hl]
        simp
      have hzl : z ∈ l := by
        rw [hz]
        simp
      have hparent : y.2.parentId = z.1.id := by
        have hchain := h.parents
        rw [hz] at hchain
        have hnext := (List.isChain_append.1 hchain).2.1
        rw [(h.describes y hy).parentId]
        exact (List.isChain_cons_cons.1 hnext).1
      rw [List.length_append, List.length_singleton] at hfuel
      obtain ⟨fuel, rfl⟩ : ∃ n, fuel = n + 1 := ⟨fuel - 1, by omega⟩
      simp only [hparent]
      rw [missedHeaders_step (h.describes z hzl) (h.info z hzl)]
      exact ih hz hzl fuel (by omega)

end Walk

/-! The references of a new block. -/

/-- a block on top of a chain; ids and header hashes do not repeat along it -/
structure Next (l : Lineage) (v : SidechainBlock × SidechainBlockInfo) : Prop where
  describes : Describes v.2 v.1
  parent : ∀ y ∈ l.getLast?, v.1.parentId = y.1.id
  ids : ((l ++ [v]).map fun y => y.1.id).Nodup
  hashes : (headerHashes (toBlocks (l ++ [v]))).Nodup

section References

variable {checks : ReferenceChecks} {s : HistoryStorage} {l : Lineage} {v : SidechainBlock × SidechainBlockInfo}

theorem find?_of_nodup_map {α β : Type} [DecidableEq β] {f : α → β} {xs : List α} (hnodup : (xs.map f).Nodup) {x : α}
    (hx : x ∈ xs) : xs.find? (fun y => f y = f x) = some x := by
  induction xs with
  | nil => cases hx
  | cons y xs ih =>
    rw [List.map_cons, List.nodup_cons] at hnodup
    rcases List.mem_cons.1 hx with rfl | hx
    · simp
    · have hne : f y ≠ f x := fun heq => hnodup.1 (heq ▸ List.mem_map_of_mem hx)
      rw [List.find?_cons_of_neg (by simpa using hne)]
      exact ih hnodup.2 hx

theorem mem_headers {h : MainchainHeader × SidechainBlock} :
    h ∈ headers l ↔ ∃ y ∈ l, y.1 = h.2 ∧ h.1 ∈ y.1.mainchainHeaders := by
  constructor
  · intro hmem
    obtain ⟨y, hy, hh⟩ := List.mem_flatMap.1 hmem
    obtain ⟨a, ha, rfl⟩ := List.mem_map.1 hh
    exact ⟨y, hy, rfl, ha⟩
  · rintro ⟨y, hy, heq, ha⟩
    refine List.mem_flatMap.2 ⟨y, hy, List.mem_map.2 ⟨h.1, ha, ?_⟩⟩
    rw [heq]

/-- two blocks of the chain with the same id are one -/
theorem Next.block_eq (hv : Next l v) {y z : SidechainBlock × SidechainBlockInfo} (hy : y ∈ l ++ [v]) (hz : z ∈ l ++ [v])
    (heq : y.1.id = z.1.id) : y = z := List.inj_on_of_nodup_map hv.ids hy hz heq

theorem Recorded.describes_next (h : Recorded s l) (hv : Next l v) : ∀ y ∈ l ++ [v], Describes y.2 y.1 := by
  intro z hz
  rcases List.mem_append.1 hz with hz | hz
  · exact h.describes z hz
  · rw [List.mem_singleton.1 hz]
    exact hv.describes

theorem blockWithMainchainHeader_eq (h : Recorded s l) (hv : Next l v) {x : MainchainHeader × SidechainBlock}
    (hx : x ∈ headers (l ++ [v])) {last : SidechainBlock × SidechainBlockInfo} (hlast : last ∈ l ++ [v]) :
    blockWithMainchainHeader s v.1 last.1 x.2.id = some x.2 := by
  obtain ⟨y, hy, hyx, -⟩ := mem_headers.1 hx
  have hvmem : v ∈ l ++ [v] := by simp
  rw [← hyx]
  unfold blockWithMainchainHeader
  split_ifs with h₁ h₂
  · rw [hv.block_eq hy hlast h₁]
  · rw [hv.block_eq hy hvmem h₂]
  · rcases List.mem_append.1 hy with hmem | hmem
    · exact h.block y hmem
    · exact absurd (congrArg (fun z => z.1.id) (List.mem_singleton.1 hmem)) h₂

theorem find_header (h : Recorded s l) (hv : Next l v) {x : MainchainHeader × SidechainBlock}
    (hx : x ∈ headers (l ++ [v])) : x.2.mainchainHeaders.find? (fun header => header.hash = x.1.hash) = some x.1 := by
  obtain ⟨y, hy, hyx, hmem⟩ := mem_headers.1 hx
  have hdescribes := h.describes_next hv
  have hnodup : (y.1.mainchainHeaders.map MainchainHeader.hash).Nodup := by
    have hall := hv.hashes
    rw [← map_hash_headers hdescribes, headers, List.map_flatMap] at hall
    have hown := (List.nodup_flatMap.1 hall).1 y hy
    simpa [Function.comp_def] using hown
  rw [← hyx]
  exact find?_of_nodup_map hnodup hmem

/-- the references are checked one by one -/
theorem checkReferences_iff (h : Recorded s l) (hv : Next l v) {hs : List (MainchainHeader × SidechainBlock)}
    (hhs : ∀ x ∈ hs, x ∈ headers (l ++ [v])) (ds : List MainchainBlockReferenceData)
    {last : SidechainBlock × SidechainBlockInfo} (hlast : last ∈ l ++ [v]) :
    checkReferences checks s v.1 last.1 (ds.zip (hs.map tag)) = .ok () ↔
      ∀ r ∈ ds.zip hs, r.1.headerHash = r.2.1.hash ∧
        MainchainBlockReference.semanticValidity checks r.2.1 r.1 = .ok () := by
  induction ds generalizing hs last with
  | nil => simp [checkReferences]
  | cons d ds ih =>
    cases hs with
    | nil => simp [checkReferences]
    | cons x hs =>
      have hx := hhs x (by simp)
      obtain ⟨y, hy, hyx, -⟩ := mem_headers.1 hx
      have hrest := ih (fun z (hz : z ∈ hs) => hhs z (List.mem_cons_of_mem x hz)) hy
      rw [hyx] at hrest
      have hlookup : blockWithMainchainHeader s v.1 last.1 (tag x).2 = some x.2 := blockWithMainchainHeader_eq h hv hx hlast
      have hfind : x.2.mainchainHeaders.find? (fun header => header.hash = (tag x).1) = some x.1 := find_header h hv hx
      rw [List.map_cons, List.zip_cons_cons, List.zip_cons_cons, List.forall_mem_cons, ← hrest]
      simp only [checkReferences, hlookup, hfind]
      by_cases hhash : d.headerHash = x.1.hash
      · have heq : ¬ d.headerHash ≠ (tag x).1 := not_not.2 hhash
        rw [if_neg heq]
        cases hvalid : MainchainBlockReference.semanticValidity checks x.1 d with
        | error e => simp [bind, Except.bind]
        | ok u => simp [bind, Except.bind, hhash]
      · have hne : d.headerHash ≠ (tag x).1 := hhash
        rw [if_pos hne]
        simp [hhash]

theorem prefix_iff_zip {α β γ : Type} {f : α → γ} {g : β → γ} {as : List α} {bs : List β} :
    as.map f <+: bs.map g ↔ as.length ≤ bs.length ∧ ∀ r ∈ as.zip bs, f r.1 = g r.2 := by
  induction as generalizing bs with
  | nil => simp
  | cons a as ih =>
    cases bs with
    | nil => simp
    | cons b bs =>
      rw [List.map_cons, List.map_cons, List.cons_prefix_cons, ih, List.zip_cons_cons, List.forall_mem_cons]
      simp only [List.length_cons, Nat.add_le_add_iff_right]
      tauto

/-- with the data of the new block -/
theorem dataFollows_next (hfollows : DataFollows (toBlocks l)) (hall : ∀ y ∈ l ++ [v], Describes y.2 y.1) :
    DataFollows (toBlocks (l ++ [v])) ↔
      v.1.mainchainBlockReferencesData.map MainchainBlockReferenceData.headerHash <+:
        ((headers (l ++ [v])).drop (dataHashes (toBlocks l)).length).map fun x => x.1.hash := by
  have hdata : dataHashes (toBlocks [v]) = v.1.mainchainBlockReferencesData.map MainchainBlockReferenceData.headerHash := by
    rw [dataHashes, toBlocks, List.map_singleton, carried_singleton, (hall v (by simp)).data]
    rfl
  obtain ⟨t, ht⟩ := hfollows
  rw [DataFollows, dataHashes_append, hdata, List.map_drop, map_hash_headers hall, headerHashes_append, ← ht, List.append_assoc,
    List.prefix_append_right_inj, List.drop_left]

/-- the walk back from a new block -/
theorem missedHeaders_parent (h : Recorded s l) (hv : Next l v) (hne : l ≠ []) (hfollows : DataFollows (toBlocks l))
    (hdata : dataHashes (toBlocks l) ≠ []) {fuel : ℕ} (hfuel : l.length ≤ fuel) :
    missedHeaders s fuel v.1.parentId none [] = .ok (((headers l).drop (dataHashes (toBlocks l)).length).map tag) := by
  have hnodup := hv.hashes
  rw [headerHashes_append] at hnodup
  rcases List.eq_nil_or_concat l with rfl | ⟨init, y, hl⟩
  · exact absurd rfl hne
  · rw [List.concat_eq_append] at hl
    have hlen : l.length = init.length + 1 := by
      rw [hl]
      simp
    rw [hv.parent y (by rw [hl]; simp)]
    exact missedHeaders_eq hl h hnodup.of_append_left hfollows hdata fuel (by omega)

/-- **What the validator accepts** on top of a chain whose data follows its headers. -/
theorem validateBlock_iff (h : Recorded s l) (hv : Next l v) (hne : l ≠ []) (hfollows : DataFollows (toBlocks l))
    (hdata : dataHashes (toBlocks l) ≠ []) {fuel : ℕ} (hfuel : l.length ≤ fuel) :
    validateBlock checks s fuel v.1 = .ok () ↔
      DataFollows (toBlocks (l ++ [v])) ∧
        ∀ r ∈ references l v, MainchainBlockReference.semanticValidity checks r.2.1 r.1 = .ok () := by
  have hall := h.describes_next hv
  have hcount : (dataHashes (toBlocks l)).length ≤ (headers l).length := by
    rw [length_headers h.describes]
    exact hfollows.length_le
  have hmissed : ((headers l).drop (dataHashes (toBlocks l)).length).map tag ++
      v.1.mainchainHeaderHashesFromBlock.map (·, v.1.id) =
      ((headers (l ++ [v])).drop (dataHashes (toBlocks l)).length).map tag := by
    rw [headers_append, List.drop_append_of_le_length hcount, List.map_append]
    congr 1
    simp [headers, tag, SidechainBlock.mainchainHeaderHashesFromBlock, Function.comp_def]
  have hmem : ∀ x ∈ (headers (l ++ [v])).drop (dataHashes (toBlocks l)).length, x ∈ headers (l ++ [v]) :=
    fun x hx => List.mem_of_mem_drop hx
  have hlast : v ∈ l ++ [v] := by simp
  rw [dataFollows_next hfollows hall, prefix_iff_zip]
  by_cases hempty : v.1.mainchainBlockReferencesData = []
  · simp [validateBlock, references, hempty]
  · rw [validateBlock, if_neg hempty, missedHeaders_parent h hv hne hfollows hdata hfuel]
    simp only [hmissed]
    by_cases hlen : (((headers (l ++ [v])).drop (dataHashes (toBlocks l)).length).map tag).length <
        v.1.mainchainBlockReferencesData.length
    · rw [if_pos hlen]
      rw [List.length_map] at hlen
      constructor
      · intro herror
        cases herror
      · rintro ⟨⟨hle, -⟩, -⟩
        omega
    · rw [if_neg hlen, checkReferences_iff h hv hmem _ hlast]
      rw [List.length_map] at hlen
      constructor
      · intro hchecked
        exact ⟨⟨by omega, fun r hr => (hchecked r hr).1⟩, fun r hr => (hchecked r hr).2⟩
      · rintro ⟨⟨-, hhashes⟩, hvalid⟩ r hr
        exact ⟨hhashes r hr, hvalid r hr⟩

end References

/-! Chains that have passed the validator. -/

/-- every block of the chain is accepted, the first one as the genesis block -/
structure Accepted (params : NetworkParams) (checks : ReferenceChecks) (s : HistoryStorage) (l : Lineage) : Prop where
  genesis : ∀ y ∈ l.head?, y.1.id = params.sidechainGenesisBlockId
  ids : (l.map fun y => y.1.id).Nodup
  passed : ∀ y ∈ l, validate params checks s l.length y.1 = .ok ()

section Accepted

variable {params : NetworkParams} {checks : ReferenceChecks} {s : HistoryStorage} {l l₁ l₂ : Lineage}
  {v : SidechainBlock × SidechainBlockInfo}

theorem Recorded.left (h : Recorded s (l₁ ++ l₂)) : Recorded s l₁ where
  describes y hy := h.describes y (List.mem_append_left _ hy)
  info y hy := h.info y (List.mem_append_left _ hy)
  block y hy := h.block y (List.mem_append_left _ hy)
  parents := (List.isChain_append.1 h.parents).1

theorem failIf_ok {c : Bool} {e : HistoryException} {u : Unit} (h : MainchainBlockReference.failIf c e = .ok u) : c = false := by
  unfold MainchainBlockReference.failIf at h
  cases c with
  | false => rfl
  | true => cases h

/-- a valid reference has the data of its header -/
theorem headerHash_of_semanticValidity {header : MainchainHeader} {data : MainchainBlockReferenceData}
    (h : MainchainBlockReference.semanticValidity checks header data = .ok ()) : data.headerHash = header.hash := by
  obtain ⟨_, -, hrest⟩ := bind_ok h
  obtain ⟨_, hhash, -⟩ := bind_ok hrest
  simpa using failIf_ok hhash

theorem validateGenesisBlock_follows (hv : Describes v.2 v.1) (h : validateGenesisBlock checks v.1 = .ok ()) :
    DataFollows (toBlocks [v]) ∧ dataHashes (toBlocks [v]) ≠ [] := by
  have hheaders : headerHashes (toBlocks [v]) = v.1.mainchainHeaders.map MainchainHeader.hash := by
    rw [headerHashes, toBlocks, List.map_singleton, carried_singleton, hv.headers]
    rfl
  have hdata : dataHashes (toBlocks [v]) = v.1.mainchainBlockReferencesData.map MainchainBlockReferenceData.headerHash := by
    rw [dataHashes, toBlocks, List.map_singleton, carried_singleton, hv.data]
    rfl
  unfold validateGenesisBlock at h
  split at h
  · rename_i header data hheader hdatum
    rw [DataFollows, hheaders, hdata, hheader, hdatum]
    have hhash := headerHash_of_semanticValidity h
    simp [hhash]
  · cases h

theorem Next.of_recorded (h : Recorded s (l₁ ++ v :: l₂)) (hids : ((l₁ ++ v :: l₂).map fun y => y.1.id).Nodup)
    (hhashes : (headerHashes (toBlocks (l₁ ++ v :: l₂))).Nodup) : Next l₁ v := by
  rw [List.append_cons] at h hids hhashes
  rw [List.map_append] at hids
  rw [headerHashes_append] at hhashes
  exact ⟨h.describes v (by simp), fun y hy => (List.isChain_append.1 h.left.parents).2.2 y hy v (by simp),
    hids.of_append_left, hhashes.of_append_left⟩

/-- **Along an accepted chain data follows the headers.** -/
theorem Accepted.follows (hacc : Accepted params checks s l) (h : Recorded s l) (hhashes : (headerHashes (toBlocks l)).Nodup)
    (hl : l = l₁ ++ l₂) (hne : l₁ ≠ []) : DataFollows (toBlocks l₁) ∧ dataHashes (toBlocks l₁) ≠ [] := by
  induction l₁ using List.reverseRecOn generalizing l₂ with
  | nil => exact absurd rfl hne
  | append_singleton l₁ v ih =>
    rw [List.append_assoc, List.singleton_append] at hl
    have hpassed := hacc.passed v (by rw [hl]; simp)
    have hids := hacc.ids
    rcases List.eq_nil_or_concat l₁ with rfl | ⟨init, y, hinit⟩
    · have hgenesis : v.1.id = params.sidechainGenesisBlockId := hacc.genesis v (by rw [hl]; rfl)
      rw [validate, if_pos hgenesis] at hpassed
      exact validateGenesisBlock_follows (h.describes v (by rw [hl]; simp)) hpassed
    · have hne₁ : l₁ ≠ [] := by
        rw [hinit]
        simp
      obtain ⟨hfollows, hdata⟩ := ih hl hne₁
      obtain ⟨g, rest, rfl⟩ := List.exists_cons_of_ne_nil hne₁
      have hother : v.1.id ≠ params.sidechainGenesisBlockId := by
        rw [← hacc.genesis g (by rw [hl]; rfl)]
        rw [hl] at hids
        intro heq
        rw [List.cons_append, List.map_cons, List.nodup_cons, List.mem_map] at hids
        exact hids.1 ⟨v, by simp, heq⟩
      have hlen : (g :: rest).length ≤ l.length := by
        rw [hl]
        simp
      rw [validate, if_neg hother] at hpassed
      have hrecorded : Recorded s (g :: rest) := by
        rw [hl] at h
        exact h.left
      have hnext : Next (g :: rest) v := Next.of_recorded (hl ▸ h) (hl ▸ hids) (hl ▸ hhashes)
      refine ⟨((validateBlock_iff hrecorded hnext hne₁ hfollows hdata hlen).1 hpassed).1, ?_⟩
      rw [dataHashes_append]
      exact fun hnil => hdata (List.append_eq_nil_iff.1 hnil).1

end Accepted

/-! The active chain. -/

section Active

/-- what is thrown while the block is added is not the exception of the reference data check -/
theorem wp_appendData {ι δ : Type} [DecidableEq ι] [LinkedElement δ ι] (id : ι) (data : δ) (c : ElementsChain ι δ) :
    wp (appendData id data) (fun _ _ => True) (fun e _ => e ≠ .inconsistentReferenceData) c := by
  simp [appendData]

theorem wp_appendAll (es : List (MainchainHeaderHash × MainchainHeaderMetadata)) (c : HeadersChain) :
    wp (appendAll es) (fun _ _ => True) (fun e _ => e ≠ .inconsistentReferenceData) c :=
  wp_foldlM (fun _ _ _ => True) (fun _ e _ c _ => wp_appendData e.1 e.2 c) es trivial

theorem buildMainchainHeadersInfo_error {n : ℕ} {hs : List MainchainHeaderHash} {o : Option MainchainHeaderHash}
    {e : ChainException} (h : buildMainchainHeadersInfo n hs o = .error e) : e ≠ .inconsistentReferenceData := by
  unfold buildMainchainHeadersInfo at h
  split_ifs at h
  cases o with
  | some parent => cases h
  | none =>
    injection h with h
    rw [← h]
    decide

theorem wp_addToStorages (id : ModifierId) (info : SidechainBlockInfo) (o o' : Option MainchainHeaderHash) (c : ActiveChain) :
    wp (addToStorages id info o o') (fun _ _ => True) (fun e _ => e ≠ .inconsistentReferenceData) c := by
  unfold addToStorages onSidechain onHeaders onReferenceData getOrThrow
  simp only [wp_bind, wp_onPart, wp_get, wp_orThrow]
  refine wp_mono (wp_appendData id info _) ?_ (fun _ _ he => he)
  intro _ cache _
  refine ⟨?_, ?_⟩
  · intro height _
    refine ⟨?_, fun e he => buildMainchainHeadersInfo_error he⟩
    intro es _
    refine wp_mono (wp_appendAll es _) ?_ (fun _ _ he => he)
    intro _ cache' _
    refine ⟨?_, fun e he => buildMainchainHeadersInfo_error he⟩
    intro es' _
    exact wp_mono (wp_appendAll es' _) (fun _ _ _ => trivial) (fun _ _ he => he)
  · intro e he
    cases hheight : ActiveChain.heightById _ id with
    | some n =>
      rw [hheight] at he
      cases he
    | none =>
      rw [hheight] at he
      injection he with he
      rw [← he]
      decide

variable {d : ℕ} {p : MainchainHeaderHash} {bs bs₁ bs₂ : Blocks} {x : ModifierId × SidechainBlockInfo}

/-- the reference data check of a new best block -/
theorem setBestBlock_inconsistent_iff (h : WellFormed p (bs₁ ++ bs₂)) {y : ModifierId × SidechainBlockInfo}
    (hy : bs₁.getLast? = some y) (hparent : x.2.parentId = y.1) (given : Option MainchainHeaderHash) :
    (exec (setBestBlock x.1 x.2 given) (ofBlocks p d (bs₁ ++ bs₂))).1 = .error .inconsistentReferenceData ↔
      HeadersConnect bs₁ x.2 given ∧ ¬ DataFollows (bs₁ ++ [x]) := by
  have hheight : ¬ (ofBlocks p d (bs₁ ++ bs₂)).height = 0 := by
    rw [ActiveChain.height, ofBlocks, height_ofList, List.length_append]
    rcases bs₁ with _ | ⟨b, bs₁⟩
    · cases hy
    · simp
  have hset : exec (setBestBlock x.1 x.2 given) (ofBlocks p d (bs₁ ++ bs₂)) =
      exec (setNonGenesisBlock x.1 x.2 given) (ofBlocks p d (bs₁ ++ bs₂)) := by
    rw [setBestBlock, exec_get_bind, if_neg hheight]
  rw [hset]
  rcases exec_setNonGenesisBlock (d := d) h hy hparent given with
    ⟨hconnect, e, he, hexec⟩ | ⟨hconnect, hdata, hexec⟩ | ⟨hconnect, hdata, hexec⟩
  · rw [hexec]
    constructor
    · intro heq
      exact absurd (Except.error.inj heq) he
    · rintro ⟨hc, -⟩
      exact absurd hc hconnect
  · rw [hexec]
    exact ⟨fun _ => ⟨hconnect, hdata⟩, fun _ => rfl⟩
  · rw [hexec]
    constructor
    · intro heq
      have hwp := wp_addToStorages x.1 x.2 (some ((headerHashes bs₁).getLastD p)) (some ((dataHashes bs₁).getLastD p))
        (ofBlocks p d bs₁)
      exact absurd rfl (wp_error hwp (Prod.ext heq rfl))
    · rintro ⟨-, hnot⟩
      exact absurd hdata hnot

theorem sidechainHeight_linkTo {n : ℕ} {q : MainchainHeaderHash} {hs : List MainchainHeaderHash}
    {e : MainchainHeaderHash × MainchainHeaderMetadata} (he : e ∈ linkTo n q hs) : e.2.sidechainHeight = n := by
  induction hs generalizing q with
  | nil => cases he
  | cons y hs ih =>
    rcases List.mem_cons.1 he with rfl | he
    · rfl
    · exact ih he

/-- an entry is that of a hash carried by the block at its sidechain height -/
theorem mem_entries (sel : SidechainBlockInfo → List MainchainHeaderHash) {q : MainchainHeaderHash} {n : ℕ} {bs : Blocks}
    {e : MainchainHeaderHash × MainchainHeaderMetadata} (he : e ∈ entries sel q n bs) :
    ∃ i b, bs[i]? = some b ∧ e.2.sidechainHeight = n + i ∧ e.1 ∈ sel b.2 := by
  induction bs generalizing q n with
  | nil => cases he
  | cons b bs ih =>
    rcases List.mem_append.1 he with he | he
    · refine ⟨0, b, rfl, sidechainHeight_linkTo he, ?_⟩
      rw [← map_fst_linkTo n q (sel b.2)]
      exact List.mem_map_of_mem he
    · obtain ⟨i, b', hb', hheight, hmem⟩ := ih he
      exact ⟨i + 1, b', hb', by omega, hmem⟩

/-- a hash carried is found again at its height, with the block that carries it -/
theorem exists_dataById_at (sel : SidechainBlockInfo → List MainchainHeaderHash) {y : MainchainHeaderHash} {n : ℕ}
    (hnodup : (carried sel bs).Nodup) (hy : (carried sel bs)[n]? = some y) :
    heightIn (entries sel p 1 bs) y = some (n + 1) ∧
      ∃ m i b, (ofList (entries sel p 1 bs)).dataById y = some m ∧ m.sidechainHeight = i + 1 ∧ bs[i]? = some b ∧
        y ∈ sel b.2 := by
  have hids := map_fst_entries sel p 1 bs
  have hheight : heightIn (entries sel p 1 bs) y = some (n + 1) := by
    refine heightIn_at ?_ ?_
    · rw [hids]
      exact hnodup
    · rw [hids]
      exact hy
  obtain ⟨front, e, back, hsplit, rfl, hcount⟩ := mem_of_heightIn hheight
  obtain ⟨i, b, hb, hsc, hmem⟩ := mem_entries sel (e := e) (by rw [hsplit]; simp)
  refine ⟨hheight, e.2, i, b, ?_, by omega, hb, hmem⟩
  rw [dataById, heightById_ofList, hheight, Option.bind_some, hcount, dataByHeight_ofList, hsplit]
  simp

/-- the block at a height of the sidechain cache -/
theorem blockInfoById_at (h : WellFormed p bs) {i : ℕ} {b : ModifierId × SidechainBlockInfo} (hb : bs[i]? = some b) :
    (ofBlocks p d bs).sidechainCache.idByHeight (i + 1) = some b.1 ∧ (ofBlocks p d bs).blockInfoById b.1 = some b.2 := by
  obtain ⟨hlt, rfl⟩ := List.getElem?_eq_some_iff.1 hb
  constructor
  · rw [ofBlocks, idByHeight_ofList h.linked, hb]
    rfl
  · have hheight : heightIn bs (bs[i]).1 = some (i + 1) := heightIn_at h.linked.nodup (by simp [hlt])
    rw [ActiveChain.blockInfoById, ofBlocks, heightById_ofList, hheight, Option.bind_some, dataByHeight_ofList, hb]
    rfl

theorem mcHashByMcHeight_ofBlocks (h : WellFormed p bs) (n : ℕ) :
    (ofBlocks p d bs).mcHashByMcHeight (n + 1 + (d - 1)) = (headerHashes bs)[n]? := by
  have hindex : n + 1 + (d - 1) - (ofBlocks p d bs).mainchainCreationBlockHeightDifference = n + 1 := Nat.add_sub_cancel ..
  rw [mcHashByMcHeight, hindex, ofBlocks, idByHeight_ofList h.linked_headers, ← List.getElem?_map, map_fst_entries]
  rfl

section Missed

variable {s : HistoryStorage} (h : WellFormed p bs) (hs : s.activeChain = ofBlocks p d bs)

include h hs

theorem getBestMainchainBlockReferenceDataInfo_height {rd : MainchainHeaderHash} (hrd : (dataHashes bs).getLast? = some rd) :
    ∃ info, s.getBestMainchainBlockReferenceDataInfo = some (some info) ∧ info.height = (dataHashes bs).length + (d - 1) := by
  obtain ⟨n, hn⟩ : ∃ n, (dataHashes bs).length = n + 1 :=
    Nat.exists_eq_succ_of_ne_zero fun hzero => by simp [List.length_eq_zero_iff.1 hzero] at hrd
  have hat : (dataHashes bs)[n]? = some rd := by
    rw [← hrd, List.getLast?_eq_getElem?, hn]
    rfl
  have hheight : s.activeChain.heightOfMcReferencesData = n + 1 + (d - 1) := by
    have hids := map_fst_entries SidechainBlockInfo.mainchainReferenceDataHeaderHashes p 1 bs
    rw [heightOfMcReferencesData, hs, ofBlocks, height_ofList, ← List.length_map Prod.fst, hids, ← hn]
    rfl
  have hhash : s.activeChain.mcHashByMcHeight (n + 1 + (d - 1)) = some rd := by
    obtain ⟨t, ht⟩ := h.follows bs (List.prefix_refl _)
    rw [hs, mcHashByMcHeight_ofBlocks h, ← ht, List.getElem?_append_left (by omega), hat]
  obtain ⟨hdataHeight, m, i, b, hm, hsc, hb, -⟩ := exists_dataById_at (p := p) _ h.data_nodup hat
  have hid : s.activeChain.idByMcReferenceData rd = some b.1 := by
    have hsidechain : s.activeChain.heightByMcReferenceData rd = some (i + 1) := by
      rw [heightByMcReferenceData, hs, ofBlocks, hm, Option.map_some, hsc]
    rw [idByMcReferenceData, hsidechain, Option.bind_some, hs]
    exact (blockInfoById_at h hb).1
  have hmcHeight : s.activeChain.mcRefDataHeightByMcHash rd = some (n + 1 + (d - 1)) := by
    rw [mcRefDataHeightByMcHash, hs, ofBlocks, heightById_ofList, hdataHeight]
    rfl
  refine ⟨⟨rd, n + 1 + (d - 1), b.1⟩, ?_, by rw [hn]⟩
  rw [HistoryStorage.getBestMainchainBlockReferenceDataInfo, hheight, HistoryStorage.getMainchainBlockReferenceDataInfoByHeight,
    hhash, Option.map_some, HistoryStorage.getMainchainBlockReferenceDataInfoByHash, hmcHeight, hid]
  rfl

/-- a header of the active chain is found by its hash, at its height -/
theorem getMainchainHeaderInfoByHash_height {hd : MainchainHeaderHash} {n : ℕ} (hat : (headerHashes bs)[n]? = some hd) :
    ∃ info, s.getMainchainHeaderInfoByHash hd = some info ∧ info.height = n + 1 + (d - 1) := by
  obtain ⟨hheight, m, i, b, hm, hsc, hb, hmem⟩ := exists_dataById_at (p := p) _ h.nodup hat
  have hmeta : s.activeChain.mcHeaderMetadataByMcHash hd = some m := by rw [mcHeaderMetadataByMcHash, hs, ofBlocks, hm]
  obtain ⟨hidAt, hinfo⟩ := blockInfoById_at (d := d) h hb
  have hid : s.activeChain.idByMcHeader hd = some b.1 := by
    have hsidechain : s.activeChain.heightByMcHeader hd = some (i + 1) := by
      rw [heightByMcHeader, hs, ofBlocks, hm, Option.map_some, hsc]
    rw [idByMcHeader, hsidechain, Option.bind_some, hs]
    exact hidAt
  have hmcHeight : s.activeChain.mcHeadersHeightByMcHash hd = some (n + 1 + (d - 1)) := by
    rw [mcHeadersHeightByMcHash, hs, ofBlocks, heightById_ofList, hheight]
    rfl
  obtain ⟨base, hbase⟩ : ∃ base, b.2.mainchainHeaderBaseInfo.find? (fun info => info.hash = hd) = some base := by
    obtain ⟨base, hin, heq⟩ := List.mem_map.1 hmem
    exact Option.isSome_iff_exists.1 (List.find?_isSome.2 ⟨base, hin, decide_eq_true heq⟩)
  rw [← hs] at hinfo
  refine ⟨⟨hd, m.mainchainParentHash, n + 1 + (d - 1), b.1, base.cumulativeCommTreeHash⟩, ?_, rfl⟩
  rw [HistoryStorage.getMainchainHeaderInfoByHash, hmcHeight, hid, hmeta]
  simp only [Option.bind_eq_bind, Option.bind_some, hinfo, hbase]
  rfl

theorem getBestMainchainHeaderInfo_height {hd : MainchainHeaderHash} (hhd : (headerHashes bs).getLast? = some hd) :
    ∃ info, s.getBestMainchainHeaderInfo = some (some info) ∧ info.height = (headerHashes bs).length + (d - 1) := by
  obtain ⟨n, hn⟩ : ∃ n, (headerHashes bs).length = n + 1 :=
    Nat.exists_eq_succ_of_ne_zero fun hzero => by simp [List.length_eq_zero_iff.1 hzero] at hhd
  have hat : (headerHashes bs)[n]? = some hd := by
    rw [← hhd, List.getLast?_eq_getElem?, hn]
    rfl
  have hheight : s.activeChain.heightOfMcHeaders = n + 1 + (d - 1) := by
    have hids := map_fst_entries SidechainBlockInfo.mainchainHeaderHashes p 1 bs
    rw [heightOfMcHeaders, hs, ofBlocks, height_ofList, ← List.length_map Prod.fst, hids, ← hn]
    rfl
  have hhash : s.activeChain.mcHashByMcHeight (n + 1 + (d - 1)) = some hd := by
    rw [hs, mcHashByMcHeight_ofBlocks h, hat]
  obtain ⟨info, hinfo, hinfoHeight⟩ := getMainchainHeaderInfoByHash_height h hs hat
  refine ⟨info, ?_, by rw [hinfoHeight, hn]⟩
  rw [HistoryStorage.getBestMainchainHeaderInfo, hheight, HistoryStorage.getMainchainHeaderInfoByHeight, hhash, Option.map_some,
    hinfo]

/-- **The headers reported as missing data** are those beyond the prefix. -/
theorem missedMainchainReferenceDataHeaderHashes_eq (hne : bs ≠ []) :
    s.missedMainchainReferenceDataHeaderHashes = some ((headerHashes bs).drop (dataHashes bs).length) := by
  obtain ⟨hd, rd, hhd, hrd⟩ := h.exists_last hne
  obtain ⟨dataInfo, hdataInfo, hdataHeight⟩ := getBestMainchainBlockReferenceDataInfo_height h hs hrd
  obtain ⟨headerInfo, hheaderInfo, hheaderHeight⟩ := getBestMainchainHeaderInfo_height h hs hhd
  have hpre : (dataHashes bs).length ≤ (headerHashes bs).length := (h.follows bs (List.prefix_refl _)).length_le
  have hhashes := mcHashes_ofBlocks (d := d) (show WellFormed p (bs ++ []) by rwa [List.append_nil]) (dataHashes bs).length
  rw [List.append_nil, ← hs] at hhashes
  rw [HistoryStorage.missedMainchainReferenceDataHeaderHashes, hdataInfo, hheaderInfo]
  simp only [Option.join_some, Option.bind_eq_bind, Option.bind_some, hdataHeight, hheaderHeight]
  split_ifs with heq
  · have hall : (headerHashes bs).length ≤ (dataHashes bs).length := by omega
    rw [List.drop_of_length_le hall]
    rfl
  · rw [← hhashes]
    rfl

end Missed

end Active

/-! The results. -/

/-- **Reference data follows the headers in order.** A block on top of an accepted chain is accepted exactly when the data hashes
up to it are a prefix of the header hashes up to it, and the references it completes are valid; the walk back ends. On the active
chain, at any block of it, the reference data check of a new best block is the same condition, and the headers reported as missing
data are those beyond the prefix. -/
theorem validate_iff_dataFollows {params : NetworkParams} {checks : ReferenceChecks} {s : HistoryStorage} {l : Lineage}
    {v : SidechainBlock × SidechainBlockInfo} (h : Recorded s l) (hacc : Accepted params checks s l) (hne : l ≠ [])
    (hv : Next l v)
    {fuel : ℕ} (hfuel : l.length ≤ fuel) :
    (validate params checks s fuel v.1 = .ok () ↔
      DataFollows (toBlocks (l ++ [v])) ∧
        ∀ r ∈ references l v, MainchainBlockReference.semanticValidity checks r.2.1 r.1 = .ok ()) ∧
    missedHeaders s fuel v.1.parentId none [] = .ok (((headers l).drop (dataHashes (toBlocks l)).length).map tag) ∧
    (∀ d calls bs₂, Reachable d s.activeChain calls → calls.map BestBlock.block = toBlocks l ++ bs₂ →
      ((exec (setBestBlock v.1.id v.2 v.1.mainchainParent) s.activeChain).1 ≠ .error .inconsistentReferenceData ↔
        (HeadersConnect (toBlocks l) v.2 v.1.mainchainParent → DataFollows (toBlocks (l ++ [v]))))) ∧
    ∀ d calls, Reachable d s.activeChain calls → calls.map BestBlock.block = toBlocks l →
      s.missedMainchainReferenceDataHeaderHashes = some ((headerHashes (toBlocks l)).drop (dataHashes (toBlocks l)).length) := by
  have hhashes := hv.hashes
  rw [headerHashes_append] at hhashes
  obtain ⟨hfollows, hdata⟩ := hacc.follows h hhashes.of_append_left (List.append_nil l).symm hne
  obtain ⟨init, y, hl⟩ := (List.eq_nil_or_concat l).resolve_left hne
  rw [List.concat_eq_append] at hl
  have hparent : v.2.parentId = y.1.id := hv.describes.parentId.trans (hv.parent y (by rw [hl]; simp))
  have hother : v.1.id ≠ params.sidechainGenesisBlockId := by
    obtain ⟨g, rest, hg⟩ := List.exists_cons_of_ne_nil hne
    rw [← hacc.genesis g (by rw [hg]; rfl)]
    intro heq
    have hids := hv.ids
    rw [hg, List.cons_append, List.map_cons, List.nodup_cons, List.mem_map] at hids
    exact hids.1 ⟨v, by simp, heq⟩
  refine ⟨?_, missedHeaders_parent h hv hne hfollows hdata hfuel, ?_, ?_⟩
  · rw [validate, if_neg hother]
    exact validateBlock_iff h hv hne hfollows hdata hfuel
  · intro d calls bs₂ hreach hcalls
    obtain ⟨p, -, hwell, hc⟩ := hreach.represents
    rw [hcalls] at hwell hc
    have hlast : (toBlocks l).getLast? = some (y.1.id, y.2) := by
      rw [hl]
      simp [toBlocks]
    have hcheck := setBestBlock_inconsistent_iff (d := d) (x := (v.1.id, v.2)) hwell hlast hparent v.1.mainchainParent
    rw [hc, ne_eq, hcheck, toBlocks_append]
    constructor
    · intro hnot hconnect
      by_contra hdiffer
      exact hnot ⟨hconnect, hdiffer⟩
    · rintro himp ⟨hconnect, hdiffer⟩
      exact hdiffer (himp hconnect)
  · intro d calls hreach hcalls
    obtain ⟨p, -, hwell, hc⟩ := hreach.represents
    rw [hcalls] at hwell hc
    refine missedMainchainReferenceDataHeaderHashes_eq hwell hc ?_
    rw [hl]
    simp [toBlocks]

/-! A first block, one with two headers and no data, and one with a header and the data of the first of the two. The next block
carries a header and the data of the two that wait, of which the first may have a transaction; the version of its header does not
allow this. -/

def sampleChecks : ReferenceChecks := ⟨fun _ => true, [], fun _ _ => true, fun _ => true, fun _ => none, fun _ _ _ => true,
  fun _ _ => true⟩

/-- one more block, with these headers on top of the last one, and with this data -/
def sampleBlock (id : ModifierId) (headers : List MainchainHeaderHash) (data : List (MainchainHeaderHash × Option ℕ)) :
    SidechainBlock × SidechainBlockInfo :=
  (⟨id, id - 1, headers.map fun hash => ⟨hash, 1, hash - 1, 0⟩, data.map fun d => ⟨d.1, d.2, none, none, [], none⟩,
    []⟩,
    ⟨id, id, id - 1, .Valid, headers.map (⟨·, 0⟩), data.map Prod.fst⟩)

def sampleLineage : Lineage := [sampleBlock 1 [10] [(10, none)], sampleBlock 2 [11, 12] [], sampleBlock 3 [13] [(11, none)]]

def sampleNext (tx : Option ℕ) : SidechainBlock × SidechainBlockInfo := sampleBlock 4 [14] [(12, tx), (13, none)]

def sampleHistory : HistoryStorage where
  blocks id := (sampleLineage.find? fun y => y.1.id = id).map Prod.fst
  infos id := (sampleLineage.find? fun y => y.1.id = id).map Prod.snd
  best := some 3
  activeChain := ActiveChain.empty 1

theorem sampleBlock_describes (id : ModifierId) (headers : List MainchainHeaderHash)
    (data : List (MainchainHeaderHash × Option ℕ)) :
    Describes (sampleBlock id headers data).2 (sampleBlock id headers data).1 := by
  constructor
  · rfl
  · simp [sampleBlock, SidechainBlockInfo.mainchainHeaderHashes, SidechainBlock.mainchainHeaderHashesFromBlock]
  · simp [sampleBlock, SidechainBlock.mainchainReferenceDataHeaderHashesFromBlock]

theorem forall_mem_sampleLineage {P : SidechainBlock × SidechainBlockInfo → Prop} (h₁ : P (sampleBlock 1 [10] [(10, none)]))
    (h₂ : P (sampleBlock 2 [11, 12] [])) (h₃ : P (sampleBlock 3 [13] [(11, none)])) : ∀ y ∈ sampleLineage, P y := by
  intro y hy
  simp only [sampleLineage, List.mem_cons, List.not_mem_nil, or_false] at hy
  rcases hy with rfl | rfl | rfl
  · exact h₁
  · exact h₂
  · exact h₃

theorem recorded_sample : Recorded sampleHistory sampleLineage where
  describes := forall_mem_sampleLineage (sampleBlock_describes _ _ _) (sampleBlock_describes _ _ _) (sampleBlock_describes _ _ _)
  info := forall_mem_sampleLineage rfl rfl rfl
  block := forall_mem_sampleLineage rfl rfl rfl
  parents := .cons_cons rfl (.cons_cons rfl (.singleton _))

theorem accepted_sample : Accepted ActiveChain.sampleParams sampleChecks sampleHistory sampleLineage where
  genesis := by
    intro y hy
    obtain rfl := Option.some.inj hy
    rfl
  ids := by decide
  passed := forall_mem_sampleLineage rfl rfl rfl

theorem next_sample (tx : Option ℕ) : Next sampleLineage (sampleNext tx) where
  describes := sampleBlock_describes _ _ _
  parent := by
    intro y hy
    obtain rfl := Option.some.inj hy
    rfl
  ids := by
    rw [show (sampleLineage ++ [sampleNext tx]).map (fun y => y.1.id) = [1, 2, 3, 4] from rfl]
    decide
  hashes := by
    rw [show headerHashes (toBlocks (sampleLineage ++ [sampleNext tx])) = [10, 11, 12, 13, 14] from rfl]
    decide

/-- the data that waits comes in order -/
theorem validate_iff_dataFollows_backlog :
    validate ActiveChain.sampleParams sampleChecks sampleHistory 3 (sampleNext none).1 = .ok () ∧
      missedHeaders sampleHistory 3 3 none [] = .ok [(12, 2), (13, 3)] := by
  have hall := validate_iff_dataFollows recorded_sample accepted_sample (List.cons_ne_nil _ _) (next_sample none)
    (show sampleLineage.length ≤ 3 from le_rfl)
  refine ⟨hall.1.2 ⟨by decide, ?_⟩, hall.2.1⟩
  intro r hr
  have hreferences : references sampleLineage (sampleNext none) =
      [(⟨12, none, none, none, [], none⟩, ⟨12, 1, 11, 0⟩, (sampleBlock 2 [11, 12] []).1),
        (⟨13, none, none, none, [], none⟩, ⟨13, 1, 12, 0⟩, (sampleBlock 3 [13] [(11, none)]).1)] := rfl
  rw [hreferences, List.mem_pair] at hr
  rcases hr with rfl | rfl
  · rfl
  · rfl

/-- data in the right order is rejected when the reference is not valid by itself -/
theorem validate_rejects_invalid_reference :
    ¬ ∀ (params : NetworkParams) (checks : ReferenceChecks) (s : HistoryStorage) (l : Lineage)
      (v : SidechainBlock × SidechainBlockInfo), Recorded s l → Accepted params checks s l → l ≠ [] → Next l v →
      (validate params checks s l.length v.1 = .ok () ↔ DataFollows (toBlocks (l ++ [v]))) := by
  intro hall
  have hiff := hall _ _ _ _ _ recorded_sample accepted_sample (List.cons_ne_nil _ _) (next_sample (some 5))
  have hok := hiff.2 (by decide)
  have hrejected : validate ActiveChain.sampleParams sampleChecks sampleHistory 3 (sampleNext (some 5)).1 =
      .error .inconsistentMainchainBlockReferenceData := rfl
  have hdiffer := hrejected.symm.trans hok
  cases hdiffer

end SidechainsSdk.History
