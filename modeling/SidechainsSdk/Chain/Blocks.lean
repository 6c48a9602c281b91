/-
The active chain of a list of blocks. `ofBlocks p d bs` is the one that holds `bs`, where `p` is the mainchain parent of the
first block: the three caches hold the blocks, the header hashes the blocks carry in order, and the hashes of the reference
data they carry in order.

- `exec_addToStorages`: one more block.
- `wp_setNonGenesisBlock`: the checks against any ancestor in the chain, then the cut to it and the new block. The checks on
  the reference data amount to `DataFollows`: along the chain, the data hashes are a prefix of the header hashes.
- `apply_ofBlocks`: a rebuild from the list gives the same.
-/
import Mathlib.Tactic
import SidechainsSdk.Core.Contracts
import SidechainsSdk.Chain.ActiveChain

namespace SidechainsSdk.Chain

open Fallible

namespace ElementsChain

/-- elements read one by one -/
theorem filterMap_range_getElem? {α : Type} (l : List α) (n : ℕ) : (List.range n).filterMap (fun i => l[i]?) = l.take n := by
  induction n with
  | zero => rfl
  | succ n ih =>
    rw [List.range_succ, List.filterMap_append, ih, List.take_add_one]
    cases hn : l[n]? with
    | none => simp [hn]
    | some a => simp [hn]

variable {ι δ : Type} [LinkedElement δ ι]

/-- entries of which the first names `p` as its parent and the others the one before -/
def LinkedFrom : ι → List (ι × δ) → Prop
  | _, [] => True
  | p, x :: l => LinkedElement.getParentId x.2 = p ∧ LinkedFrom x.1 l

theorem linkedFrom_append {p : ι} {l₁ l₂ : List (ι × δ)} :
    LinkedFrom p (l₁ ++ l₂) ↔ LinkedFrom p l₁ ∧ LinkedFrom ((l₁.map Prod.fst).getLastD p) l₂ := by
  induction l₁ generalizing p with
  | nil => simp [LinkedFrom]
  | cons x l₁ ih =>
    rw [List.cons_append, LinkedFrom, LinkedFrom, ih, and_assoc, List.map_cons, List.getLastD_cons]

theorem LinkedFrom.isChain {p : ι} {l : List (ι × δ)} (h : LinkedFrom p l) :
    l.IsChain fun a b => LinkedElement.getParentId b.2 = a.1 := by
  induction l generalizing p with
  | nil => exact .nil
  | cons x l ih =>
    cases l with
    | nil => exact .singleton x
    | cons y l => exact .cons_cons h.2.1 (ih h.2)

theorem LinkedFrom.linked {p : ι} {l : List (ι × δ)} (h : LinkedFrom p l) (hnodup : (l.map Prod.fst).Nodup)
    (hhead : ∀ i ∈ (l.map Prod.fst).head?, i ≠ p) : Linked l := by
  refine ⟨hnodup, h.isChain, ?_⟩
  intro x hx
  cases l with
  | nil => simp at hx
  | cons y l =>
    obtain rfl : y = x := by simpa using hx
    rw [h.1]
    exact (hhead y.1 (by simp)).symm

/-- the ids in order -/
def ids (c : ElementsChain ι δ) : List ι := (List.range c.height).filterMap fun h => c.idByHeight (h + 1)

theorem ids_ofList [DecidableEq ι] {l : List (ι × δ)} (h : Linked l) : (ofList l).ids = l.map Prod.fst := by
  have hread : ∀ i, (ofList l).idByHeight (i + 1) = (l.map Prod.fst)[i]? := by
    intro i
    rw [idByHeight_ofList h, List.getElem?_map]
  simp only [ids, hread, height_ofList]
  rw [filterMap_range_getElem?]
  exact List.take_of_length_le (by simp)

end ElementsChain

open ElementsChain

namespace ActiveChain

section Entries

variable (sel : SidechainBlockInfo → List MainchainHeaderHash)

/-- the hashes that the blocks carry -/
def carried (bs : Blocks) : List MainchainHeaderHash := bs.flatMap fun b => sel b.2

/-- the entries of the hashes that the blocks carry, from a parent and a sidechain height on -/
def entries : MainchainHeaderHash → ℕ → Blocks → List (MainchainHeaderHash × MainchainHeaderMetadata)
  | _, _, [] => []
  | p, h, b :: bs => linkTo h p (sel b.2) ++ entries ((sel b.2).getLastD p) (h + 1) bs

theorem map_fst_linkTo (h : ℕ) (p : MainchainHeaderHash) (l : List MainchainHeaderHash) :
    (linkTo h p l).map Prod.fst = l := by
  induction l generalizing p with
  | nil => rfl
  | cons x l ih => rw [linkTo, List.map_cons, ih]

theorem linkedFrom_linkTo (h : ℕ) (p : MainchainHeaderHash) (l : List MainchainHeaderHash) : LinkedFrom p (linkTo h p l) := by
  induction l generalizing p with
  | nil => trivial
  | cons x l ih => exact ⟨rfl, ih x⟩

theorem getLastD_append {α : Type} (l₁ l₂ : List α) (p : α) :
    (l₁ ++ l₂).getLastD p = l₂.getLastD (l₁.getLastD p) := by
  induction l₁ generalizing p with
  | nil => rfl
  | cons x l₁ ih => rw [List.cons_append, List.getLastD_cons, List.getLastD_cons, ih]

@[simp] theorem carried_append (bs₁ bs₂ : Blocks) : carried sel (bs₁ ++ bs₂) = carried sel bs₁ ++ carried sel bs₂ :=
  List.flatMap_append

@[simp] theorem carried_singleton (b : ModifierId × SidechainBlockInfo) : carried sel [b] = sel b.2 :=
  List.flatMap_singleton ..

theorem map_fst_entries (p : MainchainHeaderHash) (h : ℕ) (bs : Blocks) :
    (entries sel p h bs).map Prod.fst = carried sel bs := by
  induction bs generalizing p h with
  | nil => rfl
  | cons b bs ih =>
    rw [entries, List.map_append, map_fst_linkTo, ih]
    rfl

theorem entries_append (p : MainchainHeaderHash) (h : ℕ) (bs₁ bs₂ : Blocks) :
    entries sel p h (bs₁ ++ bs₂) = entries sel p h bs₁ ++ entries sel ((carried sel bs₁).getLastD p)
      (h + bs₁.length) bs₂ := by
  induction bs₁ generalizing p h with
  | nil => rfl
  | cons b bs₁ ih =>
    have hlast : (carried sel (b :: bs₁)).getLastD p = (carried sel bs₁).getLastD ((sel b.2).getLastD p) := by
      rw [carried, List.flatMap_cons, getLastD_append]
      rfl
    rw [List.cons_append, entries, ih, entries, hlast, List.append_assoc, List.length_cons,
      Nat.add_right_comm h 1, Nat.add_assoc h]

theorem linkedFrom_entries (p : MainchainHeaderHash) (h : ℕ) (bs : Blocks) : LinkedFrom p (entries sel p h bs) := by
  induction bs generalizing p h with
  | nil => trivial
  | cons b bs ih =>
    rw [entries, linkedFrom_append, map_fst_linkTo]
    exact ⟨linkedFrom_linkTo h p (sel b.2), ih _ _⟩

theorem linked_entries {p : MainchainHeaderHash} {h : ℕ} {bs : Blocks} (hnodup : (carried sel bs).Nodup)
    (hhead : ∀ x ∈ (carried sel bs).head?, x ≠ p) : Linked (entries sel p h bs) := by
  refine (linkedFrom_entries sel p h bs).linked ?_ ?_
  · rwa [map_fst_entries]
  · rwa [map_fst_entries]

end Entries

def headerHashes : Blocks → List MainchainHeaderHash := carried SidechainBlockInfo.mainchainHeaderHashes

def dataHashes : Blocks → List MainchainHeaderHash := carried SidechainBlockInfo.mainchainReferenceDataHeaderHashes

/-- along the blocks, reference data comes in the order of the headers and without gaps -/
def DataFollows (bs : Blocks) : Prop := dataHashes bs <+: headerHashes bs

instance (bs : Blocks) : Decidable (DataFollows bs) := inferInstanceAs (Decidable (_ <+: _))

/-- the blocks of an active chain whose first block has the mainchain parent `p` -/
structure WellFormed (p : MainchainHeaderHash) (bs : Blocks) : Prop where
  linked : Linked bs
  nodup : (headerHashes bs).Nodup
  parent : ∀ x ∈ (headerHashes bs).head?, x ≠ p
  follows : ∀ bs', bs' <+: bs → DataFollows bs'
  genesis : ∀ b ∈ bs.head?, b.2.mainchainHeaderHashes ≠ [] ∧ b.2.mainchainReferenceDataHeaderHashes ≠ []

/-- the active chain that holds the blocks -/
def ofBlocks (p : MainchainHeaderHash) (d : ℕ) (bs : Blocks) : ActiveChain where
  sidechainCache := ofList bs
  mainchainHeadersCache := ofList (entries SidechainBlockInfo.mainchainHeaderHashes p 1 bs)
  mainchainReferenceDataCache := ofList (entries SidechainBlockInfo.mainchainReferenceDataHeaderHashes p 1 bs)
  mainchainCreationBlockHeight := d

variable {p : MainchainHeaderHash} {d : ℕ} {bs bs₁ bs₂ : Blocks} {x : ModifierId × SidechainBlockInfo}

namespace WellFormed

theorem of_prefix (h : WellFormed p bs₂) (hpre : bs₁ <+: bs₂) : WellFormed p bs₁ := by
  obtain ⟨t, rfl⟩ := hpre
  have happ : headerHashes (bs₁ ++ t) = headerHashes bs₁ ++ headerHashes t := carried_append ..
  have hnodup := h.nodup
  rw [happ] at hnodup
  refine ⟨h.linked.left, hnodup.of_append_left, ?_, fun bs' hbs' => h.follows bs' (hbs'.trans (List.prefix_append _ _)), ?_⟩
  · intro y hy
    refine h.parent y ?_
    rw [happ, List.head?_append, hy]
    rfl
  · intro b hb
    refine h.genesis b ?_
    rw [List.head?_append, hb]
    rfl

theorem data_nodup (h : WellFormed p bs) : (dataHashes bs).Nodup :=
  h.nodup.sublist (h.follows bs (List.prefix_refl _)).sublist

theorem data_parent (h : WellFormed p bs) : ∀ y ∈ (dataHashes bs).head?, y ≠ p := by
  intro y hy
  obtain ⟨t, ht⟩ := h.follows bs (List.prefix_refl _)
  refine h.parent y ?_
  rw [← ht, List.head?_append, hy]
  rfl

theorem linked_headers (h : WellFormed p bs) : Linked (entries SidechainBlockInfo.mainchainHeaderHashes p 1 bs) :=
  linked_entries _ h.nodup h.parent

theorem linked_data (h : WellFormed p bs) :
    Linked (entries SidechainBlockInfo.mainchainReferenceDataHeaderHashes p 1 bs) :=
  linked_entries _ h.data_nodup h.data_parent

end WellFormed

theorem exec_appendAll {l es : List (MainchainHeaderHash × MainchainHeaderMetadata)} (h : Linked (l ++ es)) :
    exec (appendAll es) (ofList l) = (.ok (), ofList (l ++ es)) := by
  induction es generalizing l with
  | nil => rw [List.append_nil]; rfl
  | cons e es ih =>
    rw [List.append_cons] at h
    have hfirst : exec (appendData e.1 e.2) (ofList l) = (.ok (), ofList (l ++ [e])) := exec_appendData h.left
    rw [appendAll, List.foldlM_cons, exec_bind_of_ok hfirst, List.append_cons l e es]
    exact ih h

theorem linkTo_getD (h : ℕ) (l : List MainchainHeaderHash) (q : MainchainHeaderHash) :
    buildMainchainHeadersInfo h l (some q) = .ok (linkTo h q l) := by
  unfold buildMainchainHeadersInfo
  cases l with
  | nil => rfl
  | cons y l => rfl

theorem entries_singleton (sel : SidechainBlockInfo → List MainchainHeaderHash) (q : MainchainHeaderHash) (h : ℕ)
    (b : ModifierId × SidechainBlockInfo) : entries sel q h [b] = linkTo h q (sel b.2) := by
  simp [entries]

/-- one more block -/
theorem exec_addToStorages (h : WellFormed p (bs ++ [x])) :
    exec (addToStorages x.1 x.2 (some ((headerHashes bs).getLastD p)) (some ((dataHashes bs).getLastD p))) (ofBlocks p d bs) =
      (.ok (), ofBlocks p d (bs ++ [x])) := by
  have hblock : exec (onSidechain (appendData x.1 x.2)) (ofBlocks p d bs) =
      (.ok (), { ofBlocks p d bs with sidechainCache := ofList (bs ++ [x]) }) :=
    exec_onPart_ok.2 ⟨_, exec_appendData h.linked, rfl⟩
  have hheight : heightIn (bs ++ [x]) x.1 = some (bs.length + 1) := heightIn_mid h.linked.next.1
  have hheaders := h.linked_headers
  have hdata := h.linked_data
  rw [entries_append, entries_singleton, Nat.add_comm 1] at hheaders hdata
  have hnext : exec (onHeaders (appendAll (linkTo (bs.length + 1) ((headerHashes bs).getLastD p) x.2.mainchainHeaderHashes)))
      { ofBlocks p d bs with sidechainCache := ofList (bs ++ [x]) } =
      (.ok (), { ofBlocks p d (bs ++ [x]) with
        mainchainReferenceDataCache := (ofBlocks p d bs).mainchainReferenceDataCache }) := by
    refine exec_onPart_ok.2 ⟨_, exec_appendAll hheaders, ?_⟩
    simp only [ofBlocks, entries_append, entries_singleton, Nat.add_comm 1, headerHashes]
  have hlast : exec (onReferenceData
        (appendAll (linkTo (bs.length + 1) ((dataHashes bs).getLastD p) x.2.mainchainReferenceDataHeaderHashes)))
      { ofBlocks p d (bs ++ [x]) with mainchainReferenceDataCache := (ofBlocks p d bs).mainchainReferenceDataCache } =
      (.ok (), ofBlocks p d (bs ++ [x])) := by
    refine exec_onPart_ok.2 ⟨_, exec_appendAll hdata, ?_⟩
    simp only [ofBlocks, entries_append, entries_singleton, Nat.add_comm 1, dataHashes]
  rw [addToStorages, exec_bind_of_ok hblock, exec_get_bind, heightById, heightById_ofList, hheight, exec_getOrThrow_some_bind,
    linkTo_getD, linkTo_getD]
  exact (exec_bind_of_ok rfl).trans ((exec_bind_of_ok hnext).trans ((exec_bind_of_ok rfl).trans hlast))

/-! The lookups of a new best block, against the blocks up to its parent. -/

/-- the last hash carried by the blocks up to a height -/
theorem getLastCarried (sel : SidechainBlockInfo → List MainchainHeaderHash) (bs : Blocks) (n : ℕ) (hn : n ≤ bs.length) :
    ((ofList bs).getLastDataByPredicateTillHeight (fun info => sel info ≠ []) n).bind (fun info => (sel info).getLast?) =
      (carried sel (bs.take n)).getLast? := by
  induction n with
  | zero => rfl
  | succ n ih =>
    have hlt : n < bs.length := hn
    have htake : carried sel (bs.take (n + 1)) = carried sel (bs.take n) ++ sel (bs[n]).2 := by
      rw [List.take_succ_eq_append_getElem hlt, carried_append, carried_singleton]
    rw [getLastDataByPredicateTillHeight, dataByHeight_ofList, List.getElem?_eq_getElem hlt, Option.map_some, htake]
    by_cases hsel : sel (bs[n]).2 = []
    · simp only [hsel, ne_eq, not_true_eq_false, decide_false, Bool.false_eq_true, if_false, List.append_nil]
      exact ih (by omega)
    · simp only [ne_eq, hsel, not_false_eq_true, decide_true, if_true, Option.bind_some]
      rw [List.getLast?_append_of_ne_nil _ hsel]

theorem getLastMainchainHeaderHashTillHeight_ofBlocks :
    (ofBlocks p d (bs₁ ++ bs₂)).getLastMainchainHeaderHashTillHeight bs₁.length = (headerHashes bs₁).getLast? := by
  have hlast := getLastCarried SidechainBlockInfo.mainchainHeaderHashes (bs₁ ++ bs₂) bs₁.length (by simp)
  rwa [List.take_left] at hlast

theorem getLastMainchainReferenceDataHeaderHashTillHeight_ofBlocks :
    (ofBlocks p d (bs₁ ++ bs₂)).getLastMainchainReferenceDataHeaderHashTillHeight bs₁.length =
      (dataHashes bs₁).getLast? := by
  have hlast := getLastCarried SidechainBlockInfo.mainchainReferenceDataHeaderHashes (bs₁ ++ bs₂) bs₁.length (by simp)
  rwa [List.take_left] at hlast

/-- the height of the last hash carried by the blocks up to some point -/
theorem heightIn_last (sel : SidechainBlockInfo → List MainchainHeaderHash) {y : MainchainHeaderHash}
    (hnodup : (carried sel (bs₁ ++ bs₂)).Nodup) (hy : (carried sel bs₁).getLast? = some y) :
    heightIn (entries sel p 1 (bs₁ ++ bs₂)) y = some (carried sel bs₁).length := by
  obtain ⟨init, hinit⟩ : ∃ init, carried sel bs₁ = init ++ [y] := ⟨_, (List.dropLast_append_getLast? y hy).symm⟩
  have hids := map_fst_entries sel p 1 bs₁
  rw [hinit] at hids
  obtain ⟨es, e', hes, hinit', he'⟩ := List.map_eq_append_iff.1 hids
  obtain ⟨e, rfl, rfl⟩ : ∃ e, e' = [e] ∧ e.1 = y := by
    obtain ⟨e, rest, rfl, he, hrest⟩ := List.map_eq_cons_iff.1 he'
    exact ⟨e, by rw [List.map_eq_nil_iff.1 hrest], he⟩
  have hfresh : e.1 ∉ es.map Prod.fst := by
    rw [carried_append, hinit] at hnodup
    rw [hinit']
    intro hmem
    exact (List.nodup_append.1 hnodup.of_append_left).2.2 e.1 hmem e.1 (by simp) rfl
  have hlen : (carried sel bs₁).length = es.length + 1 := by
    rw [hinit, ← hinit']
    simp
  rw [entries_append, hes, List.append_assoc, List.singleton_append, heightIn_mid hfresh, hlen]

theorem mcHeadersHeightByMcHash_last (h : WellFormed p (bs₁ ++ bs₂)) {hd : MainchainHeaderHash}
    (hhd : (headerHashes bs₁).getLast? = some hd) :
    (ofBlocks p d (bs₁ ++ bs₂)).mcHeadersHeightByMcHash hd = some ((headerHashes bs₁).length + (d - 1)) := by
  rw [mcHeadersHeightByMcHash, ofBlocks, heightById_ofList, heightIn_last _ h.nodup hhd]
  rfl

theorem mcRefDataHeightByMcHash_last (h : WellFormed p (bs₁ ++ bs₂)) {rd : MainchainHeaderHash}
    (hrd : (dataHashes bs₁).getLast? = some rd) :
    (ofBlocks p d (bs₁ ++ bs₂)).mcRefDataHeightByMcHash rd = some ((dataHashes bs₁).length + (d - 1)) := by
  rw [mcRefDataHeightByMcHash, ofBlocks, heightById_ofList, heightIn_last _ h.data_nodup hrd]
  rfl

/-- the header hashes between two heights -/
theorem mcHashes_ofBlocks (h : WellFormed p (bs₁ ++ bs₂)) (r : ℕ) :
    (ofBlocks p d (bs₁ ++ bs₂)).mcHashes (r + (d - 1) + 1) ((headerHashes bs₁).length + (d - 1)) =
      (headerHashes bs₁).drop r := by
  have hlookup : ∀ i, (ofBlocks p d (bs₁ ++ bs₂)).mcHashByMcHeight
      (r + (d - 1) + 1 + i) = (headerHashes (bs₁ ++ bs₂))[r + i]? := by
    intro i
    have hindex : r + (d - 1) + 1 + i - (d - 1) = r + i + 1 := by omega
    calc (ofBlocks p d (bs₁ ++ bs₂)).mcHashByMcHeight (r + (d - 1) + 1 + i)
        = (ofBlocks p d (bs₁ ++ bs₂)).mainchainHeadersCache.idByHeight (r + i + 1) := by
          rw [← hindex]
          rfl
      _ = (headerHashes (bs₁ ++ bs₂))[r + i]? := by
          rw [ofBlocks, idByHeight_ofList h.linked_headers, ← List.getElem?_map, map_fst_entries]
          rfl
  have happ : headerHashes (bs₁ ++ bs₂) = headerHashes bs₁ ++ headerHashes bs₂ := carried_append ..
  have hcount : (headerHashes bs₁).length + (d - 1) + 1 - (r + (d - 1) + 1) = (headerHashes bs₁).length - r := by omega
  have hread : ∀ i, (headerHashes (bs₁ ++ bs₂))[r + i]? = ((headerHashes (bs₁ ++ bs₂)).drop r)[i]? :=
    fun i => (List.getElem?_drop ..).symm
  rw [mcHashes, hcount, List.range'_eq_map_range, List.filterMap_map]
  simp only [Function.comp_def, hlookup, hread]
  rw [filterMap_range_getElem?, List.take_drop, happ]
  by_cases hr : r ≤ (headerHashes bs₁).length
  · rw [Nat.add_sub_cancel' hr, List.take_left]
  · have hle : (headerHashes bs₁).length ≤ r := by omega
    rw [Nat.sub_eq_zero_of_le hle, Nat.add_zero, List.drop_of_length_le (by simp), List.drop_of_length_le hle]

/-! A new best block on top of any block of the chain. -/

/-- the headers of `x` continue those of the blocks before it; `given` is the mainchain parent of the first of them -/
def HeadersConnect (bs : Blocks) (x : SidechainBlockInfo) (given : Option MainchainHeaderHash) : Prop :=
  (x.mainchainHeaderHashes = [] ↔ given = none) ∧ ∀ g ∈ given, (headerHashes bs).getLast? = some g

/-- what the check on the reference data compares -/
theorem dataFollows_concat (hfollows : DataFollows bs) :
    DataFollows (bs ++ [x]) ↔
      ((headerHashes bs).drop (dataHashes bs).length ++ x.2.mainchainHeaderHashes).take
        x.2.mainchainReferenceDataHeaderHashes.length = x.2.mainchainReferenceDataHeaderHashes := by
  obtain ⟨t, ht⟩ := hfollows
  have hheaders : headerHashes (bs ++ [x]) = headerHashes bs ++ x.2.mainchainHeaderHashes := by
    simp [headerHashes]
  have hdata : dataHashes (bs ++ [x]) = dataHashes bs ++ x.2.mainchainReferenceDataHeaderHashes := by
    simp [dataHashes]
  rw [DataFollows, hheaders, hdata, ← ht, List.append_assoc, List.prefix_append_right_inj, List.drop_left,
    List.prefix_iff_eq_take]
  exact eq_comm

/-- the new block keeps the blocks well formed -/
theorem WellFormed.concat {y : ModifierId × SidechainBlockInfo} (h : WellFormed p bs) (hy : bs.getLast? = some y)
    (hparent : x.2.parentId = y.1) (hid : x.1 ∉ bs.map Prod.fst) (hnodup : x.2.mainchainHeaderHashes.Nodup)
    (hnew : ∀ a ∈ x.2.mainchainHeaderHashes, a ∉ headerHashes bs) (hfollows : DataFollows (bs ++ [x])) :
    WellFormed p (bs ++ [x]) := by
  have hheaders : headerHashes (bs ++ [x]) = headerHashes bs ++ x.2.mainchainHeaderHashes := by
    simp [headerHashes]
  have hne : bs ≠ [] := by
    rintro rfl
    cases hy
  obtain ⟨b, rest, rfl⟩ : ∃ b rest, bs = b :: rest := List.exists_cons_of_ne_nil hne
  have hgenesis := (h.genesis b (by simp)).1
  have hhead : headerHashes (b :: rest) = b.2.mainchainHeaderHashes ++ headerHashes rest := by
    simp [headerHashes, carried]
  refine ⟨⟨?_, ?_, ?_⟩, ?_, ?_, ?_, ?_⟩
  · rw [List.map_append]
    refine List.nodup_append.2 ⟨h.linked.nodup, List.nodup_singleton _, ?_⟩
    rintro a ha c hc rfl
    obtain rfl : a = x.1 := by simpa using hc
    exact hid ha
  · refine List.isChain_append.2 ⟨h.linked.parents, .singleton x, ?_⟩
    intro z hz w hw
    obtain rfl : x = w := by simpa using hw
    obtain rfl : y = z := Option.some.inj (hy.symm.trans hz)
    exact hparent
  · intro z hz
    exact h.linked.head z (by simpa using hz)
  · rw [hheaders]
    exact List.nodup_append.2 ⟨h.nodup, hnodup, fun a ha c hc heq => hnew c hc (heq ▸ ha)⟩
  · intro z hz
    refine h.parent z ?_
    rw [hheaders, List.head?_append_of_ne_nil] at hz
    · exact hz
    · rw [hhead]
      exact fun hnil => hgenesis (List.append_eq_nil_iff.1 hnil).1
  · intro bs' hbs'
    rcases List.prefix_concat_iff.1 hbs' with rfl | hpre
    · exact hfollows
    · exact h.follows bs' hpre
  · intro z hz
    exact h.genesis z (by simpa using hz)

/-- the cut of the three caches -/
theorem exec_cuts (h : WellFormed p (bs₁ ++ bs₂)) {y : ModifierId × SidechainBlockInfo} {hd rd : MainchainHeaderHash}
    (hy : bs₁.getLast? = some y) (hhd : (headerHashes bs₁).getLast? = some hd) (hrd : (dataHashes bs₁).getLast? = some rd)
    {f : Chained Unit} :
    exec (do
      onSidechain (ElementsChain.cutToId y.1)
      onHeaders (ElementsChain.cutToId hd)
      onReferenceData (ElementsChain.cutToId rd)
      f) (ofBlocks p d (bs₁ ++ bs₂)) = exec f (ofBlocks p d bs₁) := by
  have hlast : ∀ (sel : SidechainBlockInfo → List MainchainHeaderHash) (z : MainchainHeaderHash),
      (carried sel bs₁).getLast? = some z → ∃ m, (entries sel p 1 bs₁).getLast? = some (z, m) := by
    intro sel z hz
    rw [← map_fst_entries sel p 1, List.getLast?_map] at hz
    obtain ⟨e, he, rfl⟩ := Option.map_eq_some_iff.1 hz
    exact ⟨e.2, he⟩
  obtain ⟨m, hm⟩ := hlast _ hd hhd
  obtain ⟨m', hm'⟩ := hlast _ rd hrd
  have hheaders := h.linked_headers
  have hdata := h.linked_data
  rw [entries_append] at hheaders hdata
  have hcut : exec (onSidechain (ElementsChain.cutToId y.1)) (ofBlocks p d (bs₁ ++ bs₂)) =
      (.ok (), { ofBlocks p d (bs₁ ++ bs₂) with sidechainCache := ofList bs₁ }) :=
    exec_onPart_ok.2 ⟨_, exec_cutToId h.linked hy, rfl⟩
  have hcut' : exec (onHeaders (ElementsChain.cutToId hd)) { ofBlocks p d (bs₁ ++ bs₂) with sidechainCache := ofList bs₁ } =
      (.ok (), { ofBlocks p d bs₁ with
        mainchainReferenceDataCache := (ofBlocks p d (bs₁ ++ bs₂)).mainchainReferenceDataCache }) := by
    refine exec_onPart_ok.2 ⟨_, ?_, rfl⟩
    have hexec := exec_cutToId hheaders hm
    rwa [← entries_append] at hexec
  have hcut'' : exec (onReferenceData (ElementsChain.cutToId rd))
      { ofBlocks p d bs₁ with mainchainReferenceDataCache := (ofBlocks p d (bs₁ ++ bs₂)).mainchainReferenceDataCache } =
      (.ok (), ofBlocks p d bs₁) := by
    refine exec_onPart_ok.2 ⟨_, ?_, rfl⟩
    have hexec := exec_cutToId hdata hm'
    rwa [← entries_append] at hexec
  rw [exec_bind_of_ok hcut, exec_bind_of_ok hcut', exec_bind_of_ok hcut'']

/-- the first block carries headers and data, so every chain that starts with it has a last of each -/
theorem WellFormed.exists_last (h : WellFormed p bs) (hne : bs ≠ []) :
    ∃ hd rd, (headerHashes bs).getLast? = some hd ∧ (dataHashes bs).getLast? = some rd := by
  obtain ⟨b, rest, rfl⟩ := List.exists_cons_of_ne_nil hne
  obtain ⟨hheaders, hdata⟩ := h.genesis b (by simp)
  have hh : headerHashes (b :: rest) ≠ [] := fun hnil => hheaders (List.append_eq_nil_iff.1 hnil).1
  have hd : dataHashes (b :: rest) ≠ [] := fun hnil => hdata (List.append_eq_nil_iff.1 hnil).1
  exact ⟨_, _, List.getLast?_eq_some_getLast hh, List.getLast?_eq_some_getLast hd⟩

theorem heightById_last (h : WellFormed p (bs₁ ++ bs₂)) {y : ModifierId × SidechainBlockInfo}
    (hy : bs₁.getLast? = some y) :
    (ofBlocks p d (bs₁ ++ bs₂)).heightById y.1 = some bs₁.length := by
  obtain ⟨init, rfl⟩ : ∃ init, bs₁ = init ++ [y] := ⟨_, (List.dropLast_append_getLast? y hy).symm⟩
  have hfresh : y.1 ∉ init.map Prod.fst := h.linked.left.next.1
  rw [heightById, ofBlocks, heightById_ofList, List.append_assoc, List.singleton_append, heightIn_mid hfresh]
  simp

/-- the checks of a block on top of `bs₁`; in the last case it goes on with the cut chain -/
theorem exec_setNonGenesisBlock (h : WellFormed p (bs₁ ++ bs₂)) {y : ModifierId × SidechainBlockInfo}
    (hy : bs₁.getLast? = some y) (hparent : x.2.parentId = y.1) (given : Option MainchainHeaderHash) :
    (¬ HeadersConnect bs₁ x.2 given ∧ ∃ e, e ≠ .inconsistentReferenceData ∧
      exec (setNonGenesisBlock x.1 x.2 given) (ofBlocks p d (bs₁ ++ bs₂)) = (.error e, ofBlocks p d (bs₁ ++ bs₂))) ∨
    (HeadersConnect bs₁ x.2 given ∧ ¬ DataFollows (bs₁ ++ [x]) ∧
      exec (setNonGenesisBlock x.1 x.2 given) (ofBlocks p d (bs₁ ++ bs₂)) =
        (.error .inconsistentReferenceData, ofBlocks p d (bs₁ ++ bs₂))) ∨
    (HeadersConnect bs₁ x.2 given ∧ DataFollows (bs₁ ++ [x]) ∧
      exec (setNonGenesisBlock x.1 x.2 given) (ofBlocks p d (bs₁ ++ bs₂)) =
        exec (addToStorages x.1 x.2 (some ((headerHashes bs₁).getLastD p)) (some ((dataHashes bs₁).getLastD p)))
          (ofBlocks p d bs₁)) := by
  have hne : bs₁ ≠ [] := by
    rintro rfl
    cases hy
  have h₁ : WellFormed p bs₁ := h.of_prefix (List.prefix_append _ _)
  obtain ⟨hd, rd, hhd, hrd⟩ := h₁.exists_last hne
  simp only [setNonGenesisBlock, exec_get_bind]
  rw [hparent, heightById_last h hy, exec_getOrThrow_some_bind, getLastMainchainHeaderHashTillHeight_ofBlocks, hhd,
    exec_getOrThrow_some_bind]
  by_cases hempty : (x.2.mainchainHeaderHashes = []) ≠ (given = none)
  · refine .inl ⟨fun hconnect => hempty (propext hconnect.1), .mainchainParentInconsistent, by decide, ?_⟩
    rw [exec_throwIf_pos_bind hempty]
  rw [exec_throwIf_neg_bind hempty]
  by_cases hgiven : ∃ g ∈ given, g ≠ hd
  · refine .inl ⟨?_, .inconsistentMainchainHeaders, by decide, ?_⟩
    · obtain ⟨g, hg, hgne⟩ := hgiven
      intro hconnect
      have hlast := hconnect.2 g hg
      rw [hhd] at hlast
      exact hgne (Option.some.inj hlast).symm
    · rw [exec_throwIf_pos_bind hgiven]
  have hconnect : HeadersConnect bs₁ x.2 given := by
    refine ⟨iff_of_eq (not_not.1 hempty), ?_⟩
    intro g hg
    rw [hhd, not_not.1 fun hgne => hgiven ⟨g, hg, fun heq => hgne (congrArg some heq.symm)⟩]
  rw [exec_throwIf_neg_bind hgiven, getLastMainchainReferenceDataHeaderHashTillHeight_ofBlocks, hrd, exec_getOrThrow_some_bind,
    mcRefDataHeightByMcHash_last h hrd, exec_getOrThrow_some_bind, mcHeadersHeightByMcHash_last h hhd, exec_getOrThrow_some_bind,
      mcHashes_ofBlocks h]
  have hfollows := dataFollows_concat (h₁.follows _ (List.prefix_refl _)) (x := x)
  by_cases hdata : DataFollows (bs₁ ++ [x])
  · refine .inr (.inr ⟨hconnect, hdata, ?_⟩)
    rw [exec_throwIf_neg_bind (not_not.2 (hfollows.1 hdata)), exec_cuts h hy hhd hrd, List.getLastD_eq_getLast?,
      List.getLastD_eq_getLast?, hhd, hrd]
    rfl
  · refine .inr (.inl ⟨hconnect, hdata, ?_⟩)
    have hdiffer : _ ≠ _ := fun heq => hdata (hfollows.2 heq)
    rw [exec_throwIf_pos_bind hdiffer]

/-! The rebuild. -/

/-- the last hashes after a block, as the rebuild passes them on -/
theorem some_getLastD_concat {l l' : List MainchainHeaderHash} :
    l'.getLast?.or (some (l.getLastD p)) = some ((l ++ l').getLastD p) := by
  rw [getLastD_append]
  generalize l.getLastD p = q
  rw [List.getLastD_eq_getLast?]
  cases l'.getLast? <;> rfl

theorem exec_rebuild (h : WellFormed p (bs₁ ++ bs₂)) :
    exec (bs₂.foldlM rebuildStep (some ((headerHashes bs₁).getLastD p), some ((dataHashes bs₁).getLastD p)))
      (ofBlocks p d bs₁) =
      (.ok (some ((headerHashes (bs₁ ++ bs₂)).getLastD p), some ((dataHashes (bs₁ ++ bs₂)).getLastD p)),
        ofBlocks p d (bs₁ ++ bs₂)) := by
  induction bs₂ generalizing bs₁ with
  | nil => rw [List.append_nil]; rfl
  | cons b bs₂ ih =>
    rw [List.append_cons] at h ⊢
    have hadd : exec (addToStorages b.1 b.2 (some ((headerHashes bs₁).getLastD p)) (some ((dataHashes bs₁).getLastD p)))
        (ofBlocks p d bs₁) = (.ok (), ofBlocks p d (bs₁ ++ [b])) :=
      exec_addToStorages (h.of_prefix (List.prefix_append _ _))
    have hstep : exec (rebuildStep (some ((headerHashes bs₁).getLastD p), some ((dataHashes bs₁).getLastD p)) b)
        (ofBlocks p d bs₁) =
          (.ok (some ((headerHashes (bs₁ ++ [b])).getLastD p), some ((dataHashes (bs₁ ++ [b])).getLastD p)),
          ofBlocks p d (bs₁ ++ [b])) := by
      rw [rebuildStep, exec_bind_of_ok hadd, exec_pure, some_getLastD_concat, some_getLastD_concat]
      simp [headerHashes, dataHashes]
    rw [List.foldlM_cons, exec_bind_of_ok hstep]
    exact ih h

/-- **A rebuild gives the active chain of the blocks.** -/
theorem apply_ofBlocks (h : WellFormed p bs) (hne : bs ≠ []) : apply bs p d = .ok (ofBlocks p d bs) := by
  obtain ⟨b, rest, rfl⟩ := List.exists_cons_of_ne_nil hne
  have h' : WellFormed p ([] ++ b :: rest) := h
  have hrebuild : exec ((b :: rest).foldlM rebuildStep (some p, some p)) (empty d) = _ := exec_rebuild h'
  rw [apply, if_neg (h.genesis b (by simp)).1, hrebuild]
  rfl

end ActiveChain

end SidechainsSdk.Chain
