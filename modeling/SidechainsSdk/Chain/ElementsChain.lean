/-
Chains of linked elements (`chain/ElementsChain.scala`): the elements in order, the id of the last one, and a map from ids
to heights. The id of an element is not kept with it; that of an inner element is the parent id of the next one.

`ofList l` is the chain that holds the entries `l`. The specifications say that the operations, which cut and extend the
three parts by themselves, stay on such chains:

- `exec_appendData`: one more entry.
- `exec_cutToId`: back to any entry.
- `idByHeight_ofList`, `heightById_ofList`, `dataByHeight_ofList`: the lookups.
-/
import Mathlib.Tactic
import SidechainsSdk.Core.Fallible

namespace SidechainsSdk.Chain

open Fallible

/-- exceptions of the chain classes -/
inductive ChainException where
  | parentNotInChain
  | incorrectParent
  | himselfAsParent
  | cutNotShorter
  | indexOutOfBounds
  | sizesDiffer
  | nonEmptyActiveChain
  | missingMainchainHeaders
  | missingReferenceData
  | missingMainchainParent
  | unconnectedBlock
  | noMainchainHeaders
  | noReferenceData
  | mainchainParentInconsistent
  | inconsistentMainchainHeaders
  | inconsistentReferenceData
  | addedTipHasNoHeight
  | noSuchElement
  | noBlockInfo
  | noMainchainParent
  | endless
  deriving DecidableEq, Repr

class LinkedElement (δ : Type) (ι : outParam Type) where
  getParentId : δ → ι

open LinkedElement

structure ElementsChain (ι δ : Type) where
  lastId : Option ι
  data : List δ
  idToHeightMap : ι → Option ℕ

namespace ElementsChain

variable {ι δ : Type} [DecidableEq ι] [LinkedElement δ ι]

def empty : ElementsChain ι δ := ⟨none, [], fun _ => none⟩

section Queries

variable (c : ElementsChain ι δ)

def height : ℕ := c.data.length

def bestData : Option δ := c.data.getLast?

def bestId : Option ι := c.lastId

def contains (id : ι) : Bool := (c.idToHeightMap id).isSome

def heightById (id : ι) : Option ℕ := c.idToHeightMap id

/-- heights start at one -/
def dataByHeight (requestedHeight : ℕ) : Option δ :=
  if requestedHeight = 0 then none else c.data[requestedHeight - 1]?

def dataById (id : ι) : Option δ := (c.heightById id).bind c.dataByHeight

def idByHeight (requestedHeight : ℕ) : Option ι :=
  if requestedHeight = 0 then none
  else if requestedHeight = c.height then c.bestId
  else (c.dataByHeight (requestedHeight + 1)).map getParentId

def getLastDataByPredicateTillHeight (p : δ → Bool) : ℕ → Option δ
  | 0 => none
  | h + 1 =>
    match c.dataByHeight (h + 1) with
    | some dataForHeight => if p dataForHeight then some dataForHeight else getLastDataByPredicateTillHeight p h
    | none => none

/-- the ids from the last one down, `counter` more than those collected -/
def getLastIdsForHeight : ℕ → ℕ → List ι → Except ChainException (List ι)
  | 0, _, collectedIds => .ok collectedIds
  | counter + 1, lastHeight, collectedIds =>
    match c.dataByHeight lastHeight with
    | some d => getLastIdsForHeight counter (lastHeight - 1) (collectedIds ++ [getParentId d])
    | none => .error .indexOutOfBounds

/-- the ids from height `currentHeight` on: those before the last one are the parents of the next element -/
def chainSinceHeight : ℕ → ℕ → Except ChainException (List ι)
  | 0, _ => .ok c.bestId.toList
  | n + 1, currentHeight =>
    match c.dataByHeight (currentHeight + 1) with
    | some d => (chainSinceHeight n (currentHeight + 1)).map (getParentId d :: ·)
    | none => .error .noSuchElement

/-- without a limit; the chain from an element on, or nothing if it is not in the chain -/
def chainSince (id : ι) : Except ChainException (List ι) :=
  match c.heightById id with
  | some startHeight => c.chainSinceHeight (c.height - startHeight) startHeight
  | none => .ok []

end Queries

def cutToSize (newSize : ℕ) : Fallible ChainException (ElementsChain ι δ) Unit := do
  let c ← get
  throwIf (¬ newSize < c.height) .cutNotShorter
  let tailSize := c.height - newSize
  let idsToRemove ← orThrow (c.getLastIdsForHeight (tailSize - 1) c.height c.bestId.toList)
  modify fun c => { c with idToHeightMap := fun id => if id ∈ idsToRemove then none else c.idToHeightMap id }
  modify fun c => { c with data := c.data.take newSize }
  throwIf (idsToRemove.length ≠ tailSize) .sizesDiffer

def cutToId (newBestId : ι) : Fallible ChainException (ElementsChain ι δ) Unit := do
  let c ← get
  if 0 < c.height then
    if some newBestId ≠ c.bestId then
      let newHeight ← getOrThrow (c.heightById newBestId) .parentNotInChain
      cutToSize newHeight
      modify fun c => { c with lastId := some newBestId }

def appendData (newId : ι) (newData : δ) : Fallible ChainException (ElementsChain ι δ) Unit := do
  let c ← get
  throwIf (0 < c.height ∧ c.bestId ≠ some (getParentId newData)) .incorrectParent
  throwIf (getParentId newData = newId) .himselfAsParent
  modify fun c => { c with data := c.data ++ [newData] }
  modify fun c => { c with idToHeightMap := Function.update c.idToHeightMap newId (some c.height) }
  modify fun c => { c with lastId := some newId }

/-! The chain that holds a list of entries. -/

/-- the height of an id, counted from one -/
def heightIn (l : List (ι × δ)) (id : ι) : Option ℕ := (l.findIdx? fun x => x.1 = id).map (· + 1)

def ofList (l : List (ι × δ)) : ElementsChain ι δ := ⟨l.getLast?.map Prod.fst, l.map Prod.snd, heightIn l⟩

/-- the ids are distinct, and every entry names the one before as its parent -/
structure Linked (l : List (ι × δ)) : Prop where
  nodup : (l.map Prod.fst).Nodup
  parents : l.IsChain fun a b => getParentId b.2 = a.1
  head : ∀ x ∈ l.head?, getParentId x.2 ≠ x.1

section Heights

variable {δ : Type} {l l₁ l₂ : List (ι × δ)} {id : ι}

theorem heightIn_append (l₁ l₂ : List (ι × δ)) (id : ι) :
    heightIn (l₁ ++ l₂) id = (heightIn l₁ id).or ((heightIn l₂ id).map (· + l₁.length)) := by
  unfold heightIn
  rw [List.findIdx?_append]
  cases l₁.findIdx? fun x => x.1 = id with
  | some i => rfl
  | none =>
    cases l₂.findIdx? fun x => x.1 = id with
    | some i => simp [Nat.add_right_comm]
    | none => rfl

theorem heightIn_eq_none (h : id ∉ l.map Prod.fst) : heightIn l id = none := by
  unfold heightIn
  rw [Option.map_eq_none_iff, List.findIdx?_eq_none_iff]
  intro x hx
  simp only [decide_eq_false_iff_not]
  intro heq
  exact h (heq ▸ List.mem_map_of_mem hx)

theorem heightIn_singleton (x : ι × δ) : heightIn [x] x.1 = some 1 := by
  simp [heightIn]

/-- the height of the entry after `l₁` -/
theorem heightIn_mid {x : ι × δ} (h : x.1 ∉ l₁.map Prod.fst) :
    heightIn (l₁ ++ x :: l₂) x.1 = some (l₁.length + 1) := by
  have hx : heightIn (x :: l₂) x.1 = some 1 := by
    rw [← List.singleton_append, heightIn_append, heightIn_singleton]
    rfl
  rw [heightIn_append, heightIn_eq_none h, hx, Option.none_or, Option.map_some, Nat.add_comm]

/-- the height of an id among different ids -/
theorem heightIn_at (hnodup : (l.map Prod.fst).Nodup) {i : ℕ} (hi : (l.map Prod.fst)[i]? = some id) :
    heightIn l id = some (i + 1) := by
  obtain ⟨hlt, rfl⟩ := List.getElem?_eq_some_iff.1 hi
  rw [List.length_map] at hlt
  have hsplit : l = l.take i ++ l[i] :: l.drop (i + 1) := by rw [← List.drop_eq_getElem_cons hlt, List.take_append_drop]
  have hfresh : l[i].1 ∉ (l.take i).map Prod.fst := by
    intro hmem
    rw [hsplit, List.map_append, List.map_cons] at hnodup
    exact (List.nodup_append.1 hnodup).2.2 _ hmem _ List.mem_cons_self rfl
  have hmid : heightIn (l.take i ++ l[i] :: l.drop (i + 1)) l[i].1 = _ := heightIn_mid hfresh
  rw [← hsplit, List.length_take, Nat.min_eq_left hlt.le] at hmid
  rw [List.getElem_map]
  exact hmid

theorem mem_of_heightIn {h : ℕ} (hid : heightIn l id = some h) :
    ∃ l₁ x l₂, l = l₁ ++ x :: l₂ ∧ x.1 = id ∧ h = l₁.length + 1 := by
  unfold heightIn at hid
  obtain ⟨i, hi, rfl⟩ := Option.map_eq_some_iff.1 hid
  obtain ⟨hlt, hx, -⟩ := List.findIdx?_eq_some_iff_getElem.1 hi
  refine ⟨l.take i, l[i], l.drop (i + 1), ?_, by simpa using hx, ?_⟩
  · rw [← List.drop_eq_getElem_cons hlt, List.take_append_drop]
  · rw [List.length_take, Nat.min_eq_left hlt.le]

/-- an id among the first entries -/
theorem heightIn_left (h : id ∈ l₁.map Prod.fst) (l₂ : List (ι × δ)) :
    ∃ n ≤ l₁.length, heightIn (l₁ ++ l₂) id = some n := by
  obtain ⟨n, hn⟩ : ∃ n, heightIn l₁ id = some n := by
    cases hin : heightIn l₁ id with
    | some n => exact ⟨n, rfl⟩
    | none =>
      rw [heightIn, Option.map_eq_none_iff, List.findIdx?_eq_none_iff] at hin
      obtain ⟨x, hx, heq⟩ := List.mem_map.1 h
      exact absurd (decide_eq_true heq) (by rw [hin x hx]; simp)
  obtain ⟨front, x, back, hl, -, rfl⟩ := mem_of_heightIn hn
  refine ⟨front.length + 1, ?_, by rw [heightIn_append, hn, Option.some_or]⟩
  rw [hl, List.length_append, List.length_cons]
  omega

/-- one more entry -/
theorem heightIn_concat {x : ι × δ} (h : x.1 ∉ l.map Prod.fst) :
    heightIn (l ++ [x]) = Function.update (heightIn l) x.1 (some (l.length + 1)) := by
  funext id
  by_cases hid : id = x.1
  · subst hid
    rw [Function.update_self, heightIn_mid h]
  · have hother : heightIn [x] id = none := heightIn_eq_none (by simpa using hid)
    rw [Function.update_of_ne hid, heightIn_append, hother, Option.map_none, Option.or_none]

/-- the entries after `l₁` taken away -/
theorem heightIn_cut (hnodup : ((l₁ ++ l₂).map Prod.fst).Nodup) {ids : List ι}
    (hids : ∀ i, i ∈ ids ↔ i ∈ l₂.map Prod.fst) :
    (fun i => if i ∈ ids then none else heightIn (l₁ ++ l₂) i) = heightIn l₁ := by
  rw [List.map_append] at hnodup
  funext i
  by_cases hi : i ∈ l₂.map Prod.fst
  · have hnot : i ∉ l₁.map Prod.fst := fun hmem => (List.nodup_append.1 hnodup).2.2 i hmem i hi rfl
    rw [if_pos ((hids i).2 hi), heightIn_eq_none hnot]
  · rw [if_neg fun hmem => hi ((hids i).1 hmem), heightIn_append, heightIn_eq_none hi, Option.map_none, Option.or_none]

end Heights

section Lookups

variable {l : List (ι × δ)}

omit [LinkedElement δ ι] in
@[simp] theorem height_ofList : (ofList l).height = l.length := by simp [height, ofList]

omit [LinkedElement δ ι] in
@[simp] theorem bestId_ofList : (ofList l).bestId = l.getLast?.map Prod.fst := rfl

omit [LinkedElement δ ι] in
theorem heightById_ofList (id : ι) : (ofList l).heightById id = heightIn l id := rfl

omit [LinkedElement δ ι] in
theorem dataByHeight_ofList (h : ℕ) : (ofList l).dataByHeight (h + 1) = l[h]?.map Prod.snd := by
  simp [dataByHeight, ofList]

/-- the id of an inner element is the parent of the next one -/
theorem idByHeight_ofList (hl : Linked l) (h : ℕ) : (ofList l).idByHeight (h + 1) = l[h]?.map Prod.fst := by
  unfold idByHeight
  rw [if_neg (Nat.succ_ne_zero h), height_ofList, bestId_ofList, dataByHeight_ofList]
  split_ifs with hlast
  · rw [List.getLast?_eq_getElem?, ← hlast]
    rfl
  · rcases Nat.lt_or_ge (h + 1) l.length with hlt | hge
    · have hparent := List.isChain_iff_getElem.1 hl.parents h hlt
      rw [List.getElem?_eq_getElem hlt, List.getElem?_eq_getElem (by omega)]
      simpa using hparent
    · rw [List.getElem?_eq_none hge, List.getElem?_eq_none (by omega)]
      rfl

/-- the chain from a height on -/
theorem chainSinceHeight_ofList (hl : Linked l) (n k : ℕ) (hlen : n + (k + 1) = l.length) :
    (ofList l).chainSinceHeight n (k + 1) = .ok ((l.drop k).map Prod.fst) := by
  induction n generalizing k with
  | zero =>
    have hlast : l.drop k = l.getLast?.toList := by
      rw [List.getLast?_eq_getElem?, List.drop_eq_getElem_cons (by omega), List.drop_of_length_le (by omega),
        List.getElem?_eq_getElem (by omega)]
      simp [← hlen]
    rw [chainSinceHeight, bestId_ofList, hlast]
    cases l.getLast? <;> rfl
  | succ n ih =>
    have hk : k < l.length := by omega
    have hk' : k + 1 < l.length := by omega
    have hparent : getParentId (l[k + 1]).2 = (l[k]).1 := List.isChain_iff_getElem.1 hl.parents k hk'
    rw [chainSinceHeight, dataByHeight_ofList, List.getElem?_eq_getElem hk', Option.map_some]
    simp only [ih (k + 1) (by omega), Except.map, hparent]
    rw [List.drop_eq_getElem_cons hk, List.map_cons]

end Lookups

/-! The operations. -/

section Operations

variable {l l₁ l₂ : List (ι × δ)}

omit [DecidableEq ι] in
theorem Linked.left (h : Linked (l₁ ++ l₂)) : Linked l₁ := by
  refine ⟨?_, (List.isChain_append.1 h.parents).1, ?_⟩
  · have hnodup := h.nodup
    rw [List.map_append] at hnodup
    exact hnodup.of_append_left
  · intro x hx
    refine h.head x ?_
    cases l₁ with
    | nil => simp at hx
    | cons y l₁ => exact hx

omit [DecidableEq ι] in
/-- the entry after `l` has another id, and names the last entry of `l` -/
theorem Linked.next {x : ι × δ} (h : Linked (l ++ [x])) :
    x.1 ∉ l.map Prod.fst ∧ getParentId x.2 ≠ x.1 ∧ ∀ y ∈ l.getLast?, getParentId x.2 = y.1 := by
  have hnodup := h.nodup
  rw [List.map_append] at hnodup
  have hfresh : x.1 ∉ l.map Prod.fst := fun hmem => (List.nodup_append.1 hnodup).2.2 _ hmem _ (by simp) rfl
  have hlast : ∀ y ∈ l.getLast?, getParentId x.2 = y.1 :=
    fun y hy => (List.isChain_append.1 h.parents).2.2 y hy x (by simp)
  refine ⟨hfresh, ?_, hlast⟩
  rcases List.eq_nil_or_concat l with rfl | ⟨init, y, rfl⟩
  · exact h.head x (by simp)
  · rw [hlast y (by simp)]
    intro heq
    exact hfresh (by simp [← heq])

theorem exec_appendData {x : ι × δ} (h : Linked (l ++ [x])) :
    exec (appendData x.1 x.2) (ofList l) = (.ok (), ofList (l ++ [x])) := by
  obtain ⟨hfresh, hself, hlast⟩ := h.next
  have hparent : ¬ (0 < (ofList l).height ∧ (ofList l).bestId ≠ some (getParentId x.2)) := by
    rintro ⟨hpos, hne⟩
    rcases List.eq_nil_or_concat l with rfl | ⟨init, y, rfl⟩
    · simp at hpos
    · rw [List.concat_eq_append] at hlast hne
      rw [bestId_ofList, List.getLast?_append, List.getLast?_singleton, hlast y (by simp)] at hne
      exact hne rfl
  simp only [appendData, exec_get_bind, exec_throwIf_bind_ok, exec_modify_bind, exec_modify]
  refine ⟨hparent, hself, ?_⟩
  simp [height, ofList, heightIn_concat hfresh]

/-- the ids from the last one down, read off the parents -/
theorem getLastIdsForHeight_ofList (hl : Linked l) (n h : ℕ) (hn : n < h) (hh : h ≤ l.length) :
    (ofList l).getLastIdsForHeight n h ((l.drop (h - 1)).map Prod.fst).reverse =
      .ok ((l.drop (h - 1 - n)).map Prod.fst).reverse := by
  induction n generalizing h with
  | zero => rfl
  | succ n ih =>
    obtain ⟨k, rfl⟩ : ∃ k, h = k + 2 := ⟨h - 2, by omega⟩
    have hlast : k + 1 < l.length := by omega
    have hprev : k < l.length := by omega
    have hparent : getParentId (l[k + 1]).2 = (l[k]).1 := List.isChain_iff_getElem.1 hl.parents k hlast
    have hdata : (ofList l).dataByHeight (k + 2) = some (l[k + 1]).2 := by
      rw [dataByHeight_ofList, List.getElem?_eq_getElem hlast]
      rfl
    have hdrop : ((l.drop k).map Prod.fst).reverse = ((l.drop (k + 1)).map Prod.fst).reverse ++ [(l[k]).1] := by
      rw [List.drop_eq_getElem_cons hprev, List.map_cons, List.reverse_cons]
    have hcollected := ih (k + 1) (by omega) (by omega)
    simp only [Nat.add_sub_cancel] at hcollected
    have hindex : k + 2 - 1 - (n + 1) = k - n := by omega
    rw [getLastIdsForHeight, hdata, hindex, ← hcollected, hdrop, ← hparent]
    rfl

theorem exec_cutToSize (h : Linked (l₁ ++ l₂)) (hne : l₂ ≠ []) :
    exec (cutToSize l₁.length) (ofList (l₁ ++ l₂)) =
      (.ok (), { (ofList l₁) with lastId := (ofList (l₁ ++ l₂)).lastId }) := by
  have hpos : 0 < l₂.length := List.length_pos_iff.2 hne
  have hlen : (l₁ ++ l₂).length = l₁.length + l₂.length := List.length_append
  have hbest : (ofList (l₁ ++ l₂)).bestId.toList =
      (((l₁ ++ l₂).drop ((l₁ ++ l₂).length - 1)).map Prod.fst).reverse := by
    rw [bestId_ofList]
    rcases List.eq_nil_or_concat (l₁ ++ l₂) with hnil | ⟨init, y, heq⟩
    · simp [hne] at hnil
    · rw [heq, List.concat_eq_append]
      simp
  have hids := getLastIdsForHeight_ofList h (l₂.length - 1) (l₁ ++ l₂).length (by omega) le_rfl
  have hindex : (l₁ ++ l₂).length - 1 - (l₂.length - 1) = l₁.length := by omega
  rw [← hbest, hindex, List.drop_left] at hids
  have htail : (l₁ ++ l₂).length - l₁.length = l₂.length := by omega
  simp only [cutToSize, exec_get_bind, exec_throwIf_bind_ok, exec_orThrow_bind_ok, exec_modify_bind, exec_throwIf_ok,
    height_ofList, htail]
  refine ⟨by omega, _, hids, by simp, ?_⟩
  have hmap : (fun i => if i ∈ (l₂.map Prod.fst).reverse then none else (ofList (l₁ ++ l₂)).idToHeightMap i) =
      heightIn l₁ := heightIn_cut h.nodup (by simp)
  rw [hmap]
  simp [ofList]

/-- back to the last entry of `l₁` -/
theorem exec_cutToId (h : Linked (l₁ ++ l₂)) {x : ι × δ} (hx : l₁.getLast? = some x) :
    exec (cutToId x.1) (ofList (l₁ ++ l₂)) = (.ok (), ofList l₁) := by
  obtain ⟨init, rfl⟩ : ∃ init, l₁ = init ++ [x] := ⟨l₁.dropLast, (List.dropLast_append_getLast? x hx).symm⟩
  have hpos : 0 < (ofList (init ++ [x] ++ l₂)).height := by
    rw [height_ofList]
    simp
  simp only [cutToId, exec_get_bind, if_pos hpos]
  rcases List.eq_nil_or_concat l₂ with rfl | ⟨init₂, y, rfl⟩
  · -- already the last entry
    have hbest : ¬ some x.1 ≠ (ofList (init ++ [x] ++ [])).bestId := by simp
    rw [if_neg hbest, exec_pure, List.append_nil]
  · rw [List.concat_eq_append] at h ⊢
    have hnodup := h.nodup
    have hfresh : x.1 ∉ init.map Prod.fst := h.left.next.1
    have hbest : some x.1 ≠ (ofList (init ++ [x] ++ (init₂ ++ [y]))).bestId := by
      rw [bestId_ofList, ← List.append_assoc, List.getLast?_append, List.getLast?_singleton]
      intro heq
      have hxy : x.1 = y.1 := Option.some.inj heq
      rw [List.map_append] at hnodup
      exact (List.nodup_append.1 hnodup).2.2 x.1 (by simp) y.1 (by simp) hxy
    have hheight : (ofList (init ++ [x] ++ (init₂ ++ [y]))).heightById x.1 = some (init ++ [x]).length := by
      rw [heightById_ofList, List.append_assoc, List.singleton_append, heightIn_mid hfresh]
      simp
    rw [if_pos hbest, hheight, exec_getOrThrow_some_bind, exec_bind_of_ok (exec_cutToSize h (by simp)), exec_modify]
    simp [ofList]

end Operations

end ElementsChain

end SidechainsSdk.Chain
