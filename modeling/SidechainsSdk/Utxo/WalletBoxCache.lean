/-
The wallet's box cache agrees with its storage.

- `Derived`: the maps by type partition the map of all boxes. Kept by every change (`Derived.put`, `Derived.remove`).
- `Balanced`: the recorded balances are the sums of the values. Kept by the incremental changes; a reload establishes it
  if the types that have no box any more had balance zero (`balanced_load`).
- `cache_agrees`: the runs in which every rollback meets this condition.
- `stale_balance`: without it the balance of a type stays, because `loadWalletBoxes` clears the boxes and not the
  balances.
-/
import Mathlib.Tactic
import SidechainsSdk.Utxo.WalletBoxStorage

namespace SidechainsSdk.Utxo.WalletBoxStorage

open Storage Fallible BoxesCompanion WalletBoxSerializer WriteOp

variable {β τ : Type} [DecidableEq τ] [Box β τ] [BoxesCompanion β]

/-- the sum of the values of the boxes of one type -/
def balanceOf (t : τ) (boxes : BoxMap β) : Long :=
  (((boxes.entries.map Sigma.snd).filter fun wb => classOf wb = t).map valueOf).sum

/-- the boxes are under their own keys, and the maps by type are the parts of the map of all boxes -/
structure Derived (c : Cache β τ) : Prop where
  keyed : ∀ k wb, c.walletBoxes.lookup k = some wb → k = keyOf wb
  byType : ∀ t k, (c.walletBoxesByType.lookup t).bind (·.lookup k) =
    (c.walletBoxes.lookup k).filter fun wb => classOf wb = t

def Balanced (c : Cache β τ) : Prop := ∀ t, getBoxesBalance c t = balanceOf t c.walletBoxes

omit [DecidableEq τ] in
theorem box_eq_of_key {wb wb' : WalletBox β} (h : keyOf wb = keyOf wb') : wb.box = wb'.box :=
  Box.eq_of_id _ _ (calculateKey_injective h)

omit [DecidableEq τ] in
theorem class_eq_of_key {wb wb' : WalletBox β} (h : keyOf wb = keyOf wb') : classOf wb = classOf wb' :=
  congrArg Box.getClass (box_eq_of_key h)

omit [DecidableEq τ] in
theorem value_eq_of_key {wb wb' : WalletBox β} (h : keyOf wb = keyOf wb') : valueOf wb = valueOf wb' :=
  congrArg Box.value (box_eq_of_key h)

/-! The maps of boxes. -/

/-- a box put into both maps -/
def put (c : Cache β τ) (wb : WalletBox β) : Cache β τ := addWalletBoxByType wb (putWalletBox wb c)

/-- a box removed from both maps -/
def remove (c : Cache β τ) (key : Bytes) : Cache β τ :=
  removeWalletBoxByType key { c with walletBoxes := c.walletBoxes.erase key }

theorem walletBoxes_addBox (c : Cache β τ) (wb : WalletBox β) :
    (addBox c wb).walletBoxes = c.walletBoxes.insert (keyOf wb) wb := by
  unfold addBox
  cases c.walletBoxes.lookup (keyOf wb) <;> rfl

omit [BoxesCompanion β] in
theorem walletBoxes_removeBox (c : Cache β τ) (key : Bytes) :
    (removeBox c key).walletBoxes = c.walletBoxes.erase key := by
  unfold removeBox
  cases c.walletBoxes.lookup key <;> rfl

theorem byType_addBox (c : Cache β τ) (wb : WalletBox β) :
    (addBox c wb).walletBoxesByType = (put c wb).walletBoxesByType := by
  unfold addBox
  cases c.walletBoxes.lookup (keyOf wb) <;> rfl

omit [BoxesCompanion β] in
theorem byType_removeBox (c : Cache β τ) (key : Bytes) :
    (removeBox c key).walletBoxesByType = (remove c key).walletBoxesByType := by
  unfold removeBox
  cases c.walletBoxes.lookup key <;> rfl

theorem Derived.congr {c c' : Cache β τ} (h : Derived c) (hboxes : c'.walletBoxes = c.walletBoxes)
    (htypes : c'.walletBoxesByType = c.walletBoxesByType) : Derived c' := by
  refine ⟨?_, ?_⟩
  · rw [hboxes]
    exact h.keyed
  · rw [hboxes, htypes]
    exact h.byType

theorem Derived.put {c : Cache β τ} (h : Derived c) (wb : WalletBox β) : Derived (put c wb) := by
  refine ⟨?_, ?_⟩
  · intro k wb' hk
    change (c.walletBoxes.insert (keyOf wb) wb).lookup k = some wb' at hk
    by_cases heq : k = keyOf wb
    · rw [heq, AList.lookup_insert] at hk
      rw [heq, Option.some.inj hk]
    · rw [AList.lookup_insert_ne heq] at hk
      exact h.keyed k wb' hk
  · intro t k
    change ((c.walletBoxesByType.insert (classOf wb)
      (((c.walletBoxesByType.lookup (classOf wb)).getD ∅).insert (keyOf wb) wb)).lookup t).bind (·.lookup k) =
        ((c.walletBoxes.insert (keyOf wb) wb).lookup k).filter fun wb => classOf wb = t
    have hold := h.byType t k
    by_cases ht : t = classOf wb
    · subst ht
      rw [AList.lookup_insert, Option.bind_some]
      by_cases heq : k = keyOf wb
      · subst heq
        rw [AList.lookup_insert, AList.lookup_insert]
        symm
        exact Option.filter_some_pos (by simp)
      · rw [AList.lookup_insert_ne heq, AList.lookup_insert_ne heq, ← hold]
        cases c.walletBoxesByType.lookup (classOf wb) <;> simp
    · rw [AList.lookup_insert_ne ht, hold]
      by_cases heq : k = keyOf wb
      · subst heq
        rw [AList.lookup_insert, Option.filter_some_neg (by simpa using Ne.symm ht)]
        -- a box already there under this key has the same type
        cases hlookup : c.walletBoxes.lookup (keyOf wb) with
        | none => rfl
        | some wb' =>
          have hclass : classOf wb' ≠ t := class_eq_of_key (h.keyed _ _ hlookup) ▸ Ne.symm ht
          exact Option.filter_some_neg (by simpa using hclass)
      · rw [AList.lookup_insert_ne heq]

theorem Derived.remove {c : Cache β τ} (h : Derived c) (key : Bytes) : Derived (remove c key) := by
  refine ⟨?_, ?_⟩
  · intro k wb hk
    change (c.walletBoxes.erase key).lookup k = some wb at hk
    by_cases heq : k = key
    · rw [heq, AList.lookup_erase] at hk
      cases hk
    · rw [AList.lookup_erase_ne heq] at hk
      exact h.keyed k wb hk
  · intro t k
    change ((AssocMap.mapValues (fun boxes => boxes.erase key) c.walletBoxesByType).lookup t).bind (·.lookup k) =
      ((c.walletBoxes.erase key).lookup k).filter fun wb => classOf wb = t
    have hold := h.byType t k
    rw [AssocMap.lookup_mapValues]
    by_cases heq : k = key
    · subst heq
      rw [AList.lookup_erase]
      cases c.walletBoxesByType.lookup t <;> simp
    · rw [AList.lookup_erase_ne heq, ← hold]
      cases c.walletBoxesByType.lookup t with
      | none => rfl
      | some boxes => exact AList.lookup_erase_ne heq

/-! The balances. -/

omit [Box β τ] [BoxesCompanion β] in
theorem balance_updateBoxesBalance (t boxType : τ) (delta : Long) (c : Cache β τ) :
    getBoxesBalance (updateBoxesBalance boxType delta c) t =
      getBoxesBalance c t + if boxType = t then delta else 0 := by
  unfold getBoxesBalance updateBoxesBalance
  by_cases ht : t = boxType
  · subst ht
    simp [getBoxesBalance]
  · simp [AList.lookup_insert_ne ht, Ne.symm ht]

omit [BoxesCompanion β] in
/-- a balance as a sum over all boxes -/
theorem balanceOf_eq (t : τ) (boxes : BoxMap β) :
    balanceOf t boxes = AssocMap.sum (fun _ wb => if classOf wb = t then valueOf wb else 0) boxes := by
  unfold balanceOf AssocMap.sum
  induction boxes.entries with
  | nil => rfl
  | cons e entries ih =>
    by_cases hclass : classOf e.2 = t
    · simp only [List.map_cons, List.sum_cons, hclass, decide_true, List.filter_cons_of_pos, if_true, ih]
    · simp only [List.map_cons, List.sum_cons, hclass, decide_false, Bool.false_eq_true, not_false_eq_true,
        List.filter_cons_of_neg, if_false, ih, zero_add]

theorem balance_addBox (t : τ) (c : Cache β τ) (wb : WalletBox β) :
    getBoxesBalance (addBox c wb) t = getBoxesBalance c t +
      if c.walletBoxes.lookup (keyOf wb) = none ∧ classOf wb = t then valueOf wb else 0 := by
  unfold addBox
  cases c.walletBoxes.lookup (keyOf wb) with
  | some wb' =>
    have hsame : getBoxesBalance (put c wb) t = getBoxesBalance c t := rfl
    simpa [put] using hsame
  | none =>
    rw [balance_updateBoxesBalance]
    have hsame : getBoxesBalance (put c wb) t = getBoxesBalance c t := rfl
    simpa [put] using hsame

theorem Balanced.addBox {c : Cache β τ} (h : Balanced c) (hderived : Derived c) (wb : WalletBox β) :
    Balanced (addBox c wb) := by
  intro t
  rw [balance_addBox, walletBoxes_addBox, balanceOf_eq, AssocMap.sum_insert, h t, balanceOf_eq]
  cases hlookup : c.walletBoxes.lookup (keyOf wb) with
  | some wb' =>
    -- replaced by a box of the same type and value
    have hkey := hderived.keyed _ _ hlookup
    rw [AssocMap.sum_erase_of_lookup _ hlookup, class_eq_of_key hkey, value_eq_of_key hkey]
    simp
  | none =>
    rw [AssocMap.sum_erase_of_none _ hlookup]
    simp [add_comm]

omit [BoxesCompanion β] in
theorem Balanced.removeBox {c : Cache β τ} (h : Balanced c) (key : Bytes) : Balanced (removeBox c key) := by
  intro t
  rw [walletBoxes_removeBox, balanceOf_eq]
  have ht := h t
  rw [balanceOf_eq] at ht
  unfold WalletBoxStorage.removeBox
  cases hlookup : c.walletBoxes.lookup key with
  | some wb =>
    have hsame : getBoxesBalance (remove c key) t = getBoxesBalance c t := rfl
    simp only [balance_updateBoxesBalance]
    rw [show getBoxesBalance (removeWalletBoxByType key { c with walletBoxes := c.walletBoxes.erase key }) t =
      getBoxesBalance c t from rfl, ht, AssocMap.sum_erase_of_lookup _ hlookup]
    split_ifs <;> simp
  | none =>
    rw [AssocMap.sum_erase_of_none _ hlookup, ← ht]
    rfl

/-! Whole updates. -/

theorem Derived.addBox {c : Cache β τ} (h : Derived c) (wb : WalletBox β) : Derived (addBox c wb) :=
  (h.put wb).congr (walletBoxes_addBox c wb) (byType_addBox c wb)

theorem Derived.removeBox {c : Cache β τ} (h : Derived c) (key : Bytes) : Derived (removeBox c key) :=
  (h.remove key).congr (walletBoxes_removeBox c key) (byType_removeBox c key)

theorem foldl_removeBox {c : Cache β τ} (h : Derived c) (hbalanced : Balanced c) (keys : List Bytes) :
    Derived (keys.foldl removeBox c) ∧ Balanced (keys.foldl removeBox c) ∧
      ∀ k, (keys.foldl removeBox c).walletBoxes.lookup k = if k ∈ keys then none else c.walletBoxes.lookup k := by
  induction keys generalizing c with
  | nil => exact ⟨h, hbalanced, fun k => by simp⟩
  | cons key keys ih =>
    obtain ⟨hd, hb, hlookup⟩ := ih (h.removeBox key) (hbalanced.removeBox key)
    refine ⟨hd, hb, ?_⟩
    intro k
    rw [List.foldl_cons, hlookup, walletBoxes_removeBox]
    by_cases hk : k = key
    · subst hk
      simp [AList.lookup_erase]
    · simp [AList.lookup_erase_ne hk, hk]

theorem foldl_addBox {c : Cache β τ} (h : Derived c) (hbalanced : Balanced c) (wbs : List (WalletBox β)) :
    Derived (wbs.foldl addBox c) ∧ Balanced (wbs.foldl addBox c) := by
  induction wbs generalizing c with
  | nil => exact ⟨h, hbalanced⟩
  | cons wb wbs ih => exact ih (h.addBox wb) (hbalanced.addBox h wb)

omit [DecidableEq τ] in
/-- a run of puts: a box put last stays, other keys are not touched -/
theorem lookup_foldl_put {f : Cache β τ → WalletBox β → Cache β τ}
    (hf : ∀ c wb, (f c wb).walletBoxes = c.walletBoxes.insert (keyOf wb) wb) (wbs : List (WalletBox β)) (c : Cache β τ)
    (k : Bytes) :
    ((∀ wb ∈ wbs, keyOf wb ≠ k) → (wbs.foldl f c).walletBoxes.lookup k = c.walletBoxes.lookup k) ∧
      ∀ wb ∈ wbs, (∀ wb' ∈ wbs, keyOf wb' = k → wb' = wb) → keyOf wb = k →
        (wbs.foldl f c).walletBoxes.lookup k = some wb := by
  induction wbs generalizing c with
  | nil => simp
  | cons first wbs ih =>
    obtain ⟨hother, hput⟩ := ih (f c first)
    refine ⟨?_, ?_⟩
    · intro hne
      have hfirst : k ≠ keyOf first := Ne.symm (hne first List.mem_cons_self)
      rw [List.foldl_cons, hother fun wb hwb => hne wb (List.mem_cons_of_mem _ hwb), hf, AList.lookup_insert_ne hfirst]
    · intro wb hwb hunique hkey
      by_cases hlater : ∃ wb' ∈ wbs, keyOf wb' = k
      · obtain ⟨wb', hwb', hkey'⟩ := hlater
        have heq := hunique wb' (List.mem_cons_of_mem _ hwb') hkey'
        exact hput wb (heq ▸ hwb') (fun w hw => hunique w (List.mem_cons_of_mem _ hw)) hkey
      · have hnone : ∀ wb' ∈ wbs, keyOf wb' ≠ k := fun wb' hwb' hk => hlater ⟨wb', hwb', hk⟩
        rcases List.mem_cons.1 hwb with rfl | hwb
        · rw [List.foldl_cons, hother hnone, hf, ← hkey, AList.lookup_insert]
        · exact absurd hkey (hnone wb hwb)

omit [DecidableEq τ] in
theorem unique_of_nodup {wbs : List (WalletBox β)} (hnodup : (wbs.map keyOf).Nodup) {k : Bytes} {wb : WalletBox β}
    (hwb : wb ∈ wbs) (hkey : keyOf wb = k) : ∀ wb' ∈ wbs, keyOf wb' = k → wb' = wb := by
  intro wb' hwb' hkey'
  exact List.inj_on_of_nodup_map hnodup hwb' hwb (hkey'.trans hkey.symm)

/-! The cache and the storage. -/

/-- every value parses to a box that belongs under its key -/
def Stored (m : DB) : Prop := ∀ k bs, m[k]? = some bs → ∃ wb : WalletBox β, parseBytesTry bs = some wb ∧ keyOf wb = k

/-- the boxes in memory are the persisted ones -/
def Holds (m : DB) (c : Cache β τ) : Prop := ∀ k, c.walletBoxes.lookup k = m[k]?.bind parseBytesTry

/-- the contents after an update of the wallet -/
def updatedContents (m : DB) (wbs : List (WalletBox β)) (ids : List Bytes) : DB :=
  applyChanges m (wbs.map fun wb => (keyOf wb, toBytes wb)) (ids.map (calculateKey β))

section Contents

variable {m : DB} {wbs : List (WalletBox β)} {ids : List Bytes} {k : Bytes}

/-- no id is both added and removed -/
def Apart (wbs : List (WalletBox β)) (ids : List Bytes) : Prop := ∀ wb ∈ wbs, Box.id wb.box ∉ ids

omit [DecidableEq τ] in
theorem Apart.key_ne (h : Apart wbs ids) {wb : WalletBox β} (hwb : wb ∈ wbs) : keyOf wb ∉ ids.map (calculateKey β) := by
  intro hmem
  obtain ⟨i, hi, heq⟩ := List.mem_map.1 hmem
  exact h wb hwb (calculateKey_injective heq ▸ hi)

omit [DecidableEq τ] in
theorem updatedContents_removed (hapart : Apart wbs ids) (hk : k ∈ ids.map (calculateKey β)) :
    (updatedContents m wbs ids)[k]? = none := by
  have hdelete : ∀ op ∈ ChangeSet.updateBatch (wbs.map fun wb => (keyOf wb, toBytes wb)) (ids.map (calculateKey β)),
      op.key = k → op.value = none := by
    intro op hop hkey
    rcases List.mem_append.1 hop with hop | hop
    · obtain ⟨x, hx, rfl⟩ := List.mem_map.1 hop
      obtain ⟨wb, hwb, rfl⟩ := List.mem_map.1 hx
      have hkey : keyOf wb = k := hkey
      exact absurd (hkey ▸ hk) (hapart.key_ne hwb)
    · obtain ⟨k', -, rfl⟩ := List.mem_map.1 hop
      rfl
  have hex : ∃ op ∈ ChangeSet.updateBatch (wbs.map fun wb => (keyOf wb, toBytes wb)) (ids.map (calculateKey β)),
      op.key = k := ⟨delete k, List.mem_append_right _ (List.mem_map_of_mem hk), rfl⟩
  rw [updatedContents, getElem?_applyChanges, writeAt_of_forall hdelete, if_pos hex]

omit [DecidableEq τ] in
theorem updatedContents_added (hapart : Apart wbs ids) (hnodup : (wbs.map keyOf).Nodup) {wb : WalletBox β} (hwb : wb ∈ wbs) :
    (updatedContents m wbs ids)[keyOf wb]? = some (toBytes wb) := by
  have hput : ∀ op ∈ ChangeSet.updateBatch (wbs.map fun wb => (keyOf wb, toBytes wb)) (ids.map (calculateKey β)),
      op.key = keyOf wb → op.value = some (toBytes wb) := by
    intro op hop hkey
    rcases List.mem_append.1 hop with hop | hop
    · obtain ⟨x, hx, rfl⟩ := List.mem_map.1 hop
      obtain ⟨wb', hwb', rfl⟩ := List.mem_map.1 hx
      rw [unique_of_nodup hnodup hwb rfl wb' hwb' hkey]
      rfl
    · obtain ⟨k', hk', rfl⟩ := List.mem_map.1 hop
      exact absurd (hkey ▸ hk') (hapart.key_ne hwb)
  have hex : ∃ op ∈ ChangeSet.updateBatch (wbs.map fun wb => (keyOf wb, toBytes wb)) (ids.map (calculateKey β)),
      op.key = keyOf wb :=
    ⟨.put (keyOf wb) (toBytes wb), List.mem_append_left _ (List.mem_map.2 ⟨_, List.mem_map_of_mem hwb, rfl⟩), rfl⟩
  rw [updatedContents, getElem?_applyChanges, writeAt_of_forall hput, if_pos hex]

omit [DecidableEq τ] in
theorem updatedContents_other (hadded : ∀ wb ∈ wbs, keyOf wb ≠ k) (hremoved : k ∉ ids.map (calculateKey β)) :
    (updatedContents m wbs ids)[k]? = m[k]? := by
  rw [updatedContents, getElem?_applyChanges]
  refine writeAt_of_not_mem ?_ _
  intro op hop hkey
  rcases List.mem_append.1 hop with hop | hop
  · obtain ⟨x, hx, rfl⟩ := List.mem_map.1 hop
    obtain ⟨wb, hwb, rfl⟩ := List.mem_map.1 hx
    exact hadded wb hwb hkey
  · obtain ⟨k', hk', rfl⟩ := List.mem_map.1 hop
    exact hremoved (hkey ▸ hk')

omit [DecidableEq τ] in
theorem Stored.update (h : Stored (β := β) m) (hapart : Apart wbs ids) (hnodup : (wbs.map keyOf).Nodup) :
    Stored (β := β) (updatedContents m wbs ids) := by
  intro k bs hk
  by_cases hremoved : k ∈ ids.map (calculateKey β)
  · rw [updatedContents_removed hapart hremoved] at hk
    cases hk
  by_cases hadded : ∃ wb ∈ wbs, keyOf wb = k
  · obtain ⟨wb, hwb, rfl⟩ := hadded
    rw [updatedContents_added hapart hnodup hwb] at hk
    rw [← Option.some.inj hk]
    exact ⟨wb, parse_toBytes wb, rfl⟩
  · have hother : ∀ wb ∈ wbs, keyOf wb ≠ k := fun wb hwb heq => hadded ⟨wb, hwb, heq⟩
    rw [updatedContents_other hother hremoved] at hk
    exact h k bs hk

theorem holds_update {c : Cache β τ} (h : Holds m c) (hderived : Derived c) (hbalanced : Balanced c) (hapart : Apart wbs ids)
    (hnodup : (wbs.map keyOf).Nodup) :
    Holds (updatedContents m wbs ids) (wbs.foldl addBox ((ids.map (calculateKey β)).foldl removeBox c)) := by
  obtain ⟨-, -, hremove⟩ := foldl_removeBox hderived hbalanced (ids.map (calculateKey β))
  intro k
  obtain ⟨hother, hput⟩ := lookup_foldl_put walletBoxes_addBox wbs ((ids.map (calculateKey β)).foldl removeBox c) k
  by_cases hadded : ∃ wb ∈ wbs, keyOf wb = k
  · obtain ⟨wb, hwb, rfl⟩ := hadded
    rw [hput wb hwb (unique_of_nodup hnodup hwb rfl) rfl, updatedContents_added hapart hnodup hwb, Option.bind_some,
      parse_toBytes]
  · have hne : ∀ wb ∈ wbs, keyOf wb ≠ k := fun wb hwb heq => hadded ⟨wb, hwb, heq⟩
    rw [hother hne, hremove]
    split_ifs with hremoved
    · rw [updatedContents_removed hapart hremoved]
      rfl
    · rw [updatedContents_other hne hremoved]
      exact h k

end Contents

/-! Loading. -/

/-- the boxes that parse -/
def loadedBoxes (contents : DB) : List (WalletBox β) := contents.toList.filterMap fun kv => parseBytesTry kv.2

/-- the two maps of boxes, loaded; the balances are the old ones -/
def loadedMaps (contents : DB) (c : Cache β τ) : Cache β τ :=
  (loadedBoxes contents).foldl put { c with walletBoxes := ∅, walletBoxesByType := ∅ }

theorem loadWalletBoxes_eq (contents : DB) (c : Cache β τ) :
    loadWalletBoxes contents c = calculateBoxesBalances (loadedMaps contents c) := rfl

theorem derived_foldl_put {c : Cache β τ} (h : Derived c) (wbs : List (WalletBox β)) : Derived (wbs.foldl put c) := by
  induction wbs generalizing c with
  | nil => exact h
  | cons wb wbs ih => exact ih (h.put wb)

theorem derived_loadedMaps (contents : DB) (c : Cache β τ) : Derived (loadedMaps contents c) := by
  refine derived_foldl_put ?_ _
  refine ⟨?_, ?_⟩
  · intro k wb hk
    simp at hk
  · intro t k
    simp

theorem derived_load (contents : DB) (c : Cache β τ) : Derived (loadWalletBoxes contents c) :=
  (derived_loadedMaps contents c).congr rfl rfl

theorem holds_load {contents : DB} (h : Stored (β := β) contents) (c : Cache β τ) :
    Holds contents (loadWalletBoxes contents c) := by
  intro k
  have hinsert : ∀ (c : Cache β τ) (wb : WalletBox β), (put c wb).walletBoxes = c.walletBoxes.insert (keyOf wb) wb :=
    fun c wb => rfl
  obtain ⟨hother, hput⟩ := lookup_foldl_put hinsert (loadedBoxes contents)
    { c with walletBoxes := ∅, walletBoxesByType := ∅ } k
  -- a loaded box under `k` comes from the value stored there
  have hfrom : ∀ wb ∈ loadedBoxes (β := β) contents, keyOf wb = k →
      ∃ bs, contents[k]? = some bs ∧ parseBytesTry bs = some wb := by
    intro wb hwb hkey
    obtain ⟨kv, hkv, hparse⟩ := List.mem_filterMap.1 hwb
    have hget : contents[kv.1]? = some kv.2 := Std.ExtTreeMap.mem_toList_iff_getElem?_eq_some.1 hkv
    obtain ⟨wb', hparse', hkey'⟩ := h _ _ hget
    rw [hparse] at hparse'
    rw [← Option.some.inj hparse', hkey] at hkey'
    exact ⟨kv.2, hkey' ▸ hget, hparse⟩
  change (loadedMaps contents c).walletBoxes.lookup k = _
  cases hk : contents[k]? with
  | none =>
    have hnone : ∀ wb ∈ loadedBoxes (β := β) contents, keyOf wb ≠ k := by
      intro wb hwb hkey
      obtain ⟨bs, hbs, -⟩ := hfrom wb hwb hkey
      rw [hk] at hbs
      cases hbs
    rw [loadedMaps, hother hnone]
    rfl
  | some bs =>
    obtain ⟨wb, hparse, hkey⟩ := h k bs hk
    have hmem : wb ∈ loadedBoxes contents :=
      List.mem_filterMap.2 ⟨(k, bs), Std.ExtTreeMap.mem_toList_iff_getElem?_eq_some.2 hk, hparse⟩
    have hunique : ∀ wb' ∈ loadedBoxes (β := β) contents, keyOf wb' = k → wb' = wb := by
      intro wb' hwb' hkey'
      obtain ⟨bs', hbs', hparse'⟩ := hfrom wb' hwb' hkey'
      rw [hk] at hbs'
      rw [← Option.some.inj hbs', hparse] at hparse'
      exact (Option.some.inj hparse').symm
    rw [loadedMaps, hput wb hmem hunique hkey, Option.bind_some, hparse]

theorem balances_foldl_put (wbs : List (WalletBox β)) (c : Cache β τ) :
    (wbs.foldl put c).walletBoxesBalances = c.walletBoxesBalances := by
  induction wbs generalizing c with
  | nil => rfl
  | cons wb wbs ih => exact ih _

/-- the balance of a type with a map is computed anew, that of any other type stays -/
theorem balance_load (contents : DB) (c : Cache β τ) (t : τ) :
    getBoxesBalance (loadWalletBoxes contents c) t =
      (((loadedMaps contents c).walletBoxesByType.lookup t).map sumValues).getD (getBoxesBalance c t) := by
  have hold : (loadedMaps contents c).walletBoxesBalances = c.walletBoxesBalances := balances_foldl_put _ _
  rw [loadWalletBoxes_eq, getBoxesBalance, calculateBoxesBalances]
  simp only [AssocMap.lookup_foldl_insert, hold]
  cases (loadedMaps contents c).walletBoxesByType.lookup t <;> rfl

theorem balanced_load {contents : DB} {c : Cache β τ}
    (h : ∀ t, (∀ k wb, (loadWalletBoxes contents c).walletBoxes.lookup k = some wb → classOf wb ≠ t) →
      getBoxesBalance c t = 0) : Balanced (loadWalletBoxes contents c) := by
  intro t
  have hderived := derived_loadedMaps contents c
  rw [balance_load]
  cases htype : (loadedMaps contents c).walletBoxesByType.lookup t with
  | some boxes =>
    refine AssocMap.sum_filter valueOf ?_
    intro k
    have hk := hderived.byType t k
    rwa [htype, Option.bind_some] at hk
  | none =>
    -- there is no box of this type
    have hnone : ∀ k wb, (loadWalletBoxes contents c).walletBoxes.lookup k = some wb → classOf wb ≠ t := by
      intro k wb hk hclass
      have hk' := hderived.byType t k
      rw [htype] at hk'
      change (loadedMaps contents c).walletBoxes.lookup k = some wb at hk
      rw [hk, Option.filter_some_pos (by simpa using hclass)] at hk'
      cases hk'
    have hzero : balanceOf t (loadWalletBoxes contents c).walletBoxes = 0 := by
      rw [balanceOf_eq]
      refine AssocMap.sum_eq_zero _ ?_
      intro k wb hk
      exact if_neg (hnone k wb hk)
    rw [hzero]
    exact h t hnone

/-! Runs. -/

/-- a call of the wallet's box storage -/
inductive Call (β : Type) where
  | update (version : Bytes) (walletBoxUpdateList : List (WalletBox β)) (boxIdsRemoveList : List Bytes)
  | rollback (version : Bytes)

def Call.exec (b : Backend) : Call β → Fallible StorageException (WalletBoxStorage β τ) Unit
  | .update version wbs ids => WalletBoxStorage.update b version wbs ids
  | .rollback version => WalletBoxStorage.rollback version

/-- the types whose boxes are worth something still have a box in the version rolled back to -/
def KeepsTypes (s : WalletBoxStorage β τ) (version : Bytes) : Prop :=
  ∀ t, (∀ (k bs : Bytes) (wb : WalletBox β), (Snapshots.rollback version s.storage).current[k]? = some bs →
    parseBytesTry bs = some wb → classOf wb ≠ t) → balanceOf t s.cache.walletBoxes = 0

/-- no id both added and removed; rollbacks keep the types -/
def Call.Admissible (s : WalletBoxStorage β τ) : Call β → Prop
  | .update _ wbs ids => Apart wbs ids
  | .rollback version => KeepsTypes s version

inductive Reachable (b : Backend) : WalletBoxStorage β τ → Prop where
  | empty : Reachable b WalletBoxStorage.empty
  | step {s s' : WalletBoxStorage β τ} {r : Except StorageException Unit} (call : Call β) : Reachable b s →
      call.Admissible s → Fallible.exec (call.exec b) s = (r, s') → Reachable b s'

/-- all parts of the cache agree with the storage -/
structure Agrees (s : WalletBoxStorage β τ) : Prop where
  stored : s.storage.Forall (Stored (β := β))
  holds : Holds s.storage.current s.cache
  derived : Derived s.cache
  balanced : Balanced s.cache

theorem agrees_empty : Agrees (WalletBoxStorage.empty : WalletBoxStorage β τ) := by
  have hstored : Stored (β := β) (∅ : DB) := by
    intro k bs hk
    simp at hk
  refine ⟨⟨hstored, by simp [WalletBoxStorage.empty]⟩, holds_load hstored _, derived_load _ _, balanced_load ?_⟩
  intro t _
  rfl

theorem Agrees.update {b : Backend} {s s' : WalletBoxStorage β τ} {version : Bytes} {wbs : List (WalletBox β)}
    {ids : List Bytes} {u : Unit} (h : Agrees s) (hapart : Apart wbs ids)
    (hexec : exec (update b version wbs ids) s = (.ok u, s')) : Agrees s' := by
  simp only [WalletBoxStorage.update, exec_bind_ok, onStorage, exec_onPart_ok] at hexec
  obtain ⟨u₁, s₁, ⟨storage, hstorage, rfl⟩, u₂, s₂, hremove, hadd⟩ := hexec
  obtain ⟨hnodup, -, -, rfl⟩ := Versioned.exec_update_ok hstorage
  rw [exec_modify] at hremove hadd
  rw [← (Prod.mk.inj hadd).2, ← (Prod.mk.inj hremove).2]
  have hkeys : (wbs.map keyOf).Nodup := by rwa [List.map_map] at hnodup
  obtain ⟨hd, hb, -⟩ := foldl_removeBox h.derived h.balanced (ids.map (calculateKey β))
  obtain ⟨hd', hb'⟩ := foldl_addBox hd hb wbs
  have hcontents : Stored (β := β) (updatedContents s.storage.current wbs ids) :=
    h.stored.current.update hapart hkeys
  refine ⟨h.stored.push b.keep version hcontents, ?_, hd', hb'⟩
  change Holds (s.storage.push b.keep version (updatedContents s.storage.current wbs ids)).current _
  rw [Snapshots.current_push b.keep_pos]
  exact holds_update h.holds h.derived h.balanced hapart hkeys

theorem Agrees.rollback {s s' : WalletBoxStorage β τ} {version : Bytes} {u : Unit} (h : Agrees s)
    (hkeeps : KeepsTypes s version) (hexec : exec (rollback version) s = (.ok u, s')) : Agrees s' := by
  simp only [WalletBoxStorage.rollback, exec_bind_ok, onStorage, exec_onPart_ok] at hexec
  obtain ⟨u₁, s₁, ⟨storage, hstorage, rfl⟩, hload⟩ := hexec
  obtain ⟨-, rfl⟩ := Versioned.exec_rollback_ok hstorage
  rw [exec_modify] at hload
  rw [← (Prod.mk.inj hload).2]
  have hstored := h.stored.rollback version
  refine ⟨hstored, holds_load hstored.current _, derived_load _ _, balanced_load ?_⟩
  intro t hnone
  rw [h.balanced t]
  refine hkeeps t ?_
  intro k bs wb hk hparse
  refine hnone k wb ?_
  rw [holds_load hstored.current s.cache k, hk]
  exact hparse

/-- a call that fails has changed nothing -/
theorem exec_error_unchanged {b : Backend} {s s' : WalletBoxStorage β τ} {call : Call β} {e : StorageException}
    (h : Fallible.exec (call.exec b) s = (.error e, s')) : s' = s := by
  have hwp : wp (call.exec b) (fun _ _ => True) (fun _ s' => s' = s) s := by
    cases call with
    | update version wbs ids => simp [Call.exec, WalletBoxStorage.update, onStorage, Versioned.update]
    | rollback version => simp [Call.exec, WalletBoxStorage.rollback, onStorage, Versioned.rollback]
  have hunchanged := wp_error hwp h
  exact hunchanged

theorem agrees_of_reachable {b : Backend} {s : WalletBoxStorage β τ} (h : Reachable b s) : Agrees s := by
  induction h with
  | empty => exact agrees_empty
  | @step s s' r call _ hadm hexec ih =>
    cases r with
    | error e =>
      rw [exec_error_unchanged hexec]
      exact ih
    | ok u =>
      cases call with
      | update version wbs ids => exact ih.update hadm hexec
      | rollback version => exact ih.rollback hadm hexec

/-- **The cache agrees with the storage.** In every run in which rollbacks keep the types: the boxes in memory are the
persisted ones, the maps by type are its parts, and the balances are the sums. -/
theorem cache_agrees {b : Backend} {s : WalletBoxStorage β τ} (h : Reachable b s) :
    (∀ k, s.cache.walletBoxes.lookup k = s.storage.current[k]?.bind parseBytesTry ∧
      (s.cache.walletBoxes.lookup k).isSome = s.storage.current[k]?.isSome) ∧
    (∀ t k, (s.cache.walletBoxesByType.lookup t).bind (·.lookup k) =
      (s.cache.walletBoxes.lookup k).filter fun wb => classOf wb = t) ∧
    ∀ t, getBoxesBalance s.cache t = balanceOf t s.cache.walletBoxes := by
  have hagrees := agrees_of_reachable h
  refine ⟨?_, hagrees.derived.byType, hagrees.balanced⟩
  intro k
  refine ⟨hagrees.holds k, ?_⟩
  rw [hagrees.holds k]
  cases hk : s.storage.current[k]? with
  | none => rfl
  | some bs =>
    obtain ⟨wb, hparse, -⟩ := hagrees.stored.current k bs hk
    rw [Option.bind_some, hparse]
    rfl

/-! Fixed runs. The boxes are single bytes, which are their ids; the types are even and odd. -/

/-- a box of the example -/
structure ByteBox where
  byte : UInt8

instance : Box ByteBox Bool where
  id := fun b => [b.byte]
  getClass := fun b => b.byte % 2 = 0
  value := fun b => BitVec.ofNat 64 b.byte.toNat
  eq_of_id := by
    intro b b' h
    cases b
    cases b'
    simpa using h

instance : BoxesCompanion ByteBox where
  serialize := fun b => [b.byte]
  parse := do
    let n ← Reader.byte
    pure ⟨UInt8.ofNat n⟩
  putLong := fun x => putULong 9 (zigZag x)
  getLong := getULong 9 >>= fun n => pure (unZigZag n)
  calculateKey := fun id => 0 :: id
  reads_serialize := by
    intro b
    have h := (Reader.reads_byte b.byte.toNat b.byte.toNat_lt).map fun n => ByteBox.mk (UInt8.ofNat n)
    simpa using h
  reads_putLong := fun x hlow hhigh => reads_zigZag hlow hhigh
  calculateKey_injective := by
    intro a b h
    exact (List.cons.inj h).2

def keepTen : Backend := ⟨10, by decide, fun _ _ _ _ => false⟩

def walletBox (b : UInt8) : WalletBox ByteBox := ⟨⟨b⟩, List.replicate 32 0, 0, by decide, by decide⟩

/-- two even boxes in two versions, and a rollback to the first -/
theorem cache_agrees_two_boxes :
    ∃ s : WalletBoxStorage ByteBox Bool, Reachable keepTen s ∧
      getBoxesBalance s.cache true = balanceOf true s.cache.walletBoxes ∧ getBoxesBalance s.cache true = 2 := by
  have hfirst : Reachable keepTen _ :=
    .step (.update [1] [walletBox 2] []) (.empty : Reachable keepTen (empty : WalletBoxStorage ByteBox Bool))
      (by simp [Call.Admissible, Apart]) rfl
  have hsecond := Reachable.step (.update [2] [walletBox 4] []) hfirst (by simp [Call.Admissible, Apart]) rfl
  have hthird := Reachable.step (.rollback [1]) hsecond (by
    intro t hnone
    cases t with
    | true => exact absurd rfl (hnone (keyOf (walletBox 2)) (toBytes (walletBox 2)) (walletBox 2) (by decide) (by rfl))
    | false => decide) rfl
  exact ⟨_, hthird, (cache_agrees hthird).2.2 true, by decide⟩

/-- an odd box is added in a second version and that version rolled back: its value stays in the balance -/
theorem stale_balance :
    ∃ s₁ s₂ s₃ : WalletBoxStorage ByteBox Bool,
      exec (update keepTen [1] [walletBox 2] []) empty = (.ok (), s₁) ∧
      exec (update keepTen [2] [walletBox 5] []) s₁ = (.ok (), s₂) ∧
      exec (rollback [1]) s₂ = (.ok (), s₃) ∧
      getBoxesBalance s₃.cache false = 5 ∧ balanceOf false s₃.cache.walletBoxes = 0 :=
  ⟨_, _, _, rfl, rfl, rfl, by decide, by decide⟩

end SidechainsSdk.Utxo.WalletBoxStorage
