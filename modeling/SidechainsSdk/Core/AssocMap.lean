/-
Finite maps (`AList`): changing all values, and sums over the entries.

- `put`: the insertion of a linked hash map, where an entry that is there keeps its place.
- `lookup_mapValues`, `lookup_foldl_insert`: reading after a change of every value, and after a run of insertions.
- `sum_erase`: removing a key takes its contribution away.
- `sum_insert`: putting an entry replaces the contribution of its key.
- `sum_congr`: two maps with the same entries have the same sums.
- `lookup_insertAll`, `sum_insertAll`, `sum_eraseAll`: runs of insertions under new keys and of removals.
-/
import Mathlib.Tactic
import Mathlib.Data.List.AList

namespace SidechainsSdk.AssocMap

variable {κ α M : Type} [DecidableEq κ]

/-- `f` applied to every value -/
def mapValues {γ : Type} (f : α → γ) (s : AList fun _ : κ => α) : AList fun _ : κ => γ where
  entries := s.entries.map fun e => ⟨e.1, f e.2⟩
  nodupKeys := by
    have hkeys : (s.entries.map fun e => (⟨e.1, f e.2⟩ : (_ : κ) × γ)).keys = s.entries.keys := by
      rw [List.keys, List.keys, List.map_map]
      rfl
    rw [List.NodupKeys, hkeys]
    exact s.nodupKeys

theorem lookup_mapValues {γ : Type} (f : α → γ) (s : AList fun _ : κ => α) (k : κ) :
    (mapValues f s).lookup k = (s.lookup k).map f := by
  obtain ⟨entries, hnodup⟩ := s
  change List.dlookup k (entries.map fun e => (⟨e.1, f e.2⟩ : (_ : κ) × γ)) = (List.dlookup k entries).map f
  clear hnodup
  induction entries with
  | nil => rfl
  | cons e entries ih =>
    obtain ⟨k', v⟩ := e
    by_cases hk : k = k'
    · subst hk
      simp
    · rw [List.map_cons, List.dlookup_cons_ne _ _ hk, List.dlookup_cons_ne _ _ hk, ih]

/-- a run of insertions, one for each entry of `s` -/
theorem lookup_foldl_insert {γ : Type} (f : α → γ) (s : AList fun _ : κ => α) (t : AList fun _ : κ => γ) (k : κ) :
    (s.entries.foldl (fun t e => t.insert e.1 (f e.2)) t).lookup k = ((s.lookup k).map f).or (t.lookup k) := by
  obtain ⟨entries, hnodup⟩ := s
  change _ = ((List.dlookup k entries).map f).or _
  simp only
  induction entries generalizing t with
  | nil => simp
  | cons e entries ih =>
    obtain ⟨k', v⟩ := e
    rw [List.nodupKeys_cons] at hnodup
    rw [List.foldl_cons, ih _ hnodup.2]
    by_cases hk : k = k'
    · subst hk
      rw [List.dlookup_eq_none.2 hnodup.1]
      simp
    · rw [List.dlookup_cons_ne _ _ hk, AList.lookup_insert_ne hk]

/-- a new entry goes to the front, one that is there keeps its place -/
def put (k : κ) (v : α) (s : AList fun _ : κ => α) : AList fun _ : κ => α :=
  if k ∈ s then s.replace k v else s.insert k v

theorem dlookup_kreplace {k : κ} (v : α) {l : List ((_ : κ) × α)} (h : k ∈ l.keys) (k' : κ) :
    List.dlookup k' (List.kreplace k v l) = if k' = k then some v else List.dlookup k' l := by
  induction l with
  | nil => simp at h
  | cons e l ih =>
    obtain ⟨k₀, v₀⟩ := e
    by_cases hk : k = k₀
    · have hcons : List.kreplace k v (⟨k₀, v₀⟩ :: l) = ⟨k, v⟩ :: l := List.lookmap_cons_some _ l (if_pos hk)
      rw [hcons, ← hk]
      by_cases hk' : k' = k
      · rw [hk', if_pos rfl, List.dlookup_cons_eq]
      · rw [if_neg hk', List.dlookup_cons_ne _ _ hk', List.dlookup_cons_ne _ _ hk']
    · have hmem : k ∈ l.keys := by simpa [hk] using h
      have hcons : List.kreplace k v (⟨k₀, v₀⟩ :: l) = ⟨k₀, v₀⟩ :: List.kreplace k v l :=
        List.lookmap_cons_none _ l (if_neg hk)
      rw [hcons]
      by_cases hk' : k' = k₀
      · have hne : k' ≠ k := fun heq => hk (heq ▸ hk')
        rw [hk', List.dlookup_cons_eq, List.dlookup_cons_eq, if_neg (hk' ▸ hne)]
      · rw [List.dlookup_cons_ne _ _ hk', List.dlookup_cons_ne _ _ hk', ih hmem]

theorem lookup_put (k : κ) (v : α) (s : AList fun _ : κ => α) (k' : κ) :
    (put k v s).lookup k' = if k' = k then some v else s.lookup k' := by
  unfold put
  by_cases hk : k ∈ s
  · rw [if_pos hk]
    exact dlookup_kreplace v (AList.mem_keys.1 hk) k'
  · rw [if_neg hk]
    by_cases hk' : k' = k
    · rw [hk', if_pos rfl, AList.lookup_insert]
    · rw [if_neg hk', AList.lookup_insert_ne hk']

/-- the sum of `f` over the entries -/
def sum [AddCommMonoid M] (f : κ → α → M) (s : AList fun _ : κ => α) : M := (s.entries.map fun e => f e.1 e.2).sum

theorem entries_perm {s t : AList fun _ : κ => α} (h : ∀ k, s.lookup k = t.lookup k) : s.entries.Perm t.entries := by
  refine List.lookup_ext s.nodupKeys t.nodupKeys ?_
  intro k v
  have hk : List.dlookup k s.entries = List.dlookup k t.entries := h k
  rw [hk]

theorem sum_congr [AddCommMonoid M] (f : κ → α → M) {s t : AList fun _ : κ => α} (h : ∀ k, s.lookup k = t.lookup k) :
    sum f s = sum f t := ((entries_perm h).map _).sum_eq

theorem sum_insert [AddCommMonoid M] (f : κ → α → M) (k : κ) (v : α) (s : AList fun _ : κ => α) :
    sum f (s.insert k v) = f k v + sum f (s.erase k) := by
  unfold sum
  rw [AList.entries_insert, List.map_cons, List.sum_cons]
  rfl

theorem sum_erase_of_lookup [AddCommMonoid M] (f : κ → α → M) {k : κ} {v : α} {s : AList fun _ : κ => α}
    (h : s.lookup k = some v) : sum f s = f k v + sum f (s.erase k) := by
  have hsame : ∀ k', s.lookup k' = ((s.erase k).insert k v).lookup k' := by
    intro k'
    by_cases hk : k' = k
    · rw [hk, AList.lookup_insert, h]
    · rw [AList.lookup_insert_ne hk, AList.lookup_erase_ne hk]
  have herase : ∀ k', ((s.erase k).erase k).lookup k' = (s.erase k).lookup k' := by
    intro k'
    by_cases hk : k' = k
    · rw [hk, AList.lookup_erase, AList.lookup_erase]
    · rw [AList.lookup_erase_ne hk]
  rw [sum_congr f hsame, sum_insert, sum_congr f herase]

theorem sum_erase_of_none [AddCommMonoid M] (f : κ → α → M) {k : κ} {s : AList fun _ : κ => α} (h : s.lookup k = none) :
    sum f (s.erase k) = sum f s := by
  refine sum_congr f ?_
  intro k'
  by_cases hk : k' = k
  · rw [hk, AList.lookup_erase, h]
  · rw [AList.lookup_erase_ne hk]

theorem sum_eq_zero [AddCommMonoid M] (f : κ → α → M) {s : AList fun _ : κ => α}
    (h : ∀ k v, s.lookup k = some v → f k v = 0) : sum f s = 0 := by
  refine List.sum_eq_zero ?_
  intro x hx
  obtain ⟨e, he, rfl⟩ := List.mem_map.1 hx
  exact h e.1 e.2 (AList.mem_lookup_iff.2 he)

/-- a map that holds exactly the entries of `s` with `p` -/
theorem sum_filter [AddCommMonoid M] (f : α → M) {p : α → Bool} {s t : AList fun _ : κ => α}
    (h : ∀ k, t.lookup k = (s.lookup k).filter p) :
    sum (fun _ => f) t = (((s.entries.map Sigma.snd).filter p).map f).sum := by
  have hperm : t.entries.Perm (s.entries.filter fun e => p e.2) := by
    refine List.lookup_ext t.nodupKeys (s.nodupKeys.sublist List.filter_sublist) ?_
    intro k v
    rw [List.mem_dlookup_iff (s.nodupKeys.sublist List.filter_sublist), List.mem_filter, ← AList.mem_lookup_iff]
    change t.lookup k = some v ↔ s.lookup k = some v ∧ p v = true
    rw [h k, Option.filter_eq_some_iff]
  unfold sum
  rw [(hperm.map _).sum_eq, List.filter_map, List.map_map]
  rfl

/-! Runs of insertions and removals. -/

/-- every value under its key, one after the other -/
def insertAll (key : α → κ) (l : List α) (s : AList fun _ : κ => α) : AList fun _ : κ => α :=
  l.foldl (fun s a => s.insert (key a) a) s

def eraseAll (keys : List κ) (s : AList fun _ : κ => α) : AList fun _ : κ => α := keys.foldl (fun s k => s.erase k) s

/-- no key occurs twice or is there already -/
structure NewKeys (key : α → κ) (l : List α) (s : AList fun _ : κ => α) : Prop where
  nodup : (l.map key).Nodup
  fresh : ∀ a ∈ l, s.lookup (key a) = none

theorem NewKeys.tail {key : α → κ} {a : α} {l : List α} {s : AList fun _ : κ => α} (h : NewKeys key (a :: l) s) :
    NewKeys key l (s.insert (key a) a) := by
  have hnodup := h.nodup
  rw [List.map_cons, List.nodup_cons] at hnodup
  refine ⟨hnodup.2, ?_⟩
  intro b hb
  have hne : key b ≠ key a := fun heq => hnodup.1 (heq ▸ List.mem_map_of_mem hb)
  rw [AList.lookup_insert_ne hne]
  exact h.fresh b (List.mem_cons_of_mem _ hb)

theorem lookup_insertAll {key : α → κ} {l : List α} {s : AList fun _ : κ => α} (h : NewKeys key l s) (k : κ) (v : α) :
    (insertAll key l s).lookup k = some v ↔ (v ∈ l ∧ key v = k) ∨ s.lookup k = some v := by
  induction l generalizing s with
  | nil => simp [insertAll]
  | cons a l ih =>
    change (insertAll key l (s.insert (key a) a)).lookup k = some v ↔ _
    rw [ih h.tail, List.mem_cons]
    by_cases hk : k = key a
    · have hnone := h.fresh a List.mem_cons_self
      subst hk
      rw [AList.lookup_insert, hnone, Option.some.injEq]
      constructor
      · rintro (⟨hv, hkey⟩ | rfl)
        · exact .inl ⟨.inr hv, hkey⟩
        · exact .inl ⟨.inl rfl, rfl⟩
      · rintro (⟨rfl | hv, hkey⟩ | hv)
        · exact .inr rfl
        · exact .inl ⟨hv, hkey⟩
        · cases hv
    · rw [AList.lookup_insert_ne hk]
      constructor
      · rintro (⟨hv, hkey⟩ | hv)
        · exact .inl ⟨.inr hv, hkey⟩
        · exact .inr hv
      · rintro (⟨rfl | hv, hkey⟩ | hv)
        · exact absurd hkey.symm hk
        · exact .inl ⟨hv, hkey⟩
        · exact .inr hv

theorem lookup_eraseAll (keys : List κ) (s : AList fun _ : κ => α) (k : κ) :
    (eraseAll keys s).lookup k = if k ∈ keys then none else s.lookup k := by
  induction keys generalizing s with
  | nil => rfl
  | cons k' keys ih =>
    change (eraseAll keys (s.erase k')).lookup k = _
    rw [ih]
    by_cases hmem : k ∈ keys
    · rw [if_pos hmem, if_pos (List.mem_cons_of_mem _ hmem)]
    · rw [if_neg hmem]
      by_cases hk : k = k'
      · rw [hk, AList.lookup_erase, if_pos List.mem_cons_self]
      · rw [AList.lookup_erase_ne hk, if_neg (by simp [hk, hmem])]

theorem sum_insertAll [AddCommMonoid M] (f : κ → α → M) {key : α → κ} {l : List α} {s : AList fun _ : κ => α}
    (h : NewKeys key l s) : sum f (insertAll key l s) = sum f s + (l.map fun a => f (key a) a).sum := by
  induction l generalizing s with
  | nil => simp [insertAll]
  | cons a l ih =>
    change sum f (insertAll key l (s.insert (key a) a)) = _
    rw [ih h.tail, sum_insert, sum_erase_of_none f (h.fresh a List.mem_cons_self), List.map_cons, List.sum_cons]
    abel

/-- what stays and what was under the removed keys -/
theorem sum_eraseAll [AddCommMonoid M] (f : κ → α → M) {keys : List κ} (h : keys.Nodup) (s : AList fun _ : κ => α) :
    sum f s = sum f (eraseAll keys s) + (keys.map fun k => (s.lookup k).elim 0 (f k)).sum := by
  induction keys generalizing s with
  | nil => simp [eraseAll]
  | cons k keys ih =>
    obtain ⟨hk, hkeys⟩ := List.nodup_cons.1 h
    have hfirst : sum f s = (s.lookup k).elim 0 (f k) + sum f (s.erase k) := by
      cases hv : s.lookup k with
      | none => simp [sum_erase_of_none f hv]
      | some v => exact sum_erase_of_lookup f hv
    have hothers : (keys.map fun k' => ((s.erase k).lookup k').elim 0 (f k')) = keys.map fun k' => (s.lookup k').elim 0
        (f k') := by
      apply List.map_congr_left
      intro k' hk'
      rw [AList.lookup_erase_ne]
      rintro rfl
      exact hk hk'
    change _ = sum f (eraseAll keys (s.erase k)) + _
    rw [hfirst, ih hkeys, hothers, List.map_cons, List.sum_cons]
    abel

end SidechainsSdk.AssocMap
