/-
Grouping a list by a key, as collection libraries do it (`distinct`, `groupBy`), and the two facts a ledger needs from
it: no key occurs twice in the groups, and adding up group by group gives the same total as adding up element by
element. Nothing here knows what is grouped.

- `nodup_distinct`: `eraseDups` (first occurrences, in order) has no repetition.
- `sum_by_key`: for any repetition-free list of keys that covers the list, summing the fibres over the keys is summing
  the list. The keys need not all occur: an empty fibre adds zero.
- `sum_map_update`: the sum after the summand of one element has changed.
- `groupBy_keys_nodup`, `groupBy_sum`: the same for `groupBy`.
- `foldl_add_sum`: an accumulating loop is the sum of the list.
- `sum_extra`: a rest dealt out one by one.
- `sum_lookup`: the values of an association map add up to the lookups at its keys, also over a larger set of keys.
-/
import Mathlib.Data.List.AList
import Mathlib.Algebra.BigOperators.Group.List.Basic
import Mathlib.Tactic

namespace SidechainsSdk.Grouping

variable {α κ M : Type}

/-! ## Distinct elements -/

theorem nodup_distinct [DecidableEq α] (l : List α) : l.eraseDups.Nodup := by
  induction h : l.length using Nat.strong_induction_on generalizing l with
  | _ n ih =>
    cases l with
    | nil => simp
    | cons a as =>
      rw [List.eraseDups_cons]
      refine List.nodup_cons.2 ⟨?_, ?_⟩
      · rw [List.mem_eraseDups]; simp
      · refine ih _ ?_ _ rfl
        have := List.length_filter_le (fun b => !b == a) as
        simp only [List.length_cons] at h
        omega

theorem distinct_perm [DecidableEq α] {l l' : List α} (h : ∀ x, x ∈ l ↔ x ∈ l') : l.eraseDups.Perm l'.eraseDups := by
  refine (List.perm_ext_iff_of_nodup (nodup_distinct l) (nodup_distinct l')).2 ?_
  intro x
  rw [List.mem_eraseDups, List.mem_eraseDups, h]

/-! ## Sums -/

theorem foldl_add_sum [AddCommMonoid M] (f : α → M) (l : List α) (x : M) :
    l.foldl (fun acc a => acc + f a) x = x + (l.map f).sum := by
  induction l generalizing x with
  | nil => simp
  | cons a l ih => rw [List.foldl_cons, ih, List.map_cons, List.sum_cons, add_assoc]

/-- the first `r` of the indices from `k` on are the ones that get one more -/
theorem sum_extra (l : List α) (k : ℕ) (r : ℤ) (hr : r ≤ k + l.length) :
    ((l.zipIdx k).map fun x => if (x.2 : ℤ) < r then (1 : ℤ) else 0).sum = if k < r then r - k else 0 := by
  induction l generalizing k with
  | nil =>
    simp only [List.length_nil, Nat.cast_zero, add_zero] at hr
    simp [not_lt.2 hr]
  | cons a l ih =>
    have hr' : r ≤ (k + 1 : ℕ) + l.length := by simp only [List.length_cons] at hr; push_cast at hr ⊢; omega
    rw [List.zipIdx_cons, List.map_cons, List.sum_cons, ih (k + 1) hr']
    push_cast
    split_ifs <;> omega

theorem sum_single [DecidableEq κ] [AddCommMonoid M] (ks : List κ) (hks : ks.Nodup) (k : κ) (hk : k ∈ ks) (x : M) :
    (ks.map fun k' => if k = k' then x else 0).sum = x := by
  induction ks with
  | nil => simp at hk
  | cons a ks ih =>
    obtain ⟨ha, hks⟩ := List.nodup_cons.1 hks
    by_cases h : k = a
    · subst h
      have hz : (ks.map fun k' => if k = k' then x else 0) = ks.map fun _ => (0 : M) := by
        refine List.map_congr_left fun k' hk' => if_neg ?_
        rintro rfl
        exact ha hk'
      simp [hz]
    · have hk' : k ∈ ks := (List.mem_cons.1 hk).resolve_left h
      simp [h, ih hks hk']

theorem sum_map_update_of_not_mem [DecidableEq α] [AddCommMonoid M] (l : List α) (a : α) (ha : a ∉ l) (g : α → M)
    (x : M) : (l.map (Function.update g a x)).sum = (l.map g).sum := by
  refine congrArg List.sum (List.map_congr_left ?_)
  intro b hb
  have hne : b ≠ a := fun h => ha (h ▸ hb)
  exact Function.update_of_ne hne _ _

/-- changing the summand of one element of a repetition-free list -/
theorem sum_map_update [DecidableEq α] [AddCommMonoid M] (l : List α) (hl : l.Nodup) (a : α) (ha : a ∈ l) (g : α → M)
    (x : M) : (l.map (Function.update g a x)).sum + g a = (l.map g).sum + x := by
  induction l with
  | nil => simp at ha
  | cons b l ih =>
    obtain ⟨hb, hl⟩ := List.nodup_cons.1 hl
    rw [List.map_cons, List.map_cons, List.sum_cons, List.sum_cons]
    rcases List.mem_cons.1 ha with rfl | ha
    · rw [sum_map_update_of_not_mem l a hb, Function.update_self, add_comm x, add_right_comm, add_comm (g a)]
    · have hne : b ≠ a := fun h => hb (h ▸ ha)
      rw [Function.update_of_ne hne, add_assoc, ih hl ha, add_assoc]

/-- **Fibre sums.** Over repetition-free keys that cover the list, the sums of the fibres add up to the sum of the
list. -/
theorem sum_by_key [DecidableEq κ] [AddCommMonoid M] (ks : List κ) (hks : ks.Nodup) (key : α → κ) (f : α → M)
    (l : List α) (hcover : ∀ x ∈ l, key x ∈ ks) :
    (ks.map fun k => ((l.filter fun x => key x = k).map f).sum).sum = (l.map f).sum := by
  induction l with
  | nil => simp
  | cons a l ih =>
    have ih' := ih fun x hx => hcover x (List.mem_cons_of_mem _ hx)
    have hsplit : ∀ k, (((a :: l).filter fun x => key x = k).map f).sum =
        (if key a = k then f a else 0) + ((l.filter fun x => key x = k).map f).sum := by
      intro k
      by_cases h : key a = k <;> simp [h]
    simp only [hsplit, List.sum_map_add, ih', List.map_cons, List.sum_cons]
    rw [sum_single ks hks (key a) (hcover a List.mem_cons_self)]

/-! ## `groupBy` -/

/-- the groups of a list by key, in the order in which the keys first occur -/
def groupBy [DecidableEq κ] (key : α → κ) (l : List α) : List (κ × List α) :=
  (l.map key).eraseDups.map fun k => (k, l.filter fun x => key x = k)

theorem groupBy_keys_nodup [DecidableEq κ] (key : α → κ) (l : List α) : ((groupBy key l).map Prod.fst).Nodup := by
  have : (groupBy key l).map Prod.fst = (l.map key).eraseDups := by simp [groupBy, Function.comp_def]
  rw [this]
  exact nodup_distinct _

theorem mem_groupBy_keys [DecidableEq κ] (key : α → κ) (l : List α) (k : κ) :
    k ∈ (groupBy key l).map Prod.fst ↔ k ∈ l.map key := by
  simp [groupBy, Function.comp_def]

theorem mem_groupBy [DecidableEq κ] (key : α → κ) (l : List α) (g : κ × List α) (hg : g ∈ groupBy key l) :
    g.2 = l.filter (fun x => key x = g.1) ∧ g.1 ∈ l.map key := by
  obtain ⟨k, hk, rfl⟩ := List.mem_map.1 hg
  exact ⟨rfl, List.mem_eraseDups.1 hk⟩

/-- the order of a list does not count in its groups, if what is made of a group does not depend on that of the group -/
theorem groupBy_map_perm [DecidableEq κ] {β : Type} (key : α → κ) (f : κ → List α → β)
    (hf : ∀ k l l', List.Perm l l' → f k l = f k l') {l l' : List α} (h : l.Perm l') :
    ((groupBy key l).map fun g => f g.1 g.2).Perm ((groupBy key l').map fun g => f g.1 g.2) := by
  unfold groupBy
  rw [List.map_map, List.map_map]
  have hkeys := (distinct_perm fun k => (h.map key).mem_iff (a := k)).map fun k => f k (l.filter fun x => key x = k)
  refine hkeys.trans (List.Perm.of_eq (List.map_congr_left fun k _ => ?_))
  exact hf k _ _ (h.filter _)

theorem groupBy_sum [DecidableEq κ] [AddCommMonoid M] (key : α → κ) (f : α → M) (l : List α) :
    ((groupBy key l).map fun g => (g.2.map f).sum).sum = (l.map f).sum := by
  unfold groupBy
  rw [List.map_map]
  exact sum_by_key _ (nodup_distinct _) key f l fun x hx => List.mem_eraseDups.2 (List.mem_map_of_mem hx)

/-! ## Association maps -/

/-- summing over groups, when the summand may depend on the key of the group -/
theorem groupBy_sum_key [DecidableEq κ] [AddCommMonoid M] (key : α → κ) (f : κ → α → M) (l : List α) :
    ((groupBy key l).map fun g => (g.2.map (f g.1)).sum).sum = (l.map fun x => f (key x) x).sum := by
  rw [← groupBy_sum key (fun x => f (key x) x) l]
  refine congrArg List.sum (List.map_congr_left ?_)
  intro g hg
  obtain ⟨hgroup, -⟩ := mem_groupBy key l g hg
  refine congrArg List.sum (List.map_congr_left ?_)
  intro x hx
  rw [hgroup] at hx
  have hkey : key x = g.1 := by simpa using (List.mem_filter.1 hx).2
  rw [hkey]

/-- the lookups of an association map over any repetition-free list of keys that has all its keys -/
theorem sum_lookup [DecidableEq κ] [AddCommMonoid M] (ks : List κ) (hks : ks.Nodup) (m : AList fun _ : κ => M)
    (hcover : ∀ k ∈ m.keys, k ∈ ks) :
    (ks.map fun k => (m.lookup k).getD 0).sum = (m.entries.map fun e => e.2).sum := by
  rw [← sum_by_key ks hks (fun e : (_ : κ) × M => e.1) (fun e => e.2) m.entries
    fun e he => hcover _ (List.mem_map_of_mem he)]
  refine congrArg List.sum (List.map_congr_left fun k _ => ?_)
  cases hk : m.lookup k with
  | none =>
    have hk' : k ∉ m.keys := AList.lookup_eq_none.1 hk
    have : m.entries.filter (fun e => e.1 = k) = [] := by
      refine List.filter_eq_nil_iff.2 fun e he => ?_
      simp only [decide_eq_true_eq]
      rintro rfl
      exact hk' (List.mem_map_of_mem he)
    simp [this]
  | some x =>
    have hmem : (⟨k, x⟩ : (_ : κ) × M) ∈ m.entries := AList.mem_lookup_iff.1 hk
    have hone : m.entries.filter (fun e => e.1 = k) = [⟨k, x⟩] := by
      have hnd : (m.entries.map Sigma.fst).Nodup := m.keys_nodup
      revert hmem hnd
      generalize m.entries = es
      induction es with
      | nil => simp
      | cons e es ih =>
        intro hmem hnd
        simp only [List.map_cons, List.nodup_cons] at hnd
        rcases List.mem_cons.1 hmem with rfl | hmem
        · have : es.filter (fun e => e.1 = k) = [] := by
            refine List.filter_eq_nil_iff.2 fun e he => ?_
            have he' : e.1 ∈ es.map Sigma.fst := List.mem_map_of_mem he
            simp only [decide_eq_true_eq]
            exact fun h => hnd.1 (h ▸ he')
          simp [this]
        · have hk' : k ∈ es.map Sigma.fst := List.mem_map_of_mem (f := Sigma.fst) hmem
          have hne : e.1 ≠ k := fun h => hnd.1 (h ▸ hk')
          simp [hne, ih hmem hnd.2]
    simp [hone]

end SidechainsSdk.Grouping
