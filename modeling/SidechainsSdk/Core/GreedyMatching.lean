/-
Greedy matching. Elements of a list are given partners one after the other, each a partner that is not taken yet. In general the
choice matters; it does not when elements with one common partner have the same partners: then a partner can be found for as
long as there is any way to match the list.

- `Difunctional`: elements with a common partner have the same partners.
- `Matches`: a list with partners of its own.
- `Matches.exists_unused`: whatever the choice so far was, the next element of a list that can be matched has a free partner.
-/
import Mathlib.Tactic
import Mathlib.Data.List.Forall2

namespace SidechainsSdk.GreedyMatching

variable {α β : Type} {R : α → β → Prop} {as : List α} {bs : List β}

def Difunctional (R : α → β → Prop) : Prop := ∀ ⦃a a' b b'⦄, R a b → R a' b → R a b' → R a' b'

structure Matches (R : α → β → Prop) (as : List α) (bs : List β) : Prop where
  nodup : bs.Nodup
  related : List.Forall₂ R as bs

theorem Matches.nil : Matches R [] [] := ⟨List.nodup_nil, List.Forall₂.nil⟩

theorem Matches.cons {a : α} {b : β} (h : Matches R as bs) (hR : R a b) (hnew : b ∉ bs) : Matches R (a :: as) (b :: bs) :=
  ⟨List.nodup_cons.2 ⟨hnew, h.nodup⟩, List.Forall₂.cons hR h.related⟩

theorem Matches.reverse (h : Matches R as bs) : Matches R as.reverse bs.reverse :=
  ⟨List.nodup_reverse.2 h.nodup, List.forall₂_reverse_iff.2 h.related⟩

theorem Matches.length_eq (h : Matches R as bs) : as.length = bs.length := h.related.length_eq

theorem exists_related (h : List.Forall₂ R as bs) {a : α} (ha : a ∈ as) : ∃ b, R a b := by
  induction h with
  | nil => cases ha
  | cons hR _ ih =>
    rcases List.mem_cons.1 ha with rfl | ha
    · exact ⟨_, hR⟩
    · exact ih ha

/-- kinds that partners have in common are as frequent on both sides -/
theorem length_filter_eq (h : List.Forall₂ R as bs) (p : α → Prop) (q : β → Prop) [DecidablePred p] [DecidablePred q]
    (hpq : ∀ a b, R a b → (p a ↔ q b)) : (as.filter fun a => p a).length = (bs.filter fun b => q b).length := by
  induction h with
  | nil => rfl
  | @cons a b as bs hR _ ih =>
    by_cases hq : q b
    · rw [List.filter_cons_of_pos (by simpa using (hpq a b hR).2 hq), List.filter_cons_of_pos (by simpa using hq)]
      rw [List.length_cons, List.length_cons, ih]
    · rw [List.filter_cons_of_neg (by simpa using mt (hpq a b hR).1 hq), List.filter_cons_of_neg (by simpa using hq), ih]

theorem Matches.exists_unused {done rest : List α} {a : α} {used : List β} (hR : Difunctional R)
    (hall : Matches R (done ++ a :: rest) bs) (hused : Matches R done used) : ∃ b, R a b ∧ b ∉ used := by
  classical
  by_contra hcontra
  push Not at hcontra
  -- the elements with the same partners as `a`, which is one of them
  let similar : α → Prop := fun x => ∃ b, R x b ∧ R a b
  have hsimilar : ∀ x b, R x b → (similar x ↔ R a b) := by
    intro x b hxb
    exact ⟨fun ⟨b', hxb', hab'⟩ => hR hxb' hab' hxb, fun hab => ⟨b, hxb, hab⟩⟩
  have ha : similar a := by
    obtain ⟨b, hab⟩ := exists_related hall.related (List.mem_append_right done List.mem_cons_self)
    exact ⟨b, hab, hab⟩
  have hdone := length_filter_eq hused.related similar (R a) hsimilar
  have hbs := length_filter_eq hall.related similar (R a) hsimilar
  rw [List.filter_append, List.filter_cons_of_pos (by simpa using ha), List.length_append, List.length_cons] at hbs
  have hsubset : (bs.filter fun b => R a b) ⊆ used.filter fun b => R a b := by
    intro b hb
    have hab : R a b := by simpa using (List.mem_filter.1 hb).2
    exact List.mem_filter.2 ⟨hcontra b hab, by simpa using hab⟩
  have hle := ((hall.nodup.filter _).subperm hsubset).length_le
  omega

end SidechainsSdk.GreedyMatching
