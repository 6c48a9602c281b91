/-
Secondary indexes: a map from keys to the ids of the elements of a list.

`IsIndex key name ix l`: under every key, `ix` has the id of the element of `l` with this key, and nothing else. A key then
belongs to at most one element. Every change of an element needs one change of the index, and the rules say which:

- `IsIndex.append`: a new element, under a free key.
- `IsIndex.remove`: an element is removed, and its key.
- `IsIndex.move`: an element is changed in place and moves to another key, which is free.
-/
import Mathlib.Tactic

namespace SidechainsSdk.Indexing

variable {κ ι α : Type}

def IsIndex (key : α → κ) (name : α → ι) (ix : κ → Option ι) (l : List α) : Prop :=
  ∀ k i, ix k = some i ↔ ∃ x ∈ l, key x = k ∧ name x = i

section

variable {key : α → κ} {name : α → ι} {ix : κ → Option ι} {l : List α} (h : IsIndex key name ix l)

include h

theorem IsIndex.at_key {x : α} (hx : x ∈ l) : ix (key x) = some (name x) := (h _ _).2 ⟨x, hx, rfl, rfl⟩

theorem IsIndex.mem_of_eq {k : κ} {i : ι} (hk : ix k = some i) : ∃ x ∈ l, key x = k ∧ name x = i := (h k i).1 hk

/-- a free key belongs to no element -/
theorem IsIndex.key_ne {k : κ} (hk : ix k = none) {x : α} (hx : x ∈ l) : key x ≠ k := by
  intro heq
  rw [← heq, h.at_key hx] at hk
  cases hk

theorem IsIndex.name_eq {x y : α} (hx : x ∈ l) (hy : y ∈ l) (heq : key x = key y) : name x = name y := by
  have hkey := h.at_key hx
  rw [heq, h.at_key hy] at hkey
  injection hkey with hname
  exact hname.symm

variable [DecidableEq κ]

theorem IsIndex.append (x : α) (hfree : ix (key x) = none) :
    IsIndex key name (Function.update ix (key x) (some (name x))) (l ++ [x]) := by
  intro k i
  by_cases hk : k = key x
  · subst hk
    rw [Function.update_self]
    constructor
    · intro hi
      injection hi with hi
      exact ⟨x, by simp, rfl, hi⟩
    · intro hy
      obtain ⟨y, hy, hkey, rfl⟩ := hy
      rcases List.mem_append.1 hy with hy | hy
      · exact absurd hkey (h.key_ne hfree hy)
      · rw [List.mem_singleton.1 hy]
  · rw [Function.update_of_ne hk, h k i]
    constructor
    · intro hy
      obtain ⟨y, hy, hkey⟩ := hy
      exact ⟨y, List.mem_append_left _ hy, hkey⟩
    · intro hy
      obtain ⟨y, hy, hkey, hname⟩ := hy
      rcases List.mem_append.1 hy with hy | hy
      · exact ⟨y, hy, hkey, hname⟩
      · rw [List.mem_singleton.1 hy] at hkey
        exact absurd hkey.symm hk

variable [DecidableEq ι] (hl : (l.map name).Nodup)

include hl

theorem IsIndex.remove {x : α} (hx : x ∈ l) :
    IsIndex key name (Function.update ix (key x) none) (l.filter fun y => name y ≠ name x) := by
  intro k i
  by_cases hk : k = key x
  · subst hk
    rw [Function.update_self]
    constructor
    · intro hi
      cases hi
    · intro hy
      obtain ⟨y, hy, hkey, -⟩ := hy
      obtain ⟨hy, hne⟩ := List.mem_filter.1 hy
      exact absurd (h.name_eq hy hx hkey) (by simpa using hne)
  · rw [Function.update_of_ne hk, h k i]
    constructor
    · intro hy
      obtain ⟨y, hy, hkey, hname⟩ := hy
      have hne : name y ≠ name x := by
        intro heq
        have hyx : y = x := List.inj_on_of_nodup_map hl hy hx heq
        exact hk (hkey ▸ hyx ▸ rfl)
      exact ⟨y, List.mem_filter.2 ⟨hy, by simpa using hne⟩, hkey, hname⟩
    · intro hy
      obtain ⟨y, hy, hkey⟩ := hy
      exact ⟨y, (List.mem_filter.1 hy).1, hkey⟩

theorem IsIndex.move {x : α} (hx : x ∈ l) (f : α → α) (hf : ∀ y, name (f y) = name y) (hfree : ix (key (f x)) = none) :
    IsIndex key name (Function.update (Function.update ix (key x) none) (key (f x)) (some (name x)))
      (l.map fun y => if name y = name x then f y else y) := by
  have hother : ∀ y ∈ l, name y = name x → y = x := fun y hy heq => List.inj_on_of_nodup_map hl hy hx heq
  intro k i
  by_cases hk : k = key (f x)
  · subst hk
    rw [Function.update_self]
    constructor
    · intro hi
      injection hi with hi
      exact ⟨f x, List.mem_map.2 ⟨x, hx, if_pos rfl⟩, rfl, (hf x).trans hi⟩
    · intro hy
      obtain ⟨y, hy, hkey, rfl⟩ := hy
      obtain ⟨z, hz, rfl⟩ := List.mem_map.1 hy
      by_cases hzx : name z = name x
      · rw [if_pos hzx, hf, hzx]
      · rw [if_neg hzx] at hkey
        exact absurd hkey (h.key_ne hfree hz)
  · rw [Function.update_of_ne hk]
    by_cases hkx : k = key x
    · subst hkx
      rw [Function.update_self]
      constructor
      · intro hi
        cases hi
      · intro hy
        obtain ⟨y, hy, hkey, -⟩ := hy
        obtain ⟨z, hz, rfl⟩ := List.mem_map.1 hy
        by_cases hzx : name z = name x
        · rw [if_pos hzx, hother z hz hzx] at hkey
          exact absurd hkey.symm hk
        · rw [if_neg hzx] at hkey
          exact absurd (h.name_eq hz hx hkey) hzx
    · rw [Function.update_of_ne hkx, h k i]
      constructor
      · intro hy
        obtain ⟨y, hy, hkey, hname⟩ := hy
        have hne : name y ≠ name x := by
          intro heq
          exact hkx (hkey ▸ hother y hy heq ▸ rfl)
        exact ⟨y, List.mem_map.2 ⟨y, hy, if_neg hne⟩, hkey, hname⟩
      · intro hy
        obtain ⟨y, hy, hkey, hname⟩ := hy
        obtain ⟨z, hz, rfl⟩ := List.mem_map.1 hy
        by_cases hzx : name z = name x
        · rw [if_pos hzx, hother z hz hzx] at hkey
          exact absurd hkey.symm hk
        · rw [if_neg hzx] at hkey hname
          exact ⟨z, hz, hkey, hname⟩

end

end SidechainsSdk.Indexing
