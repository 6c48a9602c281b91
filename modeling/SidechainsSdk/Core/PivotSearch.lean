/-
Searching the last entry that is not later than a time, in entries with increasing times: bisection with a pivot of any
choice between the bounds.

- `search`: the position found, together with the positions that were read for it.
- `search_reads`: only positions between the bounds are read.
- `search_isLast`: if the entries before the lower bound are not later, and those from the upper bound on are, the last
  one that is not later is found, whatever the pivots are.
- `IsLast.valueAt`: this entry says the value of the step function.
- `IsLast.previous`: going back in time, the position moves down by one when the time of its entry is passed.
-/
import Mathlib.Tactic
import SidechainsSdk.Core.Checkpoints

namespace SidechainsSdk.PivotSearch

/-- a choice of a position between two bounds -/
structure Pivot where
  index : ℕ → ℕ → ℕ
  le_index : ∀ {low high}, low < high → low ≤ index low high
  index_lt : ∀ {low high}, low < high → index low high < high

/-- the position found, and the positions read on the way -/
structure Found where
  position : ℕ
  reads : List ℕ

/-- one more read, before the others -/
def Found.after (read : ℕ) (f : Found) : Found := ⟨f.position, read :: f.reads⟩

variable {τ : Type} [LinearOrder τ] (p : Pivot) (time : ℕ → τ) (t : τ)

def search (low high : ℕ) : Found :=
  if h : low < high then
    have hle := p.le_index h
    have hlt := p.index_lt h
    let mid := p.index low high
    if time mid = t then ⟨mid, [mid]⟩
    else if t < time mid then (search low mid).after mid
    else (search (mid + 1) high).after mid
  else
    ⟨if high = 0 then 0 else high - 1, []⟩
termination_by high - low
decreasing_by
  all_goals omega

theorem search_of_lt {low high : ℕ} (h : low < high) :
    search p time t low high =
      if time (p.index low high) = t then ⟨p.index low high, [p.index low high]⟩
      else if t < time (p.index low high) then (search p time t low (p.index low high)).after (p.index low high)
      else (search p time t (p.index low high + 1) high).after (p.index low high) := by
  rw [search, dif_pos h]

theorem search_of_le {low high : ℕ} (h : high ≤ low) :
    search p time t low high = ⟨if high = 0 then 0 else high - 1, []⟩ := by
  rw [search, dif_neg h.not_gt]

theorem search_reads (low high : ℕ) : ∀ i ∈ (search p time t low high).reads, low ≤ i ∧ i < high := by
  induction hn : high - low using Nat.strong_induction_on generalizing low high with
  | _ n ih =>
    rcases lt_or_ge low high with h | h
    · have hle := p.le_index h
      have hlt := p.index_lt h
      have hmid : low ≤ p.index low high ∧ p.index low high < high := ⟨hle, hlt⟩
      rw [search_of_lt p time t h]
      split_ifs
      · intro i hi
        rw [List.mem_singleton.1 hi]
        exact hmid
      · intro i hi
        rcases List.mem_cons.1 hi with rfl | hi
        · exact hmid
        · obtain ⟨hlow, hhigh⟩ := ih _ (by omega) low _ rfl i hi
          exact ⟨hlow, hhigh.trans hlt⟩
      · intro i hi
        rcases List.mem_cons.1 hi with rfl | hi
        · exact hmid
        · obtain ⟨hlow, hhigh⟩ := ih _ (by omega) _ high rfl i hi
          exact ⟨hle.trans ((Nat.le_succ _).trans hlow), hhigh⟩
    · rw [search_of_le p time t h]
      simp

/-- the last of the entries below `n` that is not later than `t` -/
structure IsLast (n : ℕ) (r : ℕ) : Prop where
  lt : r < n
  le : time r ≤ t
  later : ∀ i, r < i → i < n → t < time i

/-- the times of the entries below `n` increase -/
def Increasing (n : ℕ) : Prop := ∀ i j, i < j → j < n → time i < time j

/-- the entries outside of the bounds are decided -/
structure Decided (n low high : ℕ) : Prop where
  le : low ≤ high
  high_le : high ≤ n
  before : ∀ i, i < low → time i ≤ t
  later : ∀ i, high ≤ i → i < n → t < time i

section Search

variable {p time t} {n low high : ℕ}

theorem Decided.start (n : ℕ) : Decided time t n 0 n := by
  refine ⟨Nat.zero_le n, le_refl n, ?_, ?_⟩
  · intro i hi
    exact absurd hi (Nat.not_lt_zero i)
  · intro i hle hlt
    exact absurd hlt hle.not_gt

variable (hincreasing : Increasing time n) (h : Decided time t n low high)

include hincreasing in
theorem isLast_of_eq {mid : ℕ} (hmid : mid < n) (heq : time mid = t) : IsLast time t n mid :=
  ⟨hmid, heq.le, fun i hlt hi => heq ▸ hincreasing mid i hlt hi⟩

include hincreasing h in
theorem Decided.lower {mid : ℕ} (hle : low ≤ mid) (hlt : mid < high) (ht : t < time mid) : Decided time t n low mid := by
  refine ⟨hle, hlt.le.trans h.high_le, h.before, ?_⟩
  intro i hi hn
  rcases hi.eq_or_lt with rfl | hi
  · exact ht
  · exact ht.trans (hincreasing mid i hi hn)

include hincreasing h in
theorem Decided.upper {mid : ℕ} (hlt : mid < high) (ht : time mid ≤ t) : Decided time t n (mid + 1) high := by
  refine ⟨hlt, h.high_le, ?_, h.later⟩
  intro i hi
  rcases (Nat.lt_succ_iff.1 hi).eq_or_lt with rfl | hi
  · exact ht
  · exact (hincreasing i mid hi (hlt.trans_le h.high_le)).le.trans ht

/-- no entries are left between the bounds -/
theorem Decided.isLast (h : Decided time t n low low) (hfirst : time 0 ≤ t) (hn : 0 < n) :
    IsLast time t n (if low = 0 then 0 else low - 1) := by
  have hpos : low ≠ 0 := by
    rintro rfl
    exact absurd hfirst (h.later 0 (le_refl 0) hn).not_ge
  rw [if_neg hpos]
  have hpred : low - 1 < low := Nat.pred_lt hpos
  refine ⟨hpred.trans_le h.high_le, h.before _ hpred, ?_⟩
  intro i hi
  exact h.later i (Nat.le_of_pred_lt hi)

include hincreasing in
theorem search_isLast (hfirst : time 0 ≤ t) (hn : 0 < n) (h : Decided time t n low high) :
    IsLast time t n (search p time t low high).position := by
  induction hm : high - low using Nat.strong_induction_on generalizing low high with
  | _ m ih =>
    rcases h.le.lt_or_eq with hlt | rfl
    · have hle := p.le_index hlt
      have hmid := p.index_lt hlt
      rw [search_of_lt p time t hlt]
      split_ifs with heq hlater
      · exact isLast_of_eq hincreasing (hmid.trans_le h.high_le) heq
      · exact ih _ (by omega) (h.lower hincreasing hle hmid hlater) rfl
      · exact ih _ (by omega) (h.upper hincreasing hmid (not_lt.1 hlater)) rfl
    · rw [search_of_le p time t (le_refl low)]
      exact h.isLast hfirst hn

/-- with an earlier time, a position whose entry is not passed stays -/
theorem IsLast.earlier {r : ℕ} {t' : τ} (h : IsLast time t n r) (hle : time r ≤ t') (ht : ∀ u, t < u → t' < u) :
    IsLast time t' n r :=
  ⟨h.lt, hle, fun i hi hn => ht _ (h.later i hi hn)⟩

include hincreasing in
/-- with a time just before that of the entry, the position moves down by one -/
theorem IsLast.previous {r : ℕ} {t' : τ} (h : IsLast time t n (r + 1)) (ht : ∀ u, u < time (r + 1) → u ≤ t')
    (hlt : t' < time (r + 1)) : IsLast time t' n r := by
  refine ⟨Nat.lt_of_succ_lt h.lt, ht _ (hincreasing r (r + 1) (Nat.lt_succ_self r) h.lt), ?_⟩
  intro i hi hn
  rcases (Nat.succ_le_of_lt hi).eq_or_lt with rfl | hi
  · exact hlt
  · exact hlt.trans (hincreasing (r + 1) i hi hn)

end Search

section Values

open Checkpoints

variable {γ M : Type} [Zero M] {entry : ℕ → γ} {timeOf : γ → τ} {value : γ → M} {n : ℕ} {t}

theorem filter_eq_nil (h : ∀ i < n, t < timeOf (entry i)) :
    ((List.range n).map entry).filter (fun c => timeOf c ≤ t) = [] := by
  rw [List.filter_eq_nil_iff]
  intro c hc
  obtain ⟨i, hi, rfl⟩ := List.mem_map.1 hc
  simpa using h i (List.mem_range.1 hi)

/-- before the first entry -/
theorem valueAt_before (h : ∀ i < n, t < timeOf (entry i)) :
    valueAt timeOf value ((List.range n).map entry) t = 0 := by
  rw [valueAt, filter_eq_nil h]
  rfl

theorem IsLast.valueAt {r : ℕ} (h : IsLast (fun i => timeOf (entry i)) t n r) :
    Checkpoints.valueAt timeOf value ((List.range n).map entry) t = value (entry r) := by
  obtain ⟨k, rfl⟩ := Nat.exists_eq_add_of_lt h.lt
  have hrange : (List.range (r + k + 1)).map entry =
      (List.range r).map entry ++ [entry r] ++ (List.range k).map (fun i => entry (r + 1 + i)) := by
    rw [Nat.add_right_comm, List.range_add, List.range_succ, List.map_append, List.map_append, List.map_map]
    rfl
  have hlater : ((List.range k).map fun i => entry (r + 1 + i)).filter (fun c => timeOf c ≤ t) = [] := by
    apply filter_eq_nil
    intro i hi
    exact h.later _ (by omega) (by omega)
  have hlast : [entry r].filter (fun c => timeOf c ≤ t) = [entry r] := by simpa using h.le
  rw [Checkpoints.valueAt, hrange, List.filter_append, List.filter_append, hlater, hlast, List.append_nil,
    List.getLast?_concat]
  rfl

end Values

end SidechainsSdk.PivotSearch
