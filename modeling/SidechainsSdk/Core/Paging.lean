/-
Paged reading of a list. A query is given a position and a size, and returns a page with the position after it, or -1 at the end.
Positions are `Int`s, and the position after a page is computed before it is compared with the length of the list.

- `Reads`: a query that does this; what is read may be filtered afterwards.
- `covers_iff`: a page is what it should be if and only if its end is an `Int`.
- `walk_iff`: following the positions from 0 gives the whole list if and only if the end of the last page is one.
-/
import Mathlib.Tactic
import SidechainsSdk.Core.Fallible
import SidechainsSdk.Core.MachineInt

namespace SidechainsSdk.Paging

open MachineInt

variable {ε α : Type} {query : ℤ → ℤ → Except ε (ℤ × List α)} {items : List α} {keep : α → Bool}
    {start page : ℤ}

/-- the end of a page; it is not beyond the end of the list, but may be before the start -/
def endPos (size : ℤ) (start page : ℤ) : ℤ := if size < intOf (start + page) then size else intOf (start + page)

/-- -1 tells that the list is at its end -/
def nextPos (size : ℤ) (start page : ℤ) : ℤ := if endPos size start page = size then -1 else endPos size start page

structure Reads (query : ℤ → ℤ → Except ε (ℤ × List α)) (items : List α) (keep : α → Bool) : Prop where
  negative : ∀ start page : ℤ, start < 0 → ∃ e, query start page = .error e
  inside : ∀ start page : ℤ, 0 ≤ start → start < items.length → 0 < page → query start page =
    .ok (nextPos items.length start page,
      ((items.drop start.toNat).take (endPos items.length start page - start).toNat).filter keep)

/-- the page has the elements from the start on, and the right position comes after it -/
def Covers (query : ℤ → ℤ → Except ε (ℤ × List α)) (items : List α) (keep : α → Bool) (start page : ℤ) :
    Prop :=
  query start page = .ok (if items.length ≤ start + page then -1 else start + page,
    ((items.drop start.toNat).take page.toNat).filter keep)

/-- the pages from a position on, up to one that says that it is the last -/
inductive Walk (query : ℤ → ℤ → Except ε (ℤ × List α)) (page : ℤ) : ℤ → List α → Prop where
  | last (start : ℤ) (l : List α) : query start page = .ok (-1, l) → Walk query page start l
  | more (start next : ℤ) (l rest : List α) : query start page = .ok (next, l) → next ≠ -1 →
      Walk query page next rest →
    Walk query page start (l ++ rest)

/-! ## One page -/

theorem covers_of_lt (h : Reads query items keep) (hstart : 0 ≤ start) (hlt : start < items.length) (hpage : 0 < page)
    (hint : start + page < 2 ^ 31) : Covers query items keep start page := by
  have hsum : intOf (start + page) = start + page := intOf_eq ⟨by omega, hint⟩
  rw [Covers, h.inside start page hstart hlt hpage, nextPos, endPos, hsum]
  by_cases hend : (items.length : ℤ) ≤ start + page
  · have hstop : (if (items.length : ℤ) < start + page then (items.length : ℤ) else start + page) = items.length := by
      split_ifs <;> omega
    have hall : ∀ n : ℕ, items.length - start.toNat ≤ n → (items.drop start.toNat).take n = items.drop start.toNat := by
      intro n hn
      exact List.take_of_length_le (by rw [List.length_drop]; exact hn)
    rw [hstop, if_pos rfl, if_pos hend, hall _ (by omega), hall _ (by omega)]
  · have hstop : (if (items.length : ℤ) < start + page then (items.length : ℤ) else start + page) = start + page := by
      split_ifs <;> omega
    rw [hstop, if_neg (by omega), if_neg hend, add_sub_cancel_left]

/-- an end that is no `Int` is negative, and the page is empty -/
theorem query_overflow (h : Reads query items keep) (hstart : 0 ≤ start) (hlt : start < items.length) (hpage : 0 < page)
    (hstartInt : start < 2 ^ 31) (hpageInt : page < 2 ^ 31) (hover : 2 ^ 31 ≤ start + page) :
    ∃ next < -1, query start page = .ok (next, []) := by
  have hsum : intOf (start + page) = start + page - 2 ^ 32 := by
    rw [intOf_congr 1 (y := start + page - 2 ^ 32) (by ring), intOf_eq ⟨by omega, by omega⟩]
  refine ⟨start + page - 2 ^ 32, by omega, ?_⟩
  have hstop : endPos items.length start page = start + page - 2 ^ 32 := by
    rw [endPos, hsum]
    split_ifs <;> omega
  have hempty : (start + page - 2 ^ 32 - start).toNat = 0 := by omega
  rw [h.inside start page hstart hlt hpage, nextPos, hstop, if_neg (by omega), hempty]
  rfl

theorem covers_iff (h : Reads query items keep) (hstart : 0 ≤ start) (hlt : start < items.length) (hpage : 0 < page)
    (hstartInt : start < 2 ^ 31) (hpageInt : page < 2 ^ 31) : Covers query items keep start page ↔ start + page < 2 ^ 31 := by
  constructor
  · intro hcovers
    by_contra hover
    obtain ⟨next, hnext, hquery⟩ := query_overflow h hstart hlt hpage hstartInt hpageInt (not_lt.1 hover)
    rw [Covers, hquery] at hcovers
    have hpos := congrArg Prod.fst (Except.ok.inj hcovers)
    dsimp only at hpos
    split_ifs at hpos <;> omega
  · exact covers_of_lt h hstart hlt hpage

/-! ## All pages -/

/-- where the last page starts -/
def lastStart (size page : ℤ) : ℤ := (size - 1) / page * page

theorem start_le_lastStart {size : ℤ} (hpage : 0 < page) (hdvd : page ∣ start) (hlt : start < size) :
    start ≤ lastStart size page := by
  obtain ⟨k, rfl⟩ := hdvd
  have hk : k ≤ (size - 1) / page := by
    rw [Int.le_ediv_iff_mul_le hpage, mul_comm]
    omega
  rw [lastStart, mul_comm]
  exact Int.mul_le_mul_of_nonneg_right hk hpage.le

theorem lastStart_eq {size : ℤ} (hpage : 0 < page) (hdvd : page ∣ start) (hlt : start < size) (hend : size ≤ start + page) :
    lastStart size page = start := by
  obtain ⟨k, rfl⟩ := hdvd
  have hk : (size - 1) / page = k := by
    rw [Int.ediv_eq_iff_of_pos hpage]
    constructor <;> linarith
  rw [lastStart, hk, mul_comm]

/-- by induction on what is left of the list -/
theorem walk_of_lt (h : Reads query items keep) (hpage : 0 < page) (hlast : lastStart items.length page + page < 2 ^ 31)
    (hstart : 0 ≤ start) (hdvd : page ∣ start) (hlt : start < items.length) :
    Walk query page start ((items.drop start.toNat).filter keep) := by
  obtain ⟨left, hleft⟩ : ∃ left : ℕ, (items.length : ℤ) - start = left := ⟨(items.length - start).toNat, by omega⟩
  induction left using Nat.strong_induction_on generalizing start with
  | _ left ih =>
    have hle := start_le_lastStart hpage hdvd hlt
    have hcovers := covers_of_lt h hstart hlt hpage (by omega)
    by_cases hend : (items.length : ℤ) ≤ start + page
    · rw [Covers, if_pos hend, List.take_of_length_le (by rw [List.length_drop]; omega)] at hcovers
      exact .last start _ hcovers
    · rw [Covers, if_neg hend] at hcovers
      have hnext : (start + page).toNat = start.toNat + page.toNat := by omega
      have hrest : Walk query page (start + page) ((items.drop (start + page).toNat).filter keep) :=
        ih (left - page.toNat) (by omega) (by omega) ((Int.dvd_add_right hdvd).2 (dvd_refl page)) (by omega) (by omega)
      have hsplit := congrArg (List.filter keep) (List.take_append_drop page.toNat (items.drop start.toNat))
      rw [List.filter_append, List.drop_drop, ← hnext] at hsplit
      rw [← hsplit]
      exact .more start (start + page) _ _ hcovers (by omega) hrest

/-- by induction on the pages: none of them has an end that is no `Int`, as the query after it would fail -/
theorem lt_of_walk (h : Reads query items keep) (hpage : 0 < page) (hpageInt : page < 2 ^ 31) {l : List α}
    (hwalk : Walk query page start l) (hstart : 0 ≤ start) (hstartInt : start < 2 ^ 31) (hdvd : page ∣ start)
    (hlt : start < items.length) :
    lastStart items.length page + page < 2 ^ 31 := by
  have hnegative : ∀ {next : ℤ} {rest : List α}, next < 0 → ¬ Walk query page next rest := by
    intro next rest hneg hwalk
    obtain ⟨e, he⟩ := h.negative next page hneg
    cases hwalk with
    | last _ _ hquery =>
      rw [he] at hquery
      cases hquery
    | more _ _ _ _ hquery =>
      rw [he] at hquery
      cases hquery
  induction hwalk with
  | last start l hquery =>
    by_cases hint : start + page < 2 ^ 31
    · have hcovers := covers_of_lt h hstart hlt hpage hint
      rw [Covers, hquery] at hcovers
      have hpos := congrArg Prod.fst (Except.ok.inj hcovers)
      dsimp only at hpos
      have hend : (items.length : ℤ) ≤ start + page := by
        by_contra hnot
        rw [if_neg hnot] at hpos
        omega
      rwa [lastStart_eq hpage hdvd hlt hend]
    · obtain ⟨next, hnext, hover⟩ := query_overflow h hstart hlt hpage hstartInt hpageInt (not_lt.1 hint)
      rw [hquery] at hover
      have hpos := congrArg Prod.fst (Except.ok.inj hover)
      dsimp only at hpos
      omega
  | more start next l rest hquery hne hrest ih =>
    by_cases hint : start + page < 2 ^ 31
    · have hcovers := covers_of_lt h hstart hlt hpage hint
      rw [Covers, hquery] at hcovers
      have hpos := congrArg Prod.fst (Except.ok.inj hcovers)
      dsimp only at hpos
      by_cases hend : (items.length : ℤ) ≤ start + page
      · rw [if_pos hend] at hpos
        exact absurd hpos hne
      · rw [if_neg hend] at hpos
        subst hpos
        exact ih (by omega) hint ((Int.dvd_add_right hdvd).2 (dvd_refl page)) (by omega)
    · obtain ⟨next', hnext, hover⟩ := query_overflow h hstart hlt hpage hstartInt hpageInt (not_lt.1 hint)
      rw [hquery] at hover
      obtain rfl := congrArg Prod.fst (Except.ok.inj hover)
      exact absurd hrest (hnegative (by dsimp only at hnext ⊢; omega))

/-- the walk from the first position gives all elements that are kept, in order -/
theorem walk_iff (h : Reads query items keep) (hne : items ≠ []) (hpage : 0 < page) (hpageInt : page < 2 ^ 31) :
    Walk query page 0 (items.filter keep) ↔ lastStart items.length page + page < 2 ^ 31 := by
  have hlength : 0 < items.length := List.length_pos_iff.2 hne
  constructor
  · intro hwalk
    exact lt_of_walk h hpage hpageInt hwalk le_rfl (by norm_num) (dvd_zero page) (by omega)
  · intro hlast
    exact walk_of_lt h hpage hlast le_rfl (dvd_zero page) (by omega)

/-! ## Reading by index -/

/-- a page that is read element by element -/
theorem mapM_range'_ok {readAt : ℕ → Except ε α} (hread : ∀ i a, items[i]? = some a → readAt i = .ok a)
    (first count : ℕ)
    (hstop : first + count ≤ items.length) :
    (List.range' first count).mapM readAt = .ok ((items.drop first).take count) := by
  induction count generalizing first with
  | zero => rfl
  | succ count ih =>
    have hfirst : first < items.length := by omega
    rw [List.range'_succ, List.mapM_cons, hread first _ (List.getElem?_eq_getElem hfirst), ih (first + 1) (by omega),
      List.drop_eq_getElem_cons hfirst, List.take_succ_cons]
    rfl

end SidechainsSdk.Paging
