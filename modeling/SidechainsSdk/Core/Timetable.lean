/-
Periods of time with numbers, in segments of constant length: a segment says from which number on the periods have its
length. `startOf` walks the segments to the one of a number, `numberAt` to the one of a time.

- `startOf_lt_succ`, `startOf_strictMono`: every period starts before the next one.
- `floor`, `numberAt_eq`: the period at a time is the one that has started and whose successor has not.
- `card_changes`: a function that grows by at most one a unit of time changes as often as it grows.

Times and numbers are integers; the shortest period has one unit of time.
-/
import Mathlib.Tactic

namespace SidechainsSdk.Timetable

/-- from the period `first` on, periods have this length -/
structure Segment where
  first : ℤ
  length : ℤ

/-- the time of a later period, within the segment that starts at `start` -/
def Segment.startOf (seg : Segment) (start n : ℤ) : ℤ := start + (n - seg.first) * seg.length

def Segment.numberAt (seg : Segment) (start t : ℤ) : ℤ := seg.first + (t - start) / seg.length

/-- the time at which a period starts -/
def startOf (start : ℤ) (seg : Segment) : List Segment → ℤ → ℤ
  | [], n => seg.startOf start n
  | next :: rest, n => if n < next.first then seg.startOf start n else startOf (seg.startOf start next.first) next rest n

/-- the period at a time -/
def numberAt (start : ℤ) (seg : Segment) : List Segment → ℤ → ℤ
  | [], t => seg.numberAt start t
  | next :: rest, t =>
    if t < seg.startOf start next.first then seg.numberAt start t else numberAt (seg.startOf start next.first) next rest t

/-- segments start one after the other, and have periods of at least one unit -/
def Ordered (seg : Segment) : List Segment → Prop
  | [] => 0 < seg.length
  | next :: rest => 0 < seg.length ∧ seg.first < next.first ∧ Ordered next rest

variable {o t n : ℤ} {seg : Segment} {rest : List Segment}

theorem Ordered.pos (h : Ordered seg rest) : 0 < seg.length := by
  cases rest with
  | nil => exact h
  | cons next rest => exact h.1

/-! ## Within a segment -/

theorem Segment.startOf_succ (seg : Segment) (o n : ℤ) : seg.startOf o (n + 1) = seg.startOf o n + seg.length := by
  unfold Segment.startOf
  ring

@[simp] theorem Segment.startOf_first (seg : Segment) (o : ℤ) : seg.startOf o seg.first = o := by
  simp [Segment.startOf]

theorem Segment.startOf_mono (h : 0 < seg.length) {m : ℤ} (hmn : m ≤ n) : seg.startOf o m ≤ seg.startOf o n := by
  unfold Segment.startOf
  have hmul : (m - seg.first) * seg.length ≤ (n - seg.first) * seg.length :=
    mul_le_mul_of_nonneg_right (by omega) h.le
  omega

theorem Segment.numberAt_eq_iff (h : 0 < seg.length) :
    seg.numberAt o t = n ↔ seg.startOf o n ≤ t ∧ t < seg.startOf o n + seg.length := by
  have hdiv : (t - o) / seg.length = n - seg.first ↔
      (n - seg.first) * seg.length ≤ t - o ∧ t - o < (n - seg.first) * seg.length + seg.length :=
    Int.ediv_eq_iff_of_pos h
  unfold Segment.numberAt Segment.startOf
  constructor
  · intro heq
    obtain ⟨hle, hlt⟩ := hdiv.1 (by omega)
    constructor <;> omega
  · rintro ⟨hle, hlt⟩
    have := hdiv.2 ⟨by omega, by omega⟩
    omega

theorem Segment.numberAt_lt (h : 0 < seg.length) (ht : t < seg.startOf o n) : seg.numberAt o t < n := by
  obtain ⟨hle, -⟩ := (seg.numberAt_eq_iff (o := o) (t := t) h).1 rfl
  by_contra hge
  have := seg.startOf_mono (o := o) h (not_lt.1 hge)
  omega

/-! ## Across segments -/

@[simp] theorem startOf_first (h : Ordered seg rest) : startOf o seg rest seg.first = o := by
  cases rest with
  | nil => exact seg.startOf_first o
  | cons next rest => rw [startOf, if_pos h.2.1, seg.startOf_first]

/-- past the start of the next segment, the walk may begin there -/
theorem startOf_next {next : Segment} (hn : next.first ≤ n) :
    startOf o seg (next :: rest) n = startOf (seg.startOf o next.first) next rest n := by
  rw [startOf, if_neg (not_lt.2 hn)]

theorem startOf_lt_succ (h : Ordered seg rest) (hn : seg.first ≤ n) :
    startOf o seg rest n < startOf o seg rest (n + 1) := by
  induction rest generalizing o seg with
  | nil =>
    have hpos := h.pos
    rw [startOf, startOf, seg.startOf_succ]
    omega
  | cons next rest ih =>
    have hpos := h.pos
    rcases lt_trichotomy (n + 1) next.first with hlt | heq | hgt
    · rw [startOf, startOf, if_pos (by omega), if_pos hlt, seg.startOf_succ]
      omega
    · have hlast : startOf o seg (next :: rest) n = seg.startOf o n := by rw [startOf, if_pos (by omega)]
      rw [hlast, startOf_next heq.ge, ← heq, seg.startOf_succ, heq, startOf_first h.2.2]
      omega
    · rw [startOf_next (by omega), startOf_next (by omega)]
      exact ih h.2.2 (by omega)

theorem startOf_mono (h : Ordered seg rest) {m : ℤ} (hm : seg.first ≤ m) (hmn : m ≤ n) :
    startOf o seg rest m ≤ startOf o seg rest n := by
  induction n, hmn using Int.leInduction with
  | base => exact le_rfl
  | succ n hmn ih => exact ih.trans (startOf_lt_succ h (hm.trans hmn)).le

/-- the period at a time has started, and the next one has not -/
theorem floor (h : Ordered seg rest) (ht : o ≤ t) :
    seg.first ≤ numberAt o seg rest t ∧ startOf o seg rest (numberAt o seg rest t) ≤ t ∧
      t < startOf o seg rest (numberAt o seg rest t + 1) := by
  induction rest generalizing o seg with
  | nil =>
    have hpos := h.pos
    obtain ⟨hle, hlt⟩ := (seg.numberAt_eq_iff (o := o) (t := t) hpos).1 rfl
    refine ⟨?_, hle, ?_⟩
    · have := Int.ediv_nonneg (show 0 ≤ t - o by omega) hpos.le
      simp only [numberAt, Segment.numberAt]
      omega
    · rw [startOf, seg.startOf_succ]
      exact hlt
  | cons next rest ih =>
    have hpos := h.pos
    rw [numberAt]
    split_ifs with hbefore
    · obtain ⟨hle, hlt⟩ := (seg.numberAt_eq_iff (o := o) (t := t) hpos).1 rfl
      have hfirst : seg.first ≤ seg.numberAt o t := by
        have := Int.ediv_nonneg (show 0 ≤ t - o by omega) hpos.le
        simp only [Segment.numberAt]
        omega
      have hnumber : seg.numberAt o t < next.first := seg.numberAt_lt hpos hbefore
      refine ⟨hfirst, ?_, ?_⟩
      · rw [startOf, if_pos hnumber]
        exact hle
      · rcases lt_or_eq_of_le (Int.add_one_le_of_lt hnumber) with hlt' | heq
        · rw [startOf, if_pos hlt', seg.startOf_succ]
          exact hlt
        · rw [heq, startOf_next le_rfl, startOf_first h.2.2]
          exact hbefore
    · obtain ⟨hfirst, hle, hlt⟩ := ih h.2.2 (not_lt.1 hbefore)
      have hnext := h.2.1
      rw [startOf_next hfirst, startOf_next (by omega)]
      exact ⟨by omega, hle, hlt⟩

theorem numberAt_eq (h : Ordered seg rest) (hn : seg.first ≤ n) (hle : startOf o seg rest n ≤ t)
    (hlt : t < startOf o seg rest (n + 1)) : numberAt o seg rest t = n := by
  have hstart : o ≤ t := by
    have := startOf_mono (o := o) h le_rfl hn
    rw [startOf_first h] at this
    omega
  obtain ⟨hfirst, hle', hlt'⟩ := floor h hstart
  by_contra hne
  rcases lt_or_gt_of_ne hne with hbefore | hafter
  · have := startOf_mono (o := o) h (by omega) (Int.add_one_le_of_lt hbefore)
    omega
  · have := startOf_mono (o := o) h (by omega) (Int.add_one_le_of_lt hafter)
    omega

theorem numberAt_mono (h : Ordered seg rest) {u : ℤ} (ht : o ≤ t) (htu : t ≤ u) :
    numberAt o seg rest t ≤ numberAt o seg rest u := by
  obtain ⟨hfirst, hle, hlt⟩ := floor h ht
  obtain ⟨hfirst', hle', hlt'⟩ := floor h (ht.trans htu)
  by_contra hgt
  have := startOf_mono (o := o) h (by omega) (Int.add_one_le_of_lt (not_le.1 hgt))
  omega

/-- one unit of time is at most one period -/
theorem numberAt_succ_le (h : Ordered seg rest) (ht : o ≤ t) :
    numberAt o seg rest (t + 1) ≤ numberAt o seg rest t + 1 := by
  obtain ⟨hfirst, hle, hlt⟩ := floor h ht
  obtain ⟨hfirst', hle', hlt'⟩ := floor h (show o ≤ t + 1 by omega)
  by_contra hgt
  have hone := startOf_lt_succ (o := o) h (n := numberAt o seg rest t + 1) (by omega)
  have := startOf_mono (o := o) h (by omega) (show numberAt o seg rest t + 1 + 1 ≤ numberAt o seg rest (t + 1) by omega)
  omega

/-! ## Changes -/

/-- a function that grows by at most one at a time changes as often as it grows -/
theorem card_changes {f : ℤ → ℤ} {a b : ℤ} (hab : a ≤ b) (hmono : ∀ t, a ≤ t → f t ≤ f (t + 1))
    (hone : ∀ t, a ≤ t → f (t + 1) ≤ f t + 1) :
    (((Finset.Ioc a b).filter fun t => f t ≠ f (t - 1)).card : ℤ) = f b - f a := by
  induction b, hab using Int.leInduction with
  | base => simp
  | succ b hab ih =>
    have hinsert : Finset.Ioc a (b + 1) = insert (b + 1) (Finset.Ioc a b) := by
      ext x
      simp only [Finset.mem_Ioc, Finset.mem_insert]
      omega
    have hle := hmono b hab
    have hle' := hone b hab
    rw [hinsert, Finset.filter_insert]
    split_ifs with hchange
    · rw [Finset.card_insert_of_notMem (by simp)]
      rw [add_sub_cancel_right] at hchange
      push_cast
      rw [ih]
      omega
    · rw [add_sub_cancel_right, not_not] at hchange
      rw [ih, hchange]

end SidechainsSdk.Timetable
