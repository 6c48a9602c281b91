/-
Sharing an amount that does not divide: every item gets the quotient for each of its units, and the remainder goes to the
items in order, at most one for each unit, until it is used up.

- `sum_shares`: the shares add up to the quotient for all units and as much of the remainder as there are units.
- `mem_shares`: the share of an item, by what is left of the remainder when its turn comes. `share_bounds`: it lies between
  the quotient and the quotient plus one for each unit.
- `left_eq`, `units_before`: with the items in ascending order that depends only on the units of the smaller items and on how
  many items of the same size come before.
- `Cut`: the remainder is used up within the items of one size. `used_eq`, `used_ne`: then, and only then, their order counts.
-/
import Mathlib.Tactic
import Mathlib.Data.List.Sort
import Mathlib.Data.List.TakeWhile

namespace SidechainsSdk.RemainderShares

variable {α : Type}

/-- items with their units -/
abbrev Items (α : Type) := List (α × ℤ)

def units (l : Items α) : ℤ := (l.map Prod.snd).sum

def shares (q : ℤ) : ℤ → Items α → Items α
  | _, [] => []
  | r, x :: l => (x.1, q * x.2 + min r x.2) :: shares q (r - min r x.2) l

/-- what is left of a remainder -/
def left : ℤ → Items α → ℤ
  | r, [] => r
  | r, x :: l => left (r - min r x.2) l

variable {l pre post : Items α} {x : α × ℤ} {q r : ℤ}

@[simp] theorem units_nil : units ([] : Items α) = 0 := rfl

@[simp] theorem units_cons : units (x :: l) = x.2 + units l := rfl

theorem units_append (l l' : Items α) : units (l ++ l') = units l + units l' := by simp [units]

theorem units_perm {l' : Items α} (h : l.Perm l') : units l = units l' := (h.map Prod.snd).sum_eq

theorem units_nonneg (h : ∀ x ∈ l, 0 ≤ x.2) : 0 ≤ units l := by
  refine List.sum_nonneg ?_
  intro b hb
  obtain ⟨x, hx, rfl⟩ := List.mem_map.1 hb
  exact h x hx

theorem keys_shares (q r : ℤ) (l : Items α) : (shares q r l).map Prod.fst = l.map Prod.fst := by
  induction l generalizing r with
  | nil => rfl
  | cons x l ih => simp [shares, ih]

theorem shares_append (q r : ℤ) (l l' : Items α) : shares q r (l ++ l') = shares q r l ++ shares q (left r l) l' := by
  induction l generalizing r with
  | nil => rfl
  | cons x l ih => simp [shares, left, ih]

theorem sub_min (r b : ℤ) : r - min r b = max 0 (r - b) := by
  rcases le_total r b with hle | hle
  · rw [min_eq_left hle, sub_self, max_eq_left (sub_nonpos.2 hle)]
  · rw [min_eq_right hle, max_eq_right (sub_nonneg.2 hle)]

theorem left_nonneg (h : 0 ≤ r) (l : Items α) : 0 ≤ left r l := by
  induction l generalizing r with
  | nil => exact h
  | cons x l ih =>
    refine ih ?_
    rw [sub_min]
    exact le_max_left _ _

/-- **Exactness.** -/
theorem sum_shares (hl : ∀ x ∈ l, 0 ≤ x.2) (h : 0 ≤ r) : units (shares q r l) = q * units l + min r (units l) := by
  induction l generalizing r with
  | nil => simp [shares, h]
  | cons x l ih =>
    obtain ⟨hx, hl⟩ := List.forall_mem_cons.1 hl
    have hunits := units_nonneg hl
    have hmin : min r x.2 + min (r - min r x.2) (units l) = min r (x.2 + units l) := by omega
    have hrest : 0 ≤ r - min r x.2 := by
      rw [sub_min]
      exact le_max_left _ _
    calc units (shares q r (x :: l))
        = q * x.2 + min r x.2 + units (shares q (r - min r x.2) l) := rfl
      _ = q * x.2 + min r x.2 + (q * units l + min (r - min r x.2) (units l)) := by rw [ih hl hrest]
      _ = q * (x.2 + units l) + (min r x.2 + min (r - min r x.2) (units l)) := by ring
      _ = q * units (x :: l) + min r (units (x :: l)) := by rw [hmin, units_cons]

/-- the share of an item, when its turn comes -/
theorem mem_shares (q r : ℤ) (pre post : Items α) (x : α × ℤ) :
    (x.1, q * x.2 + min (left r pre) x.2) ∈ shares q r (pre ++ x :: post) := by
  rw [shares_append]
  exact List.mem_append_right _ List.mem_cons_self

theorem share_bounds (h : 0 ≤ r) (hx : 0 ≤ x.2) (pre : Items α) :
    q * x.2 ≤ q * x.2 + min (left r pre) x.2 ∧ q * x.2 + min (left r pre) x.2 ≤ (q + 1) * x.2 := by
  have hleft := left_nonneg h pre
  constructor
  · exact le_add_of_nonneg_right (le_min hleft hx)
  · calc q * x.2 + min (left r pre) x.2 ≤ q * x.2 + x.2 := add_le_add_right (min_le_right _ _) _
      _ = (q + 1) * x.2 := by ring

/-! ## Ascending items -/

def Ascending (l : Items α) : Prop := l.Pairwise fun x y => x.2 ≤ y.2

/-- the remainder is counted down, and stays at zero -/
theorem left_max (h : Ascending l) (hr : 0 ≤ r ∨ ∀ x ∈ l, 0 ≤ x.2) : left (max 0 r) l = max 0 (r - units l) := by
  induction l generalizing r with
  | nil => simp [left]
  | cons x l ih =>
    obtain ⟨hhead, htail⟩ := List.pairwise_cons.1 h
    have hstep : max 0 r - min (max 0 r) x.2 = max 0 (r - x.2) := by
      rw [sub_min]
      rcases hr with hr | hl
      · rw [max_eq_right hr]
      · have hx := hl x List.mem_cons_self
        omega
    have hnext : 0 ≤ r - x.2 ∨ ∀ y ∈ l, 0 ≤ y.2 := by
      rcases hr with hr | hl
      · by_cases hx : 0 ≤ x.2
        · exact .inr fun y hy => hx.trans (hhead y hy)
        · exact .inl (by omega)
      · exact .inr fun y hy => hl y (List.mem_cons_of_mem x hy)
    rw [left, hstep, ih htail hnext, units_cons, sub_sub]

theorem left_eq (h : Ascending l) (hr : 0 ≤ r) : left r l = max 0 (r - units l) := by
  have hleft := left_max h (.inl hr)
  rwa [max_eq_right hr] at hleft

/-- the units of the smaller items -/
def below (l : Items α) (b : ℤ) : ℤ := units (l.filter fun x => x.2 < b)

/-- the number of the items with as many units -/
def ties (l : Items α) (b : ℤ) : ℕ := l.countP fun x => x.2 = b

theorem below_perm {l' : Items α} (h : l.Perm l') (b : ℤ) : below l b = below l' b := units_perm (h.filter _)

theorem ties_perm {l' : Items α} (h : l.Perm l') (b : ℤ) : ties l b = ties l' b := h.countP_eq _

theorem units_le_items (h : ∀ x ∈ l, x.2 ≤ r) : units l = below l r + r * ties l r := by
  induction l with
  | nil => simp [below, ties]
  | cons x l ih =>
    obtain ⟨hx, hl⟩ := List.forall_mem_cons.1 h
    have htail := ih hl
    by_cases hlt : x.2 < r
    · have hbelow : below (x :: l) r = x.2 + below l r := by
        rw [below, List.filter_cons_of_pos (by simpa using hlt), units_cons, below]
      have hties : ties (x :: l) r = ties l r := List.countP_cons_of_neg (by simpa using hlt.ne)
      rw [units_cons, htail, hbelow, hties, add_assoc]
    · have heq : x.2 = r := le_antisymm hx (not_lt.1 hlt)
      have hbelow : below (x :: l) r = below l r := by
        rw [below, List.filter_cons_of_neg (by simpa using hlt), below]
      have hties : ties (x :: l) r = ties l r + 1 := List.countP_cons_of_pos (by simpa using heq)
      rw [units_cons, htail, hbelow, hties, heq]
      push_cast
      ring

/-- the units before an item: those of all smaller items, and of some of the same size -/
theorem units_before (h : Ascending (pre ++ x :: post)) :
    units pre = below (pre ++ x :: post) x.2 + x.2 * ties pre x.2 := by
  obtain ⟨hpre, hpost, hcross⟩ := List.pairwise_append.1 h
  have hle : ∀ y ∈ pre, y.2 ≤ x.2 := fun y hy => hcross y hy x List.mem_cons_self
  have hge : ∀ y ∈ x :: post, ¬ y.2 < x.2 := by
    intro y hy
    rcases List.mem_cons.1 hy with rfl | hy
    · exact lt_irrefl _
    · exact not_lt.2 ((List.pairwise_cons.1 hpost).1 y hy)
  have hbelow : below (pre ++ x :: post) x.2 = below pre x.2 := by
    have hnone : (x :: post).filter (fun y => y.2 < x.2) = [] := List.filter_eq_nil_iff.2 (by simpa using hge)
    rw [below, List.filter_append, hnone, List.append_nil, below]
  rw [hbelow]
  exact units_le_items hle

/-- the share of an item, by the number of items of its size that come before -/
theorem share_eq (h : Ascending (pre ++ x :: post)) (hr : 0 ≤ r) :
    (x.1, q * x.2 + min (max 0 (r - below (pre ++ x :: post) x.2 - x.2 * ties pre x.2)) x.2) ∈
      shares q r (pre ++ x :: post) := by
  have hmem := mem_shares q r pre post x
  have hpre : Ascending pre := (List.pairwise_append.1 h).1
  rwa [left_eq hpre hr, units_before h, ← sub_sub] at hmem

/-! ## Items of one size -/

/-- the remainder is used up within the items with `b` units, and there are several of them -/
structure Cut (r : ℤ) (l : Items α) (b : ℤ) : Prop where
  several : 2 ≤ ties l b
  starts : below l b < r
  ends : r < below l b + b * ties l b

/-- without a cut all items of a size take the same of the remainder -/
theorem used_eq {b : ℤ} (hcut : ¬ Cut r l b) {i j : ℕ} (hi : i < ties l b) (hj : j < ties l b) :
    min (max 0 (r - below l b - b * i)) b = min (max 0 (r - below l b - b * j)) b := by
  by_cases hseveral : 2 ≤ ties l b
  · by_cases hb : 0 < b
    · rcases le_or_gt r (below l b) with hstart | hstart
      · -- nothing is left
        have hzero : ∀ k : ℕ, max 0 (r - below l b - b * k) = 0 := by
          intro k
          have hk : 0 ≤ b * (k : ℤ) := mul_nonneg hb.le (Int.natCast_nonneg k)
          exact max_eq_left (by omega)
        rw [hzero, hzero]
      · -- there is enough for all of them
        have hend : below l b + b * ties l b ≤ r := by
          by_contra hlt
          exact hcut ⟨hseveral, hstart, not_le.1 hlt⟩
        have hall : ∀ k : ℕ, k < ties l b → min (max 0 (r - below l b - b * k)) b = b := by
          intro k hk
          have hk' : (k : ℤ) + 1 ≤ ties l b := by exact_mod_cast hk
          have hmul : b * ((k : ℤ) + 1) ≤ b * ties l b := mul_le_mul_of_nonneg_left hk' hb.le
          have hexpand : b * ((k : ℤ) + 1) = b * k + b := by ring
          exact min_eq_right (le_max_of_le_right (by omega))
        rw [hall i hi, hall j hj]
    · -- items without units, or with a negative number, do not use the remainder up
      have hall : ∀ k : ℕ, min (max 0 (r - below l b - b * k)) b = b :=
        fun k => min_eq_right ((not_lt.1 hb).trans (le_max_left _ _))
      rw [hall i, hall j]
  · have heq : i = j := by omega
    rw [heq]

/-- with a cut the first one of them takes more than the last one -/
theorem used_ne {b : ℤ} (hcut : Cut r l b) :
    min (max 0 (r - below l b - b * (0 : ℕ))) b ≠ min (max 0 (r - below l b - b * (ties l b - 1 : ℕ))) b := by
  obtain ⟨hseveral, hstart, hend⟩ := hcut
  have hcast : ((ties l b - 1 : ℕ) : ℤ) = ties l b - 1 := by
    rw [Nat.cast_sub (by omega)]
    rfl
  have hties : (2 : ℤ) ≤ ties l b := by exact_mod_cast hseveral
  have hb : 0 < b := by
    by_contra hneg
    have hprod : b * ties l b ≤ 0 := mul_nonpos_of_nonpos_of_nonneg (not_lt.1 hneg) (by omega)
    omega
  have hlast : b * ties l b = b * (ties l b - 1 : ℤ) + b := by ring
  have hfirst : b * 1 ≤ b * (ties l b - 1 : ℤ) := mul_le_mul_of_nonneg_left (by omega) hb.le
  rw [hcast]
  push_cast
  omega

/-! ## Sorting -/

/-- an item that stands first before the sorting comes before all others of its size -/
theorem ties_of_first (x : α × ℤ) (l : Items α) : ∃ pre post,
    (x :: l).insertionSort (fun x y => x.2 ≤ y.2) = pre ++ x :: post ∧ ties pre x.2 = 0 := by
  refine ⟨_, _, List.insertionSort_cons_eq_take_drop _ x l, ?_⟩
  refine List.countP_eq_zero.2 ?_
  intro y hy
  have hlt : ¬ x.2 ≤ y.2 := by simpa using List.mem_takeWhile_imp hy
  simpa using fun heq : y.2 = x.2 => hlt heq.ge

/-- of the items of a size there is a last one -/
theorem exists_last {b : ℤ} (h : 0 < ties l b) :
    ∃ pre x post, l = pre ++ x :: post ∧ x.2 = b ∧ ties pre b + 1 = ties l b := by
  induction l with
  | nil => cases h
  | cons y l ih =>
    by_cases htail : 0 < ties l b
    · obtain ⟨pre, x, post, rfl, hx, hties⟩ := ih htail
      refine ⟨y :: pre, x, post, rfl, hx, ?_⟩
      unfold ties at hties ⊢
      rw [List.countP_cons, List.countP_cons, add_right_comm, hties]
    · have hy : y.2 = b := by
        by_contra hne
        rw [ties, List.countP_cons_of_neg (by simpa using hne)] at h
        exact htail h
      refine ⟨[], y, l, rfl, hy, ?_⟩
      have hzero : ties l b = 0 := Nat.eq_zero_of_not_pos htail
      rw [ties, ties, List.countP_cons_of_pos (by simpa using hy)]
      exact congrArg (· + 1) hzero.symm

instance totalSnd : Std.Total fun x y : α × ℤ => x.2 ≤ y.2 := ⟨fun x y => le_total x.2 y.2⟩

instance isTransSnd : IsTrans (α × ℤ) fun x y => x.2 ≤ y.2 := ⟨fun _ _ _ hxy hyz => hxy.trans hyz⟩

theorem ascending_insertionSort (l : Items α) : Ascending (l.insertionSort fun x y => x.2 ≤ y.2) :=
  List.pairwise_insertionSort _ l

end SidechainsSdk.RemainderShares
