/-
Several versioned stores that are written one after the other, and rolled back one after the other.

- `After`: how many versions of a store came after a given one; `ReturnsTo`: a store that is again as it was with a version.
- `foldl_write_eq`: what a version has changed when a list of stores has it.
- `rollbackAll_eq`: a list of stores goes back together, if all of them have the version.
-/
import Mathlib.Tactic
import SidechainsSdk.Core.Snapshots

namespace SidechainsSdk

namespace Snapshots

variable {ν σ : Type}

def lastVersion (s : Snapshots ν σ) : Option ν := s.versions.head?

/-- `n` versions came after the version `v` -/
def After (v : ν) (n : ℕ) (s : Snapshots ν σ) : Prop :=
  ∃ newer c older, s.stack = newer ++ (v, c) :: older ∧ (∀ p ∈ newer, p.1 ≠ v) ∧ newer.length = n

/-- `new` is `old` when it had the version `v`; some of the oldest versions may be missing -/
def ReturnsTo (v : ν) (old new : Snapshots ν σ) : Prop :=
  ∃ newer c older kept, old.stack = newer ++ (v, c) :: older ∧ (∀ p ∈ newer, p.1 ≠ v) ∧ new.stack = (v, c) :: kept ∧
    kept <+: older

variable {v v' : ν} {n keep : ℕ} {s old new : Snapshots ν σ} {c : σ}

theorem After.mem (h : After v n s) : v ∈ s.versions := by
  obtain ⟨newer, c, older, hstack, -, -⟩ := h
  simp [versions, hstack]

theorem After.lastVersion_iff (h : After v n s) : s.lastVersion = some v ↔ n = 0 := by
  obtain ⟨newer, c, older, hstack, hnewer, rfl⟩ := h
  cases newer with
  | nil => simp [lastVersion, versions, hstack]
  | cons p newer => simp [lastVersion, versions, hstack, hnewer p List.mem_cons_self]

theorem after_zero_iff : After v 0 s ↔ s.lastVersion = some v := by
  refine ⟨fun h => h.lastVersion_iff.2 rfl, fun h => ?_⟩
  obtain ⟨⟨v', c⟩, hhead, rfl⟩ := Option.map_eq_some_iff.1 ((List.head?_map ..).symm.trans h)
  obtain ⟨older, holder⟩ := List.head?_eq_some_iff.1 hhead
  exact ⟨[], c, older, holder, by simp, rfl⟩

/-- the last of the two newest versions -/
theorem After.take_two_getLast? (h : After v n s) (hn : n ≠ 0) : (s.versions.take 2).getLast? = some v ↔ n = 1 := by
  obtain ⟨newer, c, older, hstack, hnewer, rfl⟩ := h
  match newer with
  | [] => exact absurd rfl hn
  | [p] => simp [versions, hstack]
  | p :: q :: newer => simp [versions, hstack, hnewer q (by simp)]

theorem After.push (h : After v n s) (hne : v' ≠ v) (hroom : n + 1 < keep) (c : σ) : After v (n + 1) (s.push keep v' c) := by
  obtain ⟨newer, x, older, hstack, hnewer, rfl⟩ := h
  refine ⟨(v', c) :: newer, x, older.take (keep - (newer.length + 2)), ?_, ?_, rfl⟩
  · have hkeep : keep = ((v', c) :: newer).length + (keep - (newer.length + 2) + 1) := by
      rw [List.length_cons]
      omega
    change ((v', c) :: s.stack).take keep = _
    rw [hstack, ← List.cons_append, hkeep, List.take_length_add_append, List.take_succ_cons, ← hkeep]
  · simpa [hne] using hnewer

theorem lastVersion_push (hkeep : 0 < keep) (v : ν) (c : σ) (s : Snapshots ν σ) : (s.push keep v c).lastVersion = some v := by
  obtain ⟨n, rfl⟩ := Nat.exists_eq_succ_of_ne_zero hkeep.ne'
  rfl

/-- a store that is not written any more returns to its last version -/
theorem returnsTo_self (h : s.lastVersion = some v) : ReturnsTo v s s := by
  obtain ⟨newer, c, older, hstack, hnewer, hlength⟩ := after_zero_iff.2 h
  obtain rfl := List.length_eq_zero_iff.1 hlength
  exact ⟨[], c, older, older, hstack, hnewer, hstack, List.prefix_refl _⟩

/-- what returns to a version after a new one returns to it from before -/
theorem ReturnsTo.of_push (h : ReturnsTo v (s.push keep v' c) new) (hne : v' ≠ v) : ReturnsTo v s new := by
  obtain ⟨newer, x, older, kept, hstack, hnewer, hnew, hkept⟩ := h
  change ((v', c) :: s.stack).take keep = _ at hstack
  obtain ⟨rest, hrest⟩ := List.take_prefix keep ((v', c) :: s.stack)
  rw [hstack, List.append_assoc] at hrest
  cases newer with
  | nil => exact absurd (congrArg Prod.fst (List.cons.inj hrest).1).symm hne
  | cons p newer =>
    refine ⟨newer, x, older ++ rest, kept, (List.cons.inj hrest).2.symm, fun q hq => hnewer q (by simp [hq]), hnew, ?_⟩
    exact hkept.trans (List.prefix_append _ _)

theorem ReturnsTo.lastVersion (h : ReturnsTo v old new) : new.lastVersion = some v := by
  obtain ⟨-, c, -, kept, -, -, hnew, -⟩ := h
  simp [Snapshots.lastVersion, versions, hnew]

/-- the contents are those recorded with the version -/
theorem ReturnsTo.current (h : ReturnsTo v old new) : (v, new.current) ∈ old.stack := by
  obtain ⟨newer, c, older, kept, hstack, -, hnew, -⟩ := h
  simp [Snapshots.current, hstack, hnew]

theorem ReturnsTo.versions_subset (h : ReturnsTo v old new) : ∀ w ∈ new.versions, w ∈ old.versions := by
  obtain ⟨newer, c, older, kept, hstack, -, hnew, hkept⟩ := h
  intro w hw
  simp only [versions, hstack, hnew, List.map_append, List.map_cons, List.mem_append, List.mem_cons] at hw ⊢
  rcases hw with rfl | hw
  · exact .inr (.inl rfl)
  · obtain ⟨p, hp, rfl⟩ := List.mem_map.1 hw
    exact .inr (.inr (List.mem_map_of_mem (hkept.subset hp)))

theorem ReturnsTo.trans {old mid new : Snapshots ν σ} (h : ReturnsTo v old mid) (h' : ReturnsTo v mid new) :
    ReturnsTo v old new := by
  obtain ⟨newer, c, older, kept, hold, hnewer, hmid, hkept⟩ := h
  obtain ⟨newer', c', older', kept', hmid', hnewer', hnew, hkept'⟩ := h'
  rw [hmid] at hmid'
  cases newer' with
  | nil =>
    obtain ⟨hpair, rfl⟩ := List.cons.inj hmid'
    obtain rfl := (Prod.mk.inj hpair).2
    exact ⟨newer, c, older, kept', hold, hnewer, hnew, hkept'.trans hkept⟩
  | cons q newer' => exact absurd (congrArg Prod.fst (List.cons.inj hmid').1).symm (hnewer' q List.mem_cons_self)

theorem returnsTo_rollback [DecidableEq ν] (h : v ∈ s.versions) : ReturnsTo v s (s.rollback v) := by
  obtain ⟨undone, c, kept, hstack, hundone, hroll⟩ := stack_split h
  exact ⟨undone, c, kept, kept, hstack, hundone, hroll, List.prefix_refl _⟩

/-- a rollback to the last version changes nothing -/
theorem rollback_lastVersion [DecidableEq ν] (h : s.lastVersion = some v) : s.rollback v = s := by
  obtain ⟨newer, c, older, hstack, -, hlength⟩ := after_zero_iff.2 h
  obtain rfl := List.length_eq_zero_iff.1 hlength
  obtain ⟨base, stack⟩ := s
  simp only [List.nil_append] at hstack
  simp [rollback, hstack]

end Snapshots

/-- stores with versions, by their names -/
abbrev StoreFamily (ι ν σ : Type) := ι → Snapshots ν σ

namespace StoreFamily

/-- the last store of an order is not among those before it -/
theorem last_not_mem_take {ι : Type} {order : List ι} {i : ι} (hnodup : order.Nodup) (hlast : order.getLast? = some i)
    {k : ℕ}
    (hk : k < order.length) : i ∉ order.take k := by
  obtain ⟨init, rfl⟩ := List.getLast?_eq_some_iff.1 hlast
  rw [List.length_append, List.length_singleton] at hk
  rw [List.take_append_of_le_length (by omega)]
  exact fun hmem => List.disjoint_of_nodup_append hnodup (List.mem_of_mem_take hmem) (by simp)

variable {ι ν σ : Type} [DecidableEq ι]

/-- one store takes a version -/
def write (keep : ι → ℕ) (s : StoreFamily ι ν σ) (w : ι × ν × σ) : StoreFamily ι ν σ :=
  Function.update s w.1 ((s w.1).push (keep w.1) w.2.1 w.2.2)

theorem foldl_write_eq {keep : ι → ℕ} {v : ν} {c : ι → σ} {l : List ι} (hl : l.Nodup) (s : StoreFamily ι ν σ) :
    (l.map fun i => (i, v, c i)).foldl (write keep) s = fun i => if i ∈ l then (s i).push (keep i) v (c i) else s i := by
  induction l generalizing s with
  | nil => simp
  | cons i l ih =>
    obtain ⟨hi, hl⟩ := List.nodup_cons.1 hl
    rw [List.map_cons, List.foldl_cons, ih hl]
    funext j
    by_cases hj : j = i
    · subst hj
      simp [write, hi]
    · simp [write, hj]

variable [DecidableEq ν]

/-- one store goes back; it has to have the version -/
def rollback (v : ν) (s : StoreFamily ι ν σ) (i : ι) : Option (StoreFamily ι ν σ) :=
  if v ∈ (s i).versions then some (Function.update s i ((s i).rollback v)) else none

/-- the stores go back one after the other -/
def rollbackAll (v : ν) (l : List ι) (s : StoreFamily ι ν σ) : Option (StoreFamily ι ν σ) := l.foldlM (rollback v) s

theorem rollbackAll_eq {v : ν} {l : List ι} {s : StoreFamily ι ν σ} (hl : l.Nodup) (h : ∀ i ∈ l, v ∈ (s i).versions) :
    rollbackAll v l s = some fun i => if i ∈ l then (s i).rollback v else s i := by
  induction l generalizing s with
  | nil => rfl
  | cons i l ih =>
    obtain ⟨hi, hl⟩ := List.nodup_cons.1 hl
    obtain ⟨hv, h⟩ := List.forall_mem_cons.1 h
    have hne : ∀ j ∈ l, j ≠ i := fun j hj heq => hi (heq ▸ hj)
    have hrest : ∀ j ∈ l, v ∈ ((Function.update s i ((s i).rollback v)) j).versions := by
      intro j hj
      rw [Function.update_of_ne (hne j hj)]
      exact h j hj
    have htail := ih hl hrest
    rw [rollbackAll, List.foldlM_cons, rollback, if_pos hv]
    refine htail.trans (congrArg some (funext fun j => ?_))
    by_cases hj : j = i
    · subst hj
      simp [hi]
    · simp [hj]

end StoreFamily

end SidechainsSdk
