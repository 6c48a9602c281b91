/-
Versioned contents as a stack of snapshots. A version stands for the contents right after it was made; only the newest
versions are kept, and rolling back to one of them drops the versions after it.

- `current_push`, `versions_push`: a new version, and which old ones stay.
- `current_rollback`: after a rollback the contents are those recorded with the version.
- `Forall`: a property of all recorded contents, kept by both operations.
-/
import Mathlib.Tactic

namespace SidechainsSdk

/-- the versions with their contents, newest first, over the contents before the first version -/
structure Snapshots (ν σ : Type) where
  base : σ
  stack : List (ν × σ)

namespace Snapshots

variable {ν σ : Type}

/-- the contents now -/
def current (s : Snapshots ν σ) : σ := (s.stack.head?.map Prod.snd).getD s.base

/-- the versions that can be rolled back to, newest first -/
def versions (s : Snapshots ν σ) : List ν := s.stack.map Prod.fst

/-- a new version `v` with contents `c`; the last `keep` versions stay -/
def push (keep : ℕ) (v : ν) (c : σ) (s : Snapshots ν σ) : Snapshots ν σ :=
  { s with stack := ((v, c) :: s.stack).take keep }

/-- drops the versions after `v` -/
def rollback [DecidableEq ν] (v : ν) (s : Snapshots ν σ) : Snapshots ν σ :=
  { s with stack := s.stack.dropWhile fun p => p.1 ≠ v }

theorem current_push {keep : ℕ} (hkeep : 0 < keep) (v : ν) (c : σ) (s : Snapshots ν σ) :
    (s.push keep v c).current = c := by
  obtain ⟨n, rfl⟩ := Nat.exists_eq_succ_of_ne_zero hkeep.ne'
  rfl

theorem versions_push (keep : ℕ) (v : ν) (c : σ) (s : Snapshots ν σ) :
    (s.push keep v c).versions = (v :: s.versions).take keep := by
  simp [versions, push, List.map_take]

/-- a new version is a change -/
theorem push_ne {keep : ℕ} (hkeep : 0 < keep) {v : ν} {s : Snapshots ν σ} (h : v ∉ s.versions) (c : σ) :
    s.push keep v c ≠ s := by
  intro heq
  refine h ?_
  rw [← heq, versions_push]
  obtain ⟨n, rfl⟩ := Nat.exists_eq_succ_of_ne_zero hkeep.ne'
  exact List.mem_cons_self

theorem length_push_le (keep : ℕ) (v : ν) (c : σ) (s : Snapshots ν σ) :
    (s.push keep v c).stack.length ≤ keep := List.length_take_le _ _

theorem mem_of_mem_push {keep : ℕ} {v : ν} {c : σ} {s : Snapshots ν σ} {p : ν × σ}
    (h : p ∈ (s.push keep v c).stack) : p = (v, c) ∨ p ∈ s.stack :=
  List.mem_cons.1 (List.mem_of_mem_take h)

section Rollback

variable [DecidableEq ν]

/-- the versions dropped and those that stay -/
theorem stack_split {v : ν} {s : Snapshots ν σ} (h : v ∈ s.versions) :
    ∃ undone c kept, s.stack = undone ++ (v, c) :: kept ∧ (∀ p ∈ undone, p.1 ≠ v) ∧
      (s.rollback v).stack = (v, c) :: kept := by
  obtain ⟨base, stack⟩ := s
  simp only [versions, rollback] at h ⊢
  induction stack with
  | nil => simp at h
  | cons p stack ih =>
    by_cases hp : p.1 = v
    · refine ⟨[], p.2, stack, ?_, by simp, ?_⟩
      · rw [← hp]
        rfl
      · rw [List.dropWhile_cons_of_neg (by simpa using hp), ← hp]
    · obtain ⟨undone, c, kept, hstack, hundone, hdrop⟩ := ih (by simpa [Ne.symm hp] using h)
      refine ⟨p :: undone, c, kept, by rw [hstack]; rfl, ?_, ?_⟩
      · intro q hq
        rcases List.mem_cons.1 hq with rfl | hq
        · exact hp
        · exact hundone q hq
      · rw [List.dropWhile_cons_of_pos (by simpa using hp), hdrop]

/-- after a rollback the contents are those recorded with the version -/
theorem current_rollback {v : ν} {c : σ} {s : Snapshots ν σ} (hnodup : s.versions.Nodup) (h : (v, c) ∈ s.stack) :
    (s.rollback v).current = c := by
  obtain ⟨undone, c', kept, hstack, hundone, hroll⟩ :=
    stack_split (v := v) (s := s) (List.mem_map_of_mem (f := Prod.fst) h)
  have hcurrent : (s.rollback v).current = c' := by
    unfold current
    rw [hroll]
    rfl
  rw [hcurrent]
  rw [versions, hstack, List.map_append, List.map_cons] at hnodup
  rw [hstack] at h
  rcases List.mem_append.1 h with h | h
  · exact absurd rfl (hundone _ h)
  rcases List.mem_cons.1 h with h | h
  · exact (Prod.mk.inj h).2.symm
  · have hv : v ∉ kept.map Prod.fst := (List.nodup_cons.1 hnodup.of_append_right).1
    exact absurd (List.mem_map_of_mem (f := Prod.fst) h) hv

theorem rollback_suffix (v : ν) (s : Snapshots ν σ) : (s.rollback v).stack <:+ s.stack := List.dropWhile_suffix _

end Rollback

/-- `P` holds of the contents of every version, and of those before the first -/
def Forall (P : σ → Prop) (s : Snapshots ν σ) : Prop := P s.base ∧ ∀ p ∈ s.stack, P p.2

theorem Forall.current {P : σ → Prop} {s : Snapshots ν σ} (h : s.Forall P) : P s.current := by
  obtain ⟨base, stack⟩ := s
  cases stack with
  | nil => exact h.1
  | cons p stack => exact h.2 p List.mem_cons_self

theorem Forall.push {P : σ → Prop} {s : Snapshots ν σ} (h : s.Forall P) (keep : ℕ) (v : ν) {c : σ} (hc : P c) :
    (s.push keep v c).Forall P := by
  refine ⟨h.1, ?_⟩
  intro p hp
  rcases mem_of_mem_push hp with rfl | hp
  · exact hc
  · exact h.2 p hp

theorem Forall.rollback [DecidableEq ν] {P : σ → Prop} {s : Snapshots ν σ} (h : s.Forall P) (v : ν) :
    (s.rollback v).Forall P :=
  ⟨h.1, fun p hp => h.2 p ((rollback_suffix v s).mem hp)⟩

end Snapshots

end SidechainsSdk
