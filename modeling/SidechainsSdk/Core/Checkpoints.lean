/-
Step functions kept as a list of checkpoints. A checkpoint says from which time on a quantity has which value; the value
at a time is that of the last checkpoint that is not later, and zero before the first. The times in a list increase.

`record` writes a new value from a time on, and keeps the list short: at the time of the last checkpoint that checkpoint
is replaced, or dropped when the one before it has the new value already.

- `valueAt_concat`: the value after one more checkpoint.
- `valueAt_record`: whatever `record` does to the list, the step function changes from the given time on and nowhere
  else.
- `record_sorted`, `record_ne_nil`: the times still increase, and a history never becomes empty.
- `valueAt_latest`: from the time of the last checkpoint on the value is its value.
-/
import Mathlib.Tactic

namespace SidechainsSdk.Checkpoints

variable {γ τ M : Type} [LinearOrder τ] [Zero M] (time : γ → τ) (value : γ → M)

/-- the value of the last checkpoint that is not later than `t`, or zero -/
def valueAt (l : List γ) (t : τ) : M := ((l.filter fun c => time c ≤ t).getLast?.map value).getD 0

/-- the value of the last checkpoint, or zero -/
def latest {γ M : Type} [Zero M] (value : γ → M) (l : List γ) : M := (l.getLast?.map value).getD 0

/-- the times increase -/
def Sorted (l : List γ) : Prop := l.Pairwise fun c d => time c < time d

/-- writes `new` from `t` on; `mk` makes a checkpoint -/
def record [DecidableEq M] (mk : τ → M → γ) (l : List γ) (t : τ) (new : M) : List γ :=
  match l.getLast? with
  | none => [mk t new]
  | some last =>
    if time last = t then
      if l.dropLast.getLast?.map value = some new then l.dropLast else l.dropLast ++ [mk t new]
    else l ++ [mk t new]

@[simp] theorem valueAt_nil (t : τ) : valueAt time value [] t = 0 := rfl

theorem valueAt_concat (l : List γ) (c : γ) (t : τ) :
    valueAt time value (l ++ [c]) t = if time c ≤ t then value c else valueAt time value l t := by
  unfold valueAt
  rw [List.filter_append]
  by_cases h : time c ≤ t
  · simp [h]
  · simp [h]

theorem latest_concat (l : List γ) (c : γ) : latest value (l ++ [c]) = value c := by
  simp [latest]

/-- from the last checkpoint on the value is the latest one -/
theorem valueAt_latest (l : List γ) (t : τ) (h : ∀ c ∈ l.getLast?, time c ≤ t) :
    valueAt time value l t = latest value l := by
  rcases List.eq_nil_or_concat l with rfl | ⟨init, last, rfl⟩
  · rfl
  · rw [List.concat_eq_append] at h ⊢
    have hlast : time last ≤ t := h last (by simp)
    rw [valueAt_concat, latest_concat, if_pos hlast]

theorem Sorted.init {l : List γ} {c : γ} (h : Sorted time (l ++ [c])) : Sorted time l :=
  (List.pairwise_append.1 h).1

theorem Sorted.lt_last {l : List γ} {c d : γ} (h : Sorted time (l ++ [c])) (hd : d ∈ l) : time d < time c :=
  (List.pairwise_append.1 h).2.2 d hd c (by simp)

section Record

variable [DecidableEq M] (mk : τ → M → γ) (htime : ∀ t v, time (mk t v) = t) (hvalue : ∀ t v, value (mk t v) = v)

omit [Zero M] in
include htime in
theorem record_sorted (l : List γ) (t : τ) (new : M) (hsorted : Sorted time l)
    (hlast : ∀ c ∈ l.getLast?, time c ≤ t) : Sorted time (record time value mk l t new) := by
  rcases List.eq_nil_or_concat l with rfl | ⟨init, last, rfl⟩
  · simp [record, Sorted]
  rw [List.concat_eq_append] at hsorted hlast ⊢
  have hle : time last ≤ t := hlast last (by simp)
  have happend : ∀ l' : List γ, Sorted time l' → (∀ c ∈ l', time c < t) → Sorted time (l' ++ [mk t new]) := by
    intro l' hl' hlt
    refine List.pairwise_append.2 ⟨hl', List.pairwise_singleton _ _, ?_⟩
    intro c hc d hd
    rw [List.mem_singleton.1 hd, htime]
    exact hlt c hc
  simp only [record, List.getLast?_append, List.getLast?_singleton, Option.some_or, List.dropLast_concat]
  split_ifs with heq hsame
  · exact hsorted.init
  · refine happend init hsorted.init ?_
    intro c hc
    exact heq ▸ hsorted.lt_last time hc
  · refine happend _ hsorted ?_
    intro c hc
    have hlt : time last < t := lt_of_le_of_ne hle heq
    rcases List.mem_append.1 hc with hc | hc
    · exact (hsorted.lt_last time hc).trans hlt
    · rw [List.mem_singleton.1 hc]
      exact hlt

omit [Zero M] in
theorem record_ne_nil (l : List γ) (t : τ) (new : M) : record time value mk l t new ≠ [] := by
  unfold record
  split
  · simp
  · split_ifs with heq hsame
    · intro hnil
      rw [hnil] at hsame
      simp at hsame
    · simp
    · simp

include hvalue in
theorem latest_record (l : List γ) (t : τ) (new : M) : latest value (record time value mk l t new) = new := by
  unfold record
  split
  · simp [latest, hvalue]
  · split_ifs with heq hsame
    · rw [latest, hsame]
      rfl
    · rw [latest_concat, hvalue]
    · rw [latest_concat, hvalue]

include htime hvalue

/-- **Recording.** The step function takes the new value from `t` on, and is unchanged before. -/
theorem valueAt_record (l : List γ) (t e : τ) (new : M) (hsorted : Sorted time l)
    (hlast : ∀ c ∈ l.getLast?, time c ≤ t) :
    valueAt time value (record time value mk l t new) e = if t ≤ e then new else valueAt time value l e := by
  rcases List.eq_nil_or_concat l with rfl | ⟨init, last, rfl⟩
  · simp only [record, List.getLast?_nil]
    rw [show [mk t new] = [] ++ [mk t new] from rfl, valueAt_concat, htime, hvalue]
  rw [List.concat_eq_append] at hsorted hlast ⊢
  simp only [record, List.getLast?_append, List.getLast?_singleton, Option.some_or, List.dropLast_concat]
  split_ifs with heq hsame hle hle hle
  · -- dropped: the checkpoint before it carries the new value on
    rcases List.eq_nil_or_concat init with rfl | ⟨init', prev, rfl⟩
    · simp at hsame
    rw [List.concat_eq_append] at hsame hsorted ⊢
    have hprev : time prev ≤ e := ((hsorted.lt_last time (d := prev) (by simp)).le.trans heq.le).trans hle
    rw [valueAt_concat, if_pos hprev]
    simpa using hsame
  · rw [valueAt_concat _ _ init last, if_neg (heq ▸ hle)]
  · rw [valueAt_concat, htime, hvalue, if_pos hle]
  · rw [valueAt_concat, htime, if_neg hle, valueAt_concat, if_neg (heq ▸ hle)]
  · rw [valueAt_concat, htime, hvalue, if_pos hle]
  · rw [valueAt_concat, htime, if_neg hle]

end Record

end SidechainsSdk.Checkpoints
