/-
Queues that are merged by priority: a priority queue holds the front of every queue, an item that is taken is replaced by the
one behind it, or the rest of its queue is given up.

- `PriorityQueue`: an implementation, specified by its contents. Which one of several items with the highest priority comes
  first is left open.
- `Represents`: the priority queue holds the fronts. `Represents.drop` and `Represents.refill`: what taking an item and
  adding the one behind it do.
- `Merges`: a run, in which every item taken is the best one of the fronts.
- `Merges.kept`, `Merges.skipped`: of every queue the items taken and those left make up the queue, in order; what a skip
  gives up is the rest of its queue.
- `emitted_perm`: a run without skips that ends with empty queues takes every item once.
-/
import Mathlib.Tactic
import Mathlib.Data.List.MinMax

namespace SidechainsSdk.PriorityMerge

/-! ## Priority queues -/

structure PriorityQueue (α : Type) {P : Type} [LinearOrder P] (priority : α → P) where
  Queue : Type
  contents : Queue → Multiset α
  empty : Queue
  enqueue : α → Queue → Queue
  dequeue : Queue → Option (α × Queue)
  contents_empty : contents empty = 0
  contents_enqueue : ∀ x q, contents (enqueue x q) = x ::ₘ contents q
  dequeue_none : ∀ q, dequeue q = none → contents q = 0
  dequeue_some : ∀ q x q', dequeue q = some (x, q') →
    contents q = x ::ₘ contents q' ∧ ∀ y ∈ contents q, priority y ≤ priority x

/-- the items in a list, of which the first one with the highest priority is taken -/
def listQueue {α P : Type} [DecidableEq α] [LinearOrder P] (priority : α → P) : PriorityQueue α priority where
  Queue := List α
  contents q := q
  empty := []
  enqueue x q := x :: q
  dequeue q := (q.argmax priority).map fun x => (x, q.erase x)
  contents_empty := rfl
  contents_enqueue _ _ := rfl
  dequeue_none := by
    intro q h
    rw [Option.map_eq_none_iff, List.argmax_eq_none] at h
    rw [h]
    rfl
  dequeue_some := by
    intro q x q' h
    obtain ⟨x', hx, heq⟩ := Option.map_eq_some_iff.1 h
    obtain ⟨rfl, rfl⟩ := Prod.mk.inj heq
    refine ⟨Multiset.coe_eq_coe.2 (List.perm_cons_erase (List.argmax_mem hx)), ?_⟩
    intro y hy
    exact List.le_of_mem_argmax (Multiset.mem_coe.1 hy) hx

variable {κ α P : Type} [LinearOrder P] (key : α → κ) (priority : α → P)

/-! ## Fronts -/

/-- the contents are the fronts of the queues -/
structure Represents (contents : Multiset α) (q : κ → List α) : Prop where
  nodup : contents.Nodup
  mem : ∀ x, x ∈ contents ↔ (q (key x)).head? = some x

/-- every queue holds items of its own key -/
def Keyed (q : κ → List α) : Prop := ∀ a, ∀ x ∈ q a, key x = a

/-- the item is at a front, and no other front has a higher priority -/
structure Best (q : κ → List α) (x : α) : Prop where
  front : (q (key x)).head? = some x
  highest : ∀ a y, (q a).head? = some y → priority y ≤ priority x

variable {key priority} {contents : Multiset α} {q : κ → List α} {x y : α} {ys : List α}

theorem Represents.empty (q : κ → List α) (h : ∀ a, q a = []) : Represents key 0 q := by
  refine ⟨Multiset.nodup_zero, fun x => ?_⟩
  simp [h]

theorem Keyed.front (h : Keyed key q) {a : κ} (hx : (q a).head? = some x) : key x = a :=
  h a x (List.mem_of_mem_head? hx)

theorem Represents.best (h : Represents key contents q) (hkeyed : Keyed key q) (hx : x ∈ contents)
    (hmax : ∀ y ∈ contents, priority y ≤ priority x) : Best key priority q x := by
  refine ⟨(h.mem x).1 hx, ?_⟩
  intro a y hy
  have hkey := hkeyed.front hy
  exact hmax y ((h.mem y).2 (hkey ▸ hy))

theorem Represents.eq_zero_iff (h : Represents key contents q) (hkeyed : Keyed key q) : contents = 0 ↔ ∀ a, q a = [] := by
  constructor
  · intro hzero a
    rw [List.eq_nil_iff_forall_not_mem]
    intro x hx
    obtain ⟨y, ys, hqueue⟩ := List.exists_cons_of_ne_nil (List.ne_nil_of_mem hx)
    have hy : (q a).head? = some y := by rw [hqueue, List.head?_cons]
    have hkey := hkeyed.front hy
    have hmem : y ∈ contents := (h.mem y).2 (hkey ▸ hy)
    rw [hzero] at hmem
    exact Multiset.notMem_zero y hmem
  · intro hnil
    refine Multiset.eq_zero_of_forall_notMem fun x hx => ?_
    have hfront := (h.mem x).1 hx
    rw [hnil] at hfront
    cases hfront

variable [DecidableEq κ]

/-- a front is taken away, and its queue with it -/
theorem Represents.drop (h : Represents key (x ::ₘ contents) q) : Represents key contents (Function.update q (key x) []) := by
  obtain ⟨hx, hnodup⟩ := Multiset.nodup_cons.1 h.nodup
  have hfront := (h.mem x).1 (Multiset.mem_cons_self x contents)
  refine ⟨hnodup, fun z => ?_⟩
  have hmem := h.mem z
  by_cases hkey : key z = key x
  · rw [hkey, Function.update_self]
    refine ⟨fun hz => ?_, fun hz => by cases hz⟩
    have hz' := hmem.1 (Multiset.mem_cons_of_mem hz)
    rw [hkey, hfront] at hz'
    rw [← Option.some.inj hz'] at hz
    exact absurd hz hx
  · rw [Function.update_of_ne hkey, ← hmem, Multiset.mem_cons]
    refine ⟨.inr, fun hz => hz.resolve_left ?_⟩
    rintro rfl
    exact hkey rfl

/-- a queue that was empty gets items -/
theorem Represents.refill (h : Represents key contents q) (hempty : q (key y) = []) :
    Represents key (y ::ₘ contents) (Function.update q (key y) (y :: ys)) := by
  have hy : y ∉ contents := by
    intro hmem
    have hfront := (h.mem y).1 hmem
    rw [hempty] at hfront
    cases hfront
  refine ⟨Multiset.nodup_cons.2 ⟨hy, h.nodup⟩, fun z => ?_⟩
  rw [Multiset.mem_cons, h.mem z]
  by_cases hkey : key z = key y
  · rw [hkey, Function.update_self, hempty, List.head?_cons, Option.some.injEq]
    simp [eq_comm]
  · rw [Function.update_of_ne hkey]
    refine ⟨fun hz => hz.resolve_left ?_, .inr⟩
    rintro rfl
    exact hkey rfl

/-! ## Runs -/

/-- an item is taken and its queue goes on, or the rest of its queue is skipped -/
inductive Take where
  | next
  | skip
deriving DecidableEq

variable (key) in
/-- the queues after an item was taken -/
def taken (q : κ → List α) (t : Take × α) : κ → List α :=
  Function.update q (key t.2) (match t.1 with
    | .next => (q (key t.2)).tail
    | .skip => [])

variable (key) in
def after (q : κ → List α) (ts : List (Take × α)) : κ → List α := ts.foldl (taken key) q

variable (key priority) in
/-- a run: every item taken is the best one of the fronts before it -/
inductive Merges : (κ → List α) → List (Take × α) → Prop
  | nil (q : κ → List α) : Merges q []
  | cons {q : κ → List α} {t : Take × α} {ts : List (Take × α)} (best : Best key priority q t.2)
      (rest : Merges (taken key q t) ts) : Merges q (t :: ts)

/-- the items that were not skipped -/
def emitted (ts : List (Take × α)) : List α := (ts.filter fun t => t.1 = .next).map Prod.snd

/-- those of one key -/
def emittedOf (key : α → κ) (a : κ) (ts : List (Take × α)) : List α := (emitted ts).filter fun x => key x = a

theorem emittedOf_cons_next (a : κ) (x : α) (ts : List (Take × α)) :
    emittedOf key a ((.next, x) :: ts) = if key x = a then x :: emittedOf key a ts else emittedOf key a ts := by
  by_cases h : key x = a
  · simp [emittedOf, emitted, h]
  · simp [emittedOf, emitted, h]

theorem emittedOf_cons_skip (a : κ) (x : α) (ts : List (Take × α)) :
    emittedOf key a ((.skip, x) :: ts) = emittedOf key a ts := by
  simp [emittedOf, emitted]

theorem taken_of_ne {t : Take × α} {a : κ} (h : a ≠ key t.2) : taken key q t a = q a := Function.update_of_ne h _ _

theorem taken_next (x : α) : taken key q (.next, x) (key x) = (q (key x)).tail := Function.update_self _ _ _

theorem taken_skip (x : α) : taken key q (.skip, x) (key x) = [] := Function.update_self _ _ _

theorem Keyed.taken (h : Keyed key q) (t : Take × α) : Keyed key (taken key q t) := by
  intro a x hx
  by_cases ha : a = key t.2
  · subst ha
    rcases t with ⟨_ | _, y⟩
    · rw [taken_next] at hx
      exact h _ x (List.mem_of_mem_tail hx)
    · rw [taken_skip] at hx
      cases hx
  · rw [taken_of_ne ha] at hx
    exact h a x hx

theorem Merges.best {ts done rest : List (Take × α)} {t : Take × α} (h : Merges key priority q ts)
    (hts : ts = done ++ t :: rest) : Best key priority (after key q done) t.2 := by
  induction done generalizing q ts with
  | nil =>
    subst hts
    cases h with
    | cons best _ => exact best
  | cons t' done ih =>
    subst hts
    cases h with
    | cons _ h => exact ih h rfl

/-- after an empty queue nothing more of its key is taken -/
theorem Merges.of_nil {ts : List (Take × α)} (h : Merges key priority q ts) {a : κ} (hnil : q a = []) :
    emittedOf key a ts = [] ∧ after key q ts a = [] := by
  induction h with
  | nil q => exact ⟨rfl, hnil⟩
  | @cons q t ts best _ ih =>
    have hne : a ≠ key t.2 := by
      rintro rfl
      have hfront := best.front
      rw [hnil] at hfront
      cases hfront
    obtain ⟨hemitted, hafter⟩ := ih ((taken_of_ne hne).trans hnil)
    refine ⟨?_, hafter⟩
    rcases t with ⟨_ | _, x⟩
    · rw [emittedOf_cons_next, if_neg (Ne.symm hne), hemitted]
    · rw [emittedOf_cons_skip, hemitted]

/-- **A queue that is not skipped.** What was taken and what is left make up the queue. -/
theorem Merges.kept {ts : List (Take × α)} (h : Merges key priority q ts) {a : κ}
    (hkept : ∀ x, (Take.skip, x) ∈ ts → key x ≠ a) : q a = emittedOf key a ts ++ after key q ts a := by
  induction h with
  | nil q => rfl
  | @cons q t ts best _ ih =>
    have hrest := ih fun x hx => hkept x (List.mem_cons_of_mem t hx)
    rcases t with ⟨_ | _, x⟩
    · rw [emittedOf_cons_next]
      by_cases hkey : key x = a
      · subst hkey
        rw [taken_next] at hrest
        rw [if_pos rfl]
        calc q (key x) = x :: (q (key x)).tail := (List.cons_head?_tail best.front).symm
          _ = x :: (emittedOf key (key x) ts ++ after key (taken key q (.next, x)) ts (key x)) := by rw [hrest]
          _ = (x :: emittedOf key (key x) ts) ++ after key q ((.next, x) :: ts) (key x) := rfl
      · have hsame : taken key q (.next, x) a = q a := taken_of_ne (Ne.symm hkey)
        rw [if_neg hkey, ← hsame]
        exact hrest
    · have hkey := hkept x List.mem_cons_self
      have hsame : taken key q (.skip, x) a = q a := taken_of_ne (Ne.symm hkey)
      rw [emittedOf_cons_skip, ← hsame]
      exact hrest

/-- **A queue that is skipped.** What was taken before makes up the queue with the item skipped and those behind it, and
nothing of the queue is taken afterwards. -/
theorem Merges.skipped {ts done rest : List (Take × α)} (h : Merges key priority q ts) (hts : ts = done ++ (.skip, x) :: rest) :
    (∃ left, q (key x) = emittedOf key (key x) ts ++ x :: left) ∧ after key q ts (key x) = [] := by
  induction h generalizing done with
  | nil q => simp at hts
  | @cons q t ts best hmerges ih =>
    rcases List.cons_eq_append_iff.1 hts with ⟨rfl, heq⟩ | ⟨done', rfl, rfl⟩
    · obtain ⟨rfl, rfl⟩ := List.cons.inj heq
      obtain ⟨hemitted, hafter⟩ := hmerges.of_nil (taken_skip x)
      refine ⟨⟨(q (key x)).tail, ?_⟩, hafter⟩
      rw [emittedOf_cons_skip, hemitted]
      exact (List.cons_head?_tail best.front).symm
    · obtain ⟨⟨left, hleft⟩, hafter⟩ := ih rfl
      refine ⟨⟨left, ?_⟩, hafter⟩
      rcases t with ⟨_ | _, y⟩
      · rw [emittedOf_cons_next]
        by_cases hkey : key y = key x
        · rw [← hkey, taken_next] at hleft
          rw [if_pos hkey, ← hkey]
          have hfront : y :: (q (key y)).tail = q (key y) := List.cons_head?_tail best.front
          rw [← hfront, hleft]
          rfl
        · have hsame : taken key q (.next, y) (key x) = q (key x) := taken_of_ne (Ne.symm hkey)
          rw [if_neg hkey, ← hsame]
          exact hleft
      · by_cases hkey : key y = key x
        · rw [← hkey, taken_skip] at hleft
          simp at hleft
        · have hsame : taken key q (.skip, y) (key x) = q (key x) := taken_of_ne (Ne.symm hkey)
          rw [emittedOf_cons_skip, ← hsame]
          exact hleft

/-- in a run without skips, every item was taken or is left -/
theorem Merges.count_emitted [DecidableEq α] {ts : List (Take × α)} (h : Merges key priority q ts)
    (hnext : ∀ t ∈ ts, t.1 = .next) {items : List α} (hitems : ∀ a, (items.filter fun x => key x = a).Perm (q a))
    (x : α) :
    (emitted ts).count x + (after key q ts (key x)).count x = items.count x := by
  have hkept : q (key x) = emittedOf key (key x) ts ++ after key q ts (key x) := by
    refine h.kept fun y hy => ?_
    have hskip := hnext _ hy
    cases hskip
  have hcount : ∀ l : List α, l.count x = (l.filter fun y => key y = key x).count x := fun l =>
    (List.count_filter (by simp)).symm
  calc (emitted ts).count x + (after key q ts (key x)).count x
      = (emittedOf key (key x) ts).count x + (after key q ts (key x)).count x := by rw [hcount (emitted ts), emittedOf]
    _ = (q (key x)).count x := by rw [hkept, List.count_append]
    _ = (items.filter fun y => key y = key x).count x := ((hitems (key x)).count_eq x).symm
    _ = items.count x := (hcount items).symm

/-- a run without skips takes every item once, if it is as long as there are items or ends with empty queues -/
theorem Merges.emitted_perm [DecidableEq α] {ts : List (Take × α)} (h : Merges key priority q ts)
    (hnext : ∀ t ∈ ts, t.1 = .next) {items : List α} (hitems : ∀ a, (items.filter fun x => key x = a).Perm (q a))
    (hend : items.length ≤ ts.length ∨ ∀ a, after key q ts a = []) : (emitted ts).Perm items := by
  have hcount := h.count_emitted hnext hitems
  rcases hend with hlength | hafter
  · have hsub : (emitted ts).Subperm items := by
      rw [List.subperm_iff_count]
      intro x
      exact (Nat.le_add_right _ _).trans_eq (hcount x)
    have hall : (emitted ts).length = ts.length := by
      rw [emitted, List.filter_eq_self.2 fun t ht => decide_eq_true (hnext t ht), List.length_map]
    exact hsub.perm_of_length_le (hlength.trans_eq hall.symm)
  · rw [List.perm_iff_count]
    intro x
    rw [← hcount x, hafter, List.count_nil, add_zero]

end SidechainsSdk.PriorityMerge
