/-
Stateful computations that may throw. The state reached is kept when an exception is thrown, as in an imperative program;
undoing it is a separate operation (`reverting`), as with a snapshot.

- `exec_bind_ok`: a sequence succeeds exactly when its parts do. With the simp lemmas for the single steps it turns a
  successful run of a whole function into the facts that its guards passed and the states in between.
- `failsOnly_bind`: a sequence throws only exceptions of a kind exactly when each part that is reached does.
- `mapM_ok`: a map over a list succeeds if it does at every element.
- `reverting_cases`: with the snapshot reverted on an exception, a failed computation leaves the state as it was.
-/
import Mathlib.Tactic

namespace SidechainsSdk

variable {ε S α β : Type}

/-- a computation on states `S` that returns an `α` or throws an `ε` -/
abbrev Fallible (ε S : Type) := ExceptT ε (StateM S)

namespace Fallible

/-- the result or exception, with the state that is left -/
def exec (x : Fallible ε S α) (s : S) : Except ε α × S := x.run.run s

/-- a pure computation that may throw, as a step that does not touch the state -/
def orThrow (x : Except ε α) : Fallible ε S α := ExceptT.mk (pure x)

@[simp] theorem exec_orThrow (x : Except ε α) (s : S) : exec (orThrow x : Fallible ε S α) s = (x, s) := rfl

@[simp] theorem exec_pure (a : α) (s : S) : exec (pure a : Fallible ε S α) s = (.ok a, s) := rfl

@[simp] theorem exec_throw (e : ε) (s : S) : exec (throw e : Fallible ε S α) s = (.error e, s) := rfl

@[simp] theorem exec_get (s : S) : exec (get : Fallible ε S S) s = (.ok s, s) := rfl

@[simp] theorem exec_modify (f : S → S) (s : S) : exec (modify f : Fallible ε S Unit) s = (.ok (), f s) := rfl

theorem exec_bind (x : Fallible ε S α) (f : α → Fallible ε S β) (s : S) :
    exec (x >>= f) s = match exec x s with
      | (.ok a, s') => exec (f a) s'
      | (.error e, s') => (.error e, s') := by
  simp only [exec, ExceptT.run_bind, StateT.run_bind]
  rcases h : StateT.run x.run s with ⟨r, s'⟩
  cases r <;> rfl

theorem exec_bind_ok {x : Fallible ε S α} {f : α → Fallible ε S β} {s s' : S} {b : β} :
    exec (x >>= f) s = (.ok b, s') ↔ ∃ a s1, exec x s = (.ok a, s1) ∧ exec (f a) s1 = (.ok b, s') := by
  rw [exec_bind]
  rcases h : exec x s with ⟨r, s1⟩
  cases r with
  | error e => simp
  | ok a => simp

/-- the same for a pure computation -/
theorem bind_ok {x : Except ε α} {f : α → Except ε β} {b : β} (h : x >>= f = .ok b) :
    ∃ a, x = .ok a ∧ f a = .ok b := by
  cases x with
  | error e => cases h
  | ok a => exact ⟨a, rfl, h⟩

/-- a guard of a pure computation: fails with `e` if `c` holds -/
def failIf (c : Prop) [Decidable c] (e : ε) : Except ε Unit := if c then .error e else .ok ()

@[simp] theorem failIf_ok {c : Prop} [Decidable c] {e : ε} {u : Unit} : failIf c e = .ok u ↔ ¬ c := by
  unfold failIf
  split_ifs with hc <;> simp [hc]

@[simp] theorem failIf_bind_ok {c : Prop} [Decidable c] {e : ε} {f : Unit → Except ε β} {b : β} :
    (failIf c e >>= f) = .ok b ↔ ¬ c ∧ f () = .ok b := by
  unfold failIf
  split_ifs with hc
  · simp [hc, bind, Except.bind]
  · simp [hc, bind, Except.bind]

theorem bind_ok_iff {x : Except ε α} {f : α → Except ε β} {b : β} :
    x >>= f = .ok b ↔ ∃ a, x = .ok a ∧ f a = .ok b := by
  constructor
  · exact bind_ok
  · rintro ⟨a, rfl, h⟩
    exact h

theorem mapM_ok {f : α → Except ε β} {g : α → β} {l : List α} (h : ∀ a ∈ l, f a = .ok (g a)) :
    l.mapM f = .ok (l.map g) := by
  induction l with
  | nil => rfl
  | cons a l ih =>
    rw [List.mapM_cons, h a List.mem_cons_self, ih fun b hb => h b (List.mem_cons_of_mem _ hb)]
    rfl

theorem mapM_congr {f g : α → Except ε β} {l : List α} (h : ∀ a ∈ l, f a = g a) : l.mapM f = l.mapM g := by
  induction l with
  | nil => rfl
  | cons a l ih =>
    rw [List.mapM_cons, List.mapM_cons, h a List.mem_cons_self, ih fun b hb => h b (List.mem_cons_of_mem _ hb)]

/-- the same where the results are only described: they have a property, and their images under `g` are known -/
theorem mapM_described {γ : Type} {f : α → Except ε β} {P : β → Prop} {g : β → γ} {k : α → γ} {l : List α}
    (h : ∀ a ∈ l, ∃ b, f a = .ok b ∧ P b ∧ g b = k a) :
    ∃ bs, l.mapM f = .ok bs ∧ (∀ b ∈ bs, P b) ∧ bs.map g = l.map k := by
  induction l with
  | nil => exact ⟨[], rfl, by simp, rfl⟩
  | cons a l ih =>
    obtain ⟨b, hb, hP, hg⟩ := h a List.mem_cons_self
    obtain ⟨bs, hbs, hall, hmap⟩ := ih fun a ha => h a (List.mem_cons_of_mem _ ha)
    refine ⟨b :: bs, ?_, List.forall_mem_cons.2 ⟨hP, hall⟩, ?_⟩
    · rw [List.mapM_cons, hb, hbs]
      rfl
    · rw [List.map_cons, List.map_cons, hg, hmap]

theorem forM_ok {f : α → Except ε Unit} {l : List α} : l.forM f = .ok () ↔ ∀ a ∈ l, f a = .ok () := by
  induction l with
  | nil => simp [pure, Except.pure]
  | cons a l ih =>
    have hcons : (a :: l).forM f = f a >>= fun _ => l.forM f := rfl
    rw [hcons, bind_ok_iff, List.forall_mem_cons, ← ih]
    constructor
    · rintro ⟨u, hfirst, hrest⟩
      exact ⟨hfirst, hrest⟩
    · rintro ⟨hfirst, hrest⟩
      exact ⟨(), hfirst, hrest⟩

/-- a computation whose failure is not looked at; what it has changed stays -/
def attempt (x : Fallible ε S α) : Fallible ε S Unit := ExceptT.mk fun s => (.ok (), (exec x s).2)

/-- a guard: throws `e` if `c` holds -/
def throwIf (c : Prop) [Decidable c] (e : ε) : Fallible ε S Unit := if c then throw e else pure ()

@[simp] theorem exec_throwIf_ok {c : Prop} [Decidable c] {e : ε} {s s' : S} {u : Unit} :
    exec (throwIf c e) s = (.ok u, s') ↔ ¬ c ∧ s = s' := by
  unfold throwIf
  split_ifs with hc <;> simp [hc]

@[simp] theorem exec_get_bind (f : S → Fallible ε S α) (s : S) : exec (get >>= f) s = exec (f s) s := by
  rw [exec_bind, exec_get]

@[simp] theorem exec_modify_bind (g : S → S) (f : Unit → Fallible ε S α) (s : S) :
    exec (modify g >>= f) s = exec (f ()) (g s) := by
  rw [exec_bind, exec_modify]

@[simp] theorem exec_throwIf_bind_ok {c : Prop} [Decidable c] {e : ε} {f : Unit → Fallible ε S α} {s s' : S} {a : α} :
    exec (throwIf c e >>= f) s = (.ok a, s') ↔ ¬ c ∧ exec (f ()) s = (.ok a, s') := by
  rw [exec_bind_ok]
  constructor
  · rintro ⟨u, s1, h, hf⟩
    obtain ⟨hc, rfl⟩ := exec_throwIf_ok.1 h
    exact ⟨hc, hf⟩
  · rintro ⟨hc, hf⟩
    exact ⟨(), s, exec_throwIf_ok.2 ⟨hc, rfl⟩, hf⟩

@[simp] theorem exec_orThrow_bind_ok {x : Except ε α} {f : α → Fallible ε S β} {s s' : S} {b : β} :
    exec (orThrow x >>= f) s = (.ok b, s') ↔ ∃ a, x = .ok a ∧ exec (f a) s = (.ok b, s') := by
  rw [exec_bind_ok]
  constructor
  · rintro ⟨a, s1, h, hf⟩
    obtain ⟨hx, rfl⟩ := Prod.mk.inj h
    exact ⟨a, hx, hf⟩
  · rintro ⟨a, rfl, hf⟩
    exact ⟨a, s, rfl, hf⟩

@[simp] theorem exec_orThrow_value_bind {a : α} {f : α → Fallible ε S β} {s : S} :
    exec (orThrow (.ok a) >>= f) s = exec (f a) s := by
  rw [exec_bind]
  rfl

/-- the value of an option, or `e` -/
def getOrThrow (o : Option α) (e : ε) : Fallible ε S α := orThrow (o.elim (.error e) .ok)

@[simp] theorem exec_getOrThrow_none_bind {e : ε} {f : α → Fallible ε S β} {s : S} :
    exec (getOrThrow none e >>= f) s = (.error e, s) := by
  rw [exec_bind]
  rfl

@[simp] theorem exec_getOrThrow_some_bind {a : α} {e : ε} {f : α → Fallible ε S β} {s : S} :
    exec (getOrThrow (some a) e >>= f) s = exec (f a) s := by
  rw [exec_bind]
  rfl

theorem exec_throwIf_pos_bind {c : Prop} [Decidable c] (hc : c) {e : ε} {f : Unit → Fallible ε S α} {s : S} :
    exec (throwIf c e >>= f) s = (.error e, s) := by
  rw [exec_bind, throwIf, if_pos hc]
  rfl

theorem exec_throwIf_neg_bind {c : Prop} [Decidable c] (hc : ¬ c) {e : ε} {f : Unit → Fallible ε S α} {s : S} :
    exec (throwIf c e >>= f) s = exec (f ()) s := by
  rw [exec_bind, throwIf, if_neg hc]
  rfl

theorem exec_bind_of_ok {x : Fallible ε S α} {f : α → Fallible ε S β} {s s' : S} {a : α} (h : exec x s = (.ok a, s')) :
    exec (x >>= f) s = exec (f a) s' := by
  rw [exec_bind, h]

/-- a computation on a part of the state -/
def onPart {T : Type} (part : S → T) (put : T → S → S) (x : Fallible ε T α) : Fallible ε S α :=
  ExceptT.mk fun s => ((exec x (part s)).1, put (exec x (part s)).2 s)

theorem exec_onPart {T : Type} (part : S → T) (put : T → S → S) (x : Fallible ε T α) (s : S) :
    exec (onPart part put x) s = ((exec x (part s)).1, put (exec x (part s)).2 s) := rfl

theorem exec_onPart_ok {T : Type} {part : S → T} {put : T → S → S} {x : Fallible ε T α} {s s' : S} {a : α} :
    exec (onPart part put x) s = (.ok a, s') ↔ ∃ t, exec x (part s) = (.ok a, t) ∧ s' = put t s := by
  rw [exec_onPart]
  constructor
  · intro h
    obtain ⟨hr, hs⟩ := Prod.mk.inj h
    exact ⟨(exec x (part s)).2, Prod.ext hr rfl, hs.symm⟩
  · rintro ⟨t, hx, rfl⟩
    rw [hx]

/-! ## Kinds of exceptions -/

section Kinds

variable {p : ε → Prop}

/-- only exceptions of one kind are thrown -/
def FailsOnly (p : ε → Prop) : Except ε α → Prop
  | .ok _ => True
  | .error e => p e

@[simp] theorem failsOnly_ok (a : α) : FailsOnly p (.ok a : Except ε α) := trivial

@[simp] theorem failsOnly_pure (a : α) : FailsOnly p (pure a : Except ε α) := trivial

@[simp] theorem failsOnly_error (e : ε) : FailsOnly p (.error e : Except ε α) ↔ p e := Iff.rfl

theorem failsOnly_bind {x : Except ε α} {f : α → Except ε β} :
    FailsOnly p (x >>= f) ↔ FailsOnly p x ∧ ∀ a, x = .ok a → FailsOnly p (f a) := by
  cases x with
  | error e => simp [bind, Except.bind]
  | ok a => simp [bind, Except.bind]

/-- a guard with an exception of this kind -/
theorem failsOnly_failIf_bind {c : Prop} [Decidable c] {e : ε} {f : Unit → Except ε β} (he : p e) :
    FailsOnly p (failIf c e >>= f) ↔ (¬ c → FailsOnly p (f ())) := by
  unfold failIf
  split_ifs with hc
  · simp [hc, he, bind, Except.bind]
  · simp [hc, bind, Except.bind]

theorem failsOnly_exec_bind {x : Fallible ε S α} {f : α → Fallible ε S β} {s : S} :
    FailsOnly p (exec (x >>= f) s).1 ↔
      FailsOnly p (exec x s).1 ∧ ∀ a s', exec x s = (.ok a, s') → FailsOnly p (exec (f a) s').1 := by
  rw [exec_bind]
  rcases h : exec x s with ⟨r, s'⟩
  cases r with
  | error e => simp
  | ok a => simp

theorem failsOnly_exec_orThrow_bind {x : Except ε α} {f : α → Fallible ε S β} {s : S} :
    FailsOnly p (exec (orThrow x >>= f) s).1 ↔ FailsOnly p x ∧ ∀ a, x = .ok a → FailsOnly p (exec (f a) s).1 := by
  cases x with
  | error e => simp [exec_bind]
  | ok a => simp

theorem failsOnly_exec_throwIf_bind {c : Prop} [Decidable c] {e : ε} {f : Unit → Fallible ε S α} {s : S} (he : p e) :
    FailsOnly p (exec (throwIf c e >>= f) s).1 ↔ (¬ c → FailsOnly p (exec (f ()) s).1) := by
  by_cases hc : c
  · rw [exec_throwIf_pos_bind hc]
    simp [hc, he]
  · rw [exec_throwIf_neg_bind hc]
    simp [hc]

end Kinds

/-- runs `x`, and reverts to the state before it when it throws -/
def reverting (x : Fallible ε S α) (s : S) : Except ε α × S :=
  match exec x s with
  | (.ok a, s') => (.ok a, s')
  | (.error e, _) => (.error e, s)

/-- after a revert the state is that of a successful run, or the one before -/
theorem reverting_cases (x : Fallible ε S α) (s : S) :
    (∃ a s', exec x s = (.ok a, s') ∧ reverting x s = (.ok a, s')) ∨
      ∃ e s', exec x s = (.error e, s') ∧ reverting x s = (.error e, s) := by
  rcases h : exec x s with ⟨r, s'⟩
  cases r with
  | ok a => exact .inl ⟨a, s', rfl, by simp only [reverting, h]⟩
  | error e => exact .inr ⟨e, s', rfl, by simp only [reverting, h]⟩

end Fallible

end SidechainsSdk
