/-
Pre- and postconditions for `Fallible` computations, and total rules for the two kinds of loops.

`wp x Q E s`: from `s`, the computation `x` returns a value and a state with `Q`, or throws an exception in a state with
`E`. With `E` false it is total correctness without exceptions. The rules for the single steps are equivalences tagged
simp, so that straight-line code is executed by rewriting. A loop needs an invariant:

- `wp_foldlM`: a loop over a list; the invariant speaks of the elements that are left.
- `wp_loop`: a `while` loop. The model of such a loop has fuel, and running out of it is an exception of its own; the rule
  asks for a measure that goes down with every iteration, and then this exception is not thrown.
-/
import Mathlib.Tactic
import SidechainsSdk.Core.Fallible

namespace SidechainsSdk.Fallible

variable {ε S α β σ : Type}

/-- the weakest precondition, with a postcondition for each way to end -/
def wp (x : Fallible ε S α) (Q : α → S → Prop) (E : ε → S → Prop) (s : S) : Prop :=
  match exec x s with
  | (.ok a, s') => Q a s'
  | (.error e, s') => E e s'

section Steps

variable {Q : α → S → Prop} {E : ε → S → Prop} {s : S}

@[simp] theorem wp_pure (a : α) : wp (pure a) Q E s ↔ Q a s := Iff.rfl

@[simp] theorem wp_throw (e : ε) : wp (throw e) Q E s ↔ E e s := Iff.rfl

@[simp] theorem wp_get {Q : S → S → Prop} : wp get Q E s ↔ Q s s := Iff.rfl

@[simp] theorem wp_modify {Q : Unit → S → Prop} (f : S → S) : wp (modify f) Q E s ↔ Q () (f s) := Iff.rfl

@[simp] theorem wp_bind {Q : β → S → Prop} (x : Fallible ε S α) (f : α → Fallible ε S β) :
    wp (x >>= f) Q E s ↔ wp x (fun a s' => wp (f a) Q E s') E s := by
  unfold wp
  rw [exec_bind]
  rcases exec x s with ⟨r, s'⟩
  cases r <;> rfl

@[simp] theorem wp_map {Q : β → S → Prop} (x : Fallible ε S α) (f : α → β) :
    wp (f <$> x) Q E s ↔ wp x (fun a s' => Q (f a) s') E s := by
  rw [map_eq_pure_bind, wp_bind]
  rfl

theorem wp_orThrow_ok {x : Except ε α} {a : α} (h : x = .ok a) : wp (orThrow x) Q E s ↔ Q a s := by
  rw [h]
  rfl

/-- the two ways a pure step can end -/
theorem wp_orThrow {x : Except ε α} :
    wp (orThrow x) Q E s ↔ (∀ a, x = .ok a → Q a s) ∧ ∀ e, x = .error e → E e s := by
  cases x <;> simp [wp]

@[simp] theorem wp_throwIf {Q : Unit → S → Prop} (c : Prop) [Decidable c] (e : ε) :
    wp (throwIf c e) Q E s ↔ (c → E e s) ∧ (¬ c → Q () s) := by
  by_cases hc : c
  · simp [throwIf, hc]
  · simp [throwIf, hc]

theorem wp_ite (c : Prop) [Decidable c] {x y : Fallible ε S α} :
    wp (if c then x else y) Q E s ↔ (c → wp x Q E s) ∧ (¬ c → wp y Q E s) := by
  by_cases hc : c
  · simp [hc]
  · simp [hc]

@[simp] theorem wp_attempt {Q : Unit → S → Prop} (x : Fallible ε S α) :
    wp (attempt x) Q E s ↔ wp x (fun _ s' => Q () s') (fun _ s' => Q () s') s := by
  have hexec : exec (attempt x) s = (.ok (), (exec x s).2) := rfl
  unfold wp
  rw [hexec]
  rcases exec x s with ⟨r, s'⟩
  cases r <;> rfl

@[simp] theorem wp_onPart {T : Type} {part : S → T} {put : T → S → S} (x : Fallible ε T α) :
    wp (onPart part put x) Q E s ↔ wp x (fun a t => Q a (put t s)) (fun e t => E e (put t s)) (part s) := by
  unfold wp
  rw [exec_onPart]
  rcases exec x (part s) with ⟨r, t⟩
  cases r <;> rfl

/-- what a specification says about a run that threw -/
theorem wp_error {x : Fallible ε S α} {e : ε} {s' : S} (h : wp x Q E s) (hx : exec x s = (.error e, s')) : E e s' := by
  rw [wp, hx] at h
  exact h

theorem wp_mono {Q' : α → S → Prop} {E' : ε → S → Prop} {x : Fallible ε S α} (h : wp x Q E s)
    (hQ : ∀ a s', Q a s' → Q' a s') (hE : ∀ e s', E e s' → E' e s') : wp x Q' E' s := by
  unfold wp at *
  rcases hx : exec x s with ⟨r, s'⟩
  rw [hx] at h
  cases r with
  | ok a => exact hQ a s' h
  | error e => exact hE e s' h

/-- a property of the state, however the computation ends -/
theorem wp_state_iff {P : S → Prop} {x : Fallible ε S α} :
    wp x (fun _ s' => P s') (fun _ s' => P s') s ↔ P (exec x s).2 := by
  unfold wp
  rcases exec x s with ⟨r, s'⟩
  cases r <;> rfl

/-- a computation that cannot throw, and its result -/
theorem wp_total_iff {x : Fallible ε S α} :
    wp x Q (fun _ _ => False) s ↔ ∃ a s', exec x s = (.ok a, s') ∧ Q a s' := by
  unfold wp
  rcases exec x s with ⟨r, s'⟩
  cases r <;> simp

end Steps

/-- **Loops over a list.** The invariant is about the accumulator, the elements left and the state. -/
theorem wp_foldlM {f : β → α → Fallible ε S β} {E : ε → S → Prop} (I : β → List α → S → Prop)
    (hstep : ∀ b a l s, I b (a :: l) s → wp (f b a) (fun b' s' => I b' l s') E s) (l : List α) {b : β} {s : S}
    (h : I b l s) : wp (l.foldlM f b) (fun b' s' => I b' [] s') E s := by
  induction l generalizing b s with
  | nil => exact h
  | cons a l ih =>
    rw [List.foldlM_cons, wp_bind]
    exact wp_mono (hstep b a l s h) (fun b' s' h' => ih h') (fun _ _ h' => h')

/-- a `while` loop with the values `σ` that it changes besides the state; `e` is thrown if the fuel does not suffice -/
def loop (e : ε) (body : σ → Fallible ε S (ForInStep σ)) : ℕ → σ → Fallible ε S σ
  | 0, _ => throw e
  | fuel + 1, a => do
    match ← body a with
    | .yield a' => loop e body fuel a'
    | .done a' => pure a'

/-- what an iteration has to reach: the invariant `I` with a measure `μ` below `n`, or at the end `Q` -/
def Iteration (I : σ → S → Prop) (μ : σ → S → ℕ) (Q : σ → S → Prop) (n : ℕ) : ForInStep σ → S → Prop
  | .yield a, s => I a s ∧ μ a s < n
  | .done a, s => Q a s

/-- **While loops.** An invariant kept by every iteration, and a measure that it brings down. -/
theorem wp_loop {e : ε} {body : σ → Fallible ε S (ForInStep σ)} {E : ε → S → Prop} {Q : σ → S → Prop}
    (I : σ → S → Prop) (μ : σ → S → ℕ) (hbody : ∀ a s, I a s → wp (body a) (Iteration I μ Q (μ a s)) E s)
    {fuel : ℕ} {a : σ} {s : S} (h : I a s) (hfuel : μ a s < fuel) : wp (loop e body fuel a) Q E s := by
  induction fuel generalizing a s with
  | zero => omega
  | succ fuel ih =>
    rw [loop, wp_bind]
    refine wp_mono (hbody a s h) ?_ (fun _ _ h' => h')
    intro r s' hr
    cases r with
    | yield a' => exact ih hr.1 (lt_of_lt_of_le hr.2 (Nat.le_of_lt_succ hfuel))
    | done a' => exact hr

end SidechainsSdk.Fallible
