/-
Gas accounting of a message, for every behaviour of the message processors.

The argument has three layers, each with one specification lemma that the next one cites:
- `onCallerGas_spec`: lending gas to, or taking it back from, the invocation on top of the stack;
- `runProg_spec`: by induction on the processor's behaviour, whatever it does it can only spend gas of its own
  invocation, and it leaves the rest of the stack, the depth, the flag and the block pool alone;
- `execute_spec`: by induction on the nesting levels, an invocation returns with the stack, depth and flag it started
  with, has spent some of its gas, and has left the database untouched if it failed.

Results.
- `execute_levels`: the nesting bound of the model is no restriction.
- `transition_gas`: an exception other than an execution failure leaves view and block pool as they were; otherwise the
  nonce is increased, exactly the used gas is charged and taken from the block, at least four fifths of the intrinsic
  gas and at most the gas limit are used. In every case no gas pool was ever outside its bounds, and stack, depth and
  write protection are back.

Premises: the gas price is not negative (semantic validity of the transaction), the view is not write protected, and the
block pool is within its bounds, which is how `AccountState` sets up a block.
-/
import Mathlib.Tactic
import SidechainsSdk.Account.StateTransition

namespace SidechainsSdk.Account.GasAccounting

open SidechainsSdk.Account.StateTransition

variable {σ : Type}

/-! ## What a run may change -/

/-- every gas pool is within its bounds, and has always been -/
structure Safe (m : Machine σ) : Prop where
  block : m.blockGasPool.Within
  stack : ∀ inv ∈ m.invocationStack, inv.gasPool.Within
  trace : ∀ p ∈ m.gasTrace, p.Within

/-- `p'` is `p` after some gas was spent -/
structure Spent (p p' : GasPool) : Prop where
  initial : p'.initialGas = p.initialGas
  le : p'.currentGas ≤ p.currentGas

theorem Spent.refl (p : GasPool) : Spent p p := ⟨rfl, le_rfl⟩

theorem Spent.trans {p q r : GasPool} (h1 : Spent p q) (h2 : Spent q r) : Spent p r :=
  ⟨h2.initial.trans h1.initial, h2.le.trans h1.le⟩

/-- only the pool on top of the stack is different, and has not grown -/
inductive TopSpent : List Invocation → List Invocation → Prop
  | nil : TopSpent [] []
  | cons (inv : Invocation) (p : GasPool) (stack : List Invocation) (h : Spent inv.gasPool p) :
    TopSpent (inv :: stack) ({ inv with gasPool := p } :: stack)

theorem TopSpent.refl (s : List Invocation) : TopSpent s s := by
  cases s with
  | nil => exact .nil
  | cons inv s => exact .cons inv inv.gasPool s (Spent.refl _)

theorem TopSpent.trans {s t u : List Invocation} (h1 : TopSpent s t) (h2 : TopSpent t u) : TopSpent s u := by
  cases h1 with
  | nil => exact h2
  | cons inv p stack h =>
    cases h2 with
    | cons _ q _ h' => exact .cons inv q stack (h.trans h')

theorem TopSpent.ne_nil {s t : List Invocation} (h : TopSpent s t) (hs : s ≠ []) : t ≠ [] := by
  cases h with
  | nil => exact hs
  | cons inv p stack h => exact List.cons_ne_nil _ _

/-- what a step keeps besides the stack -/
structure Keeps (m m' : Machine σ) : Prop where
  depth : m'.depth = m.depth
  readOnly : m'.view.readOnly = m.view.readOnly
  block : m'.blockGasPool = m.blockGasPool
  safe : Safe m'

theorem Keeps.refl {m : Machine σ} (h : Safe m) : Keeps m m := ⟨rfl, rfl, rfl, h⟩

theorem Keeps.trans {m m' m'' : Machine σ} (h1 : Keeps m m') (h2 : Keeps m' m'') : Keeps m m'' :=
  ⟨h2.depth.trans h1.depth, h2.readOnly.trans h1.readOnly, h2.block.trans h1.block, h2.safe⟩

theorem Safe.withDb {m : Machine σ} (h : Safe m) (db : StateDb σ) : Safe (setDb m db) := ⟨h.block, h.stack, h.trace⟩

theorem Safe.withReadOnly {m : Machine σ} (h : Safe m) (b : Bool) : Safe (setReadOnly m b) :=
  ⟨h.block, h.stack, h.trace⟩

theorem Safe.recorded {m : Machine σ} (h : Safe m) {p : GasPool} (hp : p.Within) : Safe (record p m) :=
  ⟨h.block, h.stack, fun q hq => by
    rcases List.mem_cons.1 hq with rfl | hq
    · exact hp
    · exact h.trace q hq⟩

theorem Safe.pushed {m : Machine σ} (hm : Safe m) {inv : Invocation} (hinv : inv.gasPool.Within) :
    Safe { m with invocationStack := inv :: m.invocationStack, depth := m.depth + 1 } := by
  refine ⟨hm.block, ?_, hm.trace⟩
  intro i hi
  rcases List.mem_cons.1 hi with rfl | hi
  · exact hinv
  · exact hm.stack i hi

theorem Keeps.withDb {m : Machine σ} (h : Safe m) (db : StateDb σ) : Keeps m (setDb m db) :=
  ⟨rfl, rfl, rfl, h.withDb db⟩

/-! ## The pool on top of the stack -/

theorem onCallerGas_nil (op : GasPool → Except Exc GasPool) {m : Machine σ} (h : m.invocationStack = []) :
    onCallerGas op m = (.ok (), m) := by
  simp only [onCallerGas, h]

/-- a guarded operation on the top pool: refused, or the new pool on top and in the trace -/
theorem onCallerGas_cons (op : GasPool → Except Exc GasPool) {m : Machine σ} {inv : Invocation}
    {stack : List Invocation} (h : m.invocationStack = inv :: stack) :
    (∃ e, op inv.gasPool = .error e ∧ onCallerGas op m = (.error e, m)) ∨
      ∃ p, op inv.gasPool = .ok p ∧
        onCallerGas op m = (.ok (), record p { m with invocationStack := { inv with gasPool := p } :: stack }) := by
  cases hop : op inv.gasPool with
  | error e => exact .inl ⟨e, rfl, by simp only [onCallerGas, h, hop]⟩
  | ok p => exact .inr ⟨p, rfl, by simp only [onCallerGas, h, hop]⟩

theorem Safe.setTop {m : Machine σ} (hm : Safe m) {inv : Invocation} {stack : List Invocation} {p : GasPool}
    (h : m.invocationStack = inv :: stack) (hp : p.Within) :
    Safe (record p { m with invocationStack := { inv with gasPool := p } :: stack }) := by
  have hsafe : Safe { m with invocationStack := { inv with gasPool := p } :: stack } := by
    refine ⟨hm.block, fun i hi => ?_, hm.trace⟩
    rcases List.mem_cons.1 hi with rfl | hi
    · exact hp
    · exact hm.stack i (h ▸ List.mem_cons_of_mem _ hi)
  exact hsafe.recorded hp

/-- consuming gas of the top invocation, whether the guard lets it pass or not -/
theorem onCallerGas_subGas (gas : ℤ) {m : Machine σ} (hm : Safe m) :
    Keeps m (onCallerGas (·.subGas gas) m).2 ∧
      TopSpent m.invocationStack (onCallerGas (·.subGas gas) m).2.invocationStack ∧
      (onCallerGas (·.subGas gas) m).2.view.stateDb = m.view.stateDb := by
  cases h : m.invocationStack with
  | nil =>
    rw [onCallerGas_nil _ h, h]
    exact ⟨Keeps.refl hm, .nil, rfl⟩
  | cons inv stack =>
    rcases onCallerGas_cons (·.subGas gas) h with ⟨e, -, heq⟩ | ⟨p, hp, heq⟩
    · rw [heq, h]
      exact ⟨Keeps.refl hm, TopSpent.refl _, rfl⟩
    · have hinv := hm.stack inv (h ▸ List.mem_cons_self)
      obtain ⟨hgas, hle, rfl⟩ := GasPool.subGas_ok.1 hp
      rw [heq]
      exact ⟨⟨rfl, rfl, rfl, hm.setTop h (GasPool.subGas_within hinv hp)⟩,
        .cons inv _ stack ⟨rfl, by dsimp only; omega⟩, rfl⟩

/-! ## Processors -/

/-- what an invocation guarantees, whatever its outcome -/
structure Executed (inv : Invocation) (m : Machine σ) (o : Outcome σ) : Prop where
  keeps : Keeps m o.2.2
  top : TopSpent m.invocationStack o.2.2.invocationStack
  spent : Spent inv.gasPool o.2.1
  within : inv.gasPool.Within → o.2.1.Within
  reverted : ∀ e, o.1 = .error e → e.isExecutionFailed → o.2.2.view.stateDb = m.view.stateDb

/-- `executeDepth` advances the depth around the nested invocation and takes it back -/
theorem Executed.depth_restored {inv : Invocation} {m : Machine σ} {o : Outcome σ} {additionalDepth : ℕ}
    (h : Executed inv { m with depth := m.depth + additionalDepth } o) :
    Keeps m { o.2.2 with depth := o.2.2.depth - additionalDepth } := by
  refine ⟨?_, h.keeps.readOnly, h.keeps.block, h.keeps.safe.block, h.keeps.safe.stack, h.keeps.safe.trace⟩
  have hdepth := h.keeps.depth
  dsimp only at hdepth ⊢
  omega

/-- an executor that keeps this guarantee for the invocations a processor can start: with a pool of their own, on a
stack that is not empty -/
def Executes (exec : Invocation → Machine σ → Outcome σ) : Prop :=
  ∀ (c : Call) (gas : ℤ) (m : Machine σ), Safe m → m.invocationStack ≠ [] →
    Executed { c with gasPool := GasPool.new gas } m (exec { c with gasPool := GasPool.new gas } m)

/-- **Processors.** By induction on its behaviour, a processor spends gas of the top invocation only. -/
theorem runProg_spec (exec : Invocation → Machine σ → Outcome σ) (hexec : Executes exec) (prog : Prog σ)
    (m : Machine σ) (hm : Safe m) (hne : m.invocationStack ≠ []) :
    Keeps m (runProg exec prog m).2 ∧ TopSpent m.invocationStack (runProg exec prog m).2.invocationStack := by
  induction prog generalizing m with
  | ret output => exact ⟨Keeps.refl hm, TopSpent.refl _⟩
  | throw e => exact ⟨Keeps.refl hm, TopSpent.refl _⟩
  | read k ih => exact ih m m hm hne
  | write f k ih =>
    obtain ⟨hk, ht⟩ := ih (setDb m (f m.view.stateDb)) (hm.withDb _) hne
    exact ⟨(Keeps.withDb hm _).trans hk, ht⟩
  | subGas gas k ih =>
    obtain ⟨hk1, ht1, -⟩ := onCallerGas_subGas gas hm
    obtain ⟨hk2, ht2⟩ := ih _ _ hk1.safe (ht1.ne_nil hne)
    exact ⟨hk1.trans hk2, ht1.trans ht2⟩
  | call c gas additionalDepth k ih =>
    have ho := hexec c gas { m with depth := m.depth + additionalDepth } ⟨hm.block, hm.stack, hm.trace⟩ hne
    have hk1 := ho.depth_restored
    obtain ⟨hk2, ht2⟩ := ih _ _ _ hk1.safe (ho.top.ne_nil hne)
    exact ⟨hk1.trans hk2, ho.top.trans ht2⟩

/-! ## Invocations -/

/-- what the body of an invocation guarantees: as `Executed`, with the caller's stack untouched -/
structure Processed (inv : Invocation) (m : Machine σ) (o : Outcome σ) : Prop where
  keeps : Keeps m o.2.2
  stack : o.2.2.invocationStack = m.invocationStack
  spent : Spent inv.gasPool o.2.1
  within : o.2.1.Within
  reverted : ∀ e, o.1 = .error e → e.isExecutionFailed → o.2.2.view.stateDb = m.view.stateDb

/-- an exception before the processor is called changes nothing -/
theorem processed_error {inv : Invocation} {m : Machine σ} (hm : Safe m) (hinv : inv.gasPool.Within) (e : Exc) :
    Processed inv m (.error e, inv.gasPool, m) :=
  ⟨Keeps.refl hm, rfl, Spent.refl _, hinv, fun _ _ _ => rfl⟩

/-- leaving an invocation whose pool was spent restores the stack and the depth -/
theorem leave_spec {inv : Invocation} {m m' : Machine σ} (hm : Safe m)
    (hk : Keeps { m with invocationStack := inv :: m.invocationStack, depth := m.depth + 1 } m')
    (ht : TopSpent (inv :: m.invocationStack) m'.invocationStack) :
    Keeps m (leave inv m').2 ∧ (leave inv m').2.invocationStack = m.invocationStack ∧
      Spent inv.gasPool (leave inv m').1 ∧ (leave inv m').1.Within ∧
      (leave inv m').2.view.stateDb = m'.view.stateDb := by
  generalize hs : m'.invocationStack = s at ht
  cases ht with
  | cons _ p _ hp =>
    have hwithin : p.Within := hk.safe.stack { inv with gasPool := p } (hs ▸ List.mem_cons_self)
    have hdepth := hk.depth
    simp only [leave, hs, List.head?_cons, Option.map_some, Option.getD_some, List.tail_cons]
    refine ⟨⟨?_, hk.readOnly, hk.block, ⟨hk.safe.block, hm.stack, hk.safe.trace⟩⟩, trivial, hp, hwithin, trivial⟩
    dsimp only at hdepth ⊢
    omega

/-- burning what is left never fails, and ends the invocation with an empty pool -/
theorem burn_spec {m : Machine σ} (hm : Safe m) {s : List Invocation} (hne : s ≠ [])
    (ht : TopSpent s m.invocationStack) :
    let burnt := onCallerGas (fun p => p.subGas p.currentGas) m
    burnt.1 = .ok () ∧ Keeps m burnt.2 ∧ TopSpent s burnt.2.invocationStack ∧
      burnt.2.view.stateDb = m.view.stateDb := by
  generalize hs : m.invocationStack = t at ht
  cases ht with
  | nil => exact absurd rfl hne
  | cons inv p stack hp =>
    have hwithin : p.Within := hm.stack { inv with gasPool := p } (hs ▸ List.mem_cons_self)
    rcases onCallerGas_cons (fun p => p.subGas p.currentGas) hs with ⟨e, herr, -⟩ | ⟨q, hq, heq⟩
    · have hok := GasPool.subGas_ok.2 ⟨hwithin.nonneg, le_rfl, rfl⟩
      rw [herr] at hok
      cases hok
    · obtain ⟨hnonneg, -, rfl⟩ := GasPool.subGas_ok.1 hq
      have hzero : Spent inv.gasPool { p with currentGas := p.currentGas - p.currentGas } :=
        ⟨hp.initial, by have := hp.le; have := hwithin.nonneg; dsimp only; omega⟩
      have hsafe := hm.setTop hs (GasPool.subGas_within hwithin hq)
      simp only [heq]
      exact ⟨trivial, ⟨rfl, rfl, rfl, hsafe⟩, .cons inv _ stack hzero, rfl⟩

theorem invoke_spec (exec : Invocation → Machine σ → Outcome σ) (hexec : Executes exec)
    (processor : MessageProcessor σ) (inv : Invocation) (m : Machine σ) (hm : Safe m) (hinv : inv.gasPool.Within) :
    Processed inv m (invoke exec processor inv m) := by
  set m1 : Machine σ := { m with invocationStack := inv :: m.invocationStack, depth := m.depth + 1 } with hm1
  obtain ⟨hk, ht⟩ := runProg_spec exec hexec (processor.process inv) m1 (hm.pushed hinv) (by simp [hm1])
  set r := runProg exec (processor.process inv) m1 with hr
  have hkdb : Keeps m1 (setDb r.2 m.view.stateDb) := hk.trans (Keeps.withDb hk.safe _)
  simp only [invoke, ← hm1, ← hr]
  cases hres : r.1 with
  | ok output =>
    obtain ⟨h1, h2, h3, h4, -⟩ := leave_spec hm hk ht
    exact ⟨h1, h2, h3, h4, by rintro e ⟨⟩⟩
  | error e =>
    dsimp only
    split_ifs with hrev hfail
    · obtain ⟨h1, h2, h3, h4, h5⟩ := leave_spec hm hkdb ht
      exact ⟨h1, h2, h3, h4, fun _ _ _ => h5⟩
    · obtain ⟨hok, hkb, htb, hdb⟩ := burn_spec (m := setDb r.2 m.view.stateDb) hkdb.safe (by simp [hm1]) ht
      obtain ⟨h1, h2, h3, h4, h5⟩ := leave_spec hm (hkdb.trans hkb) htb
      rw [hok]
      exact ⟨h1, h2, h3, h4, fun _ _ _ => h5.trans hdb⟩
    · -- any other exception: nothing is reverted here, the transition will do that
      obtain ⟨h1, h2, h3, h4, -⟩ := leave_spec hm hk ht
      refine ⟨h1, h2, h3, h4, fun e' he' hf => ?_⟩
      obtain rfl := Except.error.inj he'
      exact absurd hf hfail

theorem executeBody_spec (exec : Invocation → Machine σ → Outcome σ) (hexec : Executes exec)
    (processors : List (MessageProcessor σ)) (epoch : ℕ) (inv : Invocation) (m : Machine σ) (hm : Safe m)
    (hinv : inv.gasPool.Within) : Processed inv m (executeBody exec processors epoch inv m) := by
  unfold executeBody
  split_ifs
  · exact processed_error hm hinv _
  · cases findProcessor inv m.view epoch processors with
    | error e => exact processed_error hm hinv _
    | ok found =>
      cases found with
      | none => exact processed_error hm hinv _
      | some processor => exact invoke_spec exec hexec processor inv m hm hinv

/-- the write protection flag is switched on for the body and off again only by the invocation that switched it on -/
theorem protectedBody_spec (exec : Invocation → Machine σ → Outcome σ) (hexec : Executes exec)
    (processors : List (MessageProcessor σ)) (epoch : ℕ) (inv : Invocation) (m : Machine σ) (hm : Safe m)
    (hinv : inv.gasPool.Within) : Processed inv m (protectedBody exec processors epoch inv m) := by
  unfold protectedBody
  cases hfirst : inv.readOnly && !m.view.readOnly with
  | false => simpa using executeBody_spec exec hexec processors epoch inv m hm hinv
  | true =>
    have ho := executeBody_spec exec hexec processors epoch inv (setReadOnly m true) (hm.withReadOnly true) hinv
    have hro : m.view.readOnly = false := by
      simp only [Bool.and_eq_true, Bool.not_eq_true'] at hfirst
      exact hfirst.2
    simp only [if_true]
    exact ⟨⟨ho.keeps.depth, hro.symm, ho.keeps.block, ho.keeps.safe.withReadOnly false⟩, ho.stack, ho.spent, ho.within,
      ho.reverted⟩

/-- taking back what is left of lent gas: the caller's pool has room for it -/
theorem giveBack_spec {m : Machine σ} (hm : Safe m) {caller : Invocation} {stack : List Invocation} {lent : ℤ}
    {p : GasPool} (hcaller : caller.gasPool.Within)
    (hstack : m.invocationStack =
      { caller with gasPool := { caller.gasPool with currentGas := caller.gasPool.currentGas - lent } } :: stack)
    (hp : p.Within) (hle : p.currentGas ≤ lent) :
    let returned := onCallerGas (·.addGas p.currentGas) m
    returned.1 = .ok () ∧ Keeps m returned.2 ∧ TopSpent (caller :: stack) returned.2.invocationStack ∧
      returned.2.view.stateDb = m.view.stateDb := by
  have hle' := hcaller.le_initial
  rcases onCallerGas_cons (·.addGas p.currentGas) hstack with ⟨e, herr, -⟩ | ⟨q, hq, heq⟩
  · have hok := (GasPool.addGas_ok (p := ⟨caller.gasPool.initialGas, caller.gasPool.currentGas - lent⟩)).2
      ⟨hp.nonneg, by dsimp only; omega, rfl⟩
    dsimp only at herr
    rw [herr] at hok
    cases hok
  · have htop : ({ caller.gasPool with currentGas := caller.gasPool.currentGas - lent } : GasPool).Within :=
      hm.stack { caller with gasPool := _ } (hstack ▸ List.mem_cons_self)
    have hq' := GasPool.addGas_within htop hq
    have hsafe := hm.setTop hstack hq'
    obtain ⟨-, -, rfl⟩ := GasPool.addGas_ok.1 hq
    simp only [heq]
    exact ⟨trivial, ⟨rfl, rfl, rfl, hsafe⟩, .cons caller _ stack ⟨rfl, by dsimp only; omega⟩, rfl⟩

/-- an invocation that is refused before it starts -/
theorem executed_error {inv : Invocation} {m : Machine σ} (hm : Safe m) (e : Exc) :
    Executed inv m (.error e, inv.gasPool, m) :=
  ⟨Keeps.refl hm, TopSpent.refl _, Spent.refl _, id, fun _ _ _ => rfl⟩

/-- one level: if the nested invocations keep the guarantee, so does this one; the pool of a top-level invocation must
be within its bounds, that of a nested one is checked when its gas is lent -/
theorem execute_step (processors : List (MessageProcessor σ)) (epoch levels : ℕ)
    (hexec : Executes (execute processors epoch levels)) (inv : Invocation) (m : Machine σ) (hm : Safe m)
    (hle : inv.gasPool.currentGas ≤ inv.gasPool.initialGas) (htop : m.invocationStack = [] → inv.gasPool.Within) :
    Executed inv m (execute processors epoch (levels + 1) inv m) := by
  have hbody := fun (m' : Machine σ) (hm' : Safe m') (hinv : inv.gasPool.Within) =>
    protectedBody_spec _ hexec processors epoch inv m' hm' hinv
  unfold execute
  by_cases hdepth : m.depth > 1024
  · rw [if_pos hdepth]
    exact executed_error hm _
  rw [if_neg hdepth]
  cases hstack : m.invocationStack with
  | nil =>
    have ho := hbody m hm (htop hstack)
    rw [onCallerGas_nil _ hstack]
    dsimp only
    rw [onCallerGas_nil _ (ho.stack.trans hstack)]
    exact ⟨ho.keeps, by rw [ho.stack]; exact TopSpent.refl _, ho.spent, fun _ => ho.within, ho.reverted⟩
  | cons caller stack =>
    have hcaller := hm.stack caller (hstack ▸ List.mem_cons_self)
    rcases onCallerGas_cons (·.subGas inv.gasPool.currentGas) hstack with ⟨e, -, heq⟩ | ⟨p, hp, heq⟩
    · rw [heq]
      exact executed_error hm e
    · have hlent := hm.setTop hstack (GasPool.subGas_within hcaller hp)
      obtain ⟨hgas, -, rfl⟩ := GasPool.subGas_ok.1 hp
      have ho := hbody _ hlent ⟨hgas, hle⟩
      rw [heq]
      dsimp only
      obtain ⟨hok, hkeeps, hspent, hdb⟩ := giveBack_spec ho.keeps.safe hcaller ho.stack ho.within ho.spent.le
      rw [hok]
      exact ⟨⟨hkeeps.depth.trans ho.keeps.depth, hkeeps.readOnly.trans ho.keeps.readOnly,
        hkeeps.block.trans ho.keeps.block, hkeeps.safe⟩, by rw [hstack]; exact hspent, ho.spent, fun _ => ho.within,
        fun e he hf => hdb.trans (ho.reverted e he hf)⟩

theorem executes_levels (processors : List (MessageProcessor σ)) (epoch levels : ℕ) :
    Executes (execute processors epoch levels) := by
  induction levels with
  | zero => exact fun c gas m hm _ => executed_error hm _
  | succ levels ih => exact fun c gas m hm hne => execute_step processors epoch levels ih _ m hm le_rfl (absurd · hne)

/-- **Invocations.** For any processors and any nesting, an invocation with a pool within its bounds returns with the
stack, depth and write protection it started with, and has left the database untouched if it failed. -/
theorem execute_spec (processors : List (MessageProcessor σ)) (epoch levels : ℕ) (inv : Invocation) (m : Machine σ)
    (hm : Safe m) (hinv : inv.gasPool.Within) : Executed inv m (execute processors epoch levels inv m) := by
  cases levels with
  | zero => exact executed_error hm _
  | succ levels =>
    exact execute_step processors epoch levels (executes_levels processors epoch levels) inv m hm hinv.le_initial
      fun _ => hinv

/-! ## The nesting bound -/

/-- two executors that agree below depth `d` run a processor that starts there alike -/
theorem runProg_congr (exec exec' : Invocation → Machine σ → Outcome σ) (hexec : Executes exec) (d : ℕ)
    (hagree : ∀ (c : Call) (gas : ℤ) (m : Machine σ), Safe m → m.invocationStack ≠ [] → d ≤ m.depth →
      exec { c with gasPool := GasPool.new gas } m = exec' { c with gasPool := GasPool.new gas } m)
    (prog : Prog σ) (m : Machine σ) (hm : Safe m) (hne : m.invocationStack ≠ []) (hd : d ≤ m.depth) :
    runProg exec prog m = runProg exec' prog m := by
  induction prog generalizing m with
  | ret output => rfl
  | throw e => rfl
  | read k ih => exact ih m m hm hne hd
  | write f k ih => exact ih _ (hm.withDb _) hne hd
  | subGas gas k ih =>
    obtain ⟨hk, ht, -⟩ := onCallerGas_subGas gas hm
    exact ih _ _ hk.safe (ht.ne_nil hne) (hd.trans hk.depth.ge)
  | call c gas additionalDepth k ih =>
    have hsafe : Safe { m with depth := m.depth + additionalDepth } := ⟨hm.block, hm.stack, hm.trace⟩
    have ho := hexec c gas { m with depth := m.depth + additionalDepth } hsafe hne
    have heq := hagree c gas { m with depth := m.depth + additionalDepth } hsafe hne (by dsimp only; omega)
    have hk := ho.depth_restored
    simp only [runProg, ← heq]
    exact ih _ _ _ hk.safe (ho.top.ne_nil hne) (hd.trans hk.depth.ge)

theorem protectedBody_congr (exec exec' : Invocation → Machine σ → Outcome σ) (hexec : Executes exec)
    (processors : List (MessageProcessor σ)) (epoch : ℕ) (inv : Invocation) (m : Machine σ) (hm : Safe m)
    (hinv : inv.gasPool.Within)
    (hagree : ∀ (c : Call) (gas : ℤ) (m' : Machine σ), Safe m' → m'.invocationStack ≠ [] → m.depth + 1 ≤ m'.depth →
      exec { c with gasPool := GasPool.new gas } m' = exec' { c with gasPool := GasPool.new gas } m') :
    protectedBody exec processors epoch inv m = protectedBody exec' processors epoch inv m := by
  have hbody : ∀ m' : Machine σ, Safe m' → m'.depth = m.depth →
      executeBody exec processors epoch inv m' = executeBody exec' processors epoch inv m' := by
    intro m' hm' hdepth
    unfold executeBody
    split_ifs
    · rfl
    · cases findProcessor inv m'.view epoch processors with
      | error e => rfl
      | ok found =>
        cases found with
        | none => rfl
        | some processor =>
          have heq := runProg_congr exec exec' hexec (m.depth + 1) hagree (processor.process inv) _
            (hm'.pushed hinv) (List.cons_ne_nil _ _) (by dsimp only; omega)
          simp only [invoke, heq]
  simp only [protectedBody]
  split_ifs
  · rw [hbody _ (hm.withReadOnly true) rfl]
  · rw [hbody m hm rfl]

theorem execute_succ (processors : List (MessageProcessor σ)) (epoch levels : ℕ) (inv : Invocation) (m : Machine σ)
    (hm : Safe m) (hle : inv.gasPool.currentGas ≤ inv.gasPool.initialGas)
    (htop : m.invocationStack = [] → inv.gasPool.Within) (hlevels : 1025 ≤ levels + m.depth) :
    execute processors epoch levels inv m = execute processors epoch (levels + 1) inv m := by
  induction levels generalizing inv m with
  | zero =>
    have hdepth : m.depth > 1024 := by omega
    simp only [execute, if_pos hdepth]
  | succ levels ih =>
    have hbody : ∀ m' : Machine σ, Safe m' → m'.depth = m.depth → inv.gasPool.Within →
        protectedBody (execute processors epoch levels) processors epoch inv m' =
          protectedBody (execute processors epoch (levels + 1)) processors epoch inv m' := by
      intro m' hm' hdepth hinv
      refine protectedBody_congr _ _ (executes_levels processors epoch levels) processors epoch inv m' hm' hinv ?_
      intro c gas m'' hm'' hne hdepth'
      exact ih _ m'' hm'' le_rfl (absurd · hne) (by omega)
    rw [execute, execute]
    by_cases hdepth : m.depth > 1024
    · rw [if_pos hdepth, if_pos hdepth]
    rw [if_neg hdepth, if_neg hdepth]
    cases hstack : m.invocationStack with
    | nil =>
      rw [onCallerGas_nil _ hstack]
      simp only [hbody m hm rfl (htop hstack)]
    | cons caller stack =>
      rcases onCallerGas_cons (·.subGas inv.gasPool.currentGas) hstack with ⟨e, -, heq⟩ | ⟨p, hp, heq⟩
      · rw [heq]
      · have hcaller := hm.stack caller (hstack ▸ List.mem_cons_self)
        have hlent := hm.setTop hstack (GasPool.subGas_within hcaller hp)
        have hgas := (GasPool.subGas_ok.1 hp).1
        rw [heq]
        simp only [hbody _ hlent rfl ⟨hgas, hle⟩]

/-- **Nesting bound.** `maxLevels` is no restriction: more levels give the same execution, because the depth limit of
the source is reached first. -/
theorem execute_levels (processors : List (MessageProcessor σ)) (epoch more : ℕ) (inv : Invocation) (m : Machine σ)
    (hm : Safe m) (hinv : inv.gasPool.Within) :
    execute processors epoch (maxLevels + more) inv m = execute processors epoch maxLevels inv m := by
  induction more with
  | zero => rfl
  | succ more ih =>
    rw [← ih, ← add_assoc]
    exact (execute_succ processors epoch (maxLevels + more) inv m hm hinv.le_initial (fun _ => hinv)
      (by simp only [maxLevels]; omega)).symm

/-! ## Buying and refunding -/

theorem subBalance_ok {m : Machine σ} (hrw : m.view.readOnly = false) (a : Address) {amount : ℤ} (h : 0 ≤ amount) :
    subBalance m a amount = (.ok (), setDb m (m.view.stateDb.moveBalance a (-amount))) := by
  rcases h.eq_or_lt with rfl | hpos
  · simp [subBalance, setDb, StateDb.moveBalance]
  · have hsign : amount.sign = 1 := Int.sign_eq_one_iff_pos.2 hpos
    simp [subBalance, hsign, hrw]

theorem addBalance_ok {m : Machine σ} (hrw : m.view.readOnly = false) (a : Address) {amount : ℤ} (h : 0 ≤ amount) :
    addBalance m a amount = (.ok (), setDb m (m.view.stateDb.moveBalance a amount)) := by
  rcases h.eq_or_lt with rfl | hpos
  · simp [addBalance, setDb, StateDb.moveBalance]
  · have hsign : amount.sign = 1 := Int.sign_eq_one_iff_pos.2 hpos
    simp [addBalance, hsign, hrw]

/-- the machine after the gas was bought -/
def boughtMachine (msg : Message) (m : Machine σ) : Machine σ :=
  let blockGasPool := { m.blockGasPool with currentGas := m.blockGasPool.currentGas - msg.gasLimit }
  record (GasPool.new msg.gasLimit) (setDb (record blockGasPool { m with blockGasPool := blockGasPool })
    (m.view.stateDb.moveBalance msg.getFrom (-(msg.gasLimit * msg.gasPrice))))

/-- buying gas is refused without a trace, or takes the gas limit from the block and its price from the sender -/
theorem buyGas_cases (msg : Message) (m : Machine σ) (hrw : m.view.readOnly = false) (hprice : 0 ≤ msg.gasPrice) :
    (∃ e, e.isExecutionFailed = false ∧ buyGas msg m = (.error e, m)) ∨
      (0 ≤ msg.gasLimit ∧ msg.gasLimit ≤ m.blockGasPool.currentGas ∧
        buyGas msg m = (.ok (GasPool.new msg.gasLimit), boughtMachine msg m)) := by
  simp only [buyGas]
  split_ifs with hfunds hblock
  · exact .inl ⟨_, rfl, rfl⟩
  · exact .inl ⟨_, rfl, rfl⟩
  · cases hsub : m.blockGasPool.subGas msg.gasLimit with
    | error e =>
      refine .inl ⟨e, ?_, rfl⟩
      unfold GasPool.subGas at hsub
      split_ifs at hsub
      obtain rfl := Except.error.inj hsub
      rfl
    | ok p =>
      obtain ⟨hgas, hle, rfl⟩ := GasPool.subGas_ok.1 hsub
      refine .inr ⟨hgas, hle, ?_⟩
      dsimp only
      rw [subBalance_ok ?_ _ (mul_nonneg hgas hprice)]
      · rfl
      · exact hrw

theorem boughtMachine_safe (msg : Message) (m : Machine σ) (hm : Safe m) (hgas : 0 ≤ msg.gasLimit)
    (hle : msg.gasLimit ≤ m.blockGasPool.currentGas) : Safe (boughtMachine msg m) := by
  have hblock : ({ m.blockGasPool with currentGas := m.blockGasPool.currentGas - msg.gasLimit } : GasPool).Within :=
    ⟨by dsimp only; omega, by have := hm.block.le_initial; dsimp only; omega⟩
  have hsafe : Safe { m with
      blockGasPool := { m.blockGasPool with currentGas := m.blockGasPool.currentGas - msg.gasLimit } } :=
    ⟨hblock, hm.stack, hm.trace⟩
  exact ((hsafe.recorded hblock).withDb _).recorded (GasPool.within_new hgas)

/-- the refund: a fifth of the used gas at most, paid back to the sender and to the block -/
theorem refundGas_spec (msg : Message) (gas : GasPool) (m : Machine σ) (hm : Safe m) (hgas : gas.Within)
    (hrw : m.view.readOnly = false) (hprice : 0 ≤ msg.gasPrice)
    (hroom : m.blockGasPool.currentGas + gas.initialGas ≤ m.blockGasPool.initialGas) :
    ∃ left : ℤ, gas.currentGas ≤ left ∧ left - gas.currentGas ≤ gas.getUsedGas.tdiv RefundQuotientEIP3529 ∧
      (refundGas msg gas m).1 = .ok () ∧ Safe (refundGas msg gas m).2 ∧
      (refundGas msg gas m).2.invocationStack = m.invocationStack ∧ (refundGas msg gas m).2.depth = m.depth ∧
      (refundGas msg gas m).2.view =
        { m.view with stateDb := m.view.stateDb.moveBalance msg.getFrom (left * msg.gasPrice) } ∧
      (refundGas msg gas m).2.blockGasPool =
        { m.blockGasPool with currentGas := m.blockGasPool.currentGas + left } := by
  have hused : 0 ≤ gas.getUsedGas := by have := hgas.le_initial; unfold GasPool.getUsedGas; omega
  set refund := min (m.view.stateDb.refund : ℤ) (gas.getUsedGas.tdiv RefundQuotientEIP3529) with hrefund
  have hfifth : gas.getUsedGas.tdiv RefundQuotientEIP3529 ≤ gas.getUsedGas := Int.tdiv_le_self _ hused
  have hrefund0 : 0 ≤ refund := le_min (Int.natCast_nonneg _) (Int.tdiv_nonneg hused (by decide))
  have hrefund1 : refund ≤ gas.getUsedGas.tdiv RefundQuotientEIP3529 := min_le_right _ _
  have hleft : gas.currentGas + refund ≤ gas.initialGas := by unfold GasPool.getUsedGas at *; omega
  have hadd : gas.addGas refund = .ok { gas with currentGas := gas.currentGas + refund } :=
    GasPool.addGas_ok.2 ⟨hrefund0, hleft, rfl⟩
  have hgas' : ({ gas with currentGas := gas.currentGas + refund } : GasPool).Within := GasPool.addGas_within hgas hadd
  have hblock : m.blockGasPool.addGas (gas.currentGas + refund) =
      .ok { m.blockGasPool with currentGas := m.blockGasPool.currentGas + (gas.currentGas + refund) } :=
    GasPool.addGas_ok.2 ⟨hgas'.nonneg, by omega, rfl⟩
  have hpay : 0 ≤ (gas.currentGas + refund) * msg.gasPrice := mul_nonneg hgas'.nonneg hprice
  have heq : refundGas msg gas m = (.ok (),
      let paid := setDb (record { gas with currentGas := gas.currentGas + refund } m)
        (m.view.stateDb.moveBalance msg.getFrom ((gas.currentGas + refund) * msg.gasPrice))
      let p := { m.blockGasPool with currentGas := m.blockGasPool.currentGas + (gas.currentGas + refund) }
      record p { paid with blockGasPool := p }) := by
    simp only [refundGas, ← hrefund, hadd]
    rw [addBalance_ok (m := record _ m) hrw _ hpay]
    simp only [setDb_block, record_block, hblock, record_view]
  have hblock' := GasPool.addGas_within hm.block hblock
  refine ⟨gas.currentGas + refund, by omega, by omega, ?_⟩
  rw [heq]
  refine ⟨rfl, ?_, rfl, rfl, rfl, rfl⟩
  have hsafe : Safe { setDb (record { gas with currentGas := gas.currentGas + refund } m)
      (m.view.stateDb.moveBalance msg.getFrom ((gas.currentGas + refund) * msg.gasPrice)) with
      blockGasPool := { m.blockGasPool with
        currentGas := m.blockGasPool.currentGas + (gas.currentGas + refund) } } :=
    ⟨hblock', hm.stack, (hm.recorded hgas').trace⟩
  exact hsafe.recorded hblock'

/-! ## The transition -/

/-- the machine on which the top-level invocation is executed -/
def startMachine (env : Env σ) (msg : Message) (gasPool : GasPool) (m : Machine σ) : Machine σ :=
  let prepared := setupAccessList env msg (record gasPool m)
  setDb prepared (prepared.view.stateDb.incNonce msg.getFrom)

/-- the body stops with an invalid message before the processors are called, or is the top-level execution -/
theorem transitionBody_cases (env : Env σ) (msg : Message) (gasPool : GasPool) (m : Machine σ) (hm : Safe m)
    (hgas : gasPool.Within) (hrw : m.view.readOnly = false) :
    (∃ e, e.isExecutionFailed = false ∧ (transitionBody env msg gasPool m).1 = .error e ∧
      Keeps m (transitionBody env msg gasPool m).2.2 ∧
      (transitionBody env msg gasPool m).2.2.invocationStack = m.invocationStack) ∨
    ∃ intrinsic, intrinsicGas msg.data msg.getTo.isNone env.blockContext.isShanghaiActive = .ok intrinsic ∧
      0 ≤ intrinsic ∧ intrinsic ≤ gasPool.currentGas ∧
      transitionBody env msg gasPool m =
        execute env.processors env.blockContext.consensusEpochNumber maxLevels
          (Invocation.fromMessage msg { gasPool with currentGas := gasPool.currentGas - intrinsic })
          (startMachine env msg { gasPool with currentGas := gasPool.currentGas - intrinsic } m) := by
  unfold transitionBody
  cases hintr : intrinsicGas msg.data msg.getTo.isNone env.blockContext.isShanghaiActive with
  | error e =>
    refine .inl ⟨e, ?_, rfl, Keeps.refl hm, rfl⟩
    simp only [intrinsicGas] at hintr
    split_ifs at hintr <;> · obtain rfl := Except.error.inj hintr; rfl
  | ok intrinsic =>
    dsimp only
    by_cases hlow : gasPool.currentGas < intrinsic
    · rw [if_pos hlow]
      exact .inl ⟨_, rfl, rfl, Keeps.refl hm, rfl⟩
    rw [if_neg hlow]
    cases hsub : gasPool.subGas intrinsic with
    | error e =>
      refine .inl ⟨e, ?_, rfl, Keeps.refl hm, rfl⟩
      unfold GasPool.subGas at hsub
      split_ifs at hsub
      obtain rfl := Except.error.inj hsub
      rfl
    | ok p =>
      have hp := GasPool.subGas_within hgas hsub
      obtain ⟨hintr0, hintr1, rfl⟩ := GasPool.subGas_ok.1 hsub
      dsimp only
      by_cases hcode : env.blockContext.isShanghaiActive ∧ msg.getTo.isNone ∧ msg.data.length > MaxInitCodeSize
      · rw [if_pos hcode]
        exact .inl ⟨_, rfl, rfl, ⟨rfl, rfl, rfl, hm.recorded hp⟩, rfl⟩
      rw [if_neg hcode]
      refine .inr ⟨intrinsic, rfl, hintr0, hintr1, ?_⟩
      have hnonce : increaseNonce (setupAccessList env msg
          (record { gasPool with currentGas := gasPool.currentGas - intrinsic } m)) msg.getFrom =
          (.ok (), startMachine env msg { gasPool with currentGas := gasPool.currentGas - intrinsic } m) := by
        simp only [increaseNonce]
        rw [if_neg (by simp [setupAccessList, hrw])]
        rfl
      rw [hnonce]

/-- `db'` is `db` with the sender's nonce increased by one and `usedGas * gasPrice` taken from its balance, and apart
from that only with what the execution did, which took the database from `start` to `final` -/
structure Charged (msg : Message) (usedGas : ℤ) (db start final db' : StateDb σ) : Prop where
  nonce : ∀ a, (db'.nonce a : ℤ) =
    db.nonce a + (if a = msg.getFrom then 1 else 0) + ((final.nonce a : ℤ) - start.nonce a)
  balance : ∀ a, db'.balance a =
    db.balance a - (if a = msg.getFrom then usedGas * msg.gasPrice else 0) + (final.balance a - start.balance a)
  rest : db'.rest = final.rest
  isEoaAccount : db'.isEoaAccount = final.isEoaAccount

/-- the message was applied, successfully or not, and used `usedGas`; an execution that failed left the database as it was, up to
what `canProcess` set up -/
structure Applied (env : Env σ) (msg : Message) (usedGas : ℤ) (m : Machine σ) (r : Result σ Octets) : Prop where
  block : r.2.blockGasPool = { m.blockGasPool with currentGas := m.blockGasPool.currentGas - usedGas }
  intrinsic : ∃ intrinsic, intrinsicGas msg.data msg.getTo.isNone env.blockContext.isShanghaiActive = .ok intrinsic ∧
    0 ≤ intrinsic ∧ intrinsic - intrinsic.tdiv 5 ≤ usedGas
  le_limit : usedGas ≤ msg.gasLimit
  charged : ∃ (gasPool : GasPool) (start : Machine σ),
    let o := execute env.processors env.blockContext.consensusEpochNumber maxLevels
      (Invocation.fromMessage msg gasPool) start
    Charged msg usedGas m.view.stateDb start.view.stateDb o.2.2.view.stateDb r.2.view.stateDb ∧
      ∀ e, r.1 = .error e → o.2.2.view.stateDb = start.view.stateDb

/-- the bookkeeping around an execution: paid in advance, refunded afterwards -/
theorem charged_moveBalance (env : Env σ) (msg : Message) (gasPool : GasPool) (m : Machine σ) (final : StateDb σ)
    (left : ℤ) :
    Charged msg (msg.gasLimit - left) m.view.stateDb
      (startMachine env msg gasPool (boughtMachine msg m)).view.stateDb final
      (final.moveBalance msg.getFrom (left * msg.gasPrice)) := by
  refine ⟨?_, ?_, rfl, rfl⟩
  · intro a
    by_cases ha : a = msg.getFrom
    · subst ha
      simp [startMachine, setupAccessList, boughtMachine, StateDb.incNonce, StateDb.moveBalance]
    · simp [startMachine, setupAccessList, boughtMachine, StateDb.incNonce, StateDb.moveBalance, ha]
  · intro a
    by_cases ha : a = msg.getFrom
    · subst ha
      simp only [startMachine, setupAccessList, boughtMachine, StateDb.incNonce, StateDb.moveBalance, setDb_stateDb,
        record_view, Function.update_self, if_true]
      ring
    · simp [startMachine, setupAccessList, boughtMachine, StateDb.incNonce, StateDb.moveBalance, ha]

/-- an invalid message is rolled back completely -/
structure RolledBack (m : Machine σ) (r : Result σ Octets) : Prop where
  view : r.2.view = m.view
  block : r.2.blockGasPool = m.blockGasPool

/-- what holds after every transition: all gas pools have always been within their bounds, and the stack, the depth and
the write protection flag are back -/
structure Restored (m : Machine σ) (r : Result σ Octets) : Prop where
  safe : Safe r.2
  stack : r.2.invocationStack = m.invocationStack
  depth : r.2.depth = m.depth
  readOnly : r.2.view.readOnly = m.view.readOnly

/-- the two ways a transition can end -/
inductive Ended (env : Env σ) (msg : Message) (m : Machine σ) (r : Result σ Octets) : Prop
  | invalid (e : Exc) (he : e.isExecutionFailed = false) (hr : r.1 = .error e) (back : RolledBack m r)
  | applied (hfailed : ∀ e, r.1 = .error e → e.isExecutionFailed) (usedGas : ℤ) (h : Applied env msg usedGas m r)

theorem preCheck_invalid (env : Env σ) (msg : Message) (m : Machine σ) (e : Exc) (h : preCheck env msg m = some e) :
    e.isExecutionFailed = false := by
  rcases Option.or_eq_some_iff.1 h with h | ⟨-, h⟩
  · simp only [preCheckNonce] at h
    split_ifs at h <;> · obtain rfl := Option.some.inj h; rfl
  · simp only [preCheckFeeCap] at h
    split at h
    · obtain rfl := Option.some.inj h; rfl
    · split_ifs at h
      obtain rfl := Option.some.inj h; rfl

/-- the rollback branch: the block pool gets back exactly what was taken -/
theorem rollBack_spec (msg : Message) (m m' : Machine σ) (e : Exc) (hm : Safe m)
    (hk : Keeps (boughtMachine msg m) m') (hstack : m'.invocationStack = m.invocationStack) (hgas : 0 ≤ msg.gasLimit) :
    let r := rollBack m.blockGasPool.currentGas m.view.stateDb e m'
    r.1 = .error e ∧ RolledBack m r ∧ Restored m r := by
  have hblock : m'.blockGasPool =
      { m.blockGasPool with currentGas := m.blockGasPool.currentGas - msg.gasLimit } := hk.block
  have hadd : m'.blockGasPool.addGas (m.blockGasPool.currentGas - m'.blockGasPool.currentGas) =
      .ok m.blockGasPool := by
    have hle := hm.block.le_initial
    rw [GasPool.addGas_ok, hblock]
    refine ⟨by dsimp only; omega, by dsimp only; omega, ?_⟩
    dsimp only
    rw [show m.blockGasPool.currentGas - msg.gasLimit + (m.blockGasPool.currentGas -
      (m.blockGasPool.currentGas - msg.gasLimit)) = m.blockGasPool.currentGas by omega]
  have hro : m'.view.readOnly = m.view.readOnly := hk.readOnly
  have hsafe : Safe { setDb m' m.view.stateDb with blockGasPool := m.blockGasPool } :=
    ⟨hm.block, hk.safe.stack, hk.safe.trace⟩
  simp only [rollBack, setDb_block, hadd]
  refine ⟨trivial, ⟨?_, rfl⟩, ⟨hsafe.recorded hm.block, hstack, hk.depth, hro⟩⟩
  simp only [record_view, setDb, hro]

/-- the top-level execution: its guarantee, on the stack and the block pool the transition started with -/
theorem execute_top (env : Env σ) (msg : Message) (m : Machine σ) (gasPool : GasPool) (hbought : Safe (boughtMachine msg m))
    (hgas : gasPool.Within) (hstack : m.invocationStack = []) :
    let o := execute env.processors env.blockContext.consensusEpochNumber maxLevels (Invocation.fromMessage msg gasPool)
      (startMachine env msg gasPool (boughtMachine msg m))
    Executed (Invocation.fromMessage msg gasPool) (startMachine env msg gasPool (boughtMachine msg m)) o ∧
      Keeps (boughtMachine msg m) o.2.2 ∧ o.2.2.invocationStack = m.invocationStack := by
  intro o
  have hstart : Safe (startMachine env msg gasPool (boughtMachine msg m)) :=
    ((hbought.recorded hgas).withDb _).withDb _
  have ho : Executed (Invocation.fromMessage msg gasPool) (startMachine env msg gasPool (boughtMachine msg m)) o :=
    execute_spec env.processors env.blockContext.consensusEpochNumber maxLevels _ _ hstart hgas
  refine ⟨ho, ⟨ho.keeps.depth, ho.keeps.readOnly, ho.keeps.block, ho.keeps.safe⟩, ?_⟩
  have htop : TopSpent [] o.2.2.invocationStack := hstack ▸ ho.top
  rw [hstack]
  generalize o.2.2.invocationStack = s at htop ⊢
  cases htop
  rfl

/-- the refund branch after an execution that succeeded or failed -/
theorem refunded_spec (env : Env σ) (msg : Message) (m : Machine σ) (hm : Safe m) (hstack : m.invocationStack = [])
    (hrw : m.view.readOnly = false) (hprice : 0 ≤ msg.gasPrice) (hle : msg.gasLimit ≤ m.blockGasPool.currentGas)
    (intrinsic : ℤ) (h0 : 0 ≤ intrinsic) (h1 : intrinsic ≤ msg.gasLimit)
    (hintr : intrinsicGas msg.data msg.getTo.isNone env.blockContext.isShanghaiActive = .ok intrinsic) :
    let gasPool : GasPool := ⟨msg.gasLimit, msg.gasLimit - intrinsic⟩
    let o := execute env.processors env.blockContext.consensusEpochNumber maxLevels
      (Invocation.fromMessage msg gasPool) (startMachine env msg gasPool (boughtMachine msg m))
    (∀ e, o.1 = .error e → e.isExecutionFailed) → Restored m (refunded msg o) ∧ Ended env msg m (refunded msg o) := by
  intro gasPool o hfailed
  have hgas : gasPool.Within := ⟨by dsimp only [gasPool]; omega, by dsimp only [gasPool]; omega⟩
  obtain ⟨ho, hk, hostack⟩ := execute_top env msg m gasPool (boughtMachine_safe msg m hm (h0.trans h1) hle) hgas hstack
  have hblock : o.2.2.blockGasPool =
      { m.blockGasPool with currentGas := m.blockGasPool.currentGas - msg.gasLimit } := hk.block
  have hinitial : o.2.1.initialGas = msg.gasLimit := ho.spent.initial
  have hcurrent : o.2.1.currentGas ≤ msg.gasLimit - intrinsic := ho.spent.le
  have hwithin : o.2.1.Within := ho.within hgas
  have hroom : o.2.2.blockGasPool.currentGas + o.2.1.initialGas ≤ o.2.2.blockGasPool.initialGas := by
    have := hm.block.le_initial
    rw [hblock, hinitial]
    dsimp only
    omega
  obtain ⟨left, hleft0, hleft1, hok, hsafe, hst, hd, hview, hbl⟩ :=
    refundGas_spec msg o.2.1 o.2.2 hk.safe hwithin (hk.readOnly.trans hrw) hprice hroom
  have heq : refunded msg o = (o.1, (refundGas msg o.2.1 o.2.2).2) := by simp only [refunded, hok]
  have hused : intrinsic - intrinsic.tdiv 5 ≤ msg.gasLimit - left ∧ msg.gasLimit - left ≤ msg.gasLimit := by
    have hnonneg := hwithin.nonneg
    have huse0 : 0 ≤ o.2.1.getUsedGas := by have := hwithin.le_initial; unfold GasPool.getUsedGas; omega
    rw [Int.tdiv_eq_ediv_of_nonneg huse0] at hleft1
    rw [Int.tdiv_eq_ediv_of_nonneg h0]
    simp only [GasPool.getUsedGas, RefundQuotientEIP3529, hinitial] at hleft1
    omega
  have hblock' : (refundGas msg o.2.1 o.2.2).2.blockGasPool =
      { m.blockGasPool with currentGas := m.blockGasPool.currentGas - (msg.gasLimit - left) } := by
    rw [hbl, hblock]
    dsimp only
    rw [show m.blockGasPool.currentGas - msg.gasLimit + left = m.blockGasPool.currentGas - (msg.gasLimit - left) by omega]
  rw [heq]
  refine ⟨⟨hsafe, hst.trans hostack, hd.trans hk.depth, ?_⟩, .applied hfailed (msg.gasLimit - left)
    ⟨hblock', ⟨intrinsic, hintr, h0, hused.1⟩, hused.2, gasPool, _, ?_, fun e he => ho.reverted e he (hfailed e he)⟩⟩
  · rw [hview]
    exact hk.readOnly
  · rw [hview]
    exact charged_moveBalance env msg gasPool m _ left

/-- an exception before gas is bought leaves everything as it was -/
theorem unchanged_spec (env : Env σ) (msg : Message) (m : Machine σ) (hm : Safe m) (e : Exc)
    (he : e.isExecutionFailed = false) :
    Restored m ((.error e, m) : Result σ Octets) ∧ Ended env msg m (.error e, m) :=
  ⟨⟨hm, rfl, rfl, rfl⟩, .invalid e he rfl ⟨rfl, rfl⟩⟩

/-- every transition is either an invalid message, rolled back, or an applied one -/
theorem transition_ended (env : Env σ) (msg : Message) (m : Machine σ) (hm : Safe m)
    (hstack : m.invocationStack = []) (hrw : m.view.readOnly = false) (hprice : 0 ≤ msg.gasPrice) :
    Restored m (transition env msg m) ∧ Ended env msg m (transition env msg m) := by
  unfold transition
  cases hpre : preCheck env msg m with
  | some e => exact unchanged_spec env msg m hm e (preCheck_invalid env msg m e hpre)
  | none =>
    rcases buyGas_cases msg m hrw hprice with ⟨e, he, hbuy⟩ | ⟨hgas, hle, hbuy⟩
    · rw [hbuy]
      exact unchanged_spec env msg m hm e he
    rw [hbuy]
    dsimp only
    have hbought := boughtMachine_safe msg m hm hgas hle
    have hinvalid : ∀ (e : Exc) (m' : Machine σ), e.isExecutionFailed = false → Keeps (boughtMachine msg m) m' →
        m'.invocationStack = m.invocationStack →
        Restored m (rollBack m.blockGasPool.currentGas m.view.stateDb e m') ∧
          Ended env msg m (rollBack m.blockGasPool.currentGas m.view.stateDb e m') := by
      intro e m' he hk hs
      obtain ⟨h1, h2, h3⟩ := rollBack_spec msg m m' e hm hk hs hgas
      exact ⟨h3, .invalid e he h1 h2⟩
    rcases transitionBody_cases env msg (GasPool.new msg.gasLimit) (boughtMachine msg m) hbought
      (GasPool.within_new hgas) hrw with ⟨e, he, hoe, hk, hs⟩ | ⟨intrinsic, hintr, h0, h1, hexec⟩
    · rw [hoe]
      dsimp only
      rw [if_neg (by simp [he])]
      exact hinvalid e _ he hk hs
    · rw [hexec]
      have hrefund := refunded_spec env msg m hm hstack hrw hprice hle intrinsic h0 h1 hintr
      have hpool : (⟨msg.gasLimit, msg.gasLimit - intrinsic⟩ : GasPool).Within :=
        ⟨by dsimp only [GasPool.new] at h1 ⊢; omega, by dsimp only; omega⟩
      obtain ⟨-, hk, hs⟩ := execute_top env msg m _ hbought hpool hstack
      simp only [GasPool.new]
      split
      · next hok => exact hrefund (by rw [hok]; rintro e ⟨⟩)
      · next e herr =>
        split_ifs with hfailed
        · refine hrefund ?_
          rw [herr]
          rintro e' he'
          obtain rfl := Except.error.inj he'
          exact hfailed
        · exact hinvalid e _ (by simpa using hfailed) hk hs

/-- a message that was applied has passed the preliminary checks -/
theorem preCheck_of_applied (env : Env σ) (msg : Message) (m : Machine σ)
    (h : ∀ e, (transition env msg m).1 = .error e → e.isExecutionFailed) : preCheck env msg m = none := by
  cases hpre : preCheck env msg m with
  | none => rfl
  | some e =>
    have hinvalid := preCheck_invalid env msg m e hpre
    rw [h e (by simp only [transition, hpre])] at hinvalid
    cases hinvalid

theorem feeCap_of_preCheck {env : Env σ} {msg : Message} {cap : ℤ} (hreal : msg.isFakeMsg = false)
    (hcap : msg.gasFeeCap = some cap) (h : preCheckFeeCap env msg = none) : env.blockContext.baseFee ≤ cap := by
  by_contra hlt
  simp only [preCheckFeeCap, hcap] at h
  rw [if_pos ⟨.inl (by simp [hreal]), not_le.1 hlt⟩] at h
  cases h

/-- **Gas accounting.** On an exception other than an execution failure the view and the block gas pool are as before.
Otherwise the sender's nonce is increased by one and it is charged the used gas at the gas price, exactly that much gas
is taken from the block, and the used gas lies between four fifths of the intrinsic gas, rounded up, and the gas limit.
In every case no gas pool was at any time negative or larger than its initial gas, and the invocation stack, the call
depth and the write protection flag are back to their initial values. -/
theorem transition_gas (env : Env σ) (msg : Message) (m : Machine σ) (hm : Safe m)
    (hstack : m.invocationStack = []) (hrw : m.view.readOnly = false) (hprice : 0 ≤ msg.gasPrice) :
    let r := transition env msg m
    (∀ e, r.1 = .error e → e.isExecutionFailed = false → r.2.view = m.view ∧ r.2.blockGasPool = m.blockGasPool) ∧
      ((∀ e, r.1 = .error e → e.isExecutionFailed = true) → ∃ usedGas, Applied env msg usedGas m r) ∧
      (∀ p ∈ r.2.gasTrace, 0 ≤ p.currentGas ∧ p.currentGas ≤ p.initialGas) ∧
      r.2.invocationStack = m.invocationStack ∧ r.2.depth = m.depth ∧ r.2.view.readOnly = m.view.readOnly := by
  obtain ⟨hrestored, hended⟩ := transition_ended env msg m hm hstack hrw hprice
  refine ⟨?_, ?_, ?_, hrestored.stack, hrestored.depth, hrestored.readOnly⟩
  · intro e he hinvalid
    cases hended with
    | invalid e' he' hr back => exact ⟨back.view, back.block⟩
    | applied hfailed usedGas h =>
      rw [hfailed e he] at hinvalid
      cases hinvalid
  · intro hfailed
    cases hended with
    | invalid e he hr back =>
      rw [hfailed e hr] at he
      cases he
    | applied _ usedGas h => exact ⟨usedGas, h⟩
  · intro p hp
    exact ⟨(hrestored.safe.trace p hp).nonneg, (hrestored.safe.trace p hp).le_initial⟩

/-- a processor that spends 500 gas and starts a nested invocation of 1000 gas, which fails and burns it -/
def sampleProcessor : MessageProcessor Unit where
  canProcess _ _ _ := .ok true
  process inv :=
    if inv.input = [] then
      .subGas 500 fun _ => .call ⟨2, some 2, 0, [1], true⟩ 1000 0 fun _ _ => .ret []
    else .throw (.executionFailed "no such method")

def sampleEnv : Env Unit := ⟨[sampleProcessor], ⟨9, 1, 0, true⟩, fun _ _ _ _ _ => ()⟩

def sampleMessage : Message := ⟨1, some 2, 2, some 3, 30000, 7, 0, [], false⟩

def sampleMachine : Machine Unit :=
  ⟨⟨⟨fun _ => 100000, fun _ => 0, fun _ => true, 0, ()⟩, false⟩, GasPool.new 1000000, [], 0, []⟩

theorem transition_gas_nested_failure :
    (transition sampleEnv sampleMessage sampleMachine).2.blockGasPool = ⟨1000000, 1000000 - 22500⟩ ∧
      ∃ usedGas, Applied sampleEnv sampleMessage usedGas sampleMachine
        (transition sampleEnv sampleMessage sampleMachine) := by
  have hsafe : Safe sampleMachine := ⟨⟨by decide, by decide⟩, by simp [sampleMachine], by simp [sampleMachine]⟩
  have hok : (transition sampleEnv sampleMessage sampleMachine).1 = .ok [] := by rfl
  refine ⟨by rfl, (transition_gas sampleEnv sampleMessage sampleMachine hsafe rfl rfl (by decide)).2.1 ?_⟩
  intro e he
  rw [hok] at he
  cases he

end SidechainsSdk.Account.GasAccounting
