/-
The nonces of senders, and what a transaction needs to be applied.

A transition increases the nonce of its sender. Message processors have no such operation but for the contract creations of the
EVM, which count the nonces of contracts; so the nonces of accounts that only send transactions are counted by their own
transactions alone.

- `Prog.KeepsNonces`: a processor that writes no nonce of the accounts. `execute_nonces`: nor does an execution.
- `Prog.PastPreCheck`: a processor that throws none of the exceptions of the preliminary checks. `transition_preCheck`: so
  these come from the checks.
- `Admitted`: what a message needs to be applied, on the machine it is applied to. `transition_admitted`: it is necessary.
- `applyTransaction_applied`, `applyTransaction_refused`: what a transaction does to the nonces and to the gas of the block.
-/
import Mathlib.Tactic
import SidechainsSdk.Core.Fallible
import SidechainsSdk.Account.BlockFees

namespace SidechainsSdk.Account.StateTransition

variable {σ : Type} {A : Set Address}

/-! ## Nonces -/

/-- the nonces of the accounts are the same -/
def SameNonces (A : Set Address) (db db' : StateDb σ) : Prop := ∀ a ∈ A, db'.nonce a = db.nonce a

theorem SameNonces.refl (db : StateDb σ) : SameNonces A db db := fun _ _ => rfl

theorem SameNonces.trans {db db' db'' : StateDb σ} (h : SameNonces A db db') (h' : SameNonces A db' db'') :
    SameNonces A db db'' := fun a ha => (h' a ha).trans (h a ha)

/-- a behaviour whose writes leave the nonces of the accounts -/
def Prog.KeepsNonces (A : Set Address) : Prog σ → Prop
  | .ret _ => True
  | .throw _ => True
  | .read k => ∀ m, (k m).KeepsNonces A
  | .write f k => (∀ db, SameNonces A db (f db)) ∧ k.KeepsNonces A
  | .subGas _ k => ∀ r, (k r).KeepsNonces A
  | .call _ _ _ k => ∀ r p, (k r p).KeepsNonces A

theorem findProcessor_mem {processors : List (MessageProcessor σ)} {p : MessageProcessor σ} {inv : Invocation} {view : View σ}
    {epoch : ℕ} (h : findProcessor inv view epoch processors = .ok (some p)) : p ∈ processors := by
  induction processors with
  | nil => simp [findProcessor] at h
  | cons q processors ih =>
    simp only [findProcessor] at h
    split at h
    · cases h
    · obtain rfl := Option.some.inj (Except.ok.inj h)
      exact List.mem_cons_self
    · exact List.mem_cons_of_mem q (ih h)

section Execution

variable {exec : Invocation → Machine σ → Outcome σ}
  (hexec : ∀ inv m, SameNonces A m.view.stateDb (exec inv m).2.2.view.stateDb)

include hexec

theorem runProg_nonces (prog : Prog σ) (h : prog.KeepsNonces A) (m : Machine σ) :
    SameNonces A m.view.stateDb (runProg exec prog m).2.view.stateDb := by
  induction prog generalizing m with
  | ret output => exact .refl _
  | throw e => exact .refl _
  | read k ih => exact ih m (h m) m
  | write f k ih => exact (h.1 m.view.stateDb).trans (ih h.2 _)
  | subGas gas k ih =>
    have hrest := ih _ (h (onCallerGas (·.subGas gas) m).1) (onCallerGas (·.subGas gas) m).2
    rw [onCallerGas_view] at hrest
    exact hrest
  | call c gas additionalDepth k ih =>
    have hcall := hexec { c with gasPool := GasPool.new gas } { m with depth := m.depth + additionalDepth }
    exact hcall.trans (ih _ _ (h _ _) _)

/-- a processor that fails is reverted, or leaves what it has written until the transition is rolled back -/
theorem invoke_nonces (processor : MessageProcessor σ) (hkeeps : ∀ inv, (processor.process inv).KeepsNonces A)
    (inv : Invocation) (m : Machine σ) :
    SameNonces A m.view.stateDb (invoke exec processor inv m).2.2.view.stateDb := by
  have hrun := runProg_nonces hexec (processor.process inv) (hkeeps inv)
    { m with invocationStack := inv :: m.invocationStack, depth := m.depth + 1 }
  simp only [invoke]
  split
  · split_ifs
    · exact .refl _
    · have hview := onCallerGas_view (fun p => p.subGas p.currentGas)
        (setDb (runProg exec (processor.process inv)
          { m with invocationStack := inv :: m.invocationStack, depth := m.depth + 1 }).2 m.view.stateDb)
      split
      · rw [hview]
        exact .refl _
      · simp only [leave, hview]
        exact .refl _
    · exact hrun
  · exact hrun

theorem executeBody_nonces (processors : List (MessageProcessor σ))
    (hkeeps : ∀ p ∈ processors, ∀ inv, (p.process inv).KeepsNonces A) (epoch : ℕ) (inv : Invocation) (m : Machine σ) :
    SameNonces A m.view.stateDb (executeBody exec processors epoch inv m).2.2.view.stateDb := by
  unfold executeBody
  split_ifs
  · exact .refl _
  · cases hfind : findProcessor inv m.view epoch processors with
    | error e => exact .refl _
    | ok found =>
      cases found with
      | none => exact .refl _
      | some p => exact invoke_nonces hexec p (hkeeps p (findProcessor_mem hfind)) inv m

theorem protectedBody_nonces (processors : List (MessageProcessor σ))
    (hkeeps : ∀ p ∈ processors, ∀ inv, (p.process inv).KeepsNonces A) (epoch : ℕ) (inv : Invocation) (m : Machine σ) :
    SameNonces A m.view.stateDb (protectedBody exec processors epoch inv m).2.2.view.stateDb := by
  simp only [protectedBody]
  split_ifs
  · exact executeBody_nonces hexec processors hkeeps epoch inv (setReadOnly m true)
  · exact executeBody_nonces hexec processors hkeeps epoch inv m

end Execution

/-- **Executions.** By induction on the levels. -/
theorem execute_nonces (processors : List (MessageProcessor σ))
    (hkeeps : ∀ p ∈ processors, ∀ inv, (p.process inv).KeepsNonces A) (epoch levels : ℕ) (inv : Invocation)
    (m : Machine σ) :
    SameNonces A m.view.stateDb (execute processors epoch levels inv m).2.2.view.stateDb := by
  induction levels generalizing inv m with
  | zero => exact .refl _
  | succ levels ih =>
    have hbody := protectedBody_nonces ih processors hkeeps epoch inv (onCallerGas (·.subGas inv.gasPool.currentGas) m).2
    have hlent := onCallerGas_view (·.subGas inv.gasPool.currentGas) m
    rw [hlent] at hbody
    simp only [execute]
    split_ifs
    · exact .refl _
    · split
      · rw [hlent]
        exact .refl _
      · split
        · rw [onCallerGas_view]
          exact hbody
        · rw [onCallerGas_view]
          exact hbody

/-! ## The exceptions of the preliminary checks -/

/-- the exceptions that `preCheck` throws, and nothing else in the source -/
def isPreCheck : Exc → Bool
  | .nonceTooLow _ _ _ | .nonceTooHigh _ _ _ | .nonceMax _ _ | .senderNotEoa _ | .feeCapTooLow _ _ _ => true
  | _ => false

/-- a result that is none of them -/
abbrev PastPreCheck {α : Type} (r : Except Exc α) : Prop := Fallible.FailsOnly (fun e => isPreCheck e = false) r

/-- a behaviour that throws none of them, if no operation it calls does -/
def Prog.PastPreCheck : Prog σ → Prop
  | .ret _ => True
  | .throw e => isPreCheck e = false
  | .read k => ∀ m, (k m).PastPreCheck
  | .write _ k => k.PastPreCheck
  | .subGas _ k => ∀ r, StateTransition.PastPreCheck r → (k r).PastPreCheck
  | .call _ _ _ k => ∀ r p, StateTransition.PastPreCheck r → (k r p).PastPreCheck

theorem subGas_pastPreCheck (p : GasPool) (gas : ℤ) : PastPreCheck (p.subGas gas) := by
  unfold GasPool.subGas
  split_ifs
  · exact rfl
  · exact rfl
  · exact trivial

theorem addGas_pastPreCheck (p : GasPool) (gas : ℤ) : PastPreCheck (p.addGas gas) := by
  unfold GasPool.addGas
  split_ifs
  · exact rfl
  · exact rfl
  · exact trivial

theorem onCallerGas_pastPreCheck {op : GasPool → Except Exc GasPool} (hop : ∀ p, PastPreCheck (op p)) (m : Machine σ) :
    PastPreCheck (onCallerGas op m).1 := by
  unfold onCallerGas
  split
  · exact trivial
  · next inv stack _ =>
    have hpool := hop inv.gasPool
    split
    · next e he =>
      rw [he] at hpool
      exact hpool
    · exact trivial

/-- processors that throw none of them, when they are asked or when they are run -/
structure ProcessorsPastPreCheck (processors : List (MessageProcessor σ)) : Prop where
  canProcess : ∀ p ∈ processors, ∀ inv view epoch, PastPreCheck (p.canProcess inv view epoch)
  process : ∀ p ∈ processors, ∀ inv, (p.process inv).PastPreCheck

section PastPreCheck

variable {exec : Invocation → Machine σ → Outcome σ} (hexec : ∀ inv m, PastPreCheck (exec inv m).1)

include hexec

theorem runProg_pastPreCheck (prog : Prog σ) (h : prog.PastPreCheck) (m : Machine σ) :
    PastPreCheck (runProg exec prog m).1 := by
  induction prog generalizing m with
  | ret output => exact trivial
  | throw e => exact h
  | read k ih => exact ih m (h m) m
  | write f k ih => exact ih h _
  | subGas gas k ih => exact ih _ (h _ (onCallerGas_pastPreCheck (fun p => subGas_pastPreCheck p gas) m)) _
  | call c gas additionalDepth k ih => exact ih _ _ (h _ _ (hexec _ _)) _

theorem invoke_pastPreCheck (processor : MessageProcessor σ) (h : ∀ inv, (processor.process inv).PastPreCheck)
    (inv : Invocation) (m : Machine σ) : PastPreCheck (invoke exec processor inv m).1 := by
  have hrun := runProg_pastPreCheck hexec (processor.process inv) (h inv)
    { m with invocationStack := inv :: m.invocationStack, depth := m.depth + 1 }
  simp only [invoke]
  split
  · next e he =>
    rw [he] at hrun
    split_ifs
    · exact hrun
    · split
      · next e' he' =>
        have hburn := onCallerGas_pastPreCheck (fun p => subGas_pastPreCheck p p.currentGas)
          (setDb (runProg exec (processor.process inv)
            { m with invocationStack := inv :: m.invocationStack, depth := m.depth + 1 }).2 m.view.stateDb)
        rw [he'] at hburn
        exact hburn
      · exact hrun
    · exact hrun
  · exact trivial

theorem executeBody_pastPreCheck (processors : List (MessageProcessor σ)) (h : ProcessorsPastPreCheck processors) (epoch : ℕ)
    (inv : Invocation) (m : Machine σ) : PastPreCheck (executeBody exec processors epoch inv m).1 := by
  have hfind : ∀ ps : List (MessageProcessor σ), (∀ p ∈ ps, p ∈ processors) →
      PastPreCheck (findProcessor inv m.view epoch ps) := by
    intro ps
    induction ps with
    | nil => exact fun _ => trivial
    | cons q ps ih =>
      intro hsub
      have hask := h.canProcess q (hsub q List.mem_cons_self) inv m.view epoch
      simp only [findProcessor]
      split
      · next e he =>
        rw [he] at hask
        exact hask
      · exact trivial
      · exact ih fun p hp => hsub p (List.mem_cons_of_mem q hp)
  have hfound := hfind processors fun _ hp => hp
  unfold executeBody
  split_ifs
  · exact rfl
  · cases hres : findProcessor inv m.view epoch processors with
    | error e =>
      rw [hres] at hfound
      exact hfound
    | ok found =>
      cases found with
      | none => exact rfl
      | some p => exact invoke_pastPreCheck hexec p (h.process p (findProcessor_mem hres)) inv m

theorem protectedBody_pastPreCheck (processors : List (MessageProcessor σ)) (h : ProcessorsPastPreCheck processors) (epoch : ℕ)
    (inv : Invocation) (m : Machine σ) : PastPreCheck (protectedBody exec processors epoch inv m).1 :=
  executeBody_pastPreCheck hexec processors h epoch inv _

end PastPreCheck

theorem execute_pastPreCheck (processors : List (MessageProcessor σ)) (h : ProcessorsPastPreCheck processors)
    (epoch levels : ℕ) (inv : Invocation) (m : Machine σ) : PastPreCheck (execute processors epoch levels inv m).1 := by
  induction levels generalizing inv m with
  | zero => exact rfl
  | succ levels ih =>
    have hbody := protectedBody_pastPreCheck ih processors h epoch inv (onCallerGas (·.subGas inv.gasPool.currentGas) m).2
    have hlent := onCallerGas_pastPreCheck (fun p => subGas_pastPreCheck p inv.gasPool.currentGas) m
    simp only [execute]
    split_ifs
    · exact rfl
    · split
      · next e he =>
        rw [he] at hlent
        exact hlent
      · split
        · next e he =>
          have hback := onCallerGas_pastPreCheck
            (fun p => addGas_pastPreCheck p (protectedBody (execute processors epoch levels) processors epoch inv
              (onCallerGas (·.subGas inv.gasPool.currentGas) m).2).2.1.currentGas)
            (protectedBody (execute processors epoch levels) processors epoch inv
              (onCallerGas (·.subGas inv.gasPool.currentGas) m).2).2.2
          rw [he] at hback
          exact hback
        · exact hbody

section TransitionPastPreCheck

variable (env : Env σ) (msg : Message)

theorem subBalance_pastPreCheck (m : Machine σ) (a : Address) (amount : ℤ) : PastPreCheck (subBalance m a amount).1 := by
  unfold subBalance
  split_ifs
  · exact trivial
  · exact rfl
  · exact rfl
  · exact trivial

theorem addBalance_pastPreCheck (m : Machine σ) (a : Address) (amount : ℤ) : PastPreCheck (addBalance m a amount).1 := by
  unfold addBalance
  split_ifs
  · exact trivial
  · exact rfl
  · exact rfl
  · exact trivial

theorem buyGas_pastPreCheck (m : Machine σ) : PastPreCheck (buyGas msg m).1 := by
  simp only [buyGas]
  split_ifs
  · exact rfl
  · exact rfl
  · split
    · next e he =>
      have hsub := subGas_pastPreCheck m.blockGasPool msg.gasLimit
      rw [he] at hsub
      exact hsub
    · next blockGasPool _ =>
      split
      · next e he =>
        have hpay := subBalance_pastPreCheck (record blockGasPool { m with blockGasPool := blockGasPool }) msg.getFrom
          (msg.gasLimit * msg.gasPrice)
        rw [he] at hpay
        exact hpay
      · exact trivial

theorem refundGas_pastPreCheck (gas : GasPool) (m : Machine σ) : PastPreCheck (refundGas msg gas m).1 := by
  unfold refundGas
  split
  · next e he =>
    have hadd := addGas_pastPreCheck gas (min (m.view.stateDb.refund : ℤ) (gas.getUsedGas.tdiv RefundQuotientEIP3529))
    rw [he] at hadd
    exact hadd
  · next gas' _ =>
    dsimp only
    split
    · next e he =>
      have hpay := addBalance_pastPreCheck (record gas' m) msg.getFrom (gas'.currentGas * msg.gasPrice)
      rw [he] at hpay
      exact hpay
    · split
      · next e he =>
        have hadd := addGas_pastPreCheck (addBalance (record gas' m) msg.getFrom (gas'.currentGas * msg.gasPrice)).2.blockGasPool
          gas'.currentGas
        rw [he] at hadd
        exact hadd
      · exact trivial

theorem refunded_pastPreCheck (o : Outcome σ) (h : PastPreCheck o.1) : PastPreCheck (refunded msg o).1 := by
  have hrefund := refundGas_pastPreCheck msg o.2.1 o.2.2
  simp only [refunded]
  split
  · next e he =>
    rw [he] at hrefund
    exact hrefund
  · exact h

theorem rollBack_pastPreCheck (initialBlockGas : ℤ) (rollback : StateDb σ) {e : Exc} (h : isPreCheck e = false)
    (m : Machine σ) : PastPreCheck (rollBack initialBlockGas rollback e m).1 := by
  have hadd := addGas_pastPreCheck (setDb m rollback).blockGasPool
    (initialBlockGas - (setDb m rollback).blockGasPool.currentGas)
  simp only [rollBack]
  split
  · next e' he =>
    rw [he] at hadd
    exact hadd
  · exact h

theorem transitionBody_pastPreCheck (hprocessors : ProcessorsPastPreCheck env.processors) (gasPool : GasPool)
    (m : Machine σ) : PastPreCheck (transitionBody env msg gasPool m).1 := by
  unfold transitionBody
  cases hintr : intrinsicGas msg.data msg.getTo.isNone env.blockContext.isShanghaiActive with
  | error e =>
    simp only [intrinsicGas] at hintr
    split_ifs at hintr <;> · obtain rfl := Except.error.inj hintr; exact rfl
  | ok intrinsic =>
    dsimp only
    by_cases hlow : gasPool.currentGas < intrinsic
    · rw [if_pos hlow]
      exact rfl
    · rw [if_neg hlow]
      have hsub := subGas_pastPreCheck gasPool intrinsic
      cases hpool : gasPool.subGas intrinsic with
      | error e =>
        rw [hpool] at hsub
        exact hsub
      | ok p =>
        dsimp only
        by_cases hcode : env.blockContext.isShanghaiActive ∧ msg.getTo.isNone ∧ msg.data.length > MaxInitCodeSize
        · rw [if_pos hcode]
          exact rfl
        · rw [if_neg hcode]
          split
          · next e he =>
            unfold increaseNonce at he
            split_ifs at he
            obtain rfl := Except.error.inj he
            exact rfl
          · exact execute_pastPreCheck env.processors hprocessors _ _ _ _

/-- past the preliminary checks none of their exceptions is thrown any more -/
theorem transition_preCheck (hprocessors : ProcessorsPastPreCheck env.processors) {m : Machine σ} {e : Exc}
    (h : (transition env msg m).1 = .error e) (he : isPreCheck e = true) : preCheck env msg m = some e := by
  unfold transition at h
  cases hpre : preCheck env msg m with
  | some e' =>
    rw [hpre] at h
    rw [Except.error.inj h]
  | none =>
    rw [hpre] at h
    have hpast : PastPreCheck (transition env msg m).1 := by
      have hbuy := buyGas_pastPreCheck msg m
      unfold transition
      rw [hpre]
      dsimp only
      split
      · next e' he' =>
        rw [he'] at hbuy
        exact hbuy
      · next gasPool _ =>
        have hbody := transitionBody_pastPreCheck env msg hprocessors gasPool (buyGas msg m).2
        split
        · exact refunded_pastPreCheck msg _ hbody
        · next e' he' =>
          have hbody' := hbody
          rw [he'] at hbody'
          split_ifs
          · exact refunded_pastPreCheck msg _ hbody
          · exact rollBack_pastPreCheck _ _ hbody' _
    unfold transition at hpast
    rw [hpre] at hpast
    dsimp only at h hpast
    rw [h] at hpast
    have hfalse : isPreCheck e = false := hpast
    rw [he] at hfalse
    cases hfalse

end TransitionPastPreCheck

end SidechainsSdk.Account.StateTransition

namespace SidechainsSdk.Account.BlockFees

open SidechainsSdk.Account.StateTransition GasAccounting EthereumTransaction

variable {σ : Type} {A : Set Address}

/-- what the message processors and the end of a transaction in the database library leave to the transition: the nonces of the
senders, and the preliminary checks -/
structure KeepsNonces (A : Set Address) (env : BlockEnv σ) : Prop where
  processors : ∀ p ∈ env.processors, ∀ inv, (p.process inv).KeepsNonces A
  finalizeChanges : ∀ db, SameNonces A db (env.finalizeChanges db)
  pastPreCheck : ProcessorsPastPreCheck env.processors

/-! ## What a message needs -/

/-- the gas limit pays the intrinsic gas, and the code of a new contract is not too large -/
structure PaysIntrinsic (env : Env σ) (msg : Message) : Prop where
  gas : ∃ intrinsic, intrinsicGas msg.data msg.getTo.isNone env.blockContext.isShanghaiActive = .ok intrinsic ∧
    intrinsic ≤ msg.gasLimit
  code : ¬ (env.blockContext.isShanghaiActive ∧ msg.getTo.isNone ∧ msg.data.length > MaxInitCodeSize)

/-- what a message needs to be applied, other than the funds and the kind of its sender -/
structure Admitted (env : Env σ) (msg : Message) (m : Machine σ) : Prop where
  nonce : msg.isFakeMsg = false → msg.nonce = m.view.stateDb.nonce msg.getFrom
  nonceMax : msg.isFakeMsg = false → isUint64 (m.view.stateDb.nonce msg.getFrom + 1) = true
  feeCap : ∀ cap, msg.isFakeMsg = false → msg.gasFeeCap = some cap → env.blockContext.baseFee ≤ cap
  block : msg.gasLimit ≤ m.blockGasPool.currentGas
  intrinsic : PaysIntrinsic env msg

theorem TxGas_le_intrinsicGas {data : Octets} {creation eip3860 : Bool} {gas : ℤ}
    (h : intrinsicGas data creation eip3860 = .ok gas) : TxGas ≤ gas := by
  have hbase : TxGas ≤ if creation then TxGasContractCreation else TxGas := by
    split_ifs
    · decide
    · exact le_rfl
  have hdata : ∀ n k : ℕ, 0 ≤ TxDataNonZeroGasEIP2028 * (n : ℤ) + TxDataZeroGas * (k : ℤ) := by
    intro n k
    unfold TxDataNonZeroGasEIP2028 TxDataZeroGas
    positivity
  have hwords : ∀ n : ℕ, 0 ≤ InitCodeWordGas * (n : ℤ) := by
    intro n
    unfold InitCodeWordGas
    positivity
  unfold intrinsicGas at h
  dsimp only at h
  generalize (if creation then TxGasContractCreation else TxGas) = base at h hbase
  split_ifs at h
  · obtain rfl := Except.ok.inj h
    have h₁ := hdata (data.countP (· ≠ 0)) (data.length - data.countP (· ≠ 0))
    have h₂ := hwords ((data.length + 31) / 32)
    linarith
  · obtain rfl := Except.ok.inj h
    have h₁ := hdata (data.countP (· ≠ 0)) (data.length - data.countP (· ≠ 0))
    linarith
  · obtain rfl := Except.ok.inj h
    exact hbase

/-- a message that does not pay is invalid -/
theorem transitionBody_refuses {env : Env σ} {msg : Message} (h : ¬ PaysIntrinsic env msg) (m : Machine σ) :
    ∃ e, e.isExecutionFailed = false ∧ (transitionBody env msg (GasPool.new msg.gasLimit) m).1 = .error e := by
  unfold transitionBody
  cases hintr : intrinsicGas msg.data msg.getTo.isNone env.blockContext.isShanghaiActive with
  | error e =>
    refine ⟨e, ?_, rfl⟩
    simp only [intrinsicGas] at hintr
    split_ifs at hintr <;> · obtain rfl := Except.error.inj hintr; rfl
  | ok intrinsic =>
    dsimp only
    by_cases hlow : (GasPool.new msg.gasLimit).currentGas < intrinsic
    · rw [if_pos hlow]
      exact ⟨_, rfl, rfl⟩
    · rw [if_neg hlow]
      have hcode : env.blockContext.isShanghaiActive ∧ msg.getTo.isNone ∧ msg.data.length > MaxInitCodeSize := by
        by_contra hcode
        exact h ⟨⟨intrinsic, hintr, not_lt.1 hlow⟩, hcode⟩
      cases hsub : (GasPool.new msg.gasLimit).subGas intrinsic with
      | error e =>
        refine ⟨e, ?_, rfl⟩
        unfold GasPool.subGas at hsub
        split_ifs at hsub
        obtain rfl := Except.error.inj hsub
        rfl
      | ok gasPool =>
        dsimp only
        rw [if_pos hcode]
        exact ⟨_, rfl, rfl⟩

theorem rollBack_refuses {initialBlockGas : ℤ} {rollback : StateDb σ} {e : Exc} (he : e.isExecutionFailed = false)
    (m : Machine σ) : ∃ e', e'.isExecutionFailed = false ∧ (rollBack initialBlockGas rollback e m).1 = .error e' := by
  simp only [rollBack]
  cases hadd : (setDb m rollback).blockGasPool.addGas (initialBlockGas - (setDb m rollback).blockGasPool.currentGas) with
  | error e' =>
    refine ⟨e', ?_, rfl⟩
    unfold GasPool.addGas at hadd
    split_ifs at hadd <;> · obtain rfl := Except.error.inj hadd; rfl
  | ok p => exact ⟨e, he, rfl⟩

theorem admitted_of_preCheck {env : Env σ} {msg : Message} {m : Machine σ} (h : preCheck env msg m = none)
    (hblock : msg.gasLimit ≤ m.blockGasPool.currentGas) (hpays : PaysIntrinsic env msg) : Admitted env msg m := by
  obtain ⟨hnonce, hcap⟩ := Option.or_eq_none_iff.1 h
  have hchecks : msg.isFakeMsg = false → msg.nonce = m.view.stateDb.nonce msg.getFrom ∧
      isUint64 (m.view.stateDb.nonce msg.getFrom + 1) = true := by
    intro hreal
    simp only [preCheckNonce, hreal, Bool.false_eq_true, if_false] at hnonce
    split_ifs at hnonce with hlow hhigh hmax
    exact ⟨le_antisymm (not_lt.1 hhigh) (not_lt.1 hlow), hmax⟩
  exact ⟨fun hreal => (hchecks hreal).1, fun hreal => (hchecks hreal).2,
    fun cap hreal hfeeCap => feeCap_of_preCheck hreal hfeeCap hcap, hblock, hpays⟩

theorem transition_admitted (env : Env σ) (msg : Message) (m : Machine σ) (hrw : m.view.readOnly = false)
    (hprice : 0 ≤ msg.gasPrice) (h : ∀ e, (transition env msg m).1 = .error e → e.isExecutionFailed = true) :
    Admitted env msg m := by
  have hpre := preCheck_of_applied env msg m h
  unfold transition at h
  rw [hpre] at h
  rcases buyGas_cases msg m hrw hprice with ⟨e, he, hbuy⟩ | ⟨-, hle, hbuy⟩
  · rw [hbuy] at h
    have hfailed := h e rfl
    rw [he] at hfailed
    cases hfailed
  · refine admitted_of_preCheck hpre hle ?_
    by_contra hpays
    obtain ⟨e, he, hbody⟩ := transitionBody_refuses hpays (boughtMachine msg m)
    rw [hbuy] at h
    dsimp only at h
    rw [hbody] at h
    dsimp only at h
    rw [if_neg (by simp [he])] at h
    obtain ⟨e', he', hroll⟩ :=
      rollBack_refuses he (transitionBody env msg (GasPool.new msg.gasLimit) (boughtMachine msg m)).2.2
    have hfailed := h e' hroll
    rw [he'] at hfailed
    cases hfailed

theorem feeCap_of_check {env : Env σ} {msg : Message} {cap : ℤ} {e : Exc} (hcap : msg.gasFeeCap = some cap)
    (h : preCheckFeeCap env msg = some e) : cap < env.blockContext.baseFee := by
  simp only [preCheckFeeCap, hcap] at h
  split_ifs at h with hlow
  exact hlow.2

/-! ## Transactions -/

theorem applied_nonces {env : BlockEnv σ} {tx : EthereumTransaction} {txIndex : ℕ} {m : Machine σ} {usedGas : ℤ}
    (hkeeps : KeepsNonces A env)
    (h : Applied env.toEnv (tx.asMessage env.blockContext.baseFee) usedGas (beforeMessage env tx txIndex m)
      (txTransition env tx txIndex m)) {a : Address} (ha : a ∈ A) :
    ((txTransition env tx txIndex m).2.view.stateDb.nonce a : ℤ) =
      m.view.stateDb.nonce a + if a = (tx.asMessage env.blockContext.baseFee).getFrom then 1 else 0 := by
  obtain ⟨gasPool, start, hcharged, -⟩ := h.charged
  have hsame := execute_nonces env.processors hkeeps.processors env.blockContext.consensusEpochNumber maxLevels
    (Invocation.fromMessage (tx.asMessage env.blockContext.baseFee) gasPool) start a ha
  rw [hcharged.nonce a, hsame, sub_self, add_zero]
  rfl

section Transactions

variable {env : BlockEnv σ} {tx : EthereumTransaction} {txIndex : ℕ} {m : Machine σ} (hready : Ready m)
  (hprice : 0 ≤ (tx.asMessage env.blockContext.baseFee).gasPrice) (hkeeps : KeepsNonces A env)

include hready hprice hkeeps

/-- a transaction that is applied was admitted; it counts the nonce of its sender and takes gas from the block -/
theorem applyTransaction_applied {receipt : Receipt} (h : (applyTransaction env tx txIndex m).1 = .ok receipt) :
    Ready (applyTransaction env tx txIndex m).2 ∧ Admitted env.toEnv (tx.asMessage env.blockContext.baseFee) m ∧
      (applyTransaction env tx txIndex m).2.blockGasPool.currentGas ≤ m.blockGasPool.currentGas ∧
      ∀ a ∈ A, ((applyTransaction env tx txIndex m).2.view.stateDb.nonce a : ℤ) =
        m.view.stateDb.nonce a + if a = (tx.asMessage env.blockContext.baseFee).getFrom then 1 else 0 := by
  obtain ⟨hrestored, hended⟩ := transition_ended env.toEnv (tx.asMessage env.blockContext.baseFee)
    (beforeMessage env tx txIndex m) (hready.before env tx txIndex) rfl hready.readOnly hprice
  have hfailed : ∀ e, (txTransition env tx txIndex m).1 = .error e → e.isExecutionFailed = true := by
    intro e he
    simp only [applyTransaction, he] at h
    split_ifs at h with hsigned hfailed
    exact hfailed
  have hresult : (applyTransaction env tx txIndex m).2 = setDb (txTransition env tx txIndex m).2
      (env.finalizeChanges (txTransition env tx txIndex m).2.view.stateDb) := by
    simp only [applyTransaction] at h ⊢
    split_ifs at h ⊢ with hsigned
    cases hres : (txTransition env tx txIndex m).1 with
    | ok output => rfl
    | error e =>
      dsimp only
      rw [if_pos (hfailed e hres)]
  cases hended with
  | invalid e he hr back =>
    rw [hfailed e hr] at he
    cases he
  | applied _ usedGas happlied =>
    have hadmitted := transition_admitted env.toEnv (tx.asMessage env.blockContext.baseFee) (beforeMessage env tx txIndex m)
      hready.readOnly hprice hfailed
    have hused : 0 ≤ usedGas := by
      obtain ⟨intrinsic, -, h0, hle⟩ := happlied.intrinsic
      rw [Int.tdiv_eq_ediv_of_nonneg h0] at hle
      omega
    have hblock : (txTransition env tx txIndex m).2.blockGasPool.currentGas = m.blockGasPool.currentGas - usedGas := by
      have hpool := happlied.block
      exact congrArg GasPool.currentGas hpool
    rw [hresult]
    refine ⟨⟨hrestored.safe.withDb _, hrestored.readOnly.trans hready.readOnly⟩,
      ⟨hadmitted.nonce, hadmitted.nonceMax, hadmitted.feeCap, hadmitted.block, hadmitted.intrinsic⟩, ?_, ?_⟩
    · rw [setDb_block, hblock]
      omega
    · intro a ha
      rw [setDb_stateDb, hkeeps.finalizeChanges _ a ha]
      exact applied_nonces hkeeps happlied ha

/-- a transaction that is refused leaves the nonces and the gas of the block -/
theorem applyTransaction_refused {e : Exc} (h : (applyTransaction env tx txIndex m).1 = .error e) :
    Ready (applyTransaction env tx txIndex m).2 ∧
      (applyTransaction env tx txIndex m).2.blockGasPool.currentGas = m.blockGasPool.currentGas ∧
      SameNonces A m.view.stateDb (applyTransaction env tx txIndex m).2.view.stateDb := by
  obtain ⟨hrestored, hended⟩ := transition_ended env.toEnv (tx.asMessage env.blockContext.baseFee)
    (beforeMessage env tx txIndex m) (hready.before env tx txIndex) rfl hready.readOnly hprice
  simp only [applyTransaction] at h ⊢
  split_ifs at h ⊢ with hsigned
  · cases hended with
    | invalid e' he hr back =>
      have hr' : (txTransition env tx txIndex m).1 = .error e' := hr
      have hblock : (txTransition env tx txIndex m).2.blockGasPool = m.blockGasPool := back.block
      have hnonce : (txTransition env tx txIndex m).2.view.stateDb.nonce = m.view.stateDb.nonce :=
        (congrArg (fun view : View σ => view.stateDb.nonce) back.view).trans rfl
      rw [hr']
      dsimp only
      rw [if_neg (by simp [he])]
      refine ⟨⟨hrestored.safe.withDb _, hrestored.readOnly.trans hready.readOnly⟩, ?_, ?_⟩
      · rw [setDb_block, hblock]
      · intro a ha
        rw [setDb_stateDb, hkeeps.finalizeChanges _ a ha, hnonce]
    | applied hfailed usedGas happlied =>
      cases hres : (txTransition env tx txIndex m).1 with
      | ok output =>
        rw [hres] at h
        cases h
      | error e' =>
        rw [hres] at h
        dsimp only at h
        rw [if_pos (hfailed e' hres)] at h
        cases h
  · exact ⟨hready, rfl, .refl _⟩

omit hready hprice in
/-- an exception of the preliminary checks comes from them -/
theorem applyTransaction_preCheck {e : Exc} (h : (applyTransaction env tx txIndex m).1 = .error e) (he : isPreCheck e = true) :
    preCheck env.toEnv (tx.asMessage env.blockContext.baseFee) m = some e := by
  have htransition : (txTransition env tx txIndex m).1 = .error e := by
    simp only [applyTransaction] at h
    split_ifs at h with hsigned
    · cases hres : (txTransition env tx txIndex m).1 with
      | ok output =>
        rw [hres] at h
        cases h
      | error e' =>
        rw [hres] at h
        dsimp only at h
        split_ifs at h with hfailed
        rw [Except.error.inj h]
    · obtain rfl := Except.error.inj h
      cases he
  have hchecks := transition_preCheck env.toEnv (tx.asMessage env.blockContext.baseFee) hkeeps.pastPreCheck
    (m := beforeMessage env tx txIndex m) htransition he
  exact hchecks

omit hready hprice in
theorem feeCap_lt_baseFee {a : Address} {cap base : ℤ}
    (h : (applyTransaction env tx txIndex m).1 = .error (.feeCapTooLow a cap base)) :
    tx.getMaxFeePerGas < env.blockContext.baseFee := by
  rcases Option.or_eq_some_iff.1 (applyTransaction_preCheck hkeeps h rfl) with hnonce | ⟨-, hcap⟩
  · simp only [preCheckNonce] at hnonce
    split_ifs at hnonce <;> cases hnonce
  · exact feeCap_of_check rfl hcap

omit hready hprice in
theorem nonce_lt_of_nonceTooLow {a : Address} {txNonce stateNonce : ℤ}
    (h : (applyTransaction env tx txIndex m).1 = .error (.nonceTooLow a txNonce stateNonce)) :
    tx.nonce < m.view.stateDb.nonce (tx.asMessage env.blockContext.baseFee).getFrom := by
  rcases Option.or_eq_some_iff.1 (applyTransaction_preCheck hkeeps h rfl) with hnonce | ⟨-, hcap⟩
  · simp only [preCheckNonce] at hnonce
    split_ifs at hnonce with hfake hlow
    · exact hlow
    · cases hnonce
    · cases hnonce
    · cases hnonce
  · simp only [preCheckFeeCap, asMessage] at hcap
    split_ifs at hcap <;> cases hcap

end Transactions

end SidechainsSdk.Account.BlockFees
