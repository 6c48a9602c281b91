/-
Application of a message (`StateTransition`, `GasUtil.intrinsicGas`, the view operations it uses).

A message buys gas from the block, pays for it in advance, pays the intrinsic gas and is executed by the first message
processor that accepts it; a processor may start nested invocations, which borrow gas from the invocation on top of the
stack. What is left is refunded. The model keeps the objects the source mutates in one explicit state:
- `Machine`: the view (state database and write protection flag), the block gas pool, the stack of invocations (each with
  its own gas pool, top first), the call depth. `gasTrace` is not in the source: it records every value that any gas
  pool takes, so that "at no time" can be said.
- `StateDb`: balances, nonces, the refund counter and account kinds; everything else in it (storage, code, logs, access
  list) is one component of arbitrary type `σ`. A snapshot is the value of the database.
- `Prog`: what a message processor does, step by step: it reads the machine, changes the database, consumes gas of its
  own invocation, starts nested invocations (`ExecutionContext.executeDepth`) and sees their outcome, and ends with an
  output or an exception. A processor is an arbitrary `Prog` for every invocation.

Tracing is left out, and so is what `canProcess` of a contract with a fork writes when it sets the contract up. `execute`
recurses through the processors; its first argument bounds the nesting, and `GasAccounting.execute_levels` shows that the
depth limit of the source makes 1025 levels enough.
-/
import Mathlib.Tactic
import SidechainsSdk.Account.GasPool

namespace SidechainsSdk.Account.StateTransition

/-! ## State -/

/-- the state database; `rest` is whatever else it holds -/
structure StateDb (σ : Type) where
  balance : Address → ℤ
  nonce : Address → ℕ
  isEoaAccount : Address → Bool
  refund : ℕ
  rest : σ

/-- `StateDbAccountStateView` -/
structure View (σ : Type) where
  stateDb : StateDb σ
  readOnly : Bool

/-- an invocation without its gas pool -/
structure Call where
  caller : Address
  callee : Option Address
  value : ℤ
  input : Octets
  readOnly : Bool
deriving DecidableEq

structure Invocation extends Call where
  gasPool : GasPool
deriving DecidableEq

structure Machine (σ : Type) where
  view : View σ
  blockGasPool : GasPool
  invocationStack : List Invocation
  depth : ℕ
  gasTrace : List GasPool

structure Message where
  getFrom : Address
  getTo : Option Address
  gasPrice : ℤ
  -- `null` in the source for messages that carry none
  gasFeeCap : Option ℤ
  gasLimit : ℤ
  value : ℤ
  nonce : ℤ
  data : Octets
  isFakeMsg : Bool

/-- the fields of `BlockContext` that a transition reads, and the fork that is looked up by its epoch -/
structure BlockContext where
  forgerAddress : Address
  baseFee : ℤ
  consensusEpochNumber : ℕ
  isShanghaiActive : Bool

/-! ## View operations -/

section View

variable {σ : Type}

/-- the result of an operation that may throw, with the state it leaves behind in either case -/
abbrev Result (σ α : Type) := Except Exc α × Machine σ

def setDb (m : Machine σ) (db : StateDb σ) : Machine σ := { m with view := { m.view with stateDb := db } }

def setReadOnly (m : Machine σ) (b : Bool) : Machine σ := { m with view := { m.view with readOnly := b } }

def record (p : GasPool) (m : Machine σ) : Machine σ := { m with gasTrace := p :: m.gasTrace }

@[simp] theorem setDb_stateDb (m : Machine σ) (db : StateDb σ) : (setDb m db).view.stateDb = db := rfl
@[simp] theorem setDb_readOnly (m : Machine σ) (db : StateDb σ) : (setDb m db).view.readOnly = m.view.readOnly := rfl
@[simp] theorem setDb_block (m : Machine σ) (db : StateDb σ) : (setDb m db).blockGasPool = m.blockGasPool := rfl
@[simp] theorem setDb_stack (m : Machine σ) (db : StateDb σ) : (setDb m db).invocationStack = m.invocationStack := rfl
@[simp] theorem setDb_depth (m : Machine σ) (db : StateDb σ) : (setDb m db).depth = m.depth := rfl
@[simp] theorem setDb_trace (m : Machine σ) (db : StateDb σ) : (setDb m db).gasTrace = m.gasTrace := rfl

@[simp] theorem setReadOnly_stateDb (m : Machine σ) (b : Bool) : (setReadOnly m b).view.stateDb = m.view.stateDb := rfl
@[simp] theorem setReadOnly_readOnly (m : Machine σ) (b : Bool) : (setReadOnly m b).view.readOnly = b := rfl
@[simp] theorem setReadOnly_block (m : Machine σ) (b : Bool) : (setReadOnly m b).blockGasPool = m.blockGasPool := rfl
@[simp] theorem setReadOnly_stack (m : Machine σ) (b : Bool) :
    (setReadOnly m b).invocationStack = m.invocationStack := rfl
@[simp] theorem setReadOnly_depth (m : Machine σ) (b : Bool) : (setReadOnly m b).depth = m.depth := rfl
@[simp] theorem setReadOnly_trace (m : Machine σ) (b : Bool) : (setReadOnly m b).gasTrace = m.gasTrace := rfl

@[simp] theorem record_view (p : GasPool) (m : Machine σ) : (record p m).view = m.view := rfl
@[simp] theorem record_block (p : GasPool) (m : Machine σ) : (record p m).blockGasPool = m.blockGasPool := rfl
@[simp] theorem record_stack (p : GasPool) (m : Machine σ) : (record p m).invocationStack = m.invocationStack := rfl
@[simp] theorem record_depth (p : GasPool) (m : Machine σ) : (record p m).depth = m.depth := rfl
@[simp] theorem record_trace (p : GasPool) (m : Machine σ) : (record p m).gasTrace = p :: m.gasTrace := rfl

/-- the database with the balance of one account changed by `amount` -/
def StateDb.moveBalance (db : StateDb σ) (address : Address) (amount : ℤ) : StateDb σ :=
  { db with balance := Function.update db.balance address (db.balance address + amount) }

def addBalance (m : Machine σ) (address : Address) (amount : ℤ) : Result σ Unit :=
  if amount.sign = 0 then (.ok (), m)
  else if amount.sign < 0 then (.error (.executionFailed "cannot add negative amount to balance"), m)
  else if m.view.readOnly then (.error (.writeProtection "invalid balance change"), m)
  else (.ok (), setDb m (m.view.stateDb.moveBalance address amount))

def subBalance (m : Machine σ) (address : Address) (amount : ℤ) : Result σ Unit :=
  if amount.sign = 0 then (.ok (), m)
  else if amount.sign < 0 then (.error (.executionFailed "cannot subtract negative amount from balance"), m)
  else if m.view.readOnly then (.error (.writeProtection "invalid balance change"), m)
  else (.ok (), setDb m (m.view.stateDb.moveBalance address (-amount)))

def StateDb.incNonce (db : StateDb σ) (address : Address) : StateDb σ :=
  { db with nonce := Function.update db.nonce address (db.nonce address + 1) }

def increaseNonce (m : Machine σ) (address : Address) : Result σ Unit :=
  if m.view.readOnly then (.error (.writeProtection "invalid nonce change"), m)
  else (.ok (), setDb m (m.view.stateDb.incNonce address))

/-- `invocationStack.headOption.map(_.gasPool)`, changed by a guarded operation; nothing happens on an empty stack -/
def onCallerGas (op : GasPool → Except Exc GasPool) (m : Machine σ) : Result σ Unit :=
  match m.invocationStack with
  | [] => (.ok (), m)
  | inv :: stack =>
    match op inv.gasPool with
    | .error e => (.error e, m)
    | .ok p => (.ok (), record p { m with invocationStack := { inv with gasPool := p } :: stack })

end View

/-! ## Message processors -/

/-- the behaviour of a message processor on one invocation -/
inductive Prog (σ : Type) where
  | ret (output : Octets)
  | throw (e : Exc)
  | read (k : Machine σ → Prog σ)
  | write (f : StateDb σ → StateDb σ) (k : Prog σ)
  | subGas (gas : ℤ) (k : Except Exc Unit → Prog σ)
  | call (c : Call) (gas : ℤ) (additionalDepth : ℕ) (k : Except Exc Octets → GasPool → Prog σ)

/-- `canProcess` only answers. `NativeSmartContractWithFork.canProcess` also runs `init` at the first invocation after the fork,
before the snapshot of `invoke`: the code and the first storage words of the contract stay when that invocation fails. Balances,
nonces, the refund counter and gas are not touched by it. -/
structure MessageProcessor (σ : Type) where
  canProcess : Invocation → View σ → ℕ → Except Exc Bool
  process : Invocation → Prog σ

section Execute

variable {σ : Type}

/-- what an execution returns: the output or exception, the invocation's gas pool afterwards, and the machine -/
abbrev Outcome (σ : Type) := Except Exc Octets × GasPool × Machine σ

/-- runs a processor; nested invocations go to `exec`, with the call depth advanced around them -/
def runProg (exec : Invocation → Machine σ → Outcome σ) : Prog σ → Machine σ → Result σ Octets
  | .ret output, m => (.ok output, m)
  | .throw e, m => (.error e, m)
  | .read k, m => runProg exec (k m) m
  | .write f k, m => runProg exec k (setDb m (f m.view.stateDb))
  | .subGas gas k, m =>
    let r := onCallerGas (·.subGas gas) m
    runProg exec (k r.1) r.2
  | .call c gas additionalDepth k, m =>
    let o := exec { c with gasPool := GasPool.new gas } { m with depth := m.depth + additionalDepth }
    runProg exec (k o.1 o.2.1) { o.2.2 with depth := o.2.2.depth - additionalDepth }

/-- pops the invocation that has just been processed -/
def leave (inv : Invocation) (m : Machine σ) : GasPool × Machine σ :=
  ((m.invocationStack.head?.map Invocation.gasPool).getD inv.gasPool,
    { m with depth := m.depth - 1, invocationStack := m.invocationStack.tail })

/-- `StateTransition.invoke` -/
def invoke (exec : Invocation → Machine σ → Outcome σ) (processor : MessageProcessor σ) (inv : Invocation)
    (m : Machine σ) : Outcome σ :=
  let revert := m.view.stateDb
  let r := runProg exec (processor.process inv)
    { m with invocationStack := inv :: m.invocationStack, depth := m.depth + 1 }
  match r.1 with
  | .error e =>
    if e.isExecutionReverted then (.error e, leave inv (setDb r.2 revert))
    else if e.isExecutionFailed then
      -- revert and consume any remaining gas
      let burnt := onCallerGas (fun p => p.subGas p.currentGas) (setDb r.2 revert)
      match burnt.1 with
      | .error e' => (.error e', inv.gasPool, burnt.2)
      | .ok _ => (.error e, leave inv burnt.2)
    else (.error e, leave inv r.2)
  | .ok output => (.ok output, leave inv r.2)

/-- `messageProcessors.find(_.canProcess(..))` -/
def findProcessor (inv : Invocation) (view : View σ) (epoch : ℕ) :
    List (MessageProcessor σ) → Except Exc (Option (MessageProcessor σ))
  | [] => .ok none
  | p :: ps =>
    match p.canProcess inv view epoch with
    | .error e => .error e
    | .ok true => .ok (some p)
    | .ok false => findProcessor inv view epoch ps

/-- the body of the `try` block in `StateTransition.execute` -/
def executeBody (exec : Invocation → Machine σ → Outcome σ) (processors : List (MessageProcessor σ)) (epoch : ℕ)
    (inv : Invocation) (m : Machine σ) : Outcome σ :=
  if inv.readOnly ∧ inv.value.sign ≠ 0 then
    (.error (.writeProtection "invalid value transfer during read-only invocation"), inv.gasPool, m)
  else
    match findProcessor inv m.view epoch processors with
    | .error e => (.error e, inv.gasPool, m)
    | .ok none => (.error (.illegalArgument "Unable to execute invocation."), inv.gasPool, m)
    | .ok (some processor) => invoke exec processor inv m

/-- the body, with write protection on around it if this is the first read-only invocation -/
def protectedBody (exec : Invocation → Machine σ → Outcome σ) (processors : List (MessageProcessor σ)) (epoch : ℕ)
    (inv : Invocation) (m : Machine σ) : Outcome σ :=
  let firstReadOnlyInvocation := inv.readOnly && !m.view.readOnly
  let o := executeBody exec processors epoch inv (if firstReadOnlyInvocation then setReadOnly m true else m)
  (o.1, o.2.1, if firstReadOnlyInvocation then setReadOnly o.2.2 false else o.2.2)

/-- `StateTransition.execute`, for at most `levels` nested invocations -/
def execute (processors : List (MessageProcessor σ)) (epoch : ℕ) : ℕ → Invocation → Machine σ → Outcome σ
  | 0, inv, m => (.error (.executionReverted "max call depth exceeded" []), inv.gasPool, m)
  | levels + 1, inv, m =>
    if m.depth > 1024 then (.error (.executionReverted "max call depth exceeded" []), inv.gasPool, m)
    else
      let lent := onCallerGas (·.subGas inv.gasPool.currentGas) m
      match lent.1 with
      | .error e => (.error e, inv.gasPool, lent.2)
      | .ok _ =>
        let o := protectedBody (execute processors epoch levels) processors epoch inv lent.2
        -- return remaining gas to the caller
        let returned := onCallerGas (·.addGas o.2.1.currentGas) o.2.2
        match returned.1 with
        | .error e => (.error e, o.2.1, returned.2)
        | .ok _ => (o.1, o.2.1, returned.2)

/-- the levels of the top call: the depth starts at zero and is limited to 1024 -/
def maxLevels : ℕ := 1025

theorem onCallerGas_view (op : GasPool → Except Exc GasPool) (m : Machine σ) :
    (onCallerGas op m).2.view = m.view := by
  unfold onCallerGas
  split
  · rfl
  · split <;> rfl

/-- how an invocation ends: the processor has succeeded and the database is the one it leaves, or it has failed and an
execution failure leaves the database as it was -/
theorem invoke_cases (execute : Invocation → Machine σ → Outcome σ) (p : MessageProcessor σ)
    (inv : Invocation) (m : Machine σ) :
    let m0 := { m with invocationStack := inv :: m.invocationStack, depth := m.depth + 1 }
    (∃ out m', runProg execute (p.process inv) m0 = (.ok out, m') ∧ (invoke execute p inv m).1 = .ok out ∧
        (invoke execute p inv m).2.2.view = m'.view) ∨
      ∃ e, (invoke execute p inv m).1 = .error e ∧
        (e.isExecutionFailed → (invoke execute p inv m).2.2.view.stateDb = m.view.stateDb) := by
  intro m0
  rcases hrun : runProg execute (p.process inv) m0 with ⟨r, m'⟩
  cases r with
  | ok out => exact .inl ⟨out, m', rfl, by simp only [invoke, m0, hrun] at *, by simp only [invoke, m0, hrun, leave] at *⟩
  | error e =>
    right
    simp only [invoke, m0, hrun]
    by_cases hrev : e.isExecutionReverted
    · rw [if_pos hrev]
      exact ⟨e, rfl, fun _ => rfl⟩
    · rw [if_neg hrev]
      by_cases hfail : e.isExecutionFailed
      · rw [if_pos hfail]
        have hview := onCallerGas_view (fun p => p.subGas p.currentGas) (setDb m' m.view.stateDb)
        rcases hburn : onCallerGas (fun p => p.subGas p.currentGas) (setDb m' m.view.stateDb) with ⟨b, m1⟩
        rw [hburn] at hview
        cases b with
        | error e' => exact ⟨e', rfl, fun _ => by rw [hview]; rfl⟩
        | ok u => exact ⟨e, rfl, fun _ => by simp only [leave]; rw [hview]; rfl⟩
      · rw [if_neg hfail]
        exact ⟨e, rfl, fun h => absurd h hfail⟩

end Execute

/-! ## Gas of a message -/

/-- `BigIntegerUtil.isUint64` -/
def isUint64 (n : ℤ) : Bool := 0 ≤ n ∧ n < 2 ^ 64

def TxGas : ℤ := 21000
def TxGasContractCreation : ℤ := 53000
def TxDataZeroGas : ℤ := 4
def TxDataNonZeroGasEIP2028 : ℤ := 16
def InitCodeWordGas : ℤ := 2
def RefundQuotientEIP3529 : ℤ := 5
def MaxInitCodeSize : ℕ := 2 * 24576

/-- `GasUtil.intrinsicGas` -/
def intrinsicGas (data : Octets) (isContractCreation isEIP3860 : Bool) : Except Exc ℤ :=
  let gas := if isContractCreation then TxGasContractCreation else TxGas
  if data.length > 0 then
    let nonZeroElements := data.countP (· ≠ 0)
    let zeroElements := data.length - nonZeroElements
    let gas := gas + TxDataNonZeroGasEIP2028 * nonZeroElements + TxDataZeroGas * zeroElements
    let gas := if isContractCreation && isEIP3860 then gas + InitCodeWordGas * ((data.length + 31) / 32 : ℕ) else gas
    if isUint64 gas then .ok gas else .error .gasUintOverflow
  else .ok gas

/-! ## The transition -/

section Transition

variable {σ : Type}

/-- what a transition is run with: the processors, the block, and `StateDB.accessSetup` of the database library -/
structure Env (σ : Type) where
  processors : List (MessageProcessor σ)
  blockContext : BlockContext
  accessSetup : σ → Address → Address → Address → Bool → σ

/-- the nonce and account checks of `preCheck`: the exception they throw, if any -/
def preCheckNonce (msg : Message) (m : Machine σ) : Option Exc :=
  let stateNonce := m.view.stateDb.nonce msg.getFrom
  if msg.isFakeMsg then none
  else if msg.nonce < stateNonce then some (.nonceTooLow msg.getFrom msg.nonce stateNonce)
  else if msg.nonce > stateNonce then some (.nonceTooHigh msg.getFrom msg.nonce stateNonce)
  else if ¬ isUint64 (stateNonce + 1) then some (.nonceMax msg.getFrom stateNonce)
  else if ¬ m.view.stateDb.isEoaAccount msg.getFrom then some (.senderNotEoa msg.getFrom)
  else none

/-- the fee cap check of `preCheck` -/
def preCheckFeeCap (env : Env σ) (msg : Message) : Option Exc :=
  match msg.gasFeeCap with
  | none => some .nullPointer
  | some gasFeeCap =>
    -- `bitLength() > 0` holds of every number but 0 and -1
    if (¬ msg.isFakeMsg ∨ (gasFeeCap ≠ 0 ∧ gasFeeCap ≠ -1)) ∧ gasFeeCap < env.blockContext.baseFee then
      some (.feeCapTooLow msg.getFrom gasFeeCap env.blockContext.baseFee)
    else none

/-- `StateTransition.preCheck` -/
def preCheck (env : Env σ) (msg : Message) (m : Machine σ) : Option Exc :=
  (preCheckNonce msg m).or (preCheckFeeCap env msg)

/-- `StateTransition.buyGas` -/
def buyGas (msg : Message) (m : Machine σ) : Result σ GasPool :=
  let gas := msg.gasLimit
  let effectiveFees := gas * msg.gasPrice
  let maxFees := match msg.gasFeeCap with | none => effectiveFees | some gasFeeCap => gas * gasFeeCap
  let have_ := m.view.stateDb.balance msg.getFrom
  let want := maxFees + msg.value
  if have_ < want then (.error (.insufficientFunds msg.getFrom have_ want), m)
  else if m.blockGasPool.currentGas < gas then (.error .gasLimitReached, m)
  else
    match m.blockGasPool.subGas gas with
    | .error e => (.error e, m)
    | .ok blockGasPool =>
      let r := subBalance (record blockGasPool { m with blockGasPool := blockGasPool }) msg.getFrom effectiveFees
      match r.1 with
      | .error e => (.error e, r.2)
      | .ok _ => (.ok (GasPool.new gas), record (GasPool.new gas) r.2)

/-- `StateTransition.refundGas` -/
def refundGas (msg : Message) (gas : GasPool) (m : Machine σ) : Result σ Unit :=
  match gas.addGas (min (m.view.stateDb.refund : ℤ) (gas.getUsedGas.tdiv RefundQuotientEIP3529)) with
  | .error e => (.error e, m)
  | .ok gas =>
    let r := addBalance (record gas m) msg.getFrom (gas.currentGas * msg.gasPrice)
    match r.1 with
    | .error e => (.error e, r.2)
    | .ok _ =>
      match r.2.blockGasPool.addGas gas.currentGas with
      | .error e => (.error e, r.2)
      | .ok blockGasPool => (.ok (), record blockGasPool { r.2 with blockGasPool := blockGasPool })

/-- `Invocation.fromMessage` -/
def Invocation.fromMessage (msg : Message) (gasPool : GasPool) : Invocation :=
  { caller := msg.getFrom, callee := msg.getTo, value := msg.value, input := msg.data, readOnly := false,
    gasPool := gasPool }

/-- `view.setupAccessList` -/
def setupAccessList (env : Env σ) (msg : Message) (m : Machine σ) : Machine σ :=
  setDb m { m.view.stateDb with
    rest := env.accessSetup m.view.stateDb.rest msg.getFrom (msg.getTo.getD 0) env.blockContext.forgerAddress
      env.blockContext.isShanghaiActive }

/-- the body of the `try` block in `StateTransition.transition` -/
def transitionBody (env : Env σ) (msg : Message) (gasPool : GasPool) (m : Machine σ) : Outcome σ :=
  match intrinsicGas msg.data msg.getTo.isNone env.blockContext.isShanghaiActive with
  | .error e => (.error e, gasPool, m)
  | .ok intrinsicGas =>
    if gasPool.currentGas < intrinsicGas then (.error (.intrinsicGas gasPool.currentGas intrinsicGas), gasPool, m)
    else
      match gasPool.subGas intrinsicGas with
      | .error e => (.error e, gasPool, m)
      | .ok gasPool =>
        let m := record gasPool m
        if env.blockContext.isShanghaiActive ∧ msg.getTo.isNone ∧ msg.data.length > MaxInitCodeSize then
          (.error (.maxInitCodeSizeExceeded msg.data.length MaxInitCodeSize), gasPool, m)
        else
          let r := increaseNonce (setupAccessList env msg m) msg.getFrom
          match r.1 with
          | .error e => (.error e, gasPool, r.2)
          | .ok _ =>
            execute env.processors env.blockContext.consensusEpochNumber maxLevels
              (Invocation.fromMessage msg gasPool) r.2

/-- the `catch` block for any other exception: revert everything, also the block gas pool -/
def rollBack (initialBlockGas : ℤ) (rollback : StateDb σ) (e : Exc) (m : Machine σ) : Result σ Octets :=
  let m := setDb m rollback
  match m.blockGasPool.addGas (initialBlockGas - m.blockGasPool.currentGas) with
  | .error e' => (.error e', m)
  | .ok blockGasPool => (.error e, record blockGasPool { m with blockGasPool := blockGasPool })

/-- the `finally` block, when refunds are not skipped -/
def refunded (msg : Message) (o : Outcome σ) : Result σ Octets :=
  let r := refundGas msg o.2.1 o.2.2
  match r.1 with
  | .error e => (.error e, r.2)
  | .ok _ => (o.1, r.2)

/-- `StateTransition.transition` -/
def transition (env : Env σ) (msg : Message) (m : Machine σ) : Result σ Octets :=
  match preCheck env msg m with
  | some e => (.error e, m)
  | none =>
    let bought := buyGas msg m
    match bought.1 with
    | .error e => (.error e, bought.2)
    | .ok gasPool =>
      let o := transitionBody env msg gasPool bought.2
      match o.1 with
      | .ok _ => refunded msg o
      | .error e =>
        if e.isExecutionFailed then refunded msg o
        else rollBack m.blockGasPool.currentGas m.view.stateDb e o.2.2

end Transition

end SidechainsSdk.Account.StateTransition
