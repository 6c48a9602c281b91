/-
Fees of a block (`EthereumTransaction`, `GasUtil.getTxFeesPerGas`, `StateDbAccountStateView.applyTransaction`, the
transaction loop of `AccountState.applyModifier`).

Two computations of the same money meet here. A transaction is charged by its state transition, at the effective gas
price of the message; the block records a base fee and a tip, recomputed from the transaction's own fee fields and from
differences of cumulative receipts. The loop is modelled with both: `applyTransactions` is the source's loop with its
three accumulators, `Charges` follows the transitions and adds up what they take from the senders.

- `feesPerGas_eq`: for every transaction type the recorded base fee and tip per gas add up to the effective gas price.
- `tip_nonneg`: for a transaction that passed the fee cap check the tip per gas is not negative.
- `applyTransactions_charges`: by induction on the transactions, the accumulators grow by exactly what is charged.
- `fees_charged_eq_recorded`: the same for a whole block.

Premises: the base fee and the block gas limit are not negative (`AccountBlockHeader.semanticValidity`), the view is not
write protected.
-/
import Mathlib.Tactic
import SidechainsSdk.Account.GasAccounting

namespace SidechainsSdk.Account.BlockFees

open SidechainsSdk.Account.StateTransition GasAccounting

/-! ## Transactions -/

/-- the type of a transaction with the fee fields that belong to it; a legacy transaction with a chain id is EIP-155 -/
inductive TxType where
  | legacy (chainId : Option ℤ) (gasPrice : ℤ)
  | dynamicFee (chainId maxPriorityFeePerGas maxFeePerGas : ℤ)
deriving DecidableEq

/-- `EthereumTransaction`; `getFrom` is the address recovered from the signature, if it can be recovered -/
structure EthereumTransaction where
  type : TxType
  nonce : ℤ
  getTo : Option Address
  gasLimit : ℤ
  value : ℤ
  data : Octets
  isSigned : Bool
  getFrom : Option Address

namespace EthereumTransaction

def isEIP1559 (tx : EthereumTransaction) : Bool :=
  match tx.type with
  | .legacy _ _ => false
  | .dynamicFee _ _ _ => true

def getGasPrice (tx : EthereumTransaction) : ℤ :=
  match tx.type with
  | .legacy _ gasPrice => gasPrice
  | .dynamicFee _ _ maxFeePerGas => maxFeePerGas

def getMaxFeePerGas (tx : EthereumTransaction) : ℤ :=
  match tx.type with
  | .legacy _ gasPrice => gasPrice
  | .dynamicFee _ _ maxFeePerGas => maxFeePerGas

def getMaxPriorityFeePerGas (tx : EthereumTransaction) : ℤ :=
  match tx.type with
  | .legacy _ gasPrice => gasPrice
  | .dynamicFee _ maxPriorityFeePerGas _ => maxPriorityFeePerGas

def getChainId (tx : EthereumTransaction) : Option ℤ :=
  match tx.type with
  | .legacy chainId _ => chainId
  | .dynamicFee chainId _ _ => some chainId

def getEffectiveGasPrice (tx : EthereumTransaction) (base : ℤ) : ℤ :=
  if tx.isEIP1559 then min (base + tx.getMaxPriorityFeePerGas) tx.getMaxFeePerGas else tx.getGasPrice

def asMessage (tx : EthereumTransaction) (baseFee : ℤ) : Message where
  getFrom := tx.getFrom.getD 0
  getTo := tx.getTo
  gasPrice := tx.getEffectiveGasPrice baseFee
  gasFeeCap := some tx.getMaxFeePerGas
  gasLimit := tx.gasLimit
  value := tx.value
  nonce := tx.nonce
  data := tx.data
  isFakeMsg := false

/-- `BigIntegerUtil.isUint256` -/
def isUint256 (n : ℤ) : Bool := 0 ≤ n ∧ n < 2 ^ 256

/-- the checks of `semanticValidity` before the intrinsic gas is known, each with the message thrown when it holds -/
def fieldChecks (tx : EthereumTransaction) : List (Bool × String) :=
  [(!tx.isSigned, "is not signed"),
    (tx.getChainId.any (· < 1), "has invalid chainId set"),
    (tx.getTo.isNone && tx.data.length == 0, "smart contract declaration transaction without data"),
    (tx.value < 0, "negative value"),
    (tx.nonce < 0, "negative nonce"),
    (!isUint64 tx.nonce, "nonce uint64 overflow"),
    (tx.gasLimit ≤ 0, "non-positive gas limit"),
    (!isUint64 tx.gasLimit, "gas limit uint64 overflow")] ++
  if tx.isEIP1559 then
    [(decide (tx.getMaxFeePerGas < 0), "eip1559 transaction with negative maxFeePerGas"),
      (decide (tx.getMaxPriorityFeePerGas < 0), "eip1559 transaction with negative maxPriorityFeePerGas"),
      (!isUint256 tx.getMaxFeePerGas, "eip1559 transaction maxFeePerGas bit length is too high"),
      (!isUint256 tx.getMaxPriorityFeePerGas, "eip1559 transaction maxPriorityFeePerGas bit length is too high"),
      (decide (tx.getMaxFeePerGas < tx.getMaxPriorityFeePerGas),
        "eip1559 transaction maxPriorityFeePerGas higher than maxFeePerGas")]
  else
    [(decide (tx.getGasPrice < 0), "legacy transaction with negative gasPrice"),
      (!isUint256 tx.getGasPrice, "legacy transaction gasPrice bit length is too high")]

/-- the checks after it -/
def gasChecks (tx : EthereumTransaction) (isShanghaiActive : Bool) (intrinsicGas : ℤ) : List (Bool × String) :=
  [(tx.gasLimit < intrinsicGas, "gas limit is below intrinsic gas"),
    (isShanghaiActive && tx.getTo.isNone && decide (tx.data.length > MaxInitCodeSize),
      "max initcode size exceeded limit"),
    (tx.getFrom.isNone, "Invalid signature")]

/-- the exception of the first check that holds -/
def runChecks (checks : List (Bool × String)) : Except Exc Unit :=
  match checks.find? Prod.fst with
  | some (_, message) => .error (.transactionSemanticValidity message)
  | none => .ok ()

/-- `EthereumTransaction.semanticValidity` -/
def semanticValidity (tx : EthereumTransaction) (isShanghaiActive : Bool) : Except Exc Unit := do
  runChecks tx.fieldChecks
  let gas ← intrinsicGas tx.data tx.getTo.isNone isShanghaiActive
  runChecks (tx.gasChecks isShanghaiActive gas)

end EthereumTransaction

open EthereumTransaction

/-- `GasUtil.getTxFeesPerGas`: base fee and forger tip per gas -/
def getTxFeesPerGas (tx : EthereumTransaction) (baseFeePerGas : ℤ) : ℤ × ℤ :=
  if tx.isEIP1559 then
    let maxFeePerGas := tx.getMaxFeePerGas
    let maxPriorityFeePerGas := tx.getMaxPriorityFeePerGas
    let forgerTipPerGas :=
      if baseFeePerGas + maxPriorityFeePerGas > maxFeePerGas then maxFeePerGas - baseFeePerGas
      else maxPriorityFeePerGas
    (baseFeePerGas, forgerTipPerGas)
  else (baseFeePerGas, tx.getGasPrice - baseFeePerGas)

/-! ## Applying the transactions of a block -/

section Block

variable {σ : Type}

/-- what a block is applied with; `setTxContext` and `finalizeChanges` belong to the database library -/
structure BlockEnv (σ : Type) extends Env σ where
  setTxContext : σ → EthereumTransaction → ℕ → σ
  finalizeChanges : StateDb σ → StateDb σ
  forgerKeys : ForgerPublicKeys
  isVersion14Active : Bool

/-- the part of a consensus receipt that the fees depend on -/
structure Receipt where
  isSuccessful : Bool
  cumulativeGasUsed : ℤ
deriving DecidableEq

/-- a transition starts with an empty stack at depth zero -/
def newTransition (m : Machine σ) : Machine σ := { m with invocationStack := [], depth := 0 }

/-- the machine on which the message of a transaction is applied -/
def beforeMessage (env : BlockEnv σ) (tx : EthereumTransaction) (txIndex : ℕ) (m : Machine σ) : Machine σ :=
  newTransition (setDb m { m.view.stateDb with rest := env.setTxContext m.view.stateDb.rest tx txIndex })

/-- `applyMessage`, on the message of a transaction -/
def txTransition (env : BlockEnv σ) (tx : EthereumTransaction) (txIndex : ℕ) (m : Machine σ) : Result σ Octets :=
  transition env.toEnv (tx.asMessage env.blockContext.baseFee) (beforeMessage env tx txIndex m)

/-- `StateDbAccountStateView.applyTransaction` -/
def applyTransaction (env : BlockEnv σ) (tx : EthereumTransaction) (txIndex : ℕ) (m : Machine σ) : Result σ Receipt :=
  if ¬ tx.isSigned then (.error (.illegalArgument "Transaction is not signed"), m)
  else
    let r := txTransition env tx txIndex m
    let final := setDb r.2 (env.finalizeChanges r.2.view.stateDb)
    match r.1 with
    | .ok _ => (.ok ⟨true, final.blockGasPool.getUsedGas⟩, final)
    | .error e =>
      if e.isExecutionFailed then (.ok ⟨false, final.blockGasPool.getUsedGas⟩, final) else (.error e, final)

/-- the accumulators of the loop in `applyModifier` -/
structure BlockRun (σ : Type) where
  machine : Machine σ
  cumGasUsed : ℤ
  cumBaseFee : ℤ
  cumForgerTips : ℤ

/-- one iteration of the loop -/
def applyNext (env : BlockEnv σ) (run : BlockRun σ) (tx : EthereumTransaction) (txIndex : ℕ) :
    Except Exc (BlockRun σ) :=
  let r := applyTransaction env tx txIndex run.machine
  match r.1 with
  | .ok receipt =>
    let txGasUsed := receipt.cumulativeGasUsed - run.cumGasUsed
    let fees := getTxFeesPerGas tx env.blockContext.baseFee
    .ok ⟨r.2, receipt.cumulativeGasUsed, run.cumBaseFee + fees.1 * txGasUsed, run.cumForgerTips + fees.2 * txGasUsed⟩
  | .error e =>
    match e with
    | .gasLimitReached => .error (.illegalArgument "Could not apply tx, block gas limit exceeded")
    | _ => .error (.illegalArgument "Could not apply tx")

/-- the loop over `mod.sidechainTransactions.zipWithIndex` -/
def applyTransactions (env : BlockEnv σ) : List EthereumTransaction → ℕ → BlockRun σ → Except Exc (BlockRun σ)
  | [], _, run => .ok run
  | tx :: txs, txIndex, run =>
    match applyNext env run tx txIndex with
    | .error e => .error e
    | .ok run => applyTransactions env txs (txIndex + 1) run

/-- all transactions are checked before any is applied -/
def checkTransactions (env : BlockEnv σ) : List EthereumTransaction → Except Exc Unit
  | [] => .ok ()
  | tx :: txs =>
    match tx.semanticValidity env.blockContext.isShanghaiActive with
    | .error e => .error e
    | .ok _ => checkTransactions env txs

/-- the fee part of `AccountState.applyModifier`: the fee info that is stored for the block -/
def applyModifierFees (env : BlockEnv σ) (gasLimit : ℤ) (txs : List EthereumTransaction) (view : View σ) :
    Except Exc AccountBlockFeeInfo :=
  match checkTransactions env txs with
  | .error e => .error e
  | .ok _ =>
    match applyTransactions env txs 0 ⟨⟨view, GasPool.new gasLimit, [], 0, []⟩, 0, 0, 0⟩ with
    | .error e => .error e
    | .ok run =>
      .ok ⟨run.cumBaseFee, run.cumForgerTips, env.blockContext.forgerAddress,
        if env.isVersion14Active then some env.forgerKeys else none⟩

end Block

/-! ## Price per gas -/

/-- **Both splits agree.** The recorded base fee and tip per gas are the effective gas price that the message pays. -/
theorem feesPerGas_eq (tx : EthereumTransaction) (base : ℤ) :
    (getTxFeesPerGas tx base).1 + (getTxFeesPerGas tx base).2 = (tx.asMessage base).gasPrice := by
  simp only [getTxFeesPerGas, asMessage, getEffectiveGasPrice]
  cases tx.isEIP1559 with
  | false => simp
  | true =>
    simp only [if_true]
    split_ifs with hcap
    · rw [min_eq_right hcap.le]
      ring
    · rw [min_eq_left (not_lt.1 hcap)]

theorem runChecks_ok {checks : List (Bool × String)} (h : runChecks checks = .ok ()) :
    ∀ c ∈ checks, c.1 = false := by
  intro c hc
  unfold runChecks at h
  cases hfind : checks.find? Prod.fst with
  | none => simpa using List.find?_eq_none.1 hfind c hc
  | some x =>
    rw [hfind] at h
    cases h

/-- what semantic validity says about the fee fields -/
theorem semanticValidity_fees {tx : EthereumTransaction} {shanghai : Bool}
    (h : tx.semanticValidity shanghai = .ok ()) : 0 ≤ tx.getMaxFeePerGas ∧ 0 ≤ tx.getMaxPriorityFeePerGas := by
  have hfields : runChecks tx.fieldChecks = .ok () := by
    cases hc : runChecks tx.fieldChecks with
    | ok _ => rfl
    | error e =>
      simp only [semanticValidity, hc, bind, Except.bind] at h
      cases h
  have hall := runChecks_ok hfields
  simp only [fieldChecks] at hall
  cases htype : tx.type with
  | legacy chainId gasPrice =>
    have hprice := hall (decide (tx.getGasPrice < 0), "legacy transaction with negative gasPrice")
      (List.mem_append_right _ (by simp [isEIP1559, htype]))
    simp only [getGasPrice, htype, decide_eq_false_iff_not, not_lt] at hprice
    simp only [getMaxFeePerGas, getMaxPriorityFeePerGas, htype]
    exact ⟨hprice, hprice⟩
  | dynamicFee chainId maxPriority maxFee =>
    have hcap := hall (decide (tx.getMaxFeePerGas < 0), "eip1559 transaction with negative maxFeePerGas")
      (List.mem_append_right _ (by simp [isEIP1559, htype]))
    have htip := hall (decide (tx.getMaxPriorityFeePerGas < 0), "eip1559 transaction with negative maxPriorityFeePerGas")
      (List.mem_append_right _ (by simp [isEIP1559, htype]))
    simp only [decide_eq_false_iff_not, not_lt] at hcap htip
    exact ⟨hcap, htip⟩

theorem gasPrice_nonneg {tx : EthereumTransaction} {shanghai : Bool} (h : tx.semanticValidity shanghai = .ok ())
    {base : ℤ} (hbase : 0 ≤ base) : 0 ≤ (tx.asMessage base).gasPrice := by
  obtain ⟨hcap, htip⟩ := semanticValidity_fees h
  simp only [asMessage, getEffectiveGasPrice]
  split_ifs with htype
  · exact le_min (add_nonneg hbase htip) hcap
  · cases hty : tx.type with
    | legacy chainId gasPrice =>
      simp only [getMaxFeePerGas, getGasPrice, hty] at hcap ⊢
      exact hcap
    | dynamicFee chainId maxPriority maxFee => simp [isEIP1559, hty] at htype

/-- the tip is not negative: the fee cap check requires the cap to be at least the base fee -/
theorem tip_nonneg {σ : Type} {tx : EthereumTransaction} {shanghai : Bool}
    (h : tx.semanticValidity shanghai = .ok ()) {env : Env σ}
    (hcheck : preCheckFeeCap env (tx.asMessage env.blockContext.baseFee) = none) :
    0 ≤ (getTxFeesPerGas tx env.blockContext.baseFee).2 := by
  obtain ⟨-, htip⟩ := semanticValidity_fees h
  have hcap : env.blockContext.baseFee ≤ tx.getMaxFeePerGas := feeCap_of_preCheck rfl rfl hcheck
  simp only [getTxFeesPerGas]
  cases hty : tx.type with
  | legacy chainId gasPrice =>
    simp only [isEIP1559, getMaxFeePerGas, getGasPrice, hty] at hcap ⊢
    simpa using hcap
  | dynamicFee chainId maxPriority maxFee =>
    simp only [isEIP1559, hty, if_true]
    split_ifs
    · simpa using hcap
    · exact htip

/-! ## The loop -/

section Loop

variable {σ : Type} (env : BlockEnv σ)

/-- the transitions of the transactions of a block, one after the other from `m`, and the gas that each of them took
from the block and charged to its sender -/
inductive Charges : List EthereumTransaction → ℕ → Machine σ → List ℤ → Prop
  | nil (txIndex : ℕ) (m : Machine σ) : Charges [] txIndex m []
  | cons (tx : EthereumTransaction) (txs : List EthereumTransaction) (txIndex : ℕ) (m : Machine σ) (usedGas : ℤ)
      (used : List ℤ)
      (happlied : Applied env.toEnv (tx.asMessage env.blockContext.baseFee) usedGas (beforeMessage env tx txIndex m)
        (txTransition env tx txIndex m))
      (hrest : Charges txs (txIndex + 1)
        (setDb (txTransition env tx txIndex m).2
          (env.finalizeChanges (txTransition env tx txIndex m).2.view.stateDb)) used) :
      Charges (tx :: txs) txIndex m (usedGas :: used)

/-- the gas fees deducted from the senders -/
def chargedFees (base : ℤ) (txs : List EthereumTransaction) (used : List ℤ) : ℤ :=
  (List.zipWith (fun tx usedGas => usedGas * (tx.asMessage base).gasPrice) txs used).sum

/-- the machine between two transactions -/
structure Ready (m : Machine σ) : Prop where
  safe : Safe m
  readOnly : m.view.readOnly = false

theorem Ready.before {m : Machine σ} (h : Ready m) (tx : EthereumTransaction) (txIndex : ℕ) :
    Safe (beforeMessage env tx txIndex m) := ⟨h.safe.block, by simp [beforeMessage, newTransition], h.safe.trace⟩

/-- an accepted transaction has been applied; its receipt counts the gas of the block so far -/
theorem applyTransaction_ok {tx : EthereumTransaction} {txIndex : ℕ} {m : Machine σ} {receipt : Receipt}
    (hready : Ready m) (hbase : 0 ≤ env.blockContext.baseFee)
    (hvalid : tx.semanticValidity env.blockContext.isShanghaiActive = .ok ())
    (h : (applyTransaction env tx txIndex m).1 = .ok receipt) :
    (applyTransaction env tx txIndex m).2 = setDb (txTransition env tx txIndex m).2
        (env.finalizeChanges (txTransition env tx txIndex m).2.view.stateDb) ∧
      receipt.cumulativeGasUsed = (applyTransaction env tx txIndex m).2.blockGasPool.getUsedGas ∧
      Ready (applyTransaction env tx txIndex m).2 ∧
      0 ≤ (getTxFeesPerGas tx env.blockContext.baseFee).2 ∧
      ∃ usedGas, 0 ≤ usedGas ∧
        Applied env.toEnv (tx.asMessage env.blockContext.baseFee) usedGas (beforeMessage env tx txIndex m)
          (txTransition env tx txIndex m) := by
  obtain ⟨hrestored, hended⟩ := transition_ended env.toEnv (tx.asMessage env.blockContext.baseFee)
    (beforeMessage env tx txIndex m) (hready.before env tx txIndex) rfl hready.readOnly (gasPrice_nonneg hvalid hbase)
  have hfinal : ∀ db, Ready (setDb (txTransition env tx txIndex m).2 db) := by
    intro db
    exact ⟨hrestored.safe.withDb db, hrestored.readOnly.trans hready.readOnly⟩
  have happlied : (∀ e, (txTransition env tx txIndex m).1 = .error e → e.isExecutionFailed) →
      0 ≤ (getTxFeesPerGas tx env.blockContext.baseFee).2 ∧ ∃ usedGas, 0 ≤ usedGas ∧
        Applied env.toEnv (tx.asMessage env.blockContext.baseFee) usedGas (beforeMessage env tx txIndex m)
          (txTransition env tx txIndex m) := by
    intro hfailed
    have hpre := preCheck_of_applied env.toEnv _ _ hfailed
    refine ⟨tip_nonneg hvalid (Option.or_eq_none_iff.1 hpre).2, ?_⟩
    cases hended with
    | invalid e he hr back =>
      rw [hfailed e hr] at he
      cases he
    | applied _ usedGas happ =>
      obtain ⟨intrinsic, -, h0, hle⟩ := happ.intrinsic
      refine ⟨usedGas, le_trans ?_ hle, happ⟩
      rw [Int.tdiv_eq_ediv_of_nonneg h0]
      omega
  simp only [applyTransaction] at h ⊢
  split_ifs at h ⊢ with hsigned
  cases hres : (txTransition env tx txIndex m).1 with
  | ok output =>
    rw [hres] at h
    obtain rfl := Except.ok.inj h
    exact ⟨rfl, rfl, hfinal _, happlied (by rw [hres]; rintro e ⟨⟩)⟩
  | error e =>
    rw [hres] at h
    dsimp only at h ⊢
    split_ifs at h ⊢ with hfailed
    obtain rfl := Except.ok.inj h
    refine ⟨rfl, rfl, hfinal _, happlied ?_⟩
    intro e' he'
    rw [hres] at he'
    obtain rfl := Except.error.inj he'
    exact hfailed

/-- **The loop.** By induction on the transactions, the two fee accumulators grow by exactly what is charged, and no
transaction has a negative tip. -/
theorem applyTransactions_charges (hbase : 0 ≤ env.blockContext.baseFee) (txs : List EthereumTransaction)
    (hvalid : ∀ tx ∈ txs, tx.semanticValidity env.blockContext.isShanghaiActive = .ok ()) (txIndex : ℕ)
    (run final : BlockRun σ) (hready : Ready run.machine)
    (hcum : run.cumGasUsed = run.machine.blockGasPool.getUsedGas)
    (h : applyTransactions env txs txIndex run = .ok final) :
    ∃ used, Charges env txs txIndex run.machine used ∧
      final.cumBaseFee + final.cumForgerTips =
        run.cumBaseFee + run.cumForgerTips + chargedFees env.blockContext.baseFee txs used ∧
      ∀ p ∈ txs.zip used, 0 ≤ (getTxFeesPerGas p.1 env.blockContext.baseFee).2 * p.2 := by
  induction txs generalizing txIndex run with
  | nil =>
    obtain rfl := Except.ok.inj h
    exact ⟨[], .nil _ _, by simp [chargedFees], by simp⟩
  | cons tx txs ih =>
    simp only [applyTransactions] at h
    cases hnext : applyNext env run tx txIndex with
    | error e =>
      rw [hnext] at h
      cases h
    | ok run' =>
      rw [hnext] at h
      dsimp only at h
      simp only [applyNext] at hnext
      cases hres : (applyTransaction env tx txIndex run.machine).1 with
      | error e =>
        rw [hres] at hnext
        dsimp only at hnext
        split at hnext <;> cases hnext
      | ok receipt =>
        rw [hres] at hnext
        obtain rfl := Except.ok.inj hnext
        obtain ⟨hmachine, hgas, hready', htip, usedGas, hused, happlied⟩ :=
          applyTransaction_ok env hready hbase (hvalid tx List.mem_cons_self) hres
        obtain ⟨used, hcharges, hsum, htips⟩ := ih (fun tx' htx' => hvalid tx' (List.mem_cons_of_mem _ htx')) _ _ hready'
          hgas h
        -- the difference of the cumulative receipts is the gas this transition took from the block
        have hdiff : receipt.cumulativeGasUsed - run.cumGasUsed = usedGas := by
          have hblock := happlied.block
          rw [hgas, hcum, hmachine, setDb_block, hblock]
          simp only [beforeMessage, newTransition, setDb_block, GasPool.getUsedGas]
          ring
        have hprice := feesPerGas_eq tx env.blockContext.baseFee
        refine ⟨usedGas :: used, .cons tx txs txIndex run.machine usedGas used happlied (hmachine ▸ hcharges), ?_, ?_⟩
        · rw [hsum, hdiff, chargedFees, chargedFees, List.zipWith_cons_cons, List.sum_cons, ← hprice]
          ring
        · intro p hp
          rcases List.mem_cons.1 hp with rfl | hp
          · exact mul_nonneg htip hused
          · exact htips p hp

theorem checkTransactions_ok {txs : List EthereumTransaction} (h : checkTransactions env txs = .ok ()) :
    ∀ tx ∈ txs, tx.semanticValidity env.blockContext.isShanghaiActive = .ok () := by
  induction txs with
  | nil => simp
  | cons tx txs ih =>
    simp only [checkTransactions] at h
    cases hv : tx.semanticValidity env.blockContext.isShanghaiActive with
    | error e =>
      rw [hv] at h
      cases h
    | ok _ =>
      rw [hv] at h
      intro tx' htx'
      rcases List.mem_cons.1 htx' with rfl | htx'
      · exact hv
      · exact ih h tx' htx'

/-- **Fees charged are fees recorded.** For every block that is applied, the gas fees that the transitions deducted
from the senders add up to the base fee plus the tips of the recorded fee info, and no transaction's tip is negative. -/
theorem fees_charged_eq_recorded (gasLimit : ℤ) (txs : List EthereumTransaction) (view : View σ)
    (info : AccountBlockFeeInfo) (hbase : 0 ≤ env.blockContext.baseFee) (hlimit : 0 ≤ gasLimit)
    (hrw : view.readOnly = false) (h : applyModifierFees env gasLimit txs view = .ok info) :
    ∃ used, Charges env txs 0 ⟨view, GasPool.new gasLimit, [], 0, []⟩ used ∧
      chargedFees env.blockContext.baseFee txs used = info.baseFee + info.forgerTips ∧
      ∀ p ∈ txs.zip used, 0 ≤ (getTxFeesPerGas p.1 env.blockContext.baseFee).2 * p.2 := by
  simp only [applyModifierFees] at h
  cases hcheck : checkTransactions env txs with
  | error e =>
    rw [hcheck] at h
    cases h
  | ok _ =>
    rw [hcheck] at h
    dsimp only at h
    cases hrun : applyTransactions env txs 0 ⟨⟨view, GasPool.new gasLimit, [], 0, []⟩, 0, 0, 0⟩ with
    | error e =>
      rw [hrun] at h
      cases h
    | ok run =>
      rw [hrun] at h
      obtain rfl := Except.ok.inj h
      have hready : Ready (⟨view, GasPool.new gasLimit, [], 0, []⟩ : Machine σ) :=
        ⟨⟨GasPool.within_new hlimit, by simp, by simp⟩, hrw⟩
      obtain ⟨used, hcharges, hsum, htips⟩ := applyTransactions_charges env hbase txs (checkTransactions_ok env hcheck) 0
        _ run hready (by simp [GasPool.getUsedGas, GasPool.new]) hrun
      exact ⟨used, hcharges, by dsimp only at hsum ⊢; omega, htips⟩

end Loop

def sampleBlockEnv : BlockEnv Unit :=
  { sampleEnv with
    setTxContext := fun _ _ _ => (), finalizeChanges := id, forgerKeys := ⟨5, ⟨6, 0⟩⟩, isVersion14Active := true }

/-- a legacy transaction at price 3 and a dynamic fee transaction whose tip of 1 is not capped, with base fee 1 -/
def sampleTransactions : List EthereumTransaction :=
  [⟨.legacy none 3, 0, some 2, 30000, 0, [], true, some 1⟩, ⟨.dynamicFee 7 1 3, 0, some 2, 30000, 0, [], true, some 3⟩]

theorem fees_charged_two_types :
    ∃ used, Charges sampleBlockEnv sampleTransactions 0 ⟨sampleMachine.view, GasPool.new 1000000, [], 0, []⟩ used ∧
      chargedFees 1 sampleTransactions used = 45000 + 67500 := by
  have happly : applyModifierFees sampleBlockEnv 1000000 sampleTransactions sampleMachine.view =
      .ok ⟨45000, 67500, 9, some ⟨5, ⟨6, 0⟩⟩⟩ := by rfl
  obtain ⟨used, hcharges, hsum, -⟩ := fees_charged_eq_recorded sampleBlockEnv 1000000 sampleTransactions
    sampleMachine.view _ (by decide) (by decide) rfl happly
  exact ⟨used, hcharges, hsum⟩

end SidechainsSdk.Account.BlockFees
