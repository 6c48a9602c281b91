/-
The transactions of a forged block (`AccountForgeMessageBuilder.tryApplyAndGetBlockInfo`).

The forger takes the executable transactions of the pool in the order of their tips and applies them to a view, until the block
is full or none is left. A transaction that is refused takes its account out of the iteration. The loop stops early when not
even a transfer would fit into the gas that is left, or at a transaction whose fee cap is below the base fee: then, a comment
says, all the remaining ones are below it too.

- `step`, `forge`: the loop, on the view to which the mainchain references have been applied.
- `Forges`: what the iterator still holds, and the nonces of the view, by the transactions that are in the block.
  `Forges.step`: one iteration keeps it. `Forges.forge`: so does the loop.
- `attempts`: further transactions, tried one after the other. `attempts_refused`: none is applied if none is admitted.
- `not_admitted_of_gas`, `Forges.not_admitted`: what is not admitted any more after each of the early returns.
- `early_return_loses_nothing`: both, for the whole loop. `skipped_account_gets_funds`: an account that was skipped for lack of
  funds and has received them since.

The skipped transactions are recorded, with the gas and the size of the block then; the source only logs them.
-/
import Mathlib.Tactic
import SidechainsSdk.Core.Fallible
import SidechainsSdk.Account.SenderNonces
import SidechainsSdk.Account.Mempool.PriorityIterator

namespace SidechainsSdk.Account.ForgingLoop

open SidechainsSdk.Account.StateTransition GasAccounting BlockFees Mempool PriorityMerge ConsecutiveRun
open Mempool.AccountTransaction (getFrom getNonce getMaxFeePerGas size)

/-! ## The code -/

/-- the transactions of the pool as they are applied, `asInstanceOf[EthereumTransaction]` -/
class Forgeable (Tx : Type) extends AccountTransaction Tx where
  ethTx : Tx → EthereumTransaction
  getFrom_eq : ∀ tx, (ethTx tx).getFrom = some (getFrom tx)
  getNonce_eq : ∀ tx, (ethTx tx).nonce = getNonce tx
  getMaxFeePerGas_eq : ∀ tx, (ethTx tx).getMaxFeePerGas = getMaxFeePerGas tx
  getMaxPriorityFeePerGas_eq : ∀ tx, (ethTx tx).getMaxPriorityFeePerGas = getMaxPriorityFeePerGas tx

open Forgeable (ethTx)

/-- a transaction whose account was skipped, with the gas and the size of the block then -/
structure Skipped (Tx : Type) where
  tx : Tx
  remainingGas : ℤ
  blockSize : ℕ

/-- why the loop ends: the last two are the early returns -/
inductive Finish where
  | noTxLeft
  | belowTxGas
  | feeCapTooLow
deriving DecidableEq

section Code

variable {σ Tx : Type} [Forgeable Tx] {baseFee : ℤ} (impl : TxQueue Tx baseFee)

/-- the variables of the loop; the gas pool of the block is part of the machine -/
structure Forging (σ : Type) {Tx : Type} [Forgeable Tx] {baseFee : ℤ} (impl : TxQueue Tx baseFee) where
  machine : Machine σ
  iter : Iter impl
  receiptList : List Receipt
  listOfTxsInBlock : List Tx
  cumGasUsed : ℤ
  cumBaseFee : ℤ
  cumForgerTips : ℤ
  blockSize : ℕ
  skipped : List (Skipped Tx)

variable (env : BlockEnv σ) (getMaxBlockSize : ℕ) (pool : MempoolMap Tx) {impl}

/-- `priceAndNonceIter.removeAndSkipAccount()` -/
def removeAndSkipAccount (st : Forging σ impl) (tx : Tx) : Except MempoolException (Option Finish × Forging σ impl) := do
  let (_, iter) ← st.iter.removeAndSkipAccount
  return (none, { st with
    iter := iter
    skipped := ⟨tx, st.machine.blockGasPool.currentGas, st.blockSize⟩ :: st.skipped })

/-- a transaction that fits into the block by its size -/
def applyNext (st : Forging σ impl) (tx : Tx) : Except MempoolException (Option Finish × Forging σ impl) :=
  let r := applyTransaction env (ethTx tx) st.listOfTxsInBlock.length st.machine
  match r.1 with
  | .ok receipt => do
    let txGasUsed := receipt.cumulativeGasUsed - st.cumGasUsed
    let fees := getTxFeesPerGas (ethTx tx) env.blockContext.baseFee
    let (_, iter) ← st.iter.next pool
    return (none, { st with
      machine := r.2
      iter := iter
      receiptList := st.receiptList ++ [receipt]
      listOfTxsInBlock := st.listOfTxsInBlock ++ [tx]
      cumGasUsed := receipt.cumulativeGasUsed
      cumBaseFee := st.cumBaseFee + fees.1 * txGasUsed
      cumForgerTips := st.cumForgerTips + fees.2 * txGasUsed
      blockSize := st.blockSize + (size tx + 1) })
  | .error err =>
    let st := { st with machine := r.2 }
    match err with
    | .feeCapTooLow _ _ _ => .ok (some .feeCapTooLow, st)
    | .nonceTooLow _ _ _ => do
      let (_, iter) ← st.iter.next pool
      return (none, { st with iter := iter })
    | _ => removeAndSkipAccount st tx

/-- one iteration; one byte more than the size is for the encoding by the companion -/
def step (st : Forging σ impl) : Except MempoolException (Option Finish × Forging σ impl) :=
  if st.iter.hasNext then
    if st.machine.blockGasPool.currentGas < TxGas then .ok (some .belowTxGas, st)
    else do
      let tx ← st.iter.peek
      if st.blockSize + (size tx + 1) > getMaxBlockSize then removeAndSkipAccount st tx
      else applyNext env pool st tx
  else .ok (some .noTxLeft, st)

/-- the loop, for a number of iterations -/
def forge : ℕ → Forging σ impl → Except MempoolException (Finish × Forging σ impl)
  | 0, _ => .error .endlessLoop
  | n + 1, st => do
    let (finish, st') ← step env getMaxBlockSize pool st
    match finish with
    | some finish => return (finish, st')
    | none => forge n st'

/-- the variables before the loop -/
def start (view : View σ) (blockGasLimit : ℤ) (blockSizeIn : ℕ) (iter : Iter impl) : Forging σ impl :=
  ⟨⟨view, GasPool.new blockGasLimit, [], 0, []⟩, iter, [], [], 0, 0, 0, blockSizeIn, []⟩

def tryApplyAndGetBlockInfo (impl : TxQueue Tx env.blockContext.baseFee)
    (order : HashOrder (Sigma fun _ : Address => TxIdByNonceMap)) (view : View σ) (blockGasLimit : ℤ) (blockSizeIn : ℕ)
    (iterations : ℕ) : Except MempoolException (Finish × Forging σ impl) := do
  let iter ← Iter.create pool impl order []
  forge env getMaxBlockSize pool iterations (start view blockGasLimit blockSizeIn iter)

end Code

/-! ## The front of the iterator -/

section Front

variable {Tx : Type} [AccountTransaction Tx] {settings : AccountMempoolSettings} {s : Address → ℤ} {pool : MempoolMap Tx}
  {es : List (TxInfo Tx)} {baseFee : ℤ} {impl : TxQueue Tx baseFee} {it it' : Iter impl} {q : Address → List Tx} {tx : Tx}

theorem peek_of_skip (h : it.removeAndSkipAccount = .ok (tx, it')) : it.peek = .ok tx := by
  unfold Iter.removeAndSkipAccount at h
  unfold Iter.peek
  cases hforced : it.forcedTxQueue with
  | cons x xs =>
    rw [hforced] at h
    exact congrArg Except.ok (Prod.mk.inj (Except.ok.inj h)).1
  | nil =>
    rw [hforced] at h
    cases hdequeue : impl.dequeue it.orderedQueue with
    | none =>
      simp only [hdequeue] at h
      cases h
    | some r =>
      simp only [hdequeue] at h
      obtain ⟨best, queue⟩ := r
      exact congrArg Except.ok (Prod.mk.inj (Except.ok.inj h)).1

theorem peek_of_next (h : it.next pool = .ok (tx, it')) : it.peek = .ok tx := by
  unfold Iter.next at h
  unfold Iter.peek
  cases hforced : it.forcedTxQueue with
  | cons x xs =>
    rw [hforced] at h
    exact congrArg Except.ok (Prod.mk.inj (Except.ok.inj h)).1
  | nil =>
    rw [hforced] at h
    cases hdequeue : impl.dequeue it.orderedQueue with
    | none =>
      simp only [hdequeue] at h
      cases h
    | some r =>
      simp only [hdequeue] at h
      obtain ⟨best, queue⟩ := r
      cases htxs : pool.executableTxs.lookup (getFrom best) with
      | none =>
        simp only [htxs] at h
        cases h
      | some txs =>
        simp only [htxs] at h
        cases hnext : txs[getNonce best + 1]? with
        | none =>
          simp only [hnext] at h
          exact congrArg Except.ok (Prod.mk.inj (Except.ok.inj h)).1
        | some txId =>
          simp only [hnext] at h
          obtain ⟨next, -, h⟩ := Fallible.bind_ok h
          exact congrArg Except.ok (Prod.mk.inj (Except.ok.inj h)).1

/-- the transaction at the front, and what the two calls make of it -/
theorem front (h : Inv settings s pool es) (hit : Iterates pool it q) (hkeyed : Keyed getFrom q) (hnext : it.hasNext = true) :
    ∃ tx, it.peek = .ok tx ∧ Best getFrom (txOrder baseFee) q tx ∧
      (∃ it', it.removeAndSkipAccount = .ok (tx, it') ∧ Iterates pool it' (taken getFrom q (.skip, tx))) ∧
      ∃ it', it.next pool = .ok (tx, it') ∧ Iterates pool it' (taken getFrom q (.next, tx)) := by
  obtain ⟨tx, it₁, hskip, hbest, hit₁⟩ := hit.skip hkeyed hnext
  obtain ⟨tx', it₂, hnext', -, hit₂⟩ := hit.next h hkeyed hnext
  have hsame : tx = tx' := Except.ok.inj ((peek_of_skip hskip).symm.trans (peek_of_next hnext'))
  subst hsame
  exact ⟨tx, peek_of_skip hskip, hbest, ⟨it₁, hskip, hit₁⟩, ⟨it₂, hnext', hit₂⟩⟩

end Front

/-! ## The invariant of the loop -/

section Loop

variable {σ Tx : Type} [Forgeable Tx]

/-- a transaction that was accepted into the pool, under the rules of that time -/
def SemanticallyValid (tx : Tx) : Prop :=
  ∃ isShanghaiActive, (ethTx tx).semanticValidity isShanghaiActive = .ok ()

/-- the transactions of an account that are in the block -/
def inBlock {baseFee : ℤ} {impl : TxQueue Tx baseFee} (st : Forging σ impl) (a : Address) : List Tx :=
  st.listOfTxsInBlock.filter fun tx => getFrom tx = a

/-- the accounts with executable transactions -/
def senders (pool : MempoolMap Tx) : Set Address := { a | pooledTxs pool .EXEC a ≠ [] }

/-- the iterator holds what is left of the accounts that were not skipped; the view has counted the transactions in the block,
and its gas has only gone down, and the size of the block up, since an account was skipped -/
structure Forges (pool : MempoolMap Tx) (s : Address → ℤ) {baseFee : ℤ} {impl : TxQueue Tx baseFee} (st : Forging σ impl)
    (q : Address → List Tx) : Prop where
  ready : Ready st.machine
  iterates : Iterates pool st.iter q
  keyed : Keyed getFrom q
  split : ∀ a, ∃ left, pooledTxs pool .EXEC a = inBlock st a ++ left ∧
    (q a = left ∨ q a = [] ∧ ∃ k ∈ st.skipped, left.head? = some k.tx)
  nonce : ∀ a ∈ senders pool, (st.machine.view.stateDb.nonce a : ℤ) = s a + (inBlock st a).length
  skipped : ∀ k ∈ st.skipped, st.machine.blockGasPool.currentGas ≤ k.remainingGas ∧ k.blockSize ≤ st.blockSize

variable {pool : MempoolMap Tx} {s : Address → ℤ} {baseFee : ℤ} {impl : TxQueue Tx baseFee} {st : Forging σ impl}
  {q : Address → List Tx} {tx : Tx}

/-- a machine that a refused transaction leaves -/
theorem Forges.refused (h : Forges pool s st q) {machine : Machine σ} (hready : Ready machine)
    (hgas : machine.blockGasPool.currentGas = st.machine.blockGasPool.currentGas)
    (hnonces : SameNonces (senders pool) st.machine.view.stateDb machine.view.stateDb) :
    Forges pool s { st with machine := machine } q where
  ready := hready
  iterates := h.iterates
  keyed := h.keyed
  split := h.split
  nonce := by
    intro a ha
    show (machine.view.stateDb.nonce a : ℤ) = _
    rw [hnonces a ha]
    exact h.nonce a ha
  skipped := by
    intro k hk
    show machine.blockGasPool.currentGas ≤ k.remainingGas ∧ _
    rw [hgas]
    exact h.skipped k hk

/-- what is left of an account whose first transaction is at the front -/
theorem Forges.front_split (h : Forges pool s st q) (hfront : (q (getFrom tx)).head? = some tx) :
    ∃ rest, q (getFrom tx) = tx :: rest ∧ pooledTxs pool .EXEC (getFrom tx) = inBlock st (getFrom tx) ++ tx :: rest := by
  obtain ⟨left, hpooled, hleft⟩ := h.split (getFrom tx)
  have hqueue : q (getFrom tx) = tx :: (q (getFrom tx)).tail := (List.cons_head?_tail hfront).symm
  refine ⟨(q (getFrom tx)).tail, hqueue, ?_⟩
  rcases hleft with hleft | ⟨hnil, -⟩
  · rw [← hqueue, hleft]
    exact hpooled
  · rw [hnil] at hfront
    cases hfront

theorem Forges.skip (h : Forges pool s st q) (hfront : (q (getFrom tx)).head? = some tx) {iter : Iter impl}
    (hiter : Iterates pool iter (taken getFrom q (.skip, tx))) :
    Forges pool s { st with
      iter := iter
      skipped := ⟨tx, st.machine.blockGasPool.currentGas, st.blockSize⟩ :: st.skipped } (taken getFrom q (.skip, tx)) where
  ready := h.ready
  iterates := hiter
  keyed := h.keyed.taken (.skip, tx)
  split := by
    intro a
    by_cases ha : a = getFrom tx
    · subst ha
      obtain ⟨rest, -, hpooled⟩ := h.front_split hfront
      exact ⟨tx :: rest, hpooled, .inr ⟨taken_skip tx, _, List.mem_cons_self, rfl⟩⟩
    · obtain ⟨left, hpooled, hleft⟩ := h.split a
      refine ⟨left, hpooled, ?_⟩
      rw [taken_of_ne ha]
      rcases hleft with hleft | ⟨hnil, k, hk, hhead⟩
      · exact .inl hleft
      · exact .inr ⟨hnil, k, List.mem_cons_of_mem _ hk, hhead⟩
  nonce := h.nonce
  skipped := by
    intro k hk
    rcases List.mem_cons.1 hk with rfl | hk
    · exact ⟨le_rfl, le_rfl⟩
    · exact h.skipped k hk

theorem inBlock_append {st' : Forging σ impl} (hlist : st'.listOfTxsInBlock = st.listOfTxsInBlock ++ [tx]) (a : Address) :
    inBlock st' a = inBlock st a ++ if getFrom tx = a then [tx] else [] := by
  rw [inBlock, hlist, List.filter_append]
  by_cases ha : getFrom tx = a
  · simp [inBlock, ha]
  · simp [inBlock, ha]

theorem Forges.applied (h : Forges pool s st q) (hfront : (q (getFrom tx)).head? = some tx) {st' : Forging σ impl}
    (hready : Ready st'.machine) (hgas : st'.machine.blockGasPool.currentGas ≤ st.machine.blockGasPool.currentGas)
    (hnonces : ∀ a ∈ senders pool, (st'.machine.view.stateDb.nonce a : ℤ) =
      st.machine.view.stateDb.nonce a + if a = getFrom tx then 1 else 0)
    (hiter : Iterates pool st'.iter (taken getFrom q (.next, tx)))
    (hlist : st'.listOfTxsInBlock = st.listOfTxsInBlock ++ [tx]) (hsize : st.blockSize ≤ st'.blockSize)
    (hskipped : st'.skipped = st.skipped) : Forges pool s st' (taken getFrom q (.next, tx)) where
  ready := hready
  iterates := hiter
  keyed := h.keyed.taken (.next, tx)
  split := by
    intro a
    rw [inBlock_append hlist, hskipped]
    by_cases ha : a = getFrom tx
    · subst ha
      obtain ⟨rest, hqueue, hpooled⟩ := h.front_split hfront
      refine ⟨rest, ?_, .inl ?_⟩
      · rw [hpooled, if_pos rfl, List.append_assoc]
        rfl
      · rw [taken_next, hqueue, List.tail_cons]
    · obtain ⟨left, hpooled, hleft⟩ := h.split a
      refine ⟨left, ?_, ?_⟩
      · rw [hpooled, if_neg (Ne.symm ha), List.append_nil]
      · rw [taken_of_ne ha]
        exact hleft
  nonce := by
    intro a ha
    rw [hnonces a ha, h.nonce a ha, inBlock_append hlist, List.length_append]
    by_cases hfrom : a = getFrom tx
    · rw [if_pos hfrom, if_pos hfrom.symm, List.length_singleton]
      push_cast
      ring
    · rw [if_neg hfrom, if_neg (Ne.symm hfrom), List.length_nil]
      push_cast
      ring
  skipped := by
    intro k hk
    rw [hskipped] at hk
    obtain ⟨hremaining, hblock⟩ := h.skipped k hk
    exact ⟨hgas.trans hremaining, hblock.trans hsize⟩

section Step

variable {env : BlockEnv σ} {getMaxBlockSize : ℕ} {settings : AccountMempoolSettings} {es : List (TxInfo Tx)}

theorem getFrom_asMessage (tx : Tx) (base : ℤ) : ((ethTx tx).asMessage base).getFrom = getFrom tx := by
  rw [EthereumTransaction.asMessage, Forgeable.getFrom_eq]
  rfl

/-- the next transaction of an account has the nonce that the view expects -/
theorem Forges.front_nonce (hinv : Inv settings s pool es) (h : Forges pool s st q)
    (hfront : (q (getFrom tx)).head? = some tx) :
    getFrom tx ∈ senders pool ∧ getNonce tx = st.machine.view.stateDb.nonce (getFrom tx) := by
  obtain ⟨rest, -, hpooled⟩ := h.front_split hfront
  have hsender : getFrom tx ∈ senders pool := by
    intro hnil
    rw [hnil] at hpooled
    simp at hpooled
  have hcons := hinv.consecutive (getFrom tx)
  rw [hpooled] at hcons
  exact ⟨hsender, (consecutive_cons.1 hcons.of_append).1.trans (h.nonce _ hsender).symm⟩

/-- what the early returns say about the gas and about the front of the iterator -/
def StopsAt (finish : Finish) (st : Forging σ impl) (q : Address → List Tx) : Prop :=
  match finish with
  | .noTxLeft => True
  | .belowTxGas => st.machine.blockGasPool.currentGas < TxGas
  | .feeCapTooLow => ∃ tx, Best getFrom (txOrder baseFee) q tx ∧ getMaxFeePerGas tx < baseFee

end Step

section Premises

variable {env : BlockEnv σ} {impl : TxQueue Tx env.blockContext.baseFee} {st : Forging σ impl} {getMaxBlockSize : ℕ}
  {settings : AccountMempoolSettings} {es : List (TxInfo Tx)} (hinv : Inv settings s pool es)
  (hvalid : ∀ a, ∀ tx ∈ pooledTxs pool .EXEC a, SemanticallyValid tx) (hbase : 0 ≤ env.blockContext.baseFee)
  (hkeeps : KeepsNonces (senders pool) env)

include hvalid hbase in
theorem gasPrice_of_pooled {a : Address} (htx : tx ∈ pooledTxs pool .EXEC a) :
    0 ≤ ((ethTx tx).asMessage env.blockContext.baseFee).gasPrice := by
  obtain ⟨shanghai, hsemantic⟩ := hvalid a tx htx
  exact gasPrice_nonneg hsemantic hbase

include hinv hvalid hbase hkeeps

/-- **A transaction that fits by its size.** -/
theorem Forges.applyNext (h : Forges pool s st q) (hnext : st.iter.hasNext = true) {tx : Tx} (hpeek : st.iter.peek = .ok tx)
    {finish : Option Finish} {st' : Forging σ impl} (happly : applyNext env pool st tx = .ok (finish, st')) :
    (finish = none ∧ ∃ q', Forges pool s st' q') ∨
      ∃ f, finish = some f ∧ Forges pool s st' q ∧ StopsAt f st' q := by
  obtain ⟨tx', hpeek', hbest, ⟨skipped, hskip, hskipped⟩, taken', htake, htaken⟩ := front hinv h.iterates h.keyed hnext
  obtain rfl := Except.ok.inj (hpeek.symm.trans hpeek')
  obtain ⟨hsender, hnonce⟩ := h.front_nonce hinv hbest.front
  obtain ⟨rest, -, hpooled⟩ := h.front_split hbest.front
  have hprice := gasPrice_of_pooled hvalid hbase (hpooled ▸ List.mem_append_right _ List.mem_cons_self)
  unfold ForgingLoop.applyNext at happly
  dsimp only at happly
  cases hres : (applyTransaction env (ethTx tx) st.listOfTxsInBlock.length st.machine).1 with
  | ok receipt =>
    rw [hres, htake] at happly
    obtain ⟨rfl, rfl⟩ := Prod.mk.inj (Except.ok.inj happly)
    obtain ⟨hready, -, hgas, hnonces⟩ := applyTransaction_applied h.ready hprice hkeeps hres
    refine .inl ⟨rfl, _, h.applied hbest.front hready hgas ?_ htaken rfl (Nat.le_add_right _ _) rfl⟩
    intro a ha
    rw [hnonces a ha, getFrom_asMessage]
  | error err =>
    rw [hres] at happly
    obtain ⟨hready, hgas, hnonces⟩ := applyTransaction_refused h.ready hprice hkeeps hres
    have hrefused := h.refused hready hgas hnonces
    have hskipAccount : removeAndSkipAccount
        { st with machine := (applyTransaction env (ethTx tx) st.listOfTxsInBlock.length st.machine).2 } tx =
          .ok (finish, st') → finish = none ∧ ∃ q', Forges pool s st' q' := by
      intro hremove
      unfold removeAndSkipAccount at hremove
      rw [hskip] at hremove
      obtain ⟨rfl, rfl⟩ := Prod.mk.inj (Except.ok.inj hremove)
      exact ⟨rfl, _, hrefused.skip hbest.front hskipped⟩
    cases err with
    | feeCapTooLow a cap base =>
      obtain ⟨rfl, rfl⟩ := Prod.mk.inj (Except.ok.inj happly)
      have hcap := feeCap_lt_baseFee hkeeps hres
      rw [Forgeable.getMaxFeePerGas_eq] at hcap
      exact .inr ⟨_, rfl, hrefused, tx, hbest, hcap⟩
    | nonceTooLow a txNonce stateNonce =>
      -- the transaction has the nonce that the view expects
      have hlow := nonce_lt_of_nonceTooLow hkeeps hres
      rw [Forgeable.getNonce_eq, getFrom_asMessage, hnonce] at hlow
      exact absurd hlow (lt_irrefl _)
    | _ => exact .inl (hskipAccount happly)

/-- **One iteration.** -/
theorem Forges.step (h : Forges pool s st q) {finish : Option Finish} {st' : Forging σ impl}
    (hstep : step env getMaxBlockSize pool st = .ok (finish, st')) :
    (finish = none ∧ ∃ q', Forges pool s st' q') ∨
      ∃ f, finish = some f ∧ ∃ q', Forges pool s st' q' ∧ StopsAt f st' q' := by
  unfold ForgingLoop.step at hstep
  split_ifs at hstep with hnext hlow
  · obtain ⟨rfl, rfl⟩ := Prod.mk.inj (Except.ok.inj hstep)
    exact .inr ⟨_, rfl, q, h, hlow⟩
  · obtain ⟨tx, hpeek, hbest, ⟨iter, hskip, hskipped⟩, -⟩ := front hinv h.iterates h.keyed hnext
    rw [hpeek] at hstep
    dsimp only [bind, Except.bind] at hstep
    split_ifs at hstep with hsize
    · unfold removeAndSkipAccount at hstep
      rw [hskip] at hstep
      obtain ⟨rfl, rfl⟩ := Prod.mk.inj (Except.ok.inj hstep)
      exact .inl ⟨rfl, _, h.skip hbest.front hskipped⟩
    · rcases h.applyNext hinv hvalid hbase hkeeps hnext hpeek hstep with hgo | ⟨f, hfinish, hst', hstops⟩
      · exact .inl hgo
      · exact .inr ⟨f, hfinish, q, hst', hstops⟩
  · obtain ⟨rfl, rfl⟩ := Prod.mk.inj (Except.ok.inj hstep)
    exact .inr ⟨_, rfl, q, h, trivial⟩

/-- **The loop.** By induction on the iterations. -/
theorem Forges.forge {iterations : ℕ} (h : Forges pool s st q) {finish : Finish} {st' : Forging σ impl}
    (hforge : forge env getMaxBlockSize pool iterations st = .ok (finish, st')) :
    ∃ q', Forges pool s st' q' ∧ StopsAt finish st' q' := by
  induction iterations generalizing st q with
  | zero => cases hforge
  | succ n ih =>
    unfold ForgingLoop.forge at hforge
    obtain ⟨⟨found, st₁⟩, hstep, hforge⟩ := Fallible.bind_ok hforge
    rcases h.step hinv hvalid hbase hkeeps hstep with ⟨rfl, q', hst₁⟩ | ⟨f, rfl, q', hst₁, hstops⟩
    · exact ih hst₁ hforge
    · obtain ⟨rfl, rfl⟩ := Prod.mk.inj (Except.ok.inj hforge)
      exact ⟨q', hst₁, hstops⟩

end Premises

/-! ## What is left -/

/-- a transaction of the pool that has not been reached when the loop ends -/
def Remaining (pool : MempoolMap Tx) (st : Forging σ impl) (tx : Tx) : Prop :=
  ∃ left, pooledTxs pool .EXEC (getFrom tx) = inBlock st (getFrom tx) ++ left ∧ tx ∈ left

/-- the results of further transactions, each tried on what the ones before it have left -/
def attempts (env : BlockEnv σ) : List Tx → ℕ → Machine σ → List (Except Exc Receipt)
  | [], _, _ => []
  | tx :: txs, txIndex, m =>
    match applyTransaction env (ethTx tx) txIndex m with
    | (.ok receipt, m') => .ok receipt :: attempts env txs (txIndex + 1) m'
    | (.error e, m') => .error e :: attempts env txs txIndex m'

/-- no attempt is applied -/
abbrev AllRefused (rs : List (Except Exc Receipt)) : Prop := ∀ r ∈ rs, ∃ e, r = .error e

/-- the transaction does not fit into the block by its size -/
def TooLarge (getMaxBlockSize blockSize : ℕ) (tx : Tx) : Prop := blockSize + (size tx + 1) > getMaxBlockSize

/-- an account that was skipped for a reason that stays until the end of the block: the gas that is left, the gas that the
transaction itself needs, the range of nonces -/
def Stays (env : BlockEnv σ) (k : Skipped Tx) : Prop :=
  k.remainingGas < (ethTx k.tx).gasLimit ∨
    ¬ PaysIntrinsic env.toEnv ((ethTx k.tx).asMessage env.blockContext.baseFee) ∨ isUint64 (getNonce k.tx + 1) = false

section Left

variable {env : BlockEnv σ} {impl : TxQueue Tx env.blockContext.baseFee} {st : Forging σ impl}
  {settings : AccountMempoolSettings} {es : List (TxInfo Tx)} {m : Machine σ} {txs : List Tx}
  (hvalid : ∀ a, ∀ tx ∈ pooledTxs pool .EXEC a, SemanticallyValid tx) (hbase : 0 ≤ env.blockContext.baseFee)
  (hkeeps : KeepsNonces (senders pool) env)

theorem Remaining.pooled {tx : Tx} (h : Remaining pool st tx) : tx ∈ pooledTxs pool .EXEC (getFrom tx) := by
  obtain ⟨left, hpooled, htx⟩ := h
  rw [hpooled]
  exact List.mem_append_right _ htx

theorem Remaining.sender {tx : Tx} (h : Remaining pool st tx) : getFrom tx ∈ senders pool :=
  List.ne_nil_of_mem h.pooled

/-- the first transaction that is left of an account has the nonce that the view expects, and it is at the front of the iterator
unless the account was skipped there; the ones behind it have higher nonces -/
theorem Forges.remaining_cases (hinv : Inv settings s pool es) (h : Forges pool s st q) {tx : Tx}
    (hremaining : Remaining pool st tx) :
    (st.machine.view.stateDb.nonce (getFrom tx) : ℤ) < getNonce tx ∨
      getNonce tx = st.machine.view.stateDb.nonce (getFrom tx) ∧
        ((q (getFrom tx)).head? = some tx ∨ ∃ k ∈ st.skipped, k.tx = tx) := by
  have hnonce := h.nonce _ hremaining.sender
  obtain ⟨left, hpooled, htx⟩ := hremaining
  obtain ⟨left', hpooled', hleft⟩ := h.split (getFrom tx)
  obtain rfl : left' = left := List.append_cancel_left (hpooled'.symm.trans hpooled)
  have hcons := hinv.consecutive (getFrom tx)
  rw [hpooled] at hcons
  have hcons := hcons.of_append
  obtain ⟨x, rest, rfl⟩ := List.exists_cons_of_ne_nil (List.ne_nil_of_mem htx)
  obtain ⟨hx, hrest⟩ := consecutive_cons.1 hcons
  rcases List.mem_cons.1 htx with rfl | htx
  · refine .inr ⟨hx.trans hnonce.symm, ?_⟩
    rcases hleft with hleft | ⟨-, k, hk, hhead⟩
    · exact .inl (by rw [hleft, List.head?_cons])
    · exact .inr ⟨k, hk, (Option.some.inj hhead).symm⟩
  · obtain ⟨hle, -⟩ := hrest.exists_mem_iff.1 ⟨tx, htx, rfl⟩
    exact .inl (by omega)

/-- no transaction fits into less gas than a transfer needs -/
theorem not_admitted_of_gas {msg : Message} (hlow : m.blockGasPool.currentGas < TxGas) : ¬ Admitted env.toEnv msg m := by
  intro hadmitted
  obtain ⟨gas, hgas, hle⟩ := hadmitted.intrinsic.gas
  have htransfer := TxGas_le_intrinsicGas hgas
  have hblock := hadmitted.block
  omega

theorem Stays.not_admitted {k : Skipped Tx} (h : Stays env k) (hgas : m.blockGasPool.currentGas ≤ k.remainingGas)
    (hnonce : getNonce k.tx = m.view.stateDb.nonce (getFrom k.tx)) :
    ¬ Admitted env.toEnv ((ethTx k.tx).asMessage env.blockContext.baseFee) m := by
  intro hadmitted
  rcases h with hlimit | hpays | hmax
  · have hblock : (ethTx k.tx).gasLimit ≤ m.blockGasPool.currentGas := hadmitted.block
    omega
  · exact hpays hadmitted.intrinsic
  · have hfits := hadmitted.nonceMax rfl
    rw [getFrom_asMessage, ← hnonce, hmax] at hfits
    cases hfits

include hvalid in
/-- a tip that is below zero comes from the fee cap -/
theorem feeCap_of_txOrder {a : Address} {tx best : Tx} (htx : tx ∈ pooledTxs pool .EXEC a) {base : ℤ}
    (horder : txOrder base tx ≤ txOrder base best) (hbest : getMaxFeePerGas best < base) : getMaxFeePerGas tx < base := by
  obtain ⟨shanghai, hsemantic⟩ := hvalid a tx htx
  have htip := (semanticValidity_fees hsemantic).2
  rw [Forgeable.getMaxPriorityFeePerGas_eq] at htip
  unfold txOrder at horder
  have hlow : min (getMaxFeePerGas tx - base) (AccountTransaction.getMaxPriorityFeePerGas tx) < 0 :=
    (horder.trans (min_le_left _ _)).trans_lt (by omega)
  rcases min_lt_iff.1 hlow with hcap | hprio
  · omega
  · omega

include hvalid in
/-- **Fee cap.** Where the best transaction has a fee cap below the base fee, the remaining ones are not admitted, unless their
account was skipped for a reason that can pass. -/
theorem Forges.not_admitted (hinv : Inv settings s pool es) (h : Forges pool s st q) (hstops : StopsAt .feeCapTooLow st q)
    {tx : Tx}
    (hremaining : Remaining pool st tx) (hskipped : ∀ k ∈ st.skipped, k.tx = tx → Stays env k)
    (hgas : m.blockGasPool.currentGas = st.machine.blockGasPool.currentGas)
    (hnonces : SameNonces (senders pool) st.machine.view.stateDb m.view.stateDb) :
    ¬ Admitted env.toEnv ((ethTx tx).asMessage env.blockContext.baseFee) m := by
  have hsame := hnonces _ hremaining.sender
  rcases h.remaining_cases hinv hremaining with hhigh | ⟨hnonce, hfront | ⟨k, hk, rfl⟩⟩
  · intro hadmitted
    have hexpected := hadmitted.nonce rfl
    rw [getFrom_asMessage, hsame] at hexpected
    have hown : getNonce tx = st.machine.view.stateDb.nonce (getFrom tx) := (Forgeable.getNonce_eq tx).symm.trans hexpected
    omega
  · intro hadmitted
    obtain ⟨best, hbest, hcap⟩ := hstops
    have hlow := feeCap_of_txOrder hvalid hremaining.pooled (hbest.highest _ tx hfront) hcap
    have hfits := hadmitted.feeCap (ethTx tx).getMaxFeePerGas rfl rfl
    rw [Forgeable.getMaxFeePerGas_eq] at hfits
    exact absurd hlow (not_lt.2 hfits)
  · refine (hskipped k hk rfl).not_admitted (hgas.trans_le (h.skipped k hk).1) ?_
    rw [hsame]
    exact hnonce

include hvalid hbase hkeeps

/-- **Attempts.** Transactions that are not admitted by the gas that is left and the nonces of the view are all refused, since a
transaction that is refused leaves both. -/
theorem attempts_refused (txIndex : ℕ) (hready : Ready m) (hremaining : ∀ tx ∈ txs, Remaining pool st tx)
    (hnot : ∀ tx ∈ txs, ∀ m' : Machine σ, m'.blockGasPool.currentGas = m.blockGasPool.currentGas →
      SameNonces (senders pool) m.view.stateDb m'.view.stateDb →
      ¬ Admitted env.toEnv ((ethTx tx).asMessage env.blockContext.baseFee) m') :
    AllRefused (attempts env txs txIndex m) := by
  induction txs generalizing m with
  | nil =>
    intro r hr
    cases hr
  | cons tx txs ih =>
    have hprice := gasPrice_of_pooled hvalid hbase (hremaining tx List.mem_cons_self).pooled
    rw [attempts]
    rcases happly : applyTransaction env (ethTx tx) txIndex m with ⟨res, m'⟩
    cases res with
    | ok receipt =>
      have hres : (applyTransaction env (ethTx tx) txIndex m).1 = .ok receipt := by rw [happly]
      have hadmitted := (applyTransaction_applied hready hprice hkeeps hres).2.1
      exact absurd hadmitted (hnot tx List.mem_cons_self m rfl (.refl _))
    | error e =>
      have hres : (applyTransaction env (ethTx tx) txIndex m).1 = .error e := by rw [happly]
      obtain ⟨hready', hgas, hnonces⟩ := applyTransaction_refused hready hprice hkeeps hres
      rw [happly] at hready' hgas hnonces
      have hrest : AllRefused (attempts env txs txIndex m') := by
        refine ih hready' (fun y hy => hremaining y (List.mem_cons_of_mem tx hy)) ?_
        intro y hy m₂ hgas₂ hnonces₂
        exact hnot y (List.mem_cons_of_mem tx hy) m₂ (hgas₂.trans hgas) (hnonces.trans hnonces₂)
      intro r hr
      rcases List.mem_cons.1 hr with rfl | hr
      · exact ⟨e, rfl⟩
      · exact hrest r hr

/-- **Early returns.** When the loop returns early, an account skipped because of the size of its transaction would be skipped
again, and none of the remaining transactions is applied, in whatever order they are tried, with the exception of those whose
account was skipped at them for a reason that can pass: missing funds, a sender that is no externally owned account, or an
execution that failed. -/
theorem early_return_loses_nothing (hinv : Inv settings s pool es) {view : View σ} (hview : view.readOnly = false)
    (hnonces : ∀ a ∈ senders pool, (view.stateDb.nonce a : ℤ) = s a) {blockGasLimit : ℤ} (hlimit : 0 ≤ blockGasLimit)
    (order : HashOrder (Sigma fun _ : Address => TxIdByNonceMap)) (getMaxBlockSize blockSizeIn iterations : ℕ) {finish : Finish}
    (hrun : tryApplyAndGetBlockInfo env getMaxBlockSize pool impl order view blockGasLimit blockSizeIn iterations =
      .ok (finish, st)) (hearly : finish ≠ .noTxLeft) :
    (∀ k ∈ st.skipped, TooLarge getMaxBlockSize k.blockSize k.tx → TooLarge getMaxBlockSize st.blockSize k.tx) ∧
      ∀ txs : List Tx, (∀ tx ∈ txs, Remaining pool st tx) →
        (finish = .feeCapTooLow → ∀ tx ∈ txs, ∀ k ∈ st.skipped, k.tx = tx → Stays env k) →
        AllRefused (attempts env txs st.listOfTxsInBlock.length st.machine) := by
  obtain ⟨it, hcreate, hit⟩ := hinv.create_iterates impl order
  unfold tryApplyAndGetBlockInfo at hrun
  rw [hcreate] at hrun
  have hstart : Forges pool s (start view blockGasLimit blockSizeIn it) (pooledTxs pool .EXEC) :=
    { ready := ⟨⟨GasPool.within_new hlimit, by simp [start], by simp [start]⟩, hview⟩
      iterates := hit
      keyed := hinv.keyed
      split := fun a => ⟨pooledTxs pool .EXEC a, rfl, .inl rfl⟩
      nonce := fun a ha => (hnonces a ha).trans (add_zero _).symm
      skipped := fun k hk => by cases hk }
  obtain ⟨q, hforges, hstops⟩ := hstart.forge hinv hvalid hbase hkeeps hrun
  refine ⟨?_, ?_⟩
  · intro k hk hlarge
    have hsize := (hforges.skipped k hk).2
    unfold TooLarge at hlarge ⊢
    omega
  · intro txs hremaining hskipped
    refine attempts_refused hvalid hbase hkeeps _ hforges.ready hremaining ?_
    intro tx htx m hgas hsame
    cases finish with
    | noTxLeft => exact absurd rfl hearly
    | belowTxGas => exact not_admitted_of_gas (hgas.trans_lt hstops)
    | feeCapTooLow => exact hforges.not_admitted hvalid hinv hstops (hremaining tx htx) (hskipped rfl tx htx) hgas hsame

end Left

end Loop

/-! ## A skipped account -/

/-- transfers to account 1, of a million from account 2 -/
instance : Forgeable DigitsTx where
  ethTx tx := ⟨.legacy none (tx.id % 10 : ℕ), (tx.id / 10 % 10 : ℕ), some 1, 21000, if tx.id / 100 = 2 then 1000000 else 0,
    [],
    true, some (BitVec.ofNat 160 (tx.id / 100))⟩
  getFrom_eq _ := rfl
  getNonce_eq _ := rfl
  getMaxFeePerGas_eq _ := rfl
  getMaxPriorityFeePerGas_eq _ := rfl

/-- `EoaMessageProcessor`, for accounts that hold the value -/
def transferProcessor : MessageProcessor Unit where
  canProcess _ _ _ := .ok true
  process inv := .write (fun db =>
    let sent := Function.update db.balance inv.caller (db.balance inv.caller - inv.value)
    { db with balance := inv.callee.elim sent fun callee => Function.update sent callee (sent callee + inv.value) }) (.ret [])

def transferEnv : BlockEnv Unit where
  processors := [transferProcessor]
  blockContext := ⟨9, 3, 0, true⟩
  accessSetup := fun _ _ _ _ _ => ()
  setTxContext := fun _ _ _ => ()
  finalizeChanges := id
  forgerKeys := ⟨5, ⟨6, 0⟩⟩
  isVersion14Active := true

/-- account 1 can pay for one of its two transactions, account 2 offers less, and the fee cap of account 3 is below the base
fee -/
def transferPool : MempoolMap DigitsTx := poolWith smallSettings (fun _ => 0) [⟨109⟩, ⟨119⟩, ⟨205⟩, ⟨302⟩]

def transferView : View Unit := ⟨⟨fun a => if a = 1 then 200000 else 2000000, fun _ => 0, fun _ => true, 0, ()⟩, false⟩

def transferQueue : TxQueue DigitsTx transferEnv.blockContext.baseFee := listQueue _

def transferRun : Except MempoolException (Finish × Forging Unit transferQueue) :=
  tryApplyAndGetBlockInfo transferEnv 1000 transferPool transferQueue (.insertion _) transferView 100000 0 10

theorem runChecks_of_false {checks : List (Bool × String)} (h : ∀ check ∈ checks, check.1 = false) :
    EthereumTransaction.runChecks checks = .ok () := by
  rw [EthereumTransaction.runChecks, List.find?_eq_none.2 fun check hcheck => by simp [h check hcheck]]

theorem digitsTx_valid (tx : DigitsTx) : SemanticallyValid tx := by
  have hvalue : 0 ≤ if tx.id / 100 = 2 then (1000000 : ℤ) else 0 := by split_ifs <;> decide
  have hfields : EthereumTransaction.runChecks (ethTx tx).fieldChecks = .ok () := by
    refine runChecks_of_false ?_
    simp only [EthereumTransaction.fieldChecks, ethTx, EthereumTransaction.isEIP1559, EthereumTransaction.getChainId,
      EthereumTransaction.getGasPrice, EthereumTransaction.isUint256, isUint64]
    simp [hvalue]
    exact ⟨by omega, by omega, decide_eq_false (by omega), decide_eq_true (by omega)⟩
  refine ⟨true, ?_⟩
  rw [EthereumTransaction.semanticValidity, hfields]
  rfl

theorem transferEnv_keepsNonces (A : Set Address) : KeepsNonces A transferEnv := by
  refine ⟨?_, fun db => .refl db, ⟨?_, ?_⟩⟩
  · intro p hp inv
    obtain rfl := List.mem_singleton.1 hp
    exact ⟨fun db a _ => rfl, trivial⟩
  · intro p hp inv view epoch
    obtain rfl := List.mem_singleton.1 hp
    exact trivial
  · intro p hp inv
    obtain rfl := List.mem_singleton.1 hp
    exact trivial

theorem transferRun_ends : ∃ st, transferRun = .ok (.feeCapTooLow, st) ∧ st.skipped.map Skipped.tx = [⟨119⟩] ∧
    Remaining transferPool st ⟨119⟩ ∧ Remaining transferPool st ⟨302⟩ ∧
    ∃ receipt, attempts transferEnv [(⟨119⟩ : DigitsTx)] st.listOfTxsInBlock.length st.machine = [.ok receipt] :=
  ⟨_, rfl, rfl, ⟨[⟨119⟩], rfl, List.mem_singleton_self _⟩, ⟨[⟨302⟩], rfl, List.mem_singleton_self _⟩, _, rfl⟩

/-- the transaction of account 1 is applied, since account 2 has paid account 1 after it was skipped -/
theorem skipped_account_gets_funds : ∃ es st receipt,
    Inv smallSettings (fun a => transferView.stateDb.nonce a) transferPool es ∧ transferRun = .ok (.feeCapTooLow, st) ∧
    Remaining transferPool st ⟨119⟩ ∧
    attempts transferEnv [(⟨119⟩ : DigitsTx)] st.listOfTxsInBlock.length st.machine = [.ok receipt] := by
  obtain ⟨es, h⟩ := inv_poolWith smallSettings (fun _ => 0) [(⟨109⟩ : DigitsTx), ⟨119⟩, ⟨205⟩, ⟨302⟩]
  obtain ⟨st, hrun, -, hremaining, -, receipt, hattempts⟩ := transferRun_ends
  exact ⟨es, st, receipt, h, hrun, hremaining, hattempts⟩

theorem early_return_account_three : ∃ st, transferRun = .ok (.feeCapTooLow, st) ∧
    AllRefused (attempts transferEnv [(⟨302⟩ : DigitsTx)] st.listOfTxsInBlock.length st.machine) := by
  obtain ⟨es, h⟩ := inv_poolWith smallSettings (fun _ => 0) [(⟨109⟩ : DigitsTx), ⟨119⟩, ⟨205⟩, ⟨302⟩]
  obtain ⟨st, hrun, hskipped, -, hremaining, -⟩ := transferRun_ends
  refine ⟨st, hrun, (early_return_loses_nothing (fun a tx _ => digitsTx_valid tx) (by decide) (transferEnv_keepsNonces _) h rfl
    (fun _ _ => rfl) (by decide) (.insertion _) 1000 0 10 hrun (by decide)).2 [⟨302⟩] ?_ ?_⟩
  · intro tx htx
    obtain rfl := List.mem_singleton.1 htx
    exact hremaining
  · intro _ tx htx k hk hsame
    obtain rfl := List.mem_singleton.1 htx
    have hmem : k.tx ∈ st.skipped.map Skipped.tx := List.mem_map_of_mem hk
    rw [hskipped, hsame, List.mem_singleton] at hmem
    cases hmem

end SidechainsSdk.Account.ForgingLoop
