/-
The iterator over the executable transactions (`MempoolMap.TransactionsByPriceAndNonce`), from which blocks are forged.

Its priority queue holds the first transaction of every account that was not emitted yet. `next` replaces the best one by the
transaction with the following nonce, `removeAndSkipAccount` does not.

- `txOrder`, `create`, `next`, `removeAndSkipAccount`, `run`: the code; the priority queue is any implementation, and the
  accounts are enqueued in any order.
- `Iterates`: the queue holds the fronts of what is left of the accounts. `create_iterates`, `next_iterates`,
  `skip_iterates`: it holds at the start, and every call keeps it and returns the best front.
- `run_merges`: so any calls follow a merge by priority.
- `iterates_by_price_and_nonce`: what that means for the transactions of the pool.

The pool does not change during the iteration.
-/
import Mathlib.Tactic
import SidechainsSdk.Account.Mempool.AccountUpdate
import SidechainsSdk.Account.Mempool.Adding
import SidechainsSdk.Core.PriorityMerge

namespace SidechainsSdk.Account.Mempool

open AccountTransaction Fallible MempoolMap ConsecutiveRun PriorityMerge

variable {Tx : Type} [AccountTransaction Tx]

/-! ## The code -/

/-- the tip per gas that a transaction pays at a base fee -/
def txOrder (baseFee : ℤ) (tx : Tx) : ℤ := min (getMaxFeePerGas tx - baseFee) (getMaxPriorityFeePerGas tx)

abbrev TxQueue (Tx : Type) [AccountTransaction Tx] (baseFee : ℤ) := PriorityQueue Tx (txOrder baseFee)

/-- `TransactionsByPriceAndNonce.Iter` -/
structure Iter {baseFee : ℤ} (impl : TxQueue Tx baseFee) where
  forcedTxQueue : List Tx
  orderedQueue : impl.Queue

/-- `getTransaction(txId).get` -/
def getPooled (m : MempoolMap Tx) (txId : ModifierId) : Except MempoolException Tx :=
  match m.txCache.getTransaction txId with
  | some tx => .ok tx
  | none => .error (.noSuchElement "getTransaction(txId).get")

namespace Iter

section Code

variable (m : MempoolMap Tx) {baseFee : ℤ} (impl : TxQueue Tx baseFee)

/-- an account is enqueued with the first one of its executable transactions -/
def enqueueFirst (queue : impl.Queue) (mapOfTxsPerAccount : TxIdByNonceMap) : Except MempoolException impl.Queue :=
  match mapOfTxsPerAccount.toList with
  | [] => .error (.noSuchElement "mapOfTxsPerAccount.values.head")
  | (_, txId) :: _ => do
    let tx ← getPooled m txId
    return impl.enqueue tx queue

def create (order : HashOrder (Sigma fun _ : Address => TxIdByNonceMap)) (forcedTx : List Tx) :
    Except MempoolException (Iter impl) := do
  let orderedQueue ← (order.iterate m.executableTxs.entries).foldlM (fun queue entry => enqueueFirst m impl queue entry.2)
      impl.empty
  return ⟨forcedTx, orderedQueue⟩

variable {impl}

def hasNext (it : Iter impl) : Bool := !it.forcedTxQueue.isEmpty || (impl.dequeue it.orderedQueue).isSome

def next (it : Iter impl) : Except MempoolException (Tx × Iter impl) :=
  match it.forcedTxQueue with
  | tx :: forcedTxQueue => .ok (tx, { it with forcedTxQueue := forcedTxQueue })
  | [] =>
    match impl.dequeue it.orderedQueue with
    | none => .error (.noSuchElement "no element to remove from heap")
    | some (bestTx, orderedQueue) =>
      match m.executableTxs.lookup (getFrom bestTx) with
      | none => .error (.noSuchElement "executableTxs(bestTx.getFrom)")
      | some txs =>
        match txs[getNonce bestTx + 1]? with
        | none => .ok (bestTx, { it with orderedQueue := orderedQueue })
        | some nextTxId => do
          let tx ← getPooled m nextTxId
          return (bestTx, { it with orderedQueue := impl.enqueue tx orderedQueue })

def peek (it : Iter impl) : Except MempoolException Tx :=
  match it.forcedTxQueue with
  | tx :: _ => .ok tx
  | [] =>
    match impl.dequeue it.orderedQueue with
    | none => .error (.noSuchElement "queue is empty")
    | some (bestTx, _) => .ok bestTx

def removeAndSkipAccount (it : Iter impl) : Except MempoolException (Tx × Iter impl) :=
  match it.forcedTxQueue with
  | tx :: forcedTxQueue => .ok (tx, { it with forcedTxQueue := forcedTxQueue })
  | [] =>
    match impl.dequeue it.orderedQueue with
    | none => .error (.noSuchElement "no element to remove from heap")
    | some (bestTx, orderedQueue) => .ok (bestTx, { it with orderedQueue := orderedQueue })

def perform (it : Iter impl) : Take → Except MempoolException (Tx × Iter impl)
  | .next => it.next m
  | .skip => it.removeAndSkipAccount

/-- one call after the other, while there is a transaction left -/
def run : List Take → Iter impl → Except MempoolException (List (Take × Tx) × Iter impl)
  | [], it => .ok ([], it)
  | call :: calls, it =>
    if it.hasNext then do
      let (tx, it') ← it.perform m call
      let (ts, it'') ← run calls it'
      return ((call, tx) :: ts, it'')
    else .ok ([], it)

end Code

end Iter

/-! ## The executable transactions of an account -/

variable {settings : AccountMempoolSettings} {s : Address → ℤ} {m : MempoolMap Tx} {es : List (TxInfo Tx)}

omit [AccountTransaction Tx] in
theorem pooledTxs_of_lookup_none {a : Address} (h : m.executableTxs.lookup a = none) : pooledTxs m .EXEC a = [] := by
  have hempty : m.txsOf .EXEC a = ∅ := by
    show ((m.executableTxs.lookup a).getD ∅) = ∅
    rw [h]
    rfl
  rw [pooledTxs, hempty]
  rfl

section Executable

variable (h : Inv settings s m es)

include h

theorem Inv.getPooled_eq {a : Address} {tx : Tx} (htx : tx ∈ pooledTxs m .EXEC a) : getPooled m (idOf tx) = .ok tx := by
  obtain ⟨e, he, rfl, -, -⟩ := h.mem_pooledTxs.1 htx
  rw [getPooled, h.repr.getTransaction_of_mem he]

theorem Inv.keyed : Keyed getFrom (pooledTxs m .EXEC) := by
  intro a tx htx
  obtain ⟨e, -, rfl, -, hfrom⟩ := h.mem_pooledTxs.1 htx
  exact hfrom

/-- the map of an account is not empty, and starts with its first transaction -/
theorem Inv.first_of_lookup {a : Address} {txs : TxIdByNonceMap} (hlookup : m.executableTxs.lookup a = some txs) :
    ∃ tx rest, pooledTxs m .EXEC a = tx :: rest ∧ ∃ entries, txs.toList = (getNonce tx, idOf tx) :: entries := by
  have htxs : m.txsOf .EXEC a = txs := by
    show ((m.executableTxs.lookup a).getD ∅) = txs
    rw [hlookup]
    rfl
  have hlist := h.toList_eq .EXEC a
  rw [htxs] at hlist
  cases hpooled : pooledTxs m .EXEC a with
  | nil =>
    have hempty := h.nonEmpty .EXEC a txs hlookup
    rw [hpooled, List.map_nil] at hlist
    rw [← Std.TreeMap.isEmpty_toList, hlist] at hempty
    cases hempty
  | cons tx rest =>
    rw [hpooled, List.map_cons] at hlist
    exact ⟨tx, rest, rfl, _, hlist⟩

/-- the transaction with the following nonce is the one behind it -/
theorem Inv.lookup_next {a : Address} {before rest : List Tx} {tx : Tx} (hpooled : pooledTxs m .EXEC a = before ++ tx :: rest) :
    ∃ txs, m.executableTxs.lookup a = some txs ∧ txs[getNonce tx + 1]? = rest.head?.map idOf := by
  have hcons := h.consecutive a
  have hlist := h.toList_eq .EXEC a
  have hmem : tx ∈ pooledTxs m .EXEC a := by
    rw [hpooled]
    exact List.mem_append_right before List.mem_cons_self
  obtain ⟨txs, hlookup⟩ : ∃ txs, m.executableTxs.lookup a = some txs := by
    by_contra hnone
    have hnone' : m.executableTxs.lookup a = none := by
      rw [Option.eq_none_iff_forall_ne_some]
      exact fun txs htxs => hnone ⟨txs, htxs⟩
    rw [pooledTxs_of_lookup_none hnone'] at hmem
    cases hmem
  have htxs : m.txsOf .EXEC a = txs := by
    show ((m.executableTxs.lookup a).getD ∅) = txs
    rw [hlookup]
    rfl
  refine ⟨txs, hlookup, ?_⟩
  rw [htxs] at hlist
  rw [hpooled] at hcons
  obtain ⟨hnonce, hrest⟩ := consecutive_cons.1 hcons.of_append
  cases rest with
  | nil =>
    cases hget : txs[getNonce tx + 1]? with
    | none => rfl
    | some txId =>
      -- the nonce after the last one is not in the map
      have hentry : (getNonce tx + 1, txId) ∈ txs.toList := Std.TreeMap.mem_toList_iff_getElem?_eq_some.2 hget
      rw [hlist] at hentry
      obtain ⟨x, hx, hkey⟩ := List.mem_map.1 hentry
      have hbound := ((hcons.exists_mem_iff (k := getNonce x)).1 ⟨x, hpooled ▸ hx, rfl⟩).2
      have hx' : getNonce x = getNonce tx + 1 := congrArg Prod.fst hkey
      rw [List.length_append, List.length_singleton] at hbound
      push_cast at hbound
      omega
  | cons y ys =>
    obtain ⟨hy, -⟩ := consecutive_cons.1 hrest
    have hentry : (getNonce tx + 1, idOf y) ∈ txs.toList := by
      rw [hlist, hpooled]
      refine List.mem_map.2 ⟨y, by simp, ?_⟩
      rw [nonceAndId, hy, hnonce]
    exact Std.TreeMap.mem_toList_iff_getElem?_eq_some.1 hentry

end Executable

/-! ## Calls -/

/-- the iterator holds the first transactions of what is left of the accounts -/
structure Iterates (m : MempoolMap Tx) {baseFee : ℤ} {impl : TxQueue Tx baseFee} (it : Iter impl) (q : Address → List Tx) :
    Prop where
  forced : it.forcedTxQueue = []
  represents : Represents getFrom (impl.contents it.orderedQueue) q
  left : ∀ a, ∃ before, pooledTxs m .EXEC a = before ++ q a

section Calls

variable {baseFee : ℤ} {impl : TxQueue Tx baseFee} {it : Iter impl} {q : Address → List Tx}

/-- the accounts of a list are enqueued, with all their executable transactions left -/
theorem Inv.enqueue_fronts (h : Inv settings s m es) (entries : List (Sigma fun _ : Address => TxIdByNonceMap))
    (hlookup : ∀ entry ∈ entries, m.executableTxs.lookup entry.1 = some entry.2) (hnodup : (entries.map Sigma.fst).Nodup)
    (queue : impl.Queue) (q : Address → List Tx) (hempty : ∀ entry ∈ entries, q entry.1 = [])
    (hrep : Represents getFrom (impl.contents queue) q) :
    ∃ queue', entries.foldlM (fun queue entry => Iter.enqueueFirst m impl queue entry.2) queue = .ok queue' ∧
      Represents getFrom (impl.contents queue') fun a => if a ∈ entries.map Sigma.fst then pooledTxs m .EXEC a else q a := by
  induction entries generalizing queue q with
  | nil => exact ⟨queue, rfl, by simpa using hrep⟩
  | cons entry entries ih =>
    obtain ⟨hnew, hnodup⟩ := List.nodup_cons.1 hnodup
    obtain ⟨tx, rest, hpooled, entriesOf, htxs⟩ := h.first_of_lookup (hlookup entry List.mem_cons_self)
    have hmem : tx ∈ pooledTxs m .EXEC entry.1 := by
      rw [hpooled]
      exact List.mem_cons_self
    have hfrom : getFrom tx = entry.1 := h.keyed entry.1 tx hmem
    have hstep : Iter.enqueueFirst m impl queue entry.2 = .ok (impl.enqueue tx queue) := by
      rw [Iter.enqueueFirst, htxs]
      exact bind_ok_iff.2 ⟨tx, h.getPooled_eq hmem, rfl⟩
    have hrefill : Represents getFrom (impl.contents (impl.enqueue tx queue)) (Function.update q entry.1 (tx :: rest)) := by
      rw [impl.contents_enqueue, ← hfrom]
      exact hrep.refill (by rw [hfrom]; exact hempty entry List.mem_cons_self)
    have hempty' : ∀ e ∈ entries, Function.update q entry.1 (tx :: rest) e.1 = [] := by
      intro e he
      have hne : e.1 ≠ entry.1 := by
        intro heq
        exact hnew (heq ▸ List.mem_map_of_mem he)
      rw [Function.update_of_ne hne]
      exact hempty e (List.mem_cons_of_mem entry he)
    obtain ⟨queue', hrun, hrep'⟩ := ih (fun e he => hlookup e (List.mem_cons_of_mem entry he)) hnodup _ _ hempty' hrefill
    have hsame : (fun a => if a ∈ (entry :: entries).map Sigma.fst then pooledTxs m .EXEC a else q a) =
        fun a => if a ∈ entries.map Sigma.fst then pooledTxs m .EXEC a else Function.update q entry.1 (tx :: rest) a := by
      funext a
      by_cases ha : a = entry.1
      · subst ha
        rw [if_neg hnew, Function.update_self, ← hpooled, if_pos (by simp)]
      · rw [Function.update_of_ne ha, List.map_cons]
        simp only [List.mem_cons, ha, false_or]
    refine ⟨queue', ?_, ?_⟩
    · rw [List.foldlM_cons, hstep]
      exact hrun
    · rw [hsame]
      exact hrep'

/-- **Start.** All executable transactions are left. -/
theorem Inv.create_iterates (h : Inv settings s m es) (impl : TxQueue Tx baseFee)
    (order : HashOrder (Sigma fun _ : Address => TxIdByNonceMap)) :
    ∃ it, Iter.create m impl order [] = .ok it ∧ Iterates m it (pooledTxs m .EXEC) := by
  have hperm := order.perm m.executableTxs.entries
  have hlookup : ∀ entry ∈ order.iterate m.executableTxs.entries, m.executableTxs.lookup entry.1 = some entry.2 := by
    intro entry hentry
    exact AList.mem_lookup_iff.2 (hperm.mem_iff.1 hentry)
  have hnodup : ((order.iterate m.executableTxs.entries).map Sigma.fst).Nodup :=
    (hperm.map Sigma.fst).nodup_iff.2 m.executableTxs.nodupKeys
  have hstart : Represents getFrom (impl.contents impl.empty) fun _ : Address => ([] : List Tx) := by
    rw [impl.contents_empty]
    exact Represents.empty _ fun _ => rfl
  obtain ⟨queue, hrun, hrep⟩ := h.enqueue_fronts _ hlookup hnodup impl.empty _ (fun _ _ => rfl) hstart
  have hall : (fun a => if a ∈ (order.iterate m.executableTxs.entries).map Sigma.fst then pooledTxs m .EXEC a else []) =
      pooledTxs m .EXEC := by
    funext a
    split_ifs with ha
    · rfl
    · refine (pooledTxs_of_lookup_none ?_).symm
      rw [AList.lookup_eq_none]
      intro hkey
      exact ha ((hperm.map Sigma.fst).mem_iff.2 (AList.mem_keys.1 hkey))
  refine ⟨⟨[], queue⟩, ?_, rfl, hall ▸ hrep, fun a => ⟨[], rfl⟩⟩
  rw [Iter.create, hrun]
  rfl

theorem Iterates.hasNext_iff (hit : Iterates m it q) (hkeyed : Keyed getFrom q) :
    it.hasNext = false ↔ ∀ a, q a = [] := by
  rw [← hit.represents.eq_zero_iff hkeyed]
  simp only [Iter.hasNext, hit.forced, List.isEmpty_nil, Bool.not_true, Bool.false_or]
  cases hdequeue : impl.dequeue it.orderedQueue with
  | none => simp [impl.dequeue_none _ hdequeue]
  | some r =>
    obtain ⟨x, queue⟩ := r
    simp [(impl.dequeue_some _ _ _ hdequeue).1]

/-- the transaction that is dequeued is the best front -/
theorem Iterates.dequeue (hit : Iterates m it q) (hkeyed : Keyed getFrom q) (hnext : it.hasNext = true) :
    ∃ tx queue rest, impl.dequeue it.orderedQueue = some (tx, queue) ∧ q (getFrom tx) = tx :: rest ∧
      Best getFrom (txOrder baseFee) q tx ∧ Represents getFrom (impl.contents queue) (Function.update q (getFrom tx) []) := by
  cases hdequeue : impl.dequeue it.orderedQueue with
  | none => simp [Iter.hasNext, hit.forced, hdequeue] at hnext
  | some r =>
    obtain ⟨tx, queue⟩ := r
    obtain ⟨hcontents, hmax⟩ := impl.dequeue_some _ _ _ hdequeue
    have hrep := hit.represents
    have hbest := hrep.best hkeyed (x := tx) (by rw [hcontents]; exact Multiset.mem_cons_self _ _) hmax
    rw [hcontents] at hrep
    exact ⟨tx, queue, (q (getFrom tx)).tail, rfl, (List.cons_head?_tail hbest.front).symm, hbest, hrep.drop⟩

theorem Iterates.skip (hit : Iterates m it q) (hkeyed : Keyed getFrom q) (hnext : it.hasNext = true) :
    ∃ tx it', it.removeAndSkipAccount = .ok (tx, it') ∧ Best getFrom (txOrder baseFee) q tx ∧
      Iterates m it' (taken getFrom q (.skip, tx)) := by
  obtain ⟨tx, queue, rest, hdequeue, hqueue, hbest, hrep⟩ := hit.dequeue hkeyed hnext
  refine ⟨tx, { it with orderedQueue := queue }, ?_, hbest, hit.forced, hrep, ?_⟩
  · simp only [Iter.removeAndSkipAccount, hit.forced, hdequeue]
  · intro a
    by_cases ha : a = getFrom tx
    · subst ha
      rw [taken_skip]
      exact ⟨_, (List.append_nil _).symm⟩
    · rw [taken_of_ne ha]
      exact hit.left a

theorem Iterates.next (h : Inv settings s m es) (hit : Iterates m it q) (hkeyed : Keyed getFrom q) (hnext : it.hasNext = true) :
    ∃ tx it', it.next m = .ok (tx, it') ∧ Best getFrom (txOrder baseFee) q tx ∧
      Iterates m it' (taken getFrom q (.next, tx)) := by
  obtain ⟨tx, queue, rest, hdequeue, hqueue, hbest, hrep⟩ := hit.dequeue hkeyed hnext
  obtain ⟨before, hbefore⟩ := hit.left (getFrom tx)
  rw [hqueue] at hbefore
  obtain ⟨txs, hlookup, hfollowing⟩ := h.lookup_next hbefore
  have htaken : taken getFrom q (.next, tx) = Function.update (Function.update q (getFrom tx) []) (getFrom tx) rest := by
    rw [Function.update_idem, taken, hqueue]
    rfl
  have hleft : ∀ a, ∃ before, pooledTxs m .EXEC a = before ++ taken getFrom q (.next, tx) a := by
    intro a
    by_cases ha : a = getFrom tx
    · subst ha
      rw [taken_next, hqueue]
      exact ⟨before ++ [tx], by rw [hbefore, List.append_assoc]; rfl⟩
    · rw [taken_of_ne ha]
      exact hit.left a
  cases rest with
  | nil =>
    refine ⟨tx, { it with orderedQueue := queue }, ?_, hbest, hit.forced, ?_, hleft⟩
    · simp only [Iter.next, hit.forced, hdequeue, hlookup, hfollowing]
      rfl
    · rw [htaken, Function.update_idem]
      exact hrep
  | cons y ys =>
    have hy : y ∈ pooledTxs m .EXEC (getFrom tx) := by
      rw [hbefore]
      simp
    have hfrom : getFrom y = getFrom tx := h.keyed _ y hy
    refine ⟨tx, { it with orderedQueue := impl.enqueue y queue }, ?_, hbest, hit.forced, ?_, hleft⟩
    · simp only [Iter.next, hit.forced, hdequeue, hlookup, hfollowing, List.head?_cons, Option.map_some, h.getPooled_eq hy]
      rfl
    · rw [htaken, impl.contents_enqueue, ← hfrom]
      rw [← hfrom] at hrep
      exact hrep.refill (Function.update_self _ _ _)

/-! ## Runs -/

/-- **One call.** -/
theorem Iterates.perform (h : Inv settings s m es) (hit : Iterates m it q) (hkeyed : Keyed getFrom q) (hnext : it.hasNext = true)
    (call : Take) :
    ∃ tx it', it.perform m call = .ok (tx, it') ∧ Best getFrom (txOrder baseFee) q tx ∧
      Iterates m it' (taken getFrom q (call, tx)) := by
  cases call with
  | next => exact hit.next h hkeyed hnext
  | skip => exact hit.skip hkeyed hnext

/-- **Any calls.** They follow a merge, to their end or until nothing is left. -/
theorem Iterates.run (h : Inv settings s m es) (calls : List Take) (hit : Iterates m it q) (hkeyed : Keyed getFrom q) :
    ∃ ts it', it.run m calls = .ok (ts, it') ∧ Merges getFrom (txOrder baseFee) q ts ∧
      Iterates m it' (after getFrom q ts) ∧
      Keyed getFrom (after getFrom q ts) ∧ ts.map Prod.fst = calls.take ts.length ∧
      (ts.length = calls.length ∨ it'.hasNext = false) := by
  induction calls generalizing it q with
  | nil => exact ⟨[], it, rfl, .nil q, hit, hkeyed, rfl, .inl rfl⟩
  | cons call calls ih =>
    cases hnext : it.hasNext with
    | false =>
      refine ⟨[], it, ?_, .nil q, hit, hkeyed, rfl, .inr hnext⟩
      simp [Iter.run, hnext]
    | true =>
      obtain ⟨tx, it₁, hperform, hbest, hit₁⟩ := hit.perform h hkeyed hnext call
      obtain ⟨ts, it', hrun, hmerges, hit', hkeyed', hcalls, hend⟩ := ih hit₁ (hkeyed.taken (call, tx))
      refine ⟨(call, tx) :: ts, it', ?_, .cons hbest hmerges, hit', hkeyed', ?_, ?_⟩
      · simp only [Iter.run, hnext, if_true, hperform]
        show (do
          let (ts, it'') ← Iter.run m calls it₁
          return ((call, tx) :: ts, it'')) = _
        rw [hrun]
        rfl
      · rw [List.map_cons, List.length_cons, List.take_succ_cons, hcalls]
      · rcases hend with hlength | hend
        · exact .inl (by rw [List.length_cons, hlength, List.length_cons])
        · exact .inr hend

end Calls

/-- the executable transactions of the pool -/
def executables (es : List (TxInfo Tx)) : List Tx := (es.filter fun e => e.executableStatus = .EXEC).map TxInfo.tx

theorem Inv.executables_perm (h : Inv settings s m es) (a : Address) :
    ((executables es).filter fun tx => getFrom tx = a).Perm (pooledTxs m .EXEC a) := by
  have hnodup : (executables es).Nodup := by
    refine List.Nodup.of_map idOf ?_
    rw [executables, List.map_map]
    exact h.repr.nodup.sublist ((List.filter_sublist (p := _)).map TxInfo.txId)
  have hsorted : (pooledTxs m .EXEC a).Nodup := (h.consecutive a).ascending.nodup
  refine (List.perm_ext_iff_of_nodup (hnodup.filter _) hsorted).2 fun tx => ?_
  rw [h.mem_pooledTxs, List.mem_filter, executables, List.mem_map]
  constructor
  · rintro ⟨⟨e, he, rfl⟩, hfrom⟩
    obtain ⟨hmem, hst⟩ := List.mem_filter.1 he
    exact ⟨e, hmem, rfl, of_decide_eq_true hst, of_decide_eq_true hfrom⟩
  · rintro ⟨e, he, rfl, hst, hfrom⟩
    exact ⟨⟨e, List.mem_filter.2 ⟨he, decide_eq_true hst⟩, rfl⟩, decide_eq_true hfrom⟩

/-- **The iterator.** Without forced transactions, whatever the priority queue does with equal tips and in whatever order the
accounts are enqueued, any calls are answered until nothing is left; every transaction returned is the best one of the first
transactions that are left; an account whose transactions are never skipped has been emitted in the order of its consecutive
nonces up to what is left; a skip leaves out the rest of its account and nothing else; and with `next` alone every executable
transaction comes exactly once. -/
theorem iterates_by_price_and_nonce (h : Inv settings s m es) {baseFee : ℤ} (impl : TxQueue Tx baseFee)
    (order : HashOrder (Sigma fun _ : Address => TxIdByNonceMap)) (calls : List Take) :
    ∃ it ts it', Iter.create m impl order [] = .ok it ∧ it.run m calls = .ok (ts, it') ∧
      (ts.map Prod.fst = calls.take ts.length ∧ (ts.length = calls.length ∨ it'.hasNext = false)) ∧
      (∀ done t rest, ts = done ++ t :: rest →
        Best getFrom (txOrder baseFee) (after getFrom (pooledTxs m .EXEC) done) t.2) ∧
      (∀ a, Consecutive getNonce (s a) (pooledTxs m .EXEC a)) ∧
      (∀ a, (∀ tx, (Take.skip, tx) ∈ ts → getFrom tx ≠ a) →
        pooledTxs m .EXEC a = emittedOf getFrom a ts ++ after getFrom (pooledTxs m .EXEC) ts a) ∧
      (∀ done tx rest, ts = done ++ (.skip, tx) :: rest →
        (∃ left, pooledTxs m .EXEC (getFrom tx) = emittedOf getFrom (getFrom tx) ts ++ tx :: left) ∧
          after getFrom (pooledTxs m .EXEC) ts (getFrom tx) = []) ∧
      (it'.hasNext = false ↔ ∀ a, after getFrom (pooledTxs m .EXEC) ts a = []) ∧
      ((∀ call ∈ calls, call = .next) → (executables es).length ≤ calls.length →
        (emitted ts).Perm (executables es)) := by
  classical
  obtain ⟨it, hcreate, hit⟩ := h.create_iterates impl order
  obtain ⟨ts, it', hrun, hmerges, hit', hkeyed, hcalls, hend⟩ := hit.run h calls h.keyed
  have hempty := hit'.hasNext_iff hkeyed
  refine ⟨it, ts, it', hcreate, hrun, ⟨hcalls, hend⟩, fun done t rest hts => hmerges.best hts, h.consecutive,
    fun a hkept => hmerges.kept hkept, fun done tx rest hts => hmerges.skipped hts, hempty, ?_⟩
  intro hnext hlength
  refine hmerges.emitted_perm ?_ h.executables_perm ?_
  · intro t ht
    have hmem : t.1 ∈ calls.take ts.length := hcalls ▸ List.mem_map_of_mem ht
    exact hnext t.1 (List.mem_of_mem_take hmem)
  · rcases hend with heq | hnone
    · exact .inl (hlength.trans_eq heq.symm)
    · exact .inr (hempty.1 hnone)

/-- sender 2 pays more than sender 1, whose second transaction is skipped -/
theorem iterates_twoAccounts : ∃ it ts it',
    Iter.create (poolWith smallSettings (fun _ => 0) [⟨101⟩, ⟨111⟩, ⟨205⟩]) (listQueue (txOrder 0)) (.insertion _)
    [] =
      .ok it ∧
    it.run (poolWith smallSettings (fun _ => 0) [⟨101⟩, ⟨111⟩, ⟨205⟩]) [.next, .next, .skip] = .ok (ts, it') ∧
    ts = [(.next, (⟨205⟩ : DigitsTx)), (.next, ⟨101⟩), (.skip, ⟨111⟩)] ∧
    ∀ done t rest, ts = done ++ t :: rest →
      Best getFrom (txOrder 0)
        (after getFrom (pooledTxs (poolWith smallSettings (fun _ => 0) [⟨101⟩, ⟨111⟩, ⟨205⟩]) .EXEC) done)
        t.2 := by
  obtain ⟨es, h⟩ := inv_poolWith smallSettings (fun _ => 0) [(⟨101⟩ : DigitsTx), ⟨111⟩, ⟨205⟩]
  obtain ⟨it, ts, it', hcreate, hrun, -, hbest, -⟩ :=
    iterates_by_price_and_nonce h (listQueue (txOrder 0)) (.insertion _) [.next, .next, .skip]
  refine ⟨it, ts, it', hcreate, hrun, ?_, hbest⟩
  have hit : Iter.create (poolWith smallSettings (fun _ => 0) [(⟨101⟩ : DigitsTx), ⟨111⟩, ⟨205⟩])
      (listQueue (txOrder 0))
      (.insertion _) [] = .ok ⟨[], ([⟨101⟩, ⟨205⟩] : List DigitsTx)⟩ := rfl
  obtain rfl := Except.ok.inj (hit.symm.trans hcreate)
  exact (congrArg Prod.fst (Except.ok.inj hrun)).symm

end SidechainsSdk.Account.Mempool
