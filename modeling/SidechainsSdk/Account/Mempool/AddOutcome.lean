/-
What the caller of `add` learns from it (`AccountMemoryPool.put`): the transactions that have become executable, or a failure.

- `Added.newExecutable_iff`: the transactions that `add` returns are the new executable ones, unless an executable one was
  replaced. Then the old one is returned and the new one is not.
- `add_reports_iff`: so for every call that evicts nothing.
-/
import Mathlib.Tactic
import SidechainsSdk.Account.Mempool.Adding

namespace SidechainsSdk.Account.Mempool

open AccountTransaction Fallible MempoolMap Indexing TxCache ConsecutiveRun

variable {Tx : Type} [AccountTransaction Tx] {settings : AccountMempoolSettings} {s : Address → ℤ} {m : MempoolMap Tx}
  {es : List (TxInfo Tx)}

/-! ## The caller -/

/-- `AccountMemoryPool.put`, with the transactions of the `NewExecTransactionsEvent` that it sends -/
def put (settings : AccountMempoolSettings) (stateReader : Address → ℤ) (tx : Tx) : Pool Tx (Option (List Tx)) := do
  let newExecTxs ← add settings stateReader tx
  return if newExecTxs.isEmpty then none else some newExecTxs

/-! ## New executable transactions -/

def Executable (m : MempoolMap Tx) (x : Tx) : Prop := x ∈ pooledTxs m .EXEC (getFrom x)

def Pooled (m : MempoolMap Tx) (x : Tx) : Prop := ∃ st, x ∈ pooledTxs m st (getFrom x)

/-- the transactions that are executable after a call and were not before, by nonce -/
structure NewExecutable (m m' : MempoolMap Tx) (txs : List Tx) : Prop where
  mem : ∀ x, x ∈ txs ↔ Executable m' x ∧ ¬ Executable m x
  sorted : txs.Pairwise fun x y => getNonce x < getNonce y

/-- nothing has left the pool but the transaction that was replaced -/
structure NotEvicted (m m' : MempoolMap Tx) (tx : Tx) : Prop where
  added : Pooled m' tx
  kept : ∀ x, Pooled m x → ¬ SameSlot x tx → Pooled m' x

theorem Inv.pooled_iff (h : Inv settings s m es) (x : Tx) : Pooled m x ↔ x ∈ es.map TxInfo.tx := by
  rw [List.mem_map]
  constructor
  · intro hx
    obtain ⟨st, hst⟩ := hx
    obtain ⟨e, he, heq, -, -⟩ := h.mem_pooledTxs.1 hst
    exact ⟨e, he, heq⟩
  · intro hx
    obtain ⟨e, he, rfl⟩ := hx
    exact ⟨e.executableStatus, h.mem_pooledTxs.2 ⟨e, he, rfl, rfl, rfl⟩⟩

theorem Inv.executable_iff (h : Inv settings s m es) (x : Tx) :
    Executable m x ↔ x ∈ es.map TxInfo.tx ∧ getNonce x < expected s m (getFrom x) := by
  rw [Executable, h.mem_pooledTxs, List.mem_map]
  constructor
  · intro hx
    obtain ⟨e, he, rfl, hst, -⟩ := hx
    exact ⟨⟨e, he, rfl⟩, (h.status_iff he).1 hst⟩
  · intro hx
    obtain ⟨⟨e, he, rfl⟩, hlt⟩ := hx
    exact ⟨e, he, rfl, (h.status_iff he).2 hlt, rfl⟩

theorem newExecutable_nil (m : MempoolMap Tx) : NewExecutable m m [] where
  mem := fun x => by simp
  sorted := .nil

section Added

variable {tx : Tx} {r : List Tx} {m' : MempoolMap Tx} {es' : List (TxInfo Tx)}

/-- the account's new executable transactions are those between the old and the new expected nonce -/
theorem Added.newExecutable (h : Inv settings s m es) (h' : Inv settings s m' es') (hadded : Added s m es tx r m' es')
    (hle : expected s m (getFrom tx) ≤ getNonce tx)
    (hexpected : expected s m' (getFrom tx) = expected s m (getFrom tx) + r.length)
    (hrun : Consecutive getNonce (expected s m (getFrom tx)) r)
    (hmem : ∀ x ∈ r, x ∈ es'.map TxInfo.tx ∧ getFrom x = getFrom tx) : NewExecutable m m' r := by
  refine ⟨fun x => ?_, hrun.ascending.sorted⟩
  rw [h.executable_iff, h'.executable_iff]
  constructor
  · intro hx
    obtain ⟨hpooled, hfrom⟩ := hmem x hx
    have hrange := hrun.exists_mem_iff.1 ⟨x, hx, rfl⟩
    rw [hfrom, hexpected]
    exact ⟨⟨hpooled, hrange.2⟩, fun hbefore => absurd hbefore.2 (not_lt.2 hrange.1)⟩
  · intro hx
    obtain ⟨⟨hpooled, hlt⟩, hbefore⟩ := hx
    have hfrom : getFrom x = getFrom tx := by
      by_contra hne
      rcases (hadded.txs x).1 hpooled with rfl | ⟨hold, -⟩
      · exact hne rfl
      · rw [hadded.others _ hne] at hlt
        exact hbefore ⟨hold, hlt⟩
    rw [hfrom] at hlt hbefore
    have hge : expected s m (getFrom tx) ≤ getNonce x := by
      by_contra hlow
      rcases (hadded.txs x).1 hpooled with rfl | ⟨hold, -⟩
      · exact hlow hle
      · exact hbefore ⟨hold, not_le.1 hlow⟩
    -- the nonce of `x` is one of those returned, and no other transaction has it
    rw [hexpected] at hlt
    obtain ⟨y, hy, hnonce⟩ := hrun.exists_mem_iff.2 ⟨hge, hlt⟩
    obtain ⟨hypooled, hyfrom⟩ := hmem y hy
    obtain ⟨e, he, rfl⟩ := List.mem_map.1 hpooled
    obtain ⟨e', he', rfl⟩ := List.mem_map.1 hypooled
    rw [h'.eq_of_sameSlot he he' ⟨hfrom.trans hyfrom.symm, hnonce.symm⟩]
    exact hy

theorem Added.newExecutable_iff (h : Inv settings s m es) (h' : Inv settings s m' es') (hadded : Added s m es tx r m' es')
    (hfresh : ∀ e ∈ es, idOf e.tx ≠ idOf tx) :
    NewExecutable m m' r ↔ expected s m (getFrom tx) ≤ getNonce tx := by
  rcases hadded.result with ⟨hle, hexpected, hrun, hmem⟩ | ⟨hlt, -, e, he, rfl, hsame⟩
  · exact iff_of_true (hadded.newExecutable h h' hle hexpected hrun hmem) hle
  · refine iff_of_false (fun hnew => ?_) (not_le.2 hlt)
    -- the transaction that was replaced is not pooled any more
    obtain ⟨hexec, -⟩ := (hnew.mem e.tx).1 List.mem_cons_self
    rcases (hadded.txs e.tx).1 ((h'.executable_iff _).1 hexec).1 with heq | ⟨-, hother⟩
    · exact hfresh e he (congrArg idOf heq)
    · exact hother hsame

/-- if a clean-up took something away then something is missing -/
theorem Added.eq_of_notEvicted (h : Inv settings s m es) {m₁ : MempoolMap Tx} {es₁ : List (TxInfo Tx)}
    (hadded : Added s m es tx r m₁ es₁) (h' : Inv settings s m' es') (hkept : NotEvicted m m' tx)
    (hcheck : m' = m₁ ∨ ∃ e ∈ es₁, e.tx ∉ es'.map TxInfo.tx) : m' = m₁ := by
  refine hcheck.resolve_right fun hmissing => ?_
  obtain ⟨e, he, hout⟩ := hmissing
  refine hout ((h'.pooled_iff _).1 ?_)
  rcases (hadded.txs e.tx).1 (List.mem_map_of_mem he) with heq | ⟨hold, hother⟩
  · rw [heq]
    exact hkept.added
  · exact hkept.kept _ ((h.pooled_iff _).2 hold) hother

end Added

/-- **What `add` reports.** Of every call that evicts nothing: the transactions returned, and those of the event, are the new
executable ones in the order of their nonces exactly if the transaction was pooled before or does not replace an executable
one. -/
theorem add_reports_iff (h : Inv settings s m es) {tx : Tx} {r : List Tx} {m' : MempoolMap Tx}
    (hadd : exec (add settings s tx) m = (.ok r, m')) (hkept : NotEvicted m m' tx) :
    (NewExecutable m m' r ∧ ∃ event, exec (put settings s tx) m = (.ok event, m') ∧ event.getD [] = r ∧
      event ≠ some []) ↔
      Pooled m tx ∨ expected s m (getFrom tx) ≤ getNonce tx := by
  have hput : ∃ event, exec (put settings s tx) m = (.ok event, m') ∧ event.getD [] = r ∧ event ≠ some [] := by
    refine ⟨if r.isEmpty then none else some r, exec_bind_ok.2 ⟨r, m', hadd, rfl⟩, ?_, ?_⟩
    · cases r <;> rfl
    · cases r <;> simp
  rw [and_iff_left hput]
  have hwp : wp (add settings s tx) (fun r m' => NotEvicted m m' tx →
      (NewExecutable m m' r ↔ Pooled m tx ∨ expected s m (getFrom tx) ≤ getNonce tx)) (fun _ _ => True) m := by
    refine wp_add h ?_ (fun _ _ _ => trivial) ?_ (fun _ _ _ => trivial)
    · intro r m₁ es₁ m₂ es₂ hfresh hinv₁ hadded hinv₂ _ hcheck hkept
      rw [hadded.eq_of_notEvicted h hinv₂ hkept hcheck, hadded.newExecutable_iff h hinv₁ hfresh]
      refine (or_iff_right fun hpooled => ?_).symm
      obtain ⟨e, he, heq⟩ := List.mem_map.1 ((h.pooled_iff tx).1 hpooled)
      exact hfresh e he (congrArg idOf heq)
    · intro hcontains _
      refine iff_of_true (newExecutable_nil m) (.inl ?_)
      obtain ⟨e, he, hid⟩ := (h.repr.contains_iff _).1 hcontains
      rw [h.pooled_iff, ← id_injective hid]
      exact List.mem_map_of_mem he
  unfold wp at hwp
  rw [hadd] at hwp
  exact hwp hkept

/-- the ids of what is pooled are those in the cache -/
theorem Inv.idOf_mem_keys (h : Inv settings s m es) {x : Tx} (hx : Pooled m x) : idOf x ∈ m.txCache.all.keys := by
  obtain ⟨e, he, rfl⟩ := List.mem_map.1 ((h.pooled_iff x).1 hx)
  have hcontains := (h.repr.contains_iff (idOf e.tx)).2 ⟨e, he, rfl⟩
  exact AList.mem_keys.1 (AList.lookup_isSome.1 hcontains)

/-- the follower of the first transaction was there before, and both are reported -/
theorem add_reports_gapFilled : NewExecutable (poolWith smallSettings (fun _ => 0) [⟨111⟩])
    (poolWith smallSettings (fun _ => 0) [⟨111⟩, ⟨101⟩]) ([⟨101⟩, ⟨111⟩] : List DigitsTx) := by
  obtain ⟨es, h⟩ := inv_poolWith smallSettings (fun _ => 0) [(⟨111⟩ : DigitsTx)]
  have hadd : exec (add smallSettings (fun _ => 0) (⟨101⟩ : DigitsTx)) (poolWith smallSettings (fun _ => 0) [⟨111⟩]) =
      (.ok [⟨101⟩, ⟨111⟩], poolWith smallSettings (fun _ => 0) [⟨111⟩, ⟨101⟩]) := rfl
  refine ((add_reports_iff h hadd ⟨⟨.EXEC, ?_⟩, ?_⟩).2 (.inr ?_)).1
  · decide
  · intro x hx _
    have hid : x.id ∈ [111] := h.idOf_mem_keys hx
    obtain rfl : x = ⟨111⟩ := id_injective (List.mem_singleton.1 hid)
    exact ⟨.EXEC, by decide⟩
  · decide

/-- 102 takes the place of 101, which is reported -/
theorem replaced_is_reported :
    ∃ es m', Inv smallSettings (fun _ => 0) (poolWith smallSettings (fun _ => 0) [(⟨101⟩ : DigitsTx)]) es ∧
    exec (add smallSettings (fun _ => 0) (⟨102⟩ : DigitsTx)) (poolWith smallSettings (fun _ => 0) [⟨101⟩]) =
    (.ok [⟨101⟩], m') ∧
    NotEvicted (poolWith smallSettings (fun _ => 0) [(⟨101⟩ : DigitsTx)]) m' ⟨102⟩ ∧
    ¬ NewExecutable (poolWith smallSettings (fun _ => 0) [(⟨101⟩ : DigitsTx)]) m' [⟨101⟩] := by
  obtain ⟨es, h⟩ := inv_poolWith smallSettings (fun _ => 0) [(⟨101⟩ : DigitsTx)]
  refine ⟨es, _, h, rfl, ⟨⟨.EXEC, by decide⟩, ?_⟩, ?_⟩
  · intro x hx hother
    have hid : x.id ∈ [101] := h.idOf_mem_keys hx
    obtain rfl : x = ⟨101⟩ := id_injective (List.mem_singleton.1 hid)
    exact absurd ⟨rfl, rfl⟩ hother
  · intro hnew
    have hexec := ((hnew.mem ⟨101⟩).1 List.mem_cons_self).1
    revert hexec
    unfold Executable
    decide

end SidechainsSdk.Account.Mempool
