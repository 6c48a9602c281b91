/-
Adding a transaction.

A refused transaction changes at most the record of the expected nonce, and to the value it stands for. An accepted one goes
into the slot of its nonce: a new one at the expected nonce is executable and pulls its followers after it (`Promoting` is the
invariant of that loop), one above is not executable, and one below replaces an executable one.

`wp_add`: after a success the invariant and the limits hold; a failure is one of the refusals, before anything was changed.
-/
import Mathlib.Tactic
import SidechainsSdk.Core.ConsecutiveRun
import SidechainsSdk.Account.Mempool.Eviction

namespace SidechainsSdk.Account.Mempool

open AccountTransaction Fallible MempoolMap Indexing TxCache ConsecutiveRun

variable {Tx : Type} [AccountTransaction Tx] {settings : AccountMempoolSettings} {s : Address → ℤ} {m : MempoolMap Tx}
  {es : List (TxInfo Tx)}

/-- the exceptions with which `add` refuses a transaction; the last two stand for a nonce below the state nonce -/
def Refused : MempoolException → Prop
  | .txOversized _ _ => True
  | .nonceGapTooWide _ _ _ => True
  | .transactionReplaceUnderpriced _ => True
  | .accountMemPoolOutOfBound _ => True
  | .noSuchElement expression => expression = "executableTxs(account)" ∨ expression = "txToReplaceOpt.get"
  | .illegalState _ => False
  | .danglingReference _ => False
  | .endlessLoop => False

/-! ## Before the change -/

theorem Consistent.findTxWithSameNonce_cases (h : Consistent settings s m es) (a : Address) (k : ℤ) :
    (findTxWithSameNonce m a k = .ok none ∧ ∀ st, m.index (st, a, k) = none) ∨
      ∃ e ∈ es, findTxWithSameNonce m a k = .ok (some e.tx) ∧ getFrom e.tx = a ∧ getNonce e.tx = k := by
  unfold findTxWithSameNonce
  cases hexec : (m.txsOf .EXEC a)[k]? with
  | some txId =>
    have hslot : m.index (.EXEC, a, k) = some txId := hexec
    obtain ⟨e, he, -, hfrom, hnonce, rfl⟩ := mem_of_slot h.index hslot
    refine .inr ⟨e, he, ?_, hfrom, hnonce⟩
    simp only [h.repr.apply_of_mem he]
    rfl
  | none =>
    cases hnonExec : (m.txsOf .NON_EXEC a)[k]? with
    | some txId =>
      have hslot : m.index (.NON_EXEC, a, k) = some txId := hnonExec
      obtain ⟨e, he, -, hfrom, hnonce, rfl⟩ := mem_of_slot h.index hslot
      refine .inr ⟨e, he, ?_, hfrom, hnonce⟩
      simp only [h.repr.apply_of_mem he]
      rfl
    | none =>
      refine .inl ⟨rfl, ?_⟩
      intro st
      cases st with
      | EXEC => exact hexec
      | NON_EXEC => exact hnonExec

omit [AccountTransaction Tx] in
theorem expected_putNonce (s : Address → ℤ) (m : MempoolMap Tx) (a : Address) (n : ℤ) :
    expected s (putNonce a n m) = Function.update (expected s m) a n := by
  funext a'
  by_cases ha : a' = a
  · subst ha
    simp [expected, putNonce]
  · rw [Function.update_of_ne ha]
    simp [expected, putNonce, AList.lookup_insert_ne ha]

/-- writing the expected nonce down changes nothing -/
theorem Inv.putExpected (h : Inv settings s m es) (a : Address) :
    Inv settings s (putNonce a (expected s m a) m) es where
  repr := h.repr
  index := by
    rw [putNonce, index_withNonces]
    exact h.index
  intervals := by
    rw [expected_putNonce, Function.update_eq_self, putNonce, index_withNonces]
    exact h.intervals
  defined := by
    intro e he
    show ((m.nonces.insert a (expected s m a)).lookup (getFrom e.tx)).isSome
    by_cases ha : getFrom e.tx = a
    · rw [ha, AList.lookup_insert]
      rfl
    · rw [AList.lookup_insert_ne ha]
      exact h.defined e he
  bounds := h.bounds
  nonEmpty := by
    intro st a'
    rw [putNonce, noEmptyMap_withNonces]
    exact h.nonEmpty st a'

section Bounds

variable (h : Bounds settings s (es.map TxInfo.tx)) {tx : Tx}
  (hgap : getNonce tx ≤ getMaxAcceptableNonce settings (s (getFrom tx))) (hsize : size tx ≤ MaxTxSize)

include h hgap hsize

theorem Bounds.append {txs : List Tx} (hsub : txs.Sublist (es.map TxInfo.tx))
    (hslots : accountSlots txs (getFrom tx) + txSizeInSlot tx ≤ settings.maxAccountSlots) :
    Bounds settings s (txs ++ [tx]) where
  slots := by
    intro a
    rw [accountSlots_append, accountSlots_cons]
    by_cases ha : getFrom tx = a
    · subst ha
      simpa [accountSlots] using hslots
    · have hle := (accountSlots_sublist hsub a).trans (h.slots a)
      simpa [ha, accountSlots] using hle
  gap := by
    intro x hx
    rcases List.mem_append.1 hx with hx | hx
    · exact h.gap x (hsub.subset hx)
    · rw [List.mem_singleton.1 hx]
      exact hgap
  small := by
    intro x hx
    rcases List.mem_append.1 hx with hx | hx
    · exact h.small x (hsub.subset hx)
    · rw [List.mem_singleton.1 hx]
      exact txSizeInSlot_le hsize

end Bounds

theorem accountSlots_withoutId (hnodup : (es.map fun e => idOf e.tx).Nodup) {e : TxInfo Tx} (he : e ∈ es) :
    accountSlots ((withoutId (idOf e.tx) es).map TxInfo.tx) (getFrom e.tx) + txSizeInSlot e.tx =
      accountSlots (es.map TxInfo.tx) (getFrom e.tx) := by
  obtain ⟨l₁, l₂, rfl, h₁, h₂⟩ := split_of_mem hnodup he
  rw [withoutId_split h₁ h₂]
  simp only [List.map_append, List.map_cons, accountSlots_append, accountSlots_cons, if_true]
  ring

/-! ## A new executable transaction -/

/-- the loop that promotes the followers, at nonce `j` -/
structure Promoting (m₀ : MempoolMap Tx) (a : Address) (lo : ℤ) (txs : List Tx) (j : ℤ) (m : MempoolMap Tx)
    (es : List (TxInfo Tx)) : Prop where
  repr : m.txCache.Repr es
  index : IsIndex TxInfo.slot TxInfo.txId m.index es
  txs : es.map TxInfo.tx = txs
  nonces : m.nonces = m₀.nonces
  frame : ∀ st a' i, a' ≠ a → m.index (st, a', i) = m₀.index (st, a', i)
  le : lo ≤ j
  exec : ∀ i, (m.index (.EXEC, a, i)).isSome ↔ lo ≤ i ∧ i < j
  nonExec : ∀ i, (m.index (.NON_EXEC, a, i)).isSome → j ≤ i
  nonEmpty : ∀ st' a', ¬ (st' = .NON_EXEC ∧ a' = a) → NoEmptyMap m st' a'

/-- the transactions that the loop returns: those of the account from the nonce `lo` to the next one -/
structure Promotes (a : Address) (lo : ℤ) (txs : List Tx) (next : ℤ × List Tx) : Prop where
  consecutive : Consecutive getNonce lo next.2
  length : next.1 = lo + next.2.length
  mem : ∀ x ∈ next.2, x ∈ txs ∧ getFrom x = a

/-- the loop goes on -/
def PromotingNext (m₀ : MempoolMap Tx) (a : Address) (lo first : ℤ) (txs : List Tx) (next : ℤ × List Tx)
    (m : MempoolMap Tx) : Prop :=
  (∃ es, Promoting m₀ a lo txs next.1 m es) ∧ Promotes a first txs next

/-- the loop has ended: the next nonce is not there -/
def Promoted (m₀ : MempoolMap Tx) (a : Address) (lo first : ℤ) (txs : List Tx) (next : ℤ × List Tx) (m : MempoolMap Tx) :
    Prop :=
  (∃ es, Promoting m₀ a lo txs next.1 m es ∧ m.index (.NON_EXEC, a, next.1) = none) ∧ Promotes a first txs next

theorem Promotes.concat {a : Address} {lo : ℤ} {txs promotedTxs : List Tx} {j : ℤ} {x : Tx}
    (h : Promotes a lo txs (j, promotedTxs)) (hmem : x ∈ txs) (hfrom : getFrom x = a) (hnonce : getNonce x = j) :
    Promotes a lo txs (j + 1, promotedTxs ++ [x]) := by
  have hlength : j = lo + promotedTxs.length := h.length
  refine ⟨h.consecutive.concat (hnonce.trans hlength), ?_, ?_⟩
  · simp only [List.length_append, List.length_singleton, hlength]
    push_cast
    ring
  · intro y hy
    rcases List.mem_append.1 hy with hy | hy
    · exact h.mem y hy
    · rw [List.mem_singleton.1 hy]
      exact ⟨hmem, hfrom⟩

theorem promoteNext_spec {m₀ m : MempoolMap Tx} {a : Address} {lo first : ℤ} {txs : List Tx} {next : ℤ × List Tx}
    {E : MempoolException → MempoolMap Tx → Prop} (hnext : PromotingNext m₀ a lo first txs next m) :
    wp (promoteNext a next) (Iteration (PromotingNext m₀ a lo first txs) (fun _ m => (m.txsOf .NON_EXEC a).size)
      (Promoted m₀ a lo first txs) (m.txsOf .NON_EXEC a).size) E m := by
  obtain ⟨⟨es, h⟩, hpromotes⟩ := hnext
  obtain ⟨j, promotedTxs⟩ := next
  have hle := h.le
  simp only [promoteNext, wp_bind, wp_get]
  cases hj : (m.txsOf .NON_EXEC a)[j]? with
  | none => exact ⟨⟨es, h, hj⟩, hpromotes⟩
  | some txId =>
    have hindex : m.index (.NON_EXEC, a, j) = some txId := hj
    obtain ⟨e, he, hst, hfrom, hnonce, rfl⟩ := mem_of_slot h.index hindex
    have hfree : m.index (.EXEC, a, j) = none := by
      cases hexec : m.index (.EXEC, a, j) with
      | none => rfl
      | some x =>
        have hlt := ((h.exec j).1 (by rw [hexec]; rfl)).2
        exact absurd hlt (lt_irrefl j)
    have hrepr : (putTx .EXEC a j (idOf e.tx) (removeTx .NON_EXEC a j m)).txCache.Repr es := by
      rw [putTx_txCache, removeTx_txCache]
      exact h.repr
    simp only [wp_bind, wp_modify, wp_pure]
    refine wp_cachePromote hrepr he hst ?_
    intro c hrepr'
    have hindex' : ((putTx .EXEC a j (idOf e.tx) (removeTx .NON_EXEC a j m)).withCache c).index =
        Function.update (Function.update m.index (.NON_EXEC, a, j) none) (.EXEC, a, j) (some (idOf e.tx)) := by
      rw [index_withCache, index_putTx, index_removeTx]
    have hmem : e.tx ∈ txs := h.txs ▸ List.mem_map_of_mem he
    refine ⟨⟨⟨setStatus (idOf e.tx) .EXEC es, ?_, ?_, ?_, ?_, ?_, ?_, ?_, ?_, ?_⟩, hpromotes.concat hmem hfrom hnonce⟩,
      ?_⟩
    · exact hrepr'
    · rw [hindex']
      have hmove := IsIndex.setStatus h.index h.repr.nodup he .EXEC (by rw [hfrom, hnonce]; exact hfree)
      rw [show e.slot = (.NON_EXEC, a, j) by rw [TxInfo.slot, hst, hfrom, hnonce], hfrom, hnonce] at hmove
      exact hmove
    · rw [setStatus_txs]
      exact h.txs
    · rw [withCache_nonces, putTx_nonces, removeTx_nonces]
      exact h.nonces
    · intro st a' i ha'
      rw [hindex', Function.update_of_ne (by simp [ha']), Function.update_of_ne (by simp [ha'])]
      exact h.frame st a' i ha'
    · exact hle.trans (by simp)
    · intro i
      rw [hindex']
      by_cases hi : i = j
      · subst hi
        rw [Function.update_self]
        simpa using hle
      · rw [Function.update_of_ne (by simpa using hi), Function.update_of_ne (by simp), h.exec i]
        simp only
        omega
    · intro i hi
      rw [hindex', Function.update_of_ne (by simp)] at hi
      by_cases hij : i = j
      · rw [hij, Function.update_self] at hi
        cases hi
      · rw [Function.update_of_ne (by simpa using hij)] at hi
        have hji := h.nonExec i hi
        simp only at hji ⊢
        omega
    · intro st' a' hmap
      rw [noEmptyMap_withCache]
      refine noEmptyMap_putTx _ _ _ _ _ _ _ ?_
      exact noEmptyMap_removeTx m .NON_EXEC st' a a' j hmap (h.nonEmpty st' a' hmap)
    · beta_reduce
      show ((putTx .EXEC a j (idOf e.tx) (removeTx .NON_EXEC a j m)).txsOf .NON_EXEC a).size < _
      rw [txsOf_putTx_of_ne _ _ _ _ _ _ _ (by simp)]
      exact size_removeTx_lt m .NON_EXEC a j (by rw [hindex]; rfl)

theorem promoteLoop_spec {m₀ m : MempoolMap Tx} {a : Address} {lo first : ℤ} {txs : List Tx} {next : ℤ × List Tx}
    {E : MempoolException → MempoolMap Tx → Prop} (h : PromotingNext m₀ a lo first txs next m) {fuel : ℕ}
    (hfuel : (m.txsOf .NON_EXEC a).size < fuel) :
    wp (loop .endlessLoop (promoteNext a) fuel next) (Promoted m₀ a lo first txs) E m :=
  wp_loop (PromotingNext m₀ a lo first txs) (fun _ m => (m.txsOf .NON_EXEC a).size)
    (fun _ _ hnext => promoteNext_spec hnext) h hfuel

/-! ## The result -/

/-- two transactions that exclude each other -/
def SameSlot (x y : Tx) : Prop := getFrom x = getFrom y ∧ getNonce x = getNonce y

/-- what putting a transaction into the pool has done, before the clean-up -/
structure Added (s : Address → ℤ) (m : MempoolMap Tx) (es : List (TxInfo Tx)) (tx : Tx) (r : List Tx) (m' : MempoolMap Tx)
    (es' : List (TxInfo Tx)) : Prop where
  txs : ∀ x, x ∈ es'.map TxInfo.tx ↔ x = tx ∨ x ∈ es.map TxInfo.tx ∧ ¬ SameSlot x tx
  others : ∀ a, a ≠ getFrom tx → expected s m' a = expected s m a
  result : (expected s m (getFrom tx) ≤ getNonce tx ∧ expected s m' (getFrom tx) = expected s m (getFrom tx) + r.length ∧
      Consecutive getNonce (expected s m (getFrom tx)) r ∧ ∀ x ∈ r, x ∈ es'.map TxInfo.tx ∧ getFrom x = getFrom tx) ∨
    (getNonce tx < expected s m (getFrom tx) ∧ expected s m' (getFrom tx) = expected s m (getFrom tx) ∧
      ∃ e ∈ es, r = [e.tx] ∧ SameSlot e.tx tx)

section Add

variable (h : Inv settings s m es) {tx : Tx} (hfresh : ∀ e ∈ es, idOf e.tx ≠ idOf tx)
  (hdefined : (m.nonces.lookup (getFrom tx)).isSome)

include h

/-- the state in which the loop starts: the new transaction stands at the expected nonce -/
theorem Inv.promoting_start {c : TxCache Tx} {deadline : ℕ} (hnonce : expected s m (getFrom tx) = getNonce tx)
    (hrepr : c.Repr (es ++ [⟨tx, .EXEC, deadline⟩])) :
    Promoting m (getFrom tx) (s (getFrom tx)) (es.map TxInfo.tx ++ [tx]) (getNonce tx + 1)
      (putTx .EXEC (getFrom tx) (getNonce tx) (idOf tx) (m.withCache c)) (es ++ [⟨tx, .EXEC, deadline⟩]) := by
  have hinterval := h.intervals (getFrom tx)
  rw [hnonce] at hinterval
  have hindex : (putTx .EXEC (getFrom tx) (getNonce tx) (idOf tx) (m.withCache c)).index =
      Function.update m.index (.EXEC, getFrom tx, getNonce tx) (some (idOf tx)) := by
    rw [index_putTx, index_withCache]
  have hfree : m.index (.EXEC, getFrom tx, getNonce tx) = none := by
    cases hslot : m.index (.EXEC, getFrom tx, getNonce tx) with
    | none => rfl
    | some x =>
      have hlt := ((hinterval.exec (getNonce tx)).1 (by rw [hslot]; rfl)).2
      exact absurd hlt (lt_irrefl _)
  have hle := hinterval.le
  refine ⟨by rw [putTx_txCache]; exact hrepr, ?_, by simp, by simp, ?_, by omega, ?_, ?_, ?_⟩
  · rw [hindex]
    exact h.index.append ⟨tx, .EXEC, deadline⟩ hfree
  · intro st a' i ha'
    rw [hindex, Function.update_of_ne (by simp [ha'])]
  · intro i
    rw [hindex]
    by_cases hi : i = getNonce tx
    · subst hi
      rw [Function.update_self]
      simpa using hle
    · have hiff := hinterval.exec i
      rw [Function.update_of_ne (by simpa using hi), hiff]
      omega
  · intro i hi
    rw [hindex, Function.update_of_ne (by simp)] at hi
    have hlt := hinterval.nonExec i hi
    omega
  · intro st' a' _
    refine noEmptyMap_putTx _ _ _ _ _ _ _ ?_
    rw [noEmptyMap_withCache]
    exact h.nonEmpty st' a'

/-- nothing is pooled with a free nonce -/
theorem Inv.not_sameSlot_of_free (hfree : ∀ st, m.index (st, getFrom tx, getNonce tx) = none) :
    ∀ e ∈ es, ¬ SameSlot e.tx tx := by
  intro e he hsame
  have hslot := h.at_slot he
  rw [hsame.1, hsame.2, hfree] at hslot
  cases hslot

omit h in
/-- a new transaction excludes none -/
theorem txs_new (hfree : ∀ e ∈ es, ¬ SameSlot e.tx tx) {es' : List (TxInfo Tx)}
    (htxs : es'.map TxInfo.tx = es.map TxInfo.tx ++ [tx]) (x : Tx) :
    x ∈ es'.map TxInfo.tx ↔ x = tx ∨ x ∈ es.map TxInfo.tx ∧ ¬ SameSlot x tx := by
  rw [htxs, List.mem_append, List.mem_singleton, or_comm]
  refine or_congr_right (and_iff_left_of_imp fun hx => ?_).symm
  obtain ⟨e, he, rfl⟩ := List.mem_map.1 hx
  exact hfree e he

/-- the state after the loop, with the new expected nonce -/
theorem Inv.promoting_end {m' : MempoolMap Tx} {next : ℤ × List Tx} (hnonce : expected s m (getFrom tx) = getNonce tx)
    (h' : Promoted m (getFrom tx) (s (getFrom tx)) (getNonce tx) (es.map TxInfo.tx ++ [tx]) next m')
    (hbounds : Bounds settings s (es.map TxInfo.tx ++ [tx])) :
    ∃ es', Inv settings s (putNonce (getFrom tx) next.1 (dropEmptyMap .NON_EXEC (getFrom tx) m')) es' ∧
      Added s m es tx next.2 (putNonce (getFrom tx) next.1 (dropEmptyMap .NON_EXEC (getFrom tx) m')) es' := by
  obtain ⟨⟨es', h', hend⟩, hpromotes⟩ := h'
  have hfree : ∀ e ∈ es, ¬ SameSlot e.tx tx := by
    intro e he hsame
    have hne := h.nonce_ne he
    rw [hsame.1, hsame.2] at hne
    exact hne hnonce.symm
  have hindex : (putNonce (getFrom tx) next.1 (dropEmptyMap .NON_EXEC (getFrom tx) m')).index = m'.index := by
    rw [putNonce, index_withNonces, index_dropEmptyMap]
  have hexpected : expected s (putNonce (getFrom tx) next.1 (dropEmptyMap .NON_EXEC (getFrom tx) m')) =
      Function.update (expected s m) (getFrom tx) next.1 := by
    rw [expected_putNonce]
    congr 1
    funext a
    rw [expected, dropEmptyMap_nonces, h'.nonces]
    rfl
  have hadded : Added s m es tx next.2 (putNonce (getFrom tx) next.1 (dropEmptyMap .NON_EXEC (getFrom tx) m')) es' := by
    refine ⟨txs_new hfree h'.txs, ?_, .inl ⟨hnonce.le, ?_, ?_, ?_⟩⟩
    · intro a ha
      rw [hexpected, Function.update_of_ne ha]
    · rw [hexpected, Function.update_self, hnonce]
      exact hpromotes.length
    · rw [hnonce]
      exact hpromotes.consecutive
    · rw [h'.txs]
      exact hpromotes.mem
  refine ⟨es', ⟨⟨?_, ?_, ?_, ?_, ?_⟩, ?_⟩, hadded⟩
  · rw [putNonce, withNonces_txCache, dropEmptyMap_txCache]
    exact h'.repr
  · rw [hindex]
    exact h'.index
  · intro a
    rw [hindex, hexpected]
    by_cases ha : a = getFrom tx
    · subst ha
      rw [Function.update_self]
      refine ⟨h'.le, h'.exec, ?_⟩
      intro k hk
      refine lt_of_le_of_ne (h'.nonExec k hk) ?_
      rintro rfl
      rw [hend] at hk
      cases hk
    · rw [Function.update_of_ne ha]
      simp only [h'.frame _ a _ ha]
      exact h.intervals a
  · intro e he
    show ((dropEmptyMap .NON_EXEC (getFrom tx) m').nonces.insert (getFrom tx) next.1 |>.lookup (getFrom e.tx)).isSome
    rw [dropEmptyMap_nonces, h'.nonces]
    by_cases ha : getFrom e.tx = getFrom tx
    · rw [ha, AList.lookup_insert]
      rfl
    · rw [AList.lookup_insert_ne ha]
      have hmem : e.tx ∈ es.map TxInfo.tx ++ [tx] := h'.txs ▸ List.mem_map_of_mem he
      rcases List.mem_append.1 hmem with hmem | hmem
      · obtain ⟨e₀, he₀, heq⟩ := List.mem_map.1 hmem
        rw [← heq]
        exact h.defined e₀ he₀
      · exact absurd (congrArg getFrom (List.mem_singleton.1 hmem)) ha
  · rw [h'.txs]
    exact hbounds
  · intro st a
    rw [putNonce, noEmptyMap_withNonces]
    exact noEmptyMap_dropEmptyMap m' .NON_EXEC st (getFrom tx) a (h'.nonEmpty st a)

include hfresh

theorem wp_addNewExecTransaction (hnonce : expected s m (getFrom tx) = getNonce tx)
    (hbounds : Bounds settings s (es.map TxInfo.tx ++ [tx])) {Q : List Tx → MempoolMap Tx → Prop}
    {E : MempoolException → MempoolMap Tx → Prop}
    (hQ : ∀ r m' es', Inv settings s m' es' → Added s m es tx r m' es' → Q r m') :
    wp (addNewExecTransaction settings tx (getNonce tx)) Q E m := by
  simp only [addNewExecTransaction, addNewTransaction, wp_bind, wp_modify, wp_get, wp_pure]
  refine wp_cacheAdd h.repr hfresh ?_
  intro c deadline hrepr
  have hstart : PromotingNext m (getFrom tx) (s (getFrom tx)) (getNonce tx) (es.map TxInfo.tx ++ [tx])
      (getNonce tx + 1, [tx]) (putTx .EXEC (getFrom tx) (getNonce tx) (idOf tx) (m.withCache c)) := by
    refine ⟨⟨_, h.promoting_start hnonce hrepr⟩, consecutive_cons.2 ⟨rfl, consecutive_nil⟩, rfl, ?_⟩
    intro x hx
    rw [List.mem_singleton.1 hx]
    exact ⟨List.mem_append_right _ List.mem_cons_self, rfl⟩
  refine wp_mono (promoteLoop_spec hstart (Nat.lt_succ_self _)) ?_ (fun _ _ h' => h')
  intro next m' hend
  obtain ⟨es', hinv, hadded⟩ := h.promoting_end hnonce hend hbounds
  exact hQ _ _ es' hinv hadded

/-! ## Non-executable transactions and replacements -/

include hdefined

theorem wp_addNonExec (hlt : expected s m (getFrom tx) < getNonce tx)
    (hfree : ∀ st, m.index (st, getFrom tx, getNonce tx) = none)
    (hbounds : Bounds settings s (es.map TxInfo.tx ++ [tx])) {Q : Unit → MempoolMap Tx → Prop}
    {E : MempoolException → MempoolMap Tx → Prop}
    (hQ : ∀ m' es', Inv settings s m' es' → Added s m es tx [] m' es' → Q () m') :
    wp (addNewTransaction settings tx .NON_EXEC) Q E m := by
  simp only [addNewTransaction, wp_bind, wp_modify]
  refine wp_cacheAdd h.repr hfresh ?_
  intro c deadline hrepr
  have hindex : (putTx .NON_EXEC (getFrom tx) (getNonce tx) (idOf tx) (m.withCache c)).index =
      Function.update m.index (.NON_EXEC, getFrom tx, getNonce tx) (some (idOf tx)) := by
    rw [index_putTx, index_withCache]
  have hexpected : expected s (putTx .NON_EXEC (getFrom tx) (getNonce tx) (idOf tx) (m.withCache c)) = expected s m := by
    funext a
    rw [expected, putTx_nonces]
    rfl
  have hnew := h.not_sameSlot_of_free hfree
  have hadded : Added s m es tx [] (putTx .NON_EXEC (getFrom tx) (getNonce tx) (idOf tx) (m.withCache c))
      (es ++ [⟨tx, .NON_EXEC, deadline⟩]) :=
    ⟨txs_new hnew List.map_append, fun a _ => congrFun hexpected a,
      .inl ⟨hlt.le, by simp [hexpected], consecutive_nil, by simp⟩⟩
  refine hQ _ (es ++ [⟨tx, .NON_EXEC, deadline⟩]) ⟨⟨by rw [putTx_txCache]; exact hrepr, ?_, ?_, ?_, ?_⟩, ?_⟩ hadded
  · rw [hindex]
    exact h.index.append ⟨tx, .NON_EXEC, deadline⟩ (hfree .NON_EXEC)
  · intro a
    have hinterval := h.intervals a
    rw [hindex, hexpected]
    refine ⟨hinterval.le, ?_, ?_⟩
    · intro k
      rw [Function.update_of_ne (by simp)]
      exact hinterval.exec k
    · intro k hk
      by_cases hak : (TxExecutableStatus.NON_EXEC, a, k) = (.NON_EXEC, getFrom tx, getNonce tx)
      · injection hak with _ hak
        injection hak with ha hk'
        rw [ha, hk']
        exact hlt
      · rw [Function.update_of_ne hak] at hk
        exact hinterval.nonExec k hk
  · intro e he
    rw [putTx_nonces, withCache_nonces]
    rcases List.mem_append.1 he with he | he
    · exact h.defined e he
    · rw [List.mem_singleton.1 he]
      exact hdefined
  · rw [List.map_append]
    exact hbounds
  · intro st a
    refine noEmptyMap_putTx _ _ _ _ _ _ _ ?_
    rw [noEmptyMap_withCache]
    exact h.nonEmpty st a

omit hfresh hdefined in
/-- there is one transaction in a slot -/
theorem Inv.eq_of_sameSlot {x e : TxInfo Tx} (hx : x ∈ es) (he : e ∈ es) (hsame : SameSlot x.tx e.tx) : x = e := by
  have hst : x.executableStatus = e.executableStatus := by
    have hiff := (h.status_iff hx).trans (hsame.1 ▸ hsame.2 ▸ (h.status_iff he).symm)
    cases hxst : x.executableStatus <;> cases hest : e.executableStatus <;> simp_all
  have hslot := h.at_slot hx
  rw [hst, hsame.1, hsame.2, h.at_slot he] at hslot
  exact eq_of_id h.repr.nodup hx he (Option.some.inj hslot).symm

omit hfresh hdefined in
/-- a transaction in the place of another one excludes that one -/
theorem Inv.txs_replaced {e : TxInfo Tx} (he : e ∈ es) (hfrom : getFrom e.tx = getFrom tx)
    (hnonce : getNonce e.tx = getNonce tx) {es' : List (TxInfo Tx)}
    (htxs : es'.map TxInfo.tx = (withoutId (idOf e.tx) es).map TxInfo.tx ++ [tx]) (x : Tx) :
    x ∈ es'.map TxInfo.tx ↔ x = tx ∨ x ∈ es.map TxInfo.tx ∧ ¬ SameSlot x tx := by
  rw [htxs, List.mem_append, List.mem_singleton, or_comm]
  refine or_congr_right ⟨?_, ?_⟩
  · intro hx
    obtain ⟨y, hy, rfl⟩ := List.mem_map.1 hx
    obtain ⟨hy, hid⟩ := List.mem_filter.1 hy
    refine ⟨List.mem_map_of_mem hy, fun hsame => ?_⟩
    rw [h.eq_of_sameSlot hy he ⟨hsame.1.trans hfrom.symm, hsame.2.trans hnonce.symm⟩] at hid
    simp at hid
  · intro hx
    obtain ⟨y, hy, rfl⟩ := List.mem_map.1 hx.1
    refine List.mem_map_of_mem (List.mem_filter.2 ⟨hy, decide_eq_true fun hid => hx.2 ?_⟩)
    rw [eq_of_id h.repr.nodup hy he hid]
    exact ⟨hfrom, hnonce⟩

omit hdefined in
/-- a transaction in the place of another one of the same account and nonce -/
theorem wp_replaceTransaction {e : TxInfo Tx} (he : e ∈ es) (hfrom : getFrom e.tx = getFrom tx)
    (hnonce : getNonce e.tx = getNonce tx)
    (hbounds : Bounds settings s ((withoutId (idOf e.tx) es).map TxInfo.tx ++ [tx])) {Q : Unit → MempoolMap Tx → Prop}
    {E : MempoolException → MempoolMap Tx → Prop}
    (hQ : ∀ m' es', Inv settings s m' es' →
      (∀ x, x ∈ es'.map TxInfo.tx ↔ x = tx ∨ x ∈ es.map TxInfo.tx ∧ ¬ SameSlot x tx) →
      expected s m' = expected s m → Q () m') :
    wp (replaceTransaction settings (idOf e.tx) tx e.executableStatus) Q E m := by
  simp only [replaceTransaction, wp_bind, wp_modify]
  refine wp_cacheRemove h.repr he ?_
  intro c hrepr
  have hfresh' : ∀ x ∈ withoutId (idOf e.tx) es, idOf x.tx ≠ idOf tx := fun x hx => hfresh x (List.mem_filter.1 hx).1
  refine wp_cacheAdd (m := m.withCache c) hrepr hfresh' ?_
  intro c' deadline hrepr'
  have hslot := h.at_slot he
  rw [hfrom, hnonce] at hslot
  have hindex : (putTx e.executableStatus (getFrom tx) (getNonce tx) (idOf tx) ((m.withCache c).withCache c')).index =
      Function.update m.index (e.executableStatus, getFrom tx, getNonce tx) (some (idOf tx)) := by
    rw [index_putTx, index_withCache, index_withCache]
  have hexpected : expected s (putTx e.executableStatus (getFrom tx) (getNonce tx) (idOf tx)
      ((m.withCache c).withCache c')) = expected s m := by
    funext a
    rw [expected, putTx_nonces]
    rfl
  -- the slot was taken before and is taken after
  have hsome : ∀ st a k, (Function.update m.index (e.executableStatus, getFrom tx, getNonce tx) (some (idOf tx))
      (st, a, k)).isSome = (m.index (st, a, k)).isSome := by
    intro st a k
    by_cases hak : (st, a, k) = (e.executableStatus, getFrom tx, getNonce tx)
    · rw [hak, Function.update_self, hslot]
      rfl
    · rw [Function.update_of_ne hak]
  refine hQ _ (withoutId (idOf e.tx) es ++ [⟨tx, e.executableStatus, deadline⟩])
    ⟨⟨by rw [putTx_txCache]; exact hrepr', ?_, ?_, ?_, ?_⟩, ?_⟩ (h.txs_replaced he hfrom hnonce List.map_append) hexpected
  · have hremove := h.index.remove h.names_nodup he
    have hslot' : e.slot = (e.executableStatus, getFrom tx, getNonce tx) := by rw [TxInfo.slot, hfrom, hnonce]
    rw [hslot'] at hremove
    have happend := hremove.append ⟨tx, e.executableStatus, deadline⟩ (Function.update_self _ _ _)
    have hidem : Function.update (Function.update m.index (e.executableStatus, getFrom tx, getNonce tx) none)
        (e.executableStatus, getFrom tx, getNonce tx) (some (idOf tx)) =
        Function.update m.index (e.executableStatus, getFrom tx, getNonce tx) (some (idOf tx)) :=
      Function.update_idem _ _ _
    rw [hindex, ← hidem]
    exact happend
  · intro a
    have hinterval := h.intervals a
    rw [hindex, hexpected]
    refine ⟨hinterval.le, ?_, ?_⟩
    · intro k
      rw [hsome]
      exact hinterval.exec k
    · intro k hk
      rw [hsome] at hk
      exact hinterval.nonExec k hk
  · intro x hx
    rw [putTx_nonces, withCache_nonces, withCache_nonces]
    rcases List.mem_append.1 hx with hx | hx
    · exact h.defined x (List.mem_filter.1 hx).1
    · rw [List.mem_singleton.1 hx]
      show (m.nonces.lookup (getFrom tx)).isSome
      rw [← hfrom]
      exact h.defined e he
  · rw [List.map_append]
    exact hbounds
  · intro st a
    refine noEmptyMap_putTx _ _ _ _ _ _ _ ?_
    rw [noEmptyMap_withCache, noEmptyMap_withCache]
    exact h.nonEmpty st a

end Add

/-! ## `add` -/

/-- the transaction to replace, as `add` has found it -/
def Occupies (m : MempoolMap Tx) (es : List (TxInfo Tx)) (tx : Tx) (txToReplaceOpt : Option Tx) : Prop :=
  (txToReplaceOpt = none ∧ ∀ st, m.index (st, getFrom tx, getNonce tx) = none) ∨
    ∃ e ∈ es, txToReplaceOpt = some e.tx ∧ getFrom e.tx = getFrom tx ∧ getNonce e.tx = getNonce tx

theorem Occupies.eq_none {tx : Tx} {txToReplaceOpt : Option Tx} (h : Occupies m es tx txToReplaceOpt)
    (hfree : ∀ e ∈ es, ¬ SameSlot e.tx tx) : txToReplaceOpt = none := by
  rcases h with ⟨hnone, -⟩ | ⟨e, he, -, hfrom, hnonce⟩
  · exact hnone
  · exact absurd ⟨hfrom, hnonce⟩ (hfree e he)

section Accepted

variable (h : Inv settings s m es) {tx : Tx} (hfresh : ∀ e ∈ es, idOf e.tx ≠ idOf tx) {txToReplaceOpt : Option Tx}
  (hoccupies : Occupies m es tx txToReplaceOpt) (hdefined : (m.nonces.lookup (getFrom tx)).isSome)
  (hgap : getNonce tx ≤ getMaxAcceptableNonce settings (s (getFrom tx))) (hsize : size tx ≤ MaxTxSize)
  (hslots : accountSlots (es.map TxInfo.tx) (getFrom tx) +
    max (txSizeInSlot tx - numOfSlotsOfTxToReplace txToReplaceOpt) 0 ≤ settings.maxAccountSlots)
  {Q : List Tx → MempoolMap Tx → Prop} {E : MempoolException → MempoolMap Tx → Prop}
  (hQ : ∀ r m' es', Inv settings s m' es' → Added s m es tx r m' es' → Q r m')

include h hgap hsize hslots

/-- the bounds with a new transaction -/
theorem Inv.bounds_new (hnone : txToReplaceOpt = none) : Bounds settings s (es.map TxInfo.tx ++ [tx]) := by
  refine h.bounds.append hgap hsize (List.Sublist.refl _) ?_
  have hle := le_max_left (txSizeInSlot tx - numOfSlotsOfTxToReplace txToReplaceOpt) 0
  rw [hnone] at hle hslots
  simp only [numOfSlotsOfTxToReplace] at hle hslots
  omega

/-- the bounds with a transaction in the place of another one -/
theorem Inv.bounds_replaced {e : TxInfo Tx} (he : e ∈ es) (hsome : txToReplaceOpt = some e.tx)
    (hfrom : getFrom e.tx = getFrom tx) :
    Bounds settings s ((withoutId (idOf e.tx) es).map TxInfo.tx ++ [tx]) := by
  refine h.bounds.append hgap hsize (List.filter_sublist.map _) ?_
  have hwithout := accountSlots_withoutId h.repr.nodup he
  have hle := le_max_left (txSizeInSlot tx - numOfSlotsOfTxToReplace txToReplaceOpt) 0
  rw [hsome] at hle hslots
  rw [hfrom] at hwithout
  simp only [numOfSlotsOfTxToReplace] at hle hslots
  omega

include hfresh hoccupies hdefined hQ

theorem wp_addOrReplaceNonExecTransaction (hlt : expected s m (getFrom tx) < getNonce tx) :
    wp (addOrReplaceNonExecTransaction settings tx txToReplaceOpt) Q E m := by
  rcases hoccupies with ⟨hnone, hfree⟩ | ⟨e, he, hsome, hfrom, hnonce⟩
  · have hbounds := h.bounds_new hgap hsize hslots hnone
    subst hnone
    simp only [addOrReplaceNonExecTransaction, wp_bind, wp_pure]
    exact wp_addNonExec h hfresh hdefined hlt hfree hbounds fun m' es' hinv hadded => hQ _ m' es' hinv hadded
  · have hbounds := h.bounds_replaced hgap hsize hslots he hsome hfrom
    have hst : e.executableStatus = .NON_EXEC := by
      cases hst : e.executableStatus with
      | EXEC =>
        have hlt' := (h.status_iff he).1 hst
        rw [hfrom, hnonce] at hlt'
        exact absurd (hlt.trans hlt') (lt_irrefl _)
      | NON_EXEC => rfl
    subst hsome
    simp only [addOrReplaceNonExecTransaction, wp_bind, wp_pure, ← hst]
    refine wp_replaceTransaction h hfresh he hfrom hnonce hbounds ?_
    intro m' es' hinv htxs hexpected
    exact hQ _ m' es' hinv ⟨htxs, fun a _ => congrFun hexpected a,
      .inl ⟨hlt.le, by simp [hexpected], consecutive_nil, by simp⟩⟩

omit hdefined in
theorem wp_replaceExecTransaction (hlt : getNonce tx < expected s m (getFrom tx))
    (hE : ∀ e, Refused e → txToReplaceOpt = none → E e m) :
    wp (replaceExecTransaction settings tx txToReplaceOpt) Q E m := by
  simp only [replaceExecTransaction, wp_bind, wp_get, wp_throwIf]
  rcases hoccupies with ⟨hnone, -⟩ | ⟨e, he, hsome, hfrom, hnonce⟩
  · subst hnone
    exact ⟨fun _ => hE _ (.inl rfl) rfl, fun _ => hE _ (.inr rfl) rfl⟩
  · have hbounds := h.bounds_replaced hgap hsize hslots he hsome hfrom
    have hst : e.executableStatus = .EXEC := by
      rw [h.status_iff he, hfrom, hnonce]
      exact hlt
    have hslot := h.at_slot he
    rw [hst, hfrom] at hslot
    subst hsome
    refine ⟨fun hlookup => ?_, fun _ => ?_⟩
    · -- the account has the map with the transaction
      have hempty : m.txsOf .EXEC (getFrom tx) = ∅ := congrArg (Option.getD · ∅) hlookup
      have hget : (m.txsOf .EXEC (getFrom tx))[getNonce e.tx]? = some (idOf e.tx) := hslot
      rw [hempty] at hget
      cases hget
    · simp only [wp_bind, wp_pure, ← hst]
      refine wp_replaceTransaction h hfresh he hfrom hnonce hbounds ?_
      intro m' es' hinv htxs hexpected
      exact hQ _ m' es' hinv ⟨htxs, fun a _ => congrFun hexpected a,
        .inr ⟨hlt, congrFun hexpected _, e, he, rfl, hfrom, hnonce⟩⟩

end Accepted

/-- the refusal of a nonce below the expected one without a transaction to replace, after the expected nonce was written
down -/
structure RefusedLate (settings : AccountMempoolSettings) (s : Address → ℤ) (m : MempoolMap Tx) (es : List (TxInfo Tx))
    (tx : Tx) : Prop where
  small : size tx ≤ MaxTxSize
  nonce : getNonce tx < expected s m (getFrom tx)
  gap : getNonce tx ≤ getMaxAcceptableNonce settings (s (getFrom tx))
  free : ∀ e ∈ es, ¬ SameSlot e.tx tx
  slots : accountSlots (es.map TxInfo.tx) (getFrom tx) + txSizeInSlot tx ≤ settings.maxAccountSlots

section Result

variable (h : Inv settings s m es) {tx : Tx} {Q : List Tx → MempoolMap Tx → Prop}
  {E : MempoolException → MempoolMap Tx → Prop}
  -- what is put into the pool, and what the clean-up leaves of it
  (hadded : ∀ r m₁ es₁ m' es', (∀ e ∈ es, idOf e.tx ≠ idOf tx) → Inv settings s m₁ es₁ →
    Added s m es tx r m₁ es₁ →
    Inv settings s m' es' → Limits settings m' → (m' = m₁ ∨ ∃ e ∈ es₁, e.tx ∉ es'.map TxInfo.tx) → Q r m')
  (hlate : ∀ e, Refused e → RefusedLate settings s m es tx → E e (putNonce (getFrom tx) (expected s m (getFrom tx)) m))

include h hadded hlate

theorem wp_addAccepted (hfresh : ∀ e ∈ es, idOf e.tx ≠ idOf tx)
    {txToReplaceOpt : Option Tx} (hoccupies : Occupies m es tx txToReplaceOpt)
    (hgap : getNonce tx ≤ getMaxAcceptableNonce settings (s (getFrom tx))) (hsize : size tx ≤ MaxTxSize)
    (hslots : accountSlots (es.map TxInfo.tx) (getFrom tx) +
      max (txSizeInSlot tx - numOfSlotsOfTxToReplace txToReplaceOpt) 0 ≤ settings.maxAccountSlots) :
    wp (addAccepted settings tx txToReplaceOpt (expected s m (getFrom tx))) Q E m := by
  have h₁ := h.putExpected (getFrom tx)
  have hexpected : expected s (putNonce (getFrom tx) (expected s m (getFrom tx)) m) = expected s m := by
    rw [expected_putNonce, Function.update_eq_self]
  have hoccupies₁ : Occupies (putNonce (getFrom tx) (expected s m (getFrom tx)) m) es tx txToReplaceOpt := by
    unfold Occupies
    rw [putNonce, index_withNonces]
    exact hoccupies
  have hdefined : ((putNonce (getFrom tx) (expected s m (getFrom tx)) m).nonces.lookup (getFrom tx)).isSome := by
    simp [putNonce]
  have hcheck : ∀ r m₁ es₁, Inv settings s m₁ es₁ →
      Added s (putNonce (getFrom tx) (expected s m (getFrom tx)) m) es tx r m₁ es₁ →
      wp (checkMempoolSize settings) (fun _ m' => Q r m') E m₁ := by
    intro r m₁ es₁ hinv₁ hadded₁
    refine wp_checkMempoolSize hinv₁ fun m' es' hinv' hlimits' hkept => ?_
    refine hadded r m₁ es₁ m' es' hfresh hinv₁ ⟨hadded₁.txs, ?_, ?_⟩ hinv' hlimits' hkept
    · rw [← hexpected]
      exact hadded₁.others
    · rw [← hexpected]
      exact hadded₁.result
  simp only [addAccepted, wp_bind, wp_modify]
  by_cases heq : expected s m (getFrom tx) = getNonce tx
  · have hfree : txToReplaceOpt = none := by
      rcases hoccupies with ⟨hnone, -⟩ | ⟨e, he, -, hfrom, hnonce⟩
      · exact hnone
      · have hne := h.nonce_ne he
        rw [hfrom, hnonce] at hne
        exact absurd heq.symm hne
    have hcall : addNewExecTransaction settings tx (expected s m (getFrom tx)) =
        addNewExecTransaction settings tx (getNonce tx) := by rw [heq]
    rw [if_pos heq, hcall]
    simp only [wp_bind, wp_pure]
    refine wp_addNewExecTransaction h₁ hfresh ?_ (h₁.bounds_new hgap hsize hslots hfree) hcheck
    rw [hexpected]
    exact heq
  · rw [if_neg heq]
    by_cases hlt : expected s m (getFrom tx) < getNonce tx
    · rw [if_pos hlt]
      simp only [wp_bind, wp_pure]
      refine wp_addOrReplaceNonExecTransaction h₁ hfresh hoccupies₁ hdefined hgap hsize hslots hcheck ?_
      rw [hexpected]
      exact hlt
    · rw [if_neg hlt]
      have hlt' : getNonce tx < expected s m (getFrom tx) := lt_of_le_of_ne (not_lt.1 hlt) (Ne.symm heq)
      simp only [wp_bind, wp_pure]
      refine wp_replaceExecTransaction h₁ hfresh hoccupies₁ hgap hsize hslots hcheck ?_ ?_
      · rw [hexpected]
        exact hlt'
      · intro e hrefused hnone
        refine hlate e hrefused ⟨hsize, hlt', hgap, ?_, ?_⟩
        · rcases hoccupies with ⟨-, hfree⟩ | ⟨e, -, hsome, -⟩
          · exact h.not_sameSlot_of_free hfree
          · rw [hnone] at hsome
            cases hsome
        · subst hnone
          simp only [numOfSlotsOfTxToReplace, sub_zero] at hslots
          exact (add_le_add_right (le_max_left _ _) _).trans hslots

/-- **Adding a transaction.** It is pooled already, or put into the pool, or refused: before anything was changed, or with the
expected nonce written down. -/
theorem wp_add (hcontained : m.txCache.contains (idOf tx) → Q [] m)
    (hearly : ∀ e, Refused e → ¬ RefusedLate settings s m es tx → E e m) :
    wp (add settings s tx) Q E m := by
  unfold add
  rw [wp_bind, wp_get]
  by_cases hcontains : m.txCache.contains (idOf tx)
  · rw [if_pos hcontains]
    exact hcontained hcontains
  · have hfresh : ∀ e ∈ es, idOf e.tx ≠ idOf tx := by
      intro e he heq
      exact hcontains ((h.repr.contains_iff _).2 ⟨e, he, heq⟩)
    rw [if_neg hcontains]
    obtain ⟨txToReplaceOpt, hfind, hoccupies⟩ : ∃ opt, findTxWithSameNonce m (getFrom tx) (getNonce tx) = .ok opt ∧
        Occupies m es tx opt := by
      rcases h.findTxWithSameNonce_cases (getFrom tx) (getNonce tx) with ⟨hnone, hfree⟩ | ⟨e, he, hsome, hfrom, hnonce⟩
      · exact ⟨none, hnone, .inl ⟨rfl, hfree⟩⟩
      · exact ⟨some e.tx, hsome, .inr ⟨e, he, rfl, hfrom, hnonce⟩⟩
    simp only [wp_bind, wp_throwIf, wp_orThrow_ok hfind, wp_orThrow_ok (h.getAccountSlots_eq (getFrom tx))]
    refine ⟨fun hsize => hearly _ trivial fun hfree => absurd hfree.small (not_le.2 hsize), fun hsize =>
      ⟨fun hgap => hearly _ trivial fun hfree => absurd hfree.gap (not_le.2 hgap), fun hgap =>
      ⟨fun hpay => hearly _ trivial fun hfree => ?_,
        fun _ => ⟨fun hslots => hearly _ trivial fun hfree => ?_, fun hslots => ?_⟩⟩⟩⟩
    · obtain ⟨txToReplace, hsome, -⟩ := hpay
      rw [hoccupies.eq_none hfree.free] at hsome
      cases hsome
    · have hnew := hfree.slots
      have hnonneg := txSizeInSlot_nonneg tx
      simp only [hoccupies.eq_none hfree.free, numOfSlotsOfTxToReplace, sub_zero, max_eq_left hnonneg] at hslots
      exact absurd hnew (not_le.2 hslots)
    exact wp_addAccepted h hadded hlate hfresh hoccupies (not_lt.1 hgap) (not_lt.1 hsize) (not_lt.1 hslots)

end Result

/-- **The invariant.** An accepted transaction keeps it and the limits, and a refused one keeps it. -/
theorem add_keeps (h : Inv settings s m es) (tx : Tx) :
    wp (add settings s tx) (fun _ m' => (∃ es', Inv settings s m' es') ∧ (Limits settings m → Limits settings m'))
      (fun _ m' => ∃ es', Inv settings s m' es' ∧ (Limits settings m → Limits settings m')) m := by
  refine wp_add h ?_ ?_ ?_ ?_
  · intro r m₁ es₁ m' es' _ _ _ hinv' hlimits' _
    exact ⟨⟨es', hinv'⟩, fun _ => hlimits'⟩
  · intro e _ _
    exact ⟨es, h.putExpected _, fun hlimits => ⟨hlimits.size, hlimits.nonExec⟩⟩
  · intro _
    exact ⟨⟨es, h⟩, id⟩
  · intro e _ _
    exact ⟨es, h, id⟩

/-- a pool to which transactions were added one after the other -/
def poolWith (settings : AccountMempoolSettings) (stateReader : Address → ℤ) (txs : List Tx) : MempoolMap Tx :=
  txs.foldl (fun m tx => (exec (add settings stateReader tx) m).2) MempoolMap.empty

theorem inv_poolWith (settings : AccountMempoolSettings) (s : Address → ℤ) (txs : List Tx) :
    ∃ es, Inv settings s (poolWith settings s txs) es := by
  suffices hfold : ∀ (m : MempoolMap Tx) es, Inv settings s m es →
      ∃ es', Inv settings s (txs.foldl (fun m tx => (exec (add settings s tx) m).2) m) es' from
    hfold _ _ (inv_empty settings s)
  induction txs with
  | nil => exact fun m es h => ⟨es, h⟩
  | cons tx txs ih =>
    intro m es h
    obtain ⟨es', h'⟩ : ∃ es', Inv settings s (exec (add settings s tx) m).2 es' := by
      have hkeeps := add_keeps h tx
      unfold wp at hkeeps
      rcases hexec : exec (add settings s tx) m with ⟨r, m'⟩
      rw [hexec] at hkeeps
      cases r with
      | ok r => exact hkeeps.1
      | error e =>
        obtain ⟨es', hinv', -⟩ := hkeeps
        exact ⟨es', hinv'⟩
    exact ih _ es' h'

end SidechainsSdk.Account.Mempool
