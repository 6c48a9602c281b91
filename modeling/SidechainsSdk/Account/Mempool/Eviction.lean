/-
Eviction: the loops that bring the pool back to its limits, and the one that removes what has timed out.

- `wp_freeNonExecSubpoolSlots`: the iterator goes over the list while the entries that it returns are removed. The list is
  cut where the iterator stands: the part behind it has no non-executable entry left, so as long as the sub-pool has slots
  the iterator finds one, and removing it changes nothing else.
- `wp_freeMempoolSlots`: removing the oldest transaction may demote others, but takes one entry away.
- `wp_checkMempoolSize`: afterwards both limits hold. The second clean-up of the sub-pool takes only slots away.

None of them throws, whatever the iterators and references find.
-/
import Mathlib.Tactic
import SidechainsSdk.Account.Mempool.Invariant

namespace SidechainsSdk.Account.Mempool

open AccountTransaction Fallible MempoolMap TxCache LinkedList

variable {Tx : Type} [AccountTransaction Tx]

/-- the pool and its non-executable part are within their limits -/
structure Limits (settings : AccountMempoolSettings) (m : MempoolMap Tx) : Prop where
  size : getMempoolSizeInSlots m ≤ settings.maxMemPoolSlots
  nonExec : getNonExecSubpoolSizeInSlots m ≤ settings.maxNonExecMemPoolSlots

variable {settings : AccountMempoolSettings} {s : Address → ℤ} {m : MempoolMap Tx} {es : List (TxInfo Tx)}
  {Q : Unit → MempoolMap Tx → Prop} {E : MempoolException → MempoolMap Tx → Prop}

/-! ## Sizes -/

theorem Inv.size_eq (h : Inv settings s m es) : getMempoolSizeInSlots m = slots es := h.repr.size

theorem Inv.nonExecSize_eq (h : Inv settings s m es) : getNonExecSubpoolSizeInSlots m = nonExecSlots es :=
  h.repr.nonExecSize

theorem slots_eq_txs (es : List (TxInfo Tx)) : slots es = ((es.map TxInfo.tx).map txSizeInSlot).sum := by
  simp [slots, Function.comp_def]

theorem length_withoutId_lt {e : TxInfo Tx} (he : e ∈ es) : (withoutId (idOf e.tx) es).length < es.length := by
  refine List.length_filter_lt_length_iff_exists.2 ⟨e, he, ?_⟩
  simp

theorem slots_le_of_sublist {l l' : List (TxInfo Tx)} (h : (l'.map TxInfo.tx).Sublist (l.map TxInfo.tx)) :
    slots l' ≤ slots l := by
  rw [slots_eq_txs, slots_eq_txs]
  refine List.Sublist.sum_le_sum (h.map txSizeInSlot) ?_
  intro x hx
  obtain ⟨tx, -, rfl⟩ := List.mem_map.1 hx
  exact txSizeInSlot_nonneg tx

/-- of the transactions `txs` only those of `es` are left -/
def Evicted (txs : List Tx) (es : List (TxInfo Tx)) : Prop :=
  (es.map TxInfo.tx).Sublist txs ∧ es.length < txs.length

omit [AccountTransaction Tx] in
theorem Evicted.trans {txs txs' : List Tx} (h : Evicted txs es) (hsub : txs.Sublist txs') : Evicted txs' es :=
  ⟨h.1.trans hsub, h.2.trans_le hsub.length_le⟩

omit [AccountTransaction Tx] in
theorem Evicted.of_sublist {txs : List Tx} (h : Evicted txs es) {es' : List (TxInfo Tx)}
    (hsub : (es'.map TxInfo.tx).Sublist (es.map TxInfo.tx)) : Evicted txs es' := by
  refine ⟨hsub.trans h.1, lt_of_le_of_lt ?_ h.2⟩
  simpa using hsub.length_le

theorem evicted_of_remove {txs : List Tx} {e : TxInfo Tx} {es' : List (TxInfo Tx)} (he : e ∈ es)
    (hsub : (es.map TxInfo.tx).Sublist txs) (hremoved : es'.map TxInfo.tx = (withoutId (idOf e.tx) es).map TxInfo.tx) :
    Evicted txs es' := by
  constructor
  · rw [hremoved]
    exact (List.filter_sublist.map _).trans hsub
  · have hlength : es'.length = (withoutId (idOf e.tx) es).length := by simpa using congrArg List.length hremoved
    calc es'.length = (withoutId (idOf e.tx) es).length := hlength
      _ < es.length := length_withoutId_lt he
      _ = (es.map TxInfo.tx).length := (List.length_map _).symm
      _ ≤ txs.length := hsub.length_le

/-- a transaction is missing -/
theorem Evicted.exists_missing (hnodup : (es.map fun e => idOf e.tx).Nodup) {es' : List (TxInfo Tx)}
    (h : Evicted (es.map TxInfo.tx) es') : ∃ e ∈ es, e.tx ∉ es'.map TxInfo.tx := by
  by_contra hall
  push Not at hall
  have hsubset : es.map TxInfo.tx ⊆ es'.map TxInfo.tx := by
    intro tx htx
    obtain ⟨e, he, rfl⟩ := List.mem_map.1 htx
    exact hall e he
  have htxs : (es.map TxInfo.tx).Nodup := by
    refine List.Nodup.of_map idOf ?_
    rw [List.map_map]
    exact hnodup
  have hle := (htxs.subperm hsubset).length_le
  have hlt := h.2
  rw [List.length_map] at hle hlt
  rw [List.length_map] at hle
  exact absurd hle (not_le.2 hlt)

theorem nonExecSlots_eq_zero {l : List (TxInfo Tx)} (h : ∀ x ∈ l, x.executableStatus ≠ .NON_EXEC) :
    nonExecSlots l = 0 := by
  have hnil : l.filter (fun e => e.executableStatus = .NON_EXEC) = [] := List.filter_eq_nil_iff.2 (by simpa using h)
  rw [nonExecSlots, hnil, slots_nil]

/-! ## Non-executable transactions -/

/-- the loop of `freeNonExecSubpoolSlots`: the iterator stands at the start of `l₂` -/
def FreeingNonExec (settings : AccountMempoolSettings) (s : Address → ℤ) (txs : List Tx) (nextElem : Option ModifierId)
    (m : MempoolMap Tx) : Prop :=
  ∃ l₁ l₂, Inv settings s m (l₁ ++ l₂) ∧ nextElem = headKey (listed l₂) none ∧
    (∀ x ∈ l₁, x.executableStatus ≠ .NON_EXEC) ∧ settings.maxNonExecMemPoolSlots < getNonExecSubpoolSizeInSlots m ∧
    ((l₁ ++ l₂).map TxInfo.tx).Sublist txs

/-- what the loop reaches -/
def FreedNonExec (settings : AccountMempoolSettings) (s : Address → ℤ) (txs : List Tx) (m : MempoolMap Tx) : Prop :=
  ∃ es, Inv settings s m es ∧ getNonExecSubpoolSizeInSlots m ≤ settings.maxNonExecMemPoolSlots ∧ Evicted txs es

theorem freeNextNonExec_spec {txs : List Tx} {nextElem : Option ModifierId}
    (h : FreeingNonExec settings s txs nextElem m) :
    wp (freeNextNonExec settings nextElem) (Iteration (FreeingNonExec settings s txs) (fun _ m => m.txCache.cacheSize)
      (fun _ m => FreedNonExec settings s txs m) m.txCache.cacheSize) E m := by
  obtain ⟨l₁, l₂, hinv, rfl, hl₁, hover, hsub⟩ := h
  have hsize := hinv.nonExecSize_eq
  rw [nonExecSlots_append, nonExecSlots_eq_zero hl₁, zero_add] at hsize
  have hpos : 0 < nonExecSlots l₂ := by
    have := Int.natCast_nonneg settings.maxNonExecMemPoolSlots
    omega
  obtain ⟨l, e, r, rfl, hl, he, hnext⟩ := hinv.repr.next rfl hpos
  have hmem : e ∈ l₁ ++ (l ++ e :: r) := by simp
  simp only [freeNextNonExec, wp_bind, wp_get, wp_orThrow_ok hnext, wp_attempt, wp_pure]
  refine wp_remove hinv e.tx ?_
  intro m' es' hinv' _ hsame
  have hwithout : withoutId (idOf e.tx) (l₁ ++ (l ++ e :: r)) = (l₁ ++ l) ++ r := by
    have hnodup := hinv.repr.nodup
    have hsplit : l₁ ++ (l ++ e :: r) = (l₁ ++ l) ++ e :: r := by simp
    rw [hsplit, List.map_append, List.map_cons, List.nodup_append, List.nodup_cons] at hnodup
    rw [hsplit]
    refine withoutId_split ?_ ?_
    · intro x hx heq
      exact hnodup.2.2 _ (List.mem_map_of_mem hx) _ List.mem_cons_self heq
    · intro x hx heq
      exact hnodup.2.1.1 (heq ▸ List.mem_map_of_mem hx)
  have hes' : es' = (l₁ ++ l) ++ r := by
    rw [← hwithout]
    refine hsame ?_
    intro x hx hxe
    rw [eq_of_id hinv.repr.nodup hx hmem (congrArg idOf hxe)]
    exact he
  subst hes'
  have hevicted : Evicted txs (l₁ ++ l ++ r) := evicted_of_remove hmem hsub (congrArg _ hwithout.symm)
  by_cases hover' : settings.maxNonExecMemPoolSlots < getNonExecSubpoolSizeInSlots m'
  · rw [if_pos hover']
    refine ⟨⟨l₁ ++ l, r, hinv', rfl, ?_, hover', hevicted.1⟩, ?_⟩
    · intro x hx
      rcases List.mem_append.1 hx with hx | hx
      · exact hl₁ x hx
      · exact hl x hx
    · beta_reduce
      rw [hinv'.repr.cacheSize_eq, hinv.repr.cacheSize_eq, ← hwithout]
      exact length_withoutId_lt hmem
  · rw [if_neg hover']
    exact ⟨_, hinv', not_lt.1 hover', hevicted⟩

theorem wp_freeNonExecSubpoolSlots (h : Inv settings s m es)
    (hover : settings.maxNonExecMemPoolSlots < getNonExecSubpoolSizeInSlots m)
    (hQ : ∀ m', FreedNonExec settings s (es.map TxInfo.tx) m' → Q () m') :
    wp (freeNonExecSubpoolSlots settings) Q E m := by
  have hstart : FreeingNonExec settings s (es.map TxInfo.tx) m.txCache.oldestTx m :=
    ⟨[], es, h, h.repr.oldest, by simp, hover, List.Sublist.refl _⟩
  have hloop := wp_loop (e := .endlessLoop) (E := E) (FreeingNonExec settings s (es.map TxInfo.tx))
    (fun _ m => m.txCache.cacheSize) (fun _ _ hI => freeNextNonExec_spec hI) hstart (Nat.lt_succ_self _)
  simp only [freeNonExecSubpoolSlots, wp_bind, wp_get, wp_pure]
  exact wp_mono hloop (fun _ m' hfreed => hQ m' hfreed) (fun _ _ h' => h')

/-! ## The oldest transactions -/

/-- the loop of `freeMempoolSlots` -/
def FreeingOldest (settings : AccountMempoolSettings) (s : Address → ℤ) (txs : List Tx) (m : MempoolMap Tx) : Prop :=
  ∃ es, Inv settings s m es ∧ settings.maxMemPoolSlots < getMempoolSizeInSlots m ∧ (es.map TxInfo.tx).Sublist txs

/-- what the loop reaches -/
def FreedOldest (settings : AccountMempoolSettings) (s : Address → ℤ) (txs : List Tx) (m : MempoolMap Tx) : Prop :=
  ∃ es, Inv settings s m es ∧ getMempoolSizeInSlots m ≤ settings.maxMemPoolSlots ∧ Evicted txs es

theorem freeOldest_spec {txs : List Tx} (h : FreeingOldest settings s txs m) :
    wp (freeOldest settings ()) (Iteration (fun _ m => FreeingOldest settings s txs m) (fun _ m => m.txCache.cacheSize)
      (fun _ m => FreedOldest settings s txs m) m.txCache.cacheSize) E m := by
  obtain ⟨es, hinv, hover, hsub⟩ := h
  rcases hinv.repr.getOldestTransactionInfo with ⟨-, rfl⟩ | ⟨e, l, info, rfl, hoptional, hvalue⟩
  · rw [hinv.size_eq, slots_nil] at hover
    have := Int.natCast_nonneg settings.maxMemPoolSlots
    omega
  · simp only [freeOldest, wp_bind, wp_get, wp_orThrow_ok hoptional, wp_attempt, hvalue, wp_pure]
    refine wp_remove hinv e.tx ?_
    intro m' es' hinv' htxs _
    have hevicted : Evicted txs es' := evicted_of_remove List.mem_cons_self hsub htxs
    by_cases hover' : settings.maxMemPoolSlots < getMempoolSizeInSlots m'
    · rw [if_pos hover']
      refine ⟨⟨es', hinv', hover', hevicted.1⟩, ?_⟩
      beta_reduce
      rw [hinv'.repr.cacheSize_eq, hinv.repr.cacheSize_eq]
      have hlt := (evicted_of_remove List.mem_cons_self (List.Sublist.refl _) htxs).2
      rwa [List.length_map] at hlt
    · rw [if_neg hover']
      exact ⟨es', hinv', not_lt.1 hover', hevicted⟩

theorem wp_freeMempoolSlots (h : Inv settings s m es)
    (hover : settings.maxMemPoolSlots < getMempoolSizeInSlots m)
    (hQ : ∀ m', FreedOldest settings s (es.map TxInfo.tx) m' → Q () m') :
    wp (freeMempoolSlots settings) Q E m := by
  have hstart : FreeingOldest settings s (es.map TxInfo.tx) m := ⟨es, h, hover, List.Sublist.refl _⟩
  have hloop := wp_loop (e := .endlessLoop) (E := E) (a := ()) (fun _ m => FreeingOldest settings s (es.map TxInfo.tx) m)
    (fun _ m => m.txCache.cacheSize) (fun _ _ hI => freeOldest_spec hI) hstart (Nat.lt_succ_self _)
  simp only [freeMempoolSlots, wp_bind, wp_get]
  exact wp_mono hloop (fun _ m' hfreed => hQ m' hfreed) (fun _ _ h' => h')

/-- reading the clock changes nothing that the invariant is about -/
theorem Inv.withClock (h : Inv settings s m es) (n : ℕ) :
    Inv settings s (m.withCache { m.txCache with clockReads := n }) es where
  repr := ⟨h.repr.nodup, h.repr.lookup, h.repr.oldest, h.repr.youngest, h.repr.size, h.repr.nonExecSize⟩
  index := by
    rw [index_withCache]
    exact h.index
  intervals := by
    rw [index_withCache]
    exact h.intervals
  defined := h.defined
  bounds := h.bounds
  nonEmpty := by
    intro st a
    rw [noEmptyMap_withCache]
    exact h.nonEmpty st a

theorem removeIfTimedOut_spec (h : ∃ es, Inv settings s m es) :
    wp (removeIfTimedOut settings ()) (Iteration (fun _ m => ∃ es, Inv settings s m es)
      (fun _ m => m.txCache.cacheSize) (fun _ m => ∃ es, Inv settings s m es) m.txCache.cacheSize) E m := by
  obtain ⟨es, hinv⟩ := h
  rcases hinv.repr.getOldestTransactionInfo with ⟨hnone, rfl⟩ | ⟨e, l, info, rfl, hoptional, hvalue⟩
  · simp only [removeIfTimedOut, wp_bind, wp_get, wp_orThrow_ok hnone, wp_pure]
    exact ⟨[], hinv⟩
  · simp only [removeIfTimedOut, wp_bind, wp_get, wp_orThrow_ok hoptional, wp_modify, hvalue]
    have hclock := hinv.withClock (m.txCache.clockReads + 1)
    split_ifs
    · simp only [wp_bind, wp_attempt, wp_pure]
      refine wp_remove hclock e.tx ?_
      intro m' es' hinv' htxs _
      refine ⟨⟨es', hinv'⟩, ?_⟩
      beta_reduce
      rw [hinv'.repr.cacheSize_eq, hinv.repr.cacheSize_eq]
      have hlt := (evicted_of_remove List.mem_cons_self (List.Sublist.refl _) htxs).2
      rwa [List.length_map] at hlt
    · exact ⟨_, hclock⟩

theorem wp_removeTimedoutTransactions (h : Inv settings s m es) (hQ : ∀ m' es', Inv settings s m' es' → Q () m') :
    wp (removeTimedoutTransactions settings) Q E m := by
  have hloop := wp_loop (e := .endlessLoop) (E := E) (a := ()) (fun _ m => ∃ es, Inv settings s m es)
    (fun _ m => m.txCache.cacheSize) (fun _ _ hI => removeIfTimedOut_spec hI) ⟨es, h⟩ (Nat.lt_succ_self _)
  simp only [removeTimedoutTransactions, wp_bind, wp_get]
  refine wp_mono hloop ?_ (fun _ _ h' => h')
  intro _ m' hend
  obtain ⟨es', hinv'⟩ := hend
  exact hQ m' es' hinv'

/-! ## The limits -/

/-- **Clean-up.** Afterwards the limits hold, and unless nothing was done a transaction is missing. -/
theorem wp_checkMempoolSize (h : Inv settings s m es)
    (hQ : ∀ m' es', Inv settings s m' es' → Limits settings m' →
      (m' = m ∨ ∃ e ∈ es, e.tx ∉ es'.map TxInfo.tx) → Q () m') :
    wp (checkMempoolSize settings) Q E m := by
  have hmissing : ∀ es', Evicted (es.map TxInfo.tx) es' → ∃ e ∈ es, e.tx ∉ es'.map TxInfo.tx :=
    fun es' hevicted => hevicted.exists_missing h.repr.nodup
  -- the second half, from a pool whose non-executable part is within its limit
  have hsecond : ∀ m' es', Inv settings s m' es' →
      getNonExecSubpoolSizeInSlots m' ≤ settings.maxNonExecMemPoolSlots →
      (m' = m ∧ es' = es ∨ Evicted (es.map TxInfo.tx) es') →
      wp (if settings.maxMemPoolSlots < getMempoolSizeInSlots m' then do
        freeMempoolSlots settings
        let m ← get
        if settings.maxNonExecMemPoolSlots < getNonExecSubpoolSizeInSlots m then freeNonExecSubpoolSlots settings
        else pure ()
      else pure ()) Q E m' := by
    intro m' es' hinv' hnonExec hfirst
    have hsub : (es'.map TxInfo.tx).Sublist (es.map TxInfo.tx) := by
      rcases hfirst with ⟨-, rfl⟩ | hevicted
      · exact List.Sublist.refl _
      · exact hevicted.1
    split_ifs with hover
    · rw [wp_bind]
      refine wp_freeMempoolSlots hinv' hover ?_
      intro m₂ hfreed₂
      obtain ⟨es₂, hinv₂, hsize₂, hevicted₂⟩ := hfreed₂
      simp only [wp_bind, wp_get]
      split_ifs with hover₂
      · refine wp_freeNonExecSubpoolSlots hinv₂ hover₂ ?_
        intro m₃ hfreed
        obtain ⟨es₃, hinv₃, hnonExec₃, hevicted₃⟩ := hfreed
        have hsize₃ : getMempoolSizeInSlots m₃ ≤ settings.maxMemPoolSlots := by
          calc getMempoolSizeInSlots m₃ = slots es₃ := hinv₃.size_eq
            _ ≤ slots es₂ := slots_le_of_sublist hevicted₃.1
            _ = getMempoolSizeInSlots m₂ := hinv₂.size_eq.symm
            _ ≤ settings.maxMemPoolSlots := hsize₂
        exact hQ m₃ es₃ hinv₃ ⟨hsize₃, hnonExec₃⟩
          (.inr (hmissing es₃ ((hevicted₂.trans hsub).of_sublist hevicted₃.1)))
      · exact hQ m₂ es₂ hinv₂ ⟨hsize₂, not_lt.1 hover₂⟩ (.inr (hmissing es₂ (hevicted₂.trans hsub)))
    · refine hQ m' es' hinv' ⟨not_lt.1 hover, hnonExec⟩ ?_
      rcases hfirst with ⟨rfl, -⟩ | hevicted
      · exact .inl rfl
      · exact .inr (hmissing es' hevicted)
  simp only [checkMempoolSize]
  rw [wp_bind, wp_get]
  split_ifs with hover
  · rw [wp_bind]
    refine wp_freeNonExecSubpoolSlots h hover ?_
    intro m' hfreed
    obtain ⟨es', hinv', hnonExec', hevicted⟩ := hfreed
    rw [wp_bind, wp_get]
    exact hsecond m' es' hinv' hnonExec' (.inr hevicted)
  · rw [wp_bind, wp_get]
    exact hsecond m es h (not_lt.1 hover) (.inl ⟨rfl, rfl⟩)

/-- removing a transaction keeps the limits -/
theorem wp_removeFromMempool (h : Inv settings s m es) (hlimits : Limits settings m) (tx : Tx)
    (hQ : ∀ m' es', Inv settings s m' es' → Limits settings m' → Q () m') :
    wp (removeFromMempool settings tx) Q E m := by
  simp only [removeFromMempool, wp_bind, wp_get]
  refine wp_remove h tx ?_
  intro m' es' hinv' htxs _
  have hsub : (es'.map TxInfo.tx).Sublist (es.map TxInfo.tx) := by
    rw [htxs]
    exact List.filter_sublist.map _
  have hsize : ∀ m₂ es₂, Inv settings s m₂ es₂ → (es₂.map TxInfo.tx).Sublist (es'.map TxInfo.tx) →
      getMempoolSizeInSlots m₂ ≤ settings.maxMemPoolSlots := by
    intro m₂ es₂ hinv₂ hsub₂
    calc getMempoolSizeInSlots m₂ = slots es₂ := hinv₂.size_eq
      _ ≤ slots es := slots_le_of_sublist (hsub₂.trans hsub)
      _ = getMempoolSizeInSlots m := h.size_eq.symm
      _ ≤ settings.maxMemPoolSlots := hlimits.size
  split_ifs with hover
  · refine wp_freeNonExecSubpoolSlots hinv' hover ?_
    intro m₂ hfreed
    obtain ⟨es₂, hinv₂, hnonExec₂, hevicted₂⟩ := hfreed
    exact hQ m₂ es₂ hinv₂ ⟨hsize m₂ es₂ hinv₂ hevicted₂.1, hnonExec₂⟩
  · exact hQ m' es' hinv' ⟨hsize m' es' hinv' (List.Sublist.refl _), not_lt.1 hover⟩

end SidechainsSdk.Account.Mempool
