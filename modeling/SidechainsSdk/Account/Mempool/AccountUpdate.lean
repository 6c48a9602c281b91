/-
Updating an account after a change of the chain.

The two maps of the account are taken out, built anew and put back. `Updated` is what has to come of it: the transactions of
the account are some survivors, placed by their nonces, the expected nonce is the end of the executable run, and the other
accounts have not changed.

- `inv_settled`: with the new maps the invariant holds again, for the new state nonce of the account.
- `wp_updateAccountWithRevertedNonce`, `wp_updateAccountWithNewNonce`: neither routine throws, and the survivors are those of
  the transactions put back and of the pooled ones.
-/
import Mathlib.Tactic
import SidechainsSdk.Account.Mempool.Rebuilding

namespace SidechainsSdk.Account.Mempool

open AccountTransaction Fallible MempoolMap TxCache ConsecutiveRun Indexing

variable {Tx : Type} [AccountTransaction Tx]

/-! ## Taking the maps out and putting them back -/

section Maps

variable (m : MempoolMap Tx) (st st' : TxExecutableStatus) (a a' : Address) (txs : TxIdByNonceMap)

omit [AccountTransaction Tx] in
@[simp] theorem putIfNonEmpty_txCache : (putIfNonEmpty st a txs m).txCache = m.txCache := by
  unfold putIfNonEmpty
  split_ifs
  · rfl
  · exact setTxs_txCache _ _ _

omit [AccountTransaction Tx] in
@[simp] theorem putIfNonEmpty_nonces : (putIfNonEmpty st a txs m).nonces = m.nonces := by
  unfold putIfNonEmpty
  split_ifs
  · rfl
  · exact setTxs_nonces _ _ _

omit [AccountTransaction Tx] in
theorem lookup_putIfNonEmpty (hnone : (m.txs st).lookup a = none) :
    ((putIfNonEmpty st a txs m).txs st').lookup a' =
      if st' = st ∧ a' = a then (if txs.isEmpty then none else some txs) else (m.txs st').lookup a' := by
  unfold putIfNonEmpty
  split_ifs with hempty hmap hmap
  · rw [hmap.1, hmap.2, hnone]
  · rfl
  · rw [lookup_setTxs_insert, if_pos hmap]
  · rw [lookup_setTxs_insert, if_neg hmap]

omit [AccountTransaction Tx] in
theorem lookup_withNonces (nonces : AList fun _ : Address => ℤ) :
    ((m.withNonces nonces).txs st').lookup a' = (m.txs st').lookup a' := by
  cases st' <;> rfl

omit [AccountTransaction Tx] in
theorem lookup_withCache (c : TxCache Tx) : ((m.withCache c).txs st').lookup a' = (m.txs st').lookup a' := by
  cases st' <;> rfl

/-- both maps of the account are out -/
structure Taken (m₀ m : MempoolMap Tx) : Prop where
  lookup : ∀ st' a', (m.txs st').lookup a' = if a' = a then none else (m₀.txs st').lookup a'
  nonces : m.nonces = m₀.nonces

/-- the maps of the survivors -/
def settled (n : ℤ) (kept : List Tx) (nonces : AList fun _ : Address => ℤ) : MempoolMap Tx :=
  putIfNonEmpty .NON_EXEC a (byNonce (partOf n kept .NON_EXEC))
    (putIfNonEmpty .EXEC a (byNonce (partOf n kept .EXEC)) (m.withNonces nonces))

variable {m a} {m₀ : MempoolMap Tx} {n : ℤ} {kept : List Tx} {nonces : AList fun _ : Address => ℤ}

theorem lookup_settled (h : Taken a m₀ m) : ((settled m a n kept nonces).txs st').lookup a' =
    if a' = a then (if (byNonce (partOf n kept st')).isEmpty then none else some (byNonce (partOf n kept st')))
    else (m₀.txs st').lookup a' := by
  have hnone : ∀ st, (((m.withNonces nonces).txs st).lookup a) = none := by
    intro st
    rw [lookup_withNonces, h.lookup, if_pos rfl]
  have hnonExec : ((putIfNonEmpty .EXEC a (byNonce (partOf n kept .EXEC)) (m.withNonces nonces)).txs .NON_EXEC).lookup a =
      none := by
    rw [lookup_putIfNonEmpty _ _ _ _ _ _ (hnone .EXEC), if_neg (by simp)]
    exact hnone .NON_EXEC
  rw [settled, lookup_putIfNonEmpty _ _ _ _ _ _ hnonExec, lookup_putIfNonEmpty _ _ _ _ _ _ (hnone .EXEC),
    lookup_withNonces, h.lookup]
  by_cases ha : a' = a
  · cases st' <;> simp [ha]
  · simp [ha]

theorem index_settled (h : Taken a m₀ m) (k : ℤ) : (settled m a n kept nonces).index (st', a', k) =
    if a' = a then (byNonce (partOf n kept st'))[k]? else m₀.index (st', a', k) := by
  rw [index_eq, lookup_settled st' a' h]
  by_cases ha : a' = a
  · rw [if_pos ha, if_pos ha]
    split_ifs with hempty
    · rw [Std.TreeMap.getElem?_of_isEmpty hempty]
      simp
    · rfl
  · rw [if_neg ha, if_neg ha]
    rfl

theorem noEmptyMap_settled (h : Taken a m₀ m) (h₀ : ∀ st a', NoEmptyMap m₀ st a') :
    NoEmptyMap (settled m a n kept nonces) st' a' := by
  intro txs hlookup
  rw [lookup_settled st' a' h] at hlookup
  split_ifs at hlookup with ha hempty
  · rw [← Option.some.inj hlookup]
    simpa using hempty
  · exact h₀ st' a' txs hlookup

end Maps

/-! ## The invariant with the new maps -/

section Settled

variable {settings : AccountMempoolSettings} {s : Address → ℤ} {m₀ m : MempoolMap Tx} {es₀ es : List (TxInfo Tx)}
  {a : Address} {n : ℤ} {gaveBack : Bool} {kept : List Tx} {nonces : AList fun _ : Address => ℤ}

/-- the record of the expected nonces after an update of an account; without transactions it has one only if some were given
back -/
structure NoncesFor (a : Address) (n : ℤ) (gaveBack : Bool) (kept : List Tx) (before nonces : AList fun _ : Address => ℤ) :
    Prop where
  account : nonces.lookup a = if !gaveBack && kept.isEmpty then none else some (runEnd getNonce n kept)
  others : ∀ a', a' ≠ a → nonces.lookup a' = before.lookup a'

theorem NoncesFor.cases {gaveBack : Bool} {before : AList fun _ : Address => ℤ}
    (h : NoncesFor a n gaveBack kept before nonces) :
    nonces.lookup a = some (runEnd getNonce n kept) ∨ nonces.lookup a = none ∧ kept = [] := by
  have haccount := h.account
  split_ifs at haccount with hempty
  · simp only [Bool.and_eq_true, List.isEmpty_iff] at hempty
    exact .inr ⟨haccount, hempty.2⟩
  · exact .inl haccount

/-- without survivors no map is put back -/
theorem settled_nil : settled m a n ([] : List Tx) nonces = m.withNonces nonces := rfl

theorem noncesFor_insert (a : Address) (n : ℤ) {gaveBack : Bool} {kept : List Tx} (h : gaveBack = true ∨ kept ≠ [])
    (nonces : AList fun _ : Address => ℤ) :
    NoncesFor a n gaveBack kept nonces (nonces.insert a (runEnd getNonce n kept)) where
  account := by
    rw [if_neg, AList.lookup_insert]
    simp only [Bool.and_eq_true, Bool.not_eq_true', List.isEmpty_iff, not_and]
    exact fun hnot => h.resolve_left (by simp [hnot])
  others := fun _ ha => AList.lookup_insert_ne ha

theorem noncesFor_erase (a : Address) (n : ℤ) (nonces : AList fun _ : Address => ℤ) :
    NoncesFor a n false ([] : List Tx) nonces (nonces.erase a) where
  account := AList.lookup_erase a nonces
  others := fun _ ha => AList.lookup_erase_ne ha

theorem mem_iff_of_others (h : others a es = others a es₀) {e : TxInfo Tx} (hfrom : getFrom e.tx ≠ a) :
    e ∈ es ↔ e ∈ es₀ := by
  have hmem : e ∈ others a es ↔ e ∈ es ∧ getFrom e.tx ≠ a := mem_others
  rw [h, mem_others] at hmem
  constructor
  · intro he
    exact (hmem.2 ⟨he, hfrom⟩).1
  · intro he
    exact (hmem.1 ⟨he, hfrom⟩).1

theorem mem_partOf_iff (hown : (own a es).Perm (placed n kept)) {tx : Tx} {st : TxExecutableStatus} :
    tx ∈ partOf n kept st ↔ ∃ e ∈ es, e.tx = tx ∧ e.executableStatus = st ∧ getFrom tx = a := by
  rw [← mem_placed, ← hown.mem_iff, mem_own]

theorem filter_txs_eq_own (es : List (TxInfo Tx)) (a : Address) :
    (es.map TxInfo.tx).filter (fun tx => getFrom tx = a) = (own a es).map Prod.fst := by
  rw [own, List.map_map, List.filter_map]
  rfl

theorem filter_txs_eq_others (es : List (TxInfo Tx)) {a a' : Address} (ha : a' ≠ a) :
    (es.map TxInfo.tx).filter (fun tx => getFrom tx = a') =
      ((others a es).map TxInfo.tx).filter fun tx => getFrom tx = a' := by
  rw [others, List.filter_map, List.filter_map, List.filter_filter]
  refine congrArg _ (List.filter_congr fun e _ => ?_)
  by_cases hfrom : getFrom e.tx = a'
  · simp [hfrom, ha]
  · simp [hfrom]

theorem index_settled_iff (h : Consistent settings s m₀ es₀) (htaken : Taken a m₀ m)
    (hown : (own a es).Perm (placed n kept)) (hothers : others a es = others a es₀) (hkept : Ascending getNonce n kept) :
    IsIndex TxInfo.slot TxInfo.txId (settled m a n kept nonces).index es := by
  rintro ⟨st, a', k⟩ i
  rw [index_settled st a' htaken]
  by_cases ha : a' = a
  · subst ha
    rw [if_pos rfl, getElem?_byNonce (partOf_sorted hkept st)]
    constructor
    · rintro ⟨tx, htx, rfl, rfl⟩
      obtain ⟨e, he, rfl, rfl, rfl⟩ := (mem_partOf_iff hown).1 htx
      exact ⟨e, he, rfl, rfl⟩
    · rintro ⟨e, he, hslot, rfl⟩
      injection hslot with hst hslot
      injection hslot with hfrom hnonce
      exact ⟨e.tx, (mem_partOf_iff hown).2 ⟨e, he, rfl, hst, hfrom⟩, hnonce, rfl⟩
  · rw [if_neg ha, h.index (st, a', k) i]
    constructor
    · rintro ⟨e, he, hslot, rfl⟩
      have hfrom : getFrom e.tx = a' := by
        injection hslot with _ hslot
        injection hslot
      exact ⟨e, (mem_iff_of_others hothers (by rwa [hfrom])).2 he, hslot, rfl⟩
    · rintro ⟨e, he, hslot, rfl⟩
      have hfrom : getFrom e.tx = a' := by
        injection hslot with _ hslot
        injection hslot
      exact ⟨e, (mem_iff_of_others hothers (by rwa [hfrom])).1 he, hslot, rfl⟩

theorem interval_settled (hkept : Ascending getNonce n kept) :
    AccountInterval n (runEnd getNonce n kept) fun st k => (byNonce (partOf n kept st))[k]? where
  le := le_runEnd n kept
  exec := by
    intro k
    rw [← exists_mem_run_iff, Option.isSome_iff_exists]
    simp only [getElem?_byNonce (partOf_sorted hkept .EXEC)]
    constructor
    · rintro ⟨i, tx, htx, hk, -⟩
      exact ⟨tx, htx, hk⟩
    · rintro ⟨tx, htx, hk⟩
      exact ⟨idOf tx, tx, htx, hk, rfl⟩
  nonExec := by
    intro k hk
    obtain ⟨i, hi⟩ := Option.isSome_iff_exists.1 hk
    obtain ⟨tx, htx, rfl, -⟩ := (getElem?_byNonce (partOf_sorted hkept .NON_EXEC) k i).1 hi
    exact hkept.runEnd_lt tx htx

theorem bounds_settled (h : Bounds settings s (es₀.map TxInfo.tx)) (hown : (own a es).Perm (placed n kept))
    (hothers : others a es = others a es₀) (hfits : Fits settings n kept) :
    Bounds settings (Function.update s a n) (es.map TxInfo.tx) := by
  have hmem : ∀ tx ∈ es.map TxInfo.tx, getFrom tx = a → tx ∈ kept := by
    intro tx htx hfrom
    obtain ⟨e, he, rfl⟩ := List.mem_map.1 htx
    exact mem_of_mem_partOf ((mem_partOf_iff hown).2 ⟨e, he, rfl, rfl, hfrom⟩)
  have hbefore : ∀ tx ∈ es.map TxInfo.tx, getFrom tx ≠ a → tx ∈ es₀.map TxInfo.tx := by
    intro tx htx hfrom
    obtain ⟨e, he, rfl⟩ := List.mem_map.1 htx
    exact List.mem_map_of_mem ((mem_iff_of_others hothers hfrom).1 he)
  refine ⟨?_, ?_, ?_⟩
  · intro a'
    by_cases ha : a' = a
    · subst ha
      have hperm : ((own a' es).map Prod.fst).Perm kept := by
        have hfst := hown.map Prod.fst
        rwa [map_fst_placed] at hfst
      rw [accountSlots, filter_txs_eq_own, (hperm.map txSizeInSlot).sum_eq]
      exact hfits.slots
    · have hslots := h.slots a'
      rw [accountSlots, filter_txs_eq_others es₀ ha] at hslots
      rw [accountSlots, filter_txs_eq_others es ha, hothers]
      exact hslots
  · intro tx htx
    by_cases hfrom : getFrom tx = a
    · rw [hfrom, Function.update_self]
      exact hfits.gap tx (hmem tx htx hfrom)
    · rw [Function.update_of_ne hfrom]
      exact h.gap tx (hbefore tx htx hfrom)
  · intro tx htx
    by_cases hfrom : getFrom tx = a
    · exact hfits.small tx (hmem tx htx hfrom)
    · exact h.small tx (hbefore tx htx hfrom)

theorem settled_txCache : (settled m a n kept nonces).txCache = m.txCache := by
  rw [settled, putIfNonEmpty_txCache, putIfNonEmpty_txCache, withNonces_txCache]

theorem settled_nonces : (settled m a n kept nonces).nonces = nonces := by
  rw [settled, putIfNonEmpty_nonces, putIfNonEmpty_nonces, withNonces_nonces]

theorem expected_settled (hnonces : NoncesFor a n gaveBack kept m₀.nonces nonces) (a' : Address) :
    expected (Function.update s a n) (settled m a n kept nonces) a' =
      if a' = a then runEnd getNonce n kept else expected s m₀ a' := by
  rw [expected, settled_nonces]
  by_cases ha : a' = a
  · subst ha
    rw [if_pos rfl, Function.update_self]
    rcases hnonces.cases with hsome | ⟨hnone, rfl⟩
    · rw [hsome]
      rfl
    · rw [hnone, runEnd_nil]
      rfl
  · rw [if_neg ha, Function.update_of_ne ha, hnonces.others a' ha]
    rfl

theorem inv_settled (h : Inv settings s m₀ es₀) (htaken : Taken a m₀ m)
    (hrepr : m.txCache.Repr es) (hown : (own a es).Perm (placed n kept)) (hothers : others a es = others a es₀)
    (hkept : Ascending getNonce n kept) (hfits : Fits settings n kept)
    (hnonces : NoncesFor a n gaveBack kept m₀.nonces nonces) :
    Inv settings (Function.update s a n) (settled m a n kept nonces) es := by
  refine ⟨⟨?_, index_settled_iff h.toConsistent htaken hown hothers hkept, ?_, ?_, ?_⟩, ?_⟩
  · rw [settled_txCache]
    exact hrepr
  · intro a'
    rw [expected_settled hnonces]
    simp only [index_settled _ _ htaken]
    by_cases ha : a' = a
    · subst ha
      simp only [if_true, Function.update_self]
      exact interval_settled hkept
    · simp only [ha, if_false, Function.update_of_ne ha]
      exact h.intervals a'
  · intro e he
    rw [settled_nonces]
    by_cases hfrom : getFrom e.tx = a
    · rcases hnonces.cases with hsome | ⟨-, rfl⟩
      · rw [hfrom, hsome]
        rfl
      · exact absurd ((mem_partOf_iff hown).2 ⟨e, he, rfl, rfl, hfrom⟩) (by cases e.executableStatus <;> simp [partOf])
    · rw [hnonces.others _ hfrom]
      exact h.defined e ((mem_iff_of_others hothers hfrom).1 he)
  · exact bounds_settled h.bounds hown hothers hfits
  · exact fun st a' => noEmptyMap_settled st a' htaken h.nonEmpty

end Settled

/-! ## The two routines -/

section Update

variable {settings : AccountMempoolSettings} {s : Address → ℤ} {m m' : MempoolMap Tx} {es : List (TxInfo Tx)}
  {a : Address} {n : ℤ} {kept : List Tx} {E : MempoolException → MempoolMap Tx → Prop}

/-- the pooled transactions of an account, in the order of their nonces -/
def poolOf (m : MempoolMap Tx) (a : Address) : List Tx := pooledTxs m .EXEC a ++ pooledTxs m .NON_EXEC a

/-- the account has these transactions and the state nonce `n` afterwards -/
structure Updated (settings : AccountMempoolSettings) (s : Address → ℤ) (a : Address) (n : ℤ) (gaveBack : Bool)
    (kept : List Tx)
    (m m' : MempoolMap Tx) : Prop where
  inv : ∃ es, Inv settings (Function.update s a n) m' es
  account : ∀ st, pooledTxs m' st a = partOf n kept st
  others : ∀ st a', a' ≠ a → pooledTxs m' st a' = pooledTxs m st a'
  nonces : NoncesFor a n gaveBack kept m.nonces m'.nonces

theorem Consistent.pooledTxs_eq (h : Consistent settings s m es) {st : TxExecutableStatus} {txs : List Tx}
    (hsorted : txs.Pairwise fun x y => getNonce x < getNonce y)
    (hmem : ∀ tx, tx ∈ txs ↔ ∃ e ∈ es, e.tx = tx ∧ e.executableStatus = st ∧ getFrom tx = a) :
      pooledTxs m st a = txs := by
  have hnodup : ∀ l : List Tx, l.Pairwise (fun x y => getNonce x < getNonce y) → l.Nodup := fun l hl =>
    hl.imp fun hlt heq => absurd hlt (by rw [heq]; exact lt_irrefl _)
  have hpooled := h.pooledTxs_sorted st a
  have hperm : (pooledTxs m st a).Perm txs := by
    refine (List.perm_ext_iff_of_nodup (hnodup _ hpooled) (hnodup _ hsorted)).2 fun tx => ?_
    rw [h.mem_pooledTxs, hmem]
  exact hperm.eq_of_pairwise (fun x y _ _ hxy hyx => absurd (hxy.trans hyx) (lt_irrefl _)) hpooled hsorted

theorem updated_settled {m₁ : MempoolMap Tx} {gaveBack : Bool} {nonces : AList fun _ : Address => ℤ} (h : Inv settings s m es)
    (htaken : Taken a m m₁) (hcache : CacheHolds a (others a es) (placed n kept) m₁.txCache)
    (hkept : Ascending getNonce n kept) (hfits : Fits settings n kept) (hnonces : NoncesFor a n gaveBack kept m.nonces nonces) :
    Updated settings s a n gaveBack kept m (settled m₁ a n kept nonces) := by
  obtain ⟨es', hrepr, hown, hothers⟩ := hcache
  have hinv := inv_settled h htaken hrepr hown hothers hkept hfits hnonces
  refine ⟨⟨es', hinv⟩, ?_, ?_, ?_⟩
  · intro st
    exact hinv.pooledTxs_eq (partOf_sorted hkept st) fun tx => mem_partOf_iff hown
  · intro st a' ha
    refine hinv.pooledTxs_eq (h.pooledTxs_sorted st a') fun tx => ?_
    rw [h.mem_pooledTxs]
    constructor
    · rintro ⟨e, he, rfl, hst, hfrom⟩
      exact ⟨e, (mem_iff_of_others hothers (by rwa [hfrom])).2 he, rfl, hst, hfrom⟩
    · rintro ⟨e, he, rfl, hst, hfrom⟩
      exact ⟨e, (mem_iff_of_others hothers (by rwa [hfrom])).1 he, rfl, hst, hfrom⟩
  · rw [settled_nonces]
    exact hnonces

/-! What the pool has of the account before the update. -/

theorem Inv.cacheHolds (h : Inv settings s m es) (a : Address) : CacheHolds a (others a es)
    (withStatus .EXEC (pooledTxs m .EXEC a) ++ withStatus .NON_EXEC (pooledTxs m .NON_EXEC a)) m.txCache := by
  refine ⟨es, h.repr, ?_, rfl⟩
  have hnodup : ((withStatus .EXEC (pooledTxs m .EXEC a) ++ withStatus .NON_EXEC (pooledTxs m .NON_EXEC a)).map
      Prod.fst).Nodup := by
    rw [List.map_append, map_fst_withStatus, map_fst_withStatus]
    have htxs : (es.map TxInfo.tx).Nodup := by
      refine List.Nodup.of_map idOf ?_
      rw [List.map_map]
      exact h.repr.nodup
    exact (h.pooledTxs_perm a).nodup_iff.2 (htxs.filter _)
  refine (List.perm_ext_iff_of_nodup (List.Nodup.of_map _ (nodup_own h.repr.nodup)) (List.Nodup.of_map _ hnodup)).2 ?_
  rintro ⟨tx, st⟩
  rw [mem_own, List.mem_append, mem_withStatus, mem_withStatus]
  cases st <;> simp [h.mem_pooledTxs]

theorem Inv.exec_nonces (h : Inv settings s m es) (a : Address) (k : ℤ) :
    (∃ tx ∈ pooledTxs m .EXEC a, getNonce tx = k) ↔ s a ≤ k ∧ k < expected s m a := by
  rw [← (h.intervals a).exec k, Option.isSome_iff_exists]
  constructor
  · rintro ⟨tx, htx, rfl⟩
    obtain ⟨e, he, rfl, hst, rfl⟩ := h.mem_pooledTxs.1 htx
    exact ⟨idOf e.tx, hst ▸ h.at_slot he⟩
  · rintro ⟨i, hi⟩
    obtain ⟨e, he, hst, hfrom, hnonce, -⟩ := mem_of_slot h.index hi
    exact ⟨e.tx, h.mem_pooledTxs.2 ⟨e, he, rfl, hst, hfrom⟩, hnonce⟩

theorem Inv.consecutive (h : Inv settings s m es) (a : Address) : Consecutive getNonce (s a) (pooledTxs m .EXEC a) :=
  consecutive_of_mem_iff (h.pooledTxs_sorted .EXEC a) (h.exec_nonces a)

theorem Inv.expected_eq (h : Inv settings s m es) (a : Address) :
    expected s m a = s a + (pooledTxs m .EXEC a).length := by
  have hle := (h.intervals a).le
  have hiff : ∀ k, s a ≤ k ∧ k < expected s m a ↔ s a ≤ k ∧ k < s a + (pooledTxs m .EXEC a).length := by
    intro k
    rw [← (h.consecutive a).exists_mem_iff, h.exec_nonces]
  have hlow := hiff (expected s m a)
  have hhigh := hiff (s a + (pooledTxs m .EXEC a).length)
  omega

theorem Inv.nonExec_gt (h : Inv settings s m es) {tx : Tx} (htx : tx ∈ pooledTxs m .NON_EXEC a) :
    expected s m a < getNonce tx := by
  obtain ⟨e, he, rfl, hst, rfl⟩ := h.mem_pooledTxs.1 htx
  refine (h.intervals _).nonExec (getNonce e.tx) ?_
  rw [← hst, h.at_slot he]
  rfl

theorem Inv.bounds_pooled (h : Inv settings s m es) {st : TxExecutableStatus} {tx : Tx} (htx : tx ∈ pooledTxs m st a) :
    getNonce tx ≤ getMaxAcceptableNonce settings (s a) ∧ txSizeInSlot tx ≤ MaxNumOfSlotsForTx := by
  obtain ⟨e, he, rfl, -, rfl⟩ := h.mem_pooledTxs.1 htx
  exact ⟨h.bounds.gap e.tx (List.mem_map_of_mem he), h.bounds.small e.tx (List.mem_map_of_mem he)⟩

/-! `updateAccountWithRevertedNonce` -/

/-- without the executable transactions of the account -/
def withoutExec (m : MempoolMap Tx) (a : Address) : MempoolMap Tx := m.setTxs .EXEC ((m.txs .EXEC).erase a)

/-- without all of its transactions -/
def withoutTxs (m : MempoolMap Tx) (a : Address) : MempoolMap Tx :=
  (withoutExec m a).setTxs .NON_EXEC (((withoutExec m a).txs .NON_EXEC).erase a)

omit [AccountTransaction Tx] in
theorem withCache_withCache (m : MempoolMap Tx) (c c' : TxCache Tx) : (m.withCache c).withCache c' = m.withCache c' := rfl

omit [AccountTransaction Tx] in
theorem taken_withoutTxs (m : MempoolMap Tx) (a : Address) (c : TxCache Tx) :
    Taken a m ((withoutTxs m a).withCache c) := by
  refine ⟨fun st' a' => ?_, ?_⟩
  · rw [lookup_withCache, withoutTxs, lookup_setTxs_erase, withoutExec, lookup_setTxs_erase]
    cases st' <;> simp
  · rw [withCache_nonces, withoutTxs, setTxs_nonces, withoutExec, setTxs_nonces]

theorem wp_takeExecTxs {α : Type} {f : TxIdByNonceMap → Pool Tx α} {Q : α → MempoolMap Tx → Prop}
    (h : Consistent settings s m es) (c : TxCache Tx)
    (hf : ∀ txs, txs.toList = (pooledTxs m .EXEC a).map nonceAndId → wp (f txs) Q E ((withoutExec m a).withCache c)) :
    wp (takeTxs .EXEC a >>= f) Q E (m.withCache c) := by
  simp only [takeTxs, wp_bind, wp_get, wp_modify, wp_pure]
  exact hf _ (h.toList_eq .EXEC a)

theorem wp_takeNonExecTxs {α : Type} {f : TxIdByNonceMap → Pool Tx α} {Q : α → MempoolMap Tx → Prop}
    (h : Consistent settings s m es) (c : TxCache Tx)
    (hf : ∀ txs, txs.toList = (pooledTxs m .NON_EXEC a).map nonceAndId → wp (f txs) Q E ((withoutTxs m a).withCache c)) :
    wp (takeTxs .NON_EXEC a >>= f) Q E ((withoutExec m a).withCache c) := by
  simp only [takeTxs, wp_bind, wp_get, wp_modify, wp_pure]
  exact hf _ (h.toList_eq .NON_EXEC a)

/-- the transactions of the rejected blocks and the pooled ones, in the order of their nonces -/
theorem Inv.ascending_reverted (h : Inv settings s m es) {txs : List Tx} (hcons : Consecutive getNonce n txs)
    (hlast : n + txs.length = s a) : Ascending getNonce n (txs ++ poolOf m a) := by
  have hexec := (h.consecutive a).ascending
  have htxs : ∀ x ∈ txs, getNonce x < s a := by
    intro x hx
    have hbounds := hcons.exists_mem_iff.1 ⟨x, hx, rfl⟩
    omega
  have hpool : ∀ y ∈ poolOf m a, s a ≤ getNonce y := by
    intro y hy
    rcases List.mem_append.1 hy with hy | hy
    · exact hexec.le y hy
    · have hgt := h.nonExec_gt hy
      have hle := (h.intervals a).le
      omega
  refine ⟨List.pairwise_append.2 ⟨hcons.ascending.sorted, ?_, ?_⟩, ?_⟩
  · refine List.pairwise_append.2 ⟨hexec.sorted, h.pooledTxs_sorted .NON_EXEC a, ?_⟩
    intro x hx y hy
    have hlt := ((h.exec_nonces a _).1 ⟨x, hx, rfl⟩).2
    exact hlt.trans (h.nonExec_gt hy)
  · intro x hx y hy
    exact (htxs x hx).trans_le (hpool y hy)
  · intro x hx
    rcases List.mem_append.1 hx with hx | hx
    · exact hcons.ascending.le x hx
    · have hle := hpool x hx
      omega

theorem wp_updateAccountWithRevertedNonce (h : Inv settings s m es) (getBalance : Address → ℤ) {txs : List Tx}
    (hne : txs ≠ []) (hfrom : ∀ tx ∈ txs, getFrom tx = a) (hcons : Consecutive getNonce n txs)
    (hlast : n + txs.length = s a) {Q : List Tx → MempoolMap Tx → Prop}
    (hQ : ∀ r m', Updated settings s a n true (survivors settings (getBalance a) n true (txs ++ poolOf m a)) m m' → Q r m') :
    wp (updateAccountWithRevertedNonce settings getBalance a txs) Q E m := by
  have hascending := h.ascending_reverted hcons hlast
  obtain ⟨head, tail, rfl⟩ := List.exists_cons_of_ne_nil hne
  obtain ⟨rfl, -⟩ := consecutive_cons.1 hcons
  set n := getNonce head with hn
  have hnone : ([] : List (Tx × TxExecutableStatus)).Perm (placed n []) := List.Perm.nil
  have hstart : RebuildingExec settings n true {} ([] : List Tx) n := rebuildingExec_start le_rfl
  have hreinject := @foldl_reinjectTx _ _ settings (getBalance a) _ _ _ _ _ _ hstart le_rfl hnone hcons
  rw [← survivors, hlast] at hreinject
  unfold updateAccountWithRevertedNonce
  simp only [List.head?_cons, ← hn]
  generalize (head :: tail).foldl (reinjectTx settings (getBalance a) (getMaxAcceptableNonce settings n)) ({}, []) = r
    at hreinject ⊢
  obtain ⟨v, added⟩ := r
  obtain ⟨hbuilt, hadded⟩ := hreinject
  set kept := survivors settings (getBalance a) n true (head :: tail) with hkept
  have hstart : n ≤ s a := by
    have hlength := Int.natCast_nonneg (head :: tail).length
    omega
  -- the survivors of the rejected blocks go into the cache
  have hsurvived : ∀ p ∈ added, p.1 ∈ head :: tail := by
    intro p hp
    have hmem : p.1 ∈ (placed n kept).map Prod.fst := (hadded.map Prod.fst).mem_iff.1 (List.mem_map_of_mem hp)
    rw [map_fst_placed] at hmem
    exact (survivors_sublist _).subset hmem
  have hfresh : ((withStatus .EXEC (pooledTxs m .EXEC a) ++ withStatus .NON_EXEC (pooledTxs m .NON_EXEC a) ++ added).map
      Prod.fst).Nodup := by
    have hfst := hadded.map Prod.fst
    rw [map_fst_placed] at hfst
    rw [List.map_append, List.map_append, map_fst_withStatus, map_fst_withStatus, ← poolOf]
    refine ((hfst.append_left (poolOf m a)).trans List.perm_append_comm).nodup_iff.2 ?_
    exact hascending.nodup.sublist ((survivors_sublist _).append_right _)
  rw [wp_bind]
  refine wp_addSurvivors (h.cacheHolds a) (fun p hp => hfrom p.1 (hsurvived p hp)) hfresh ?_
  intro c₁ hc₁
  -- the executable transactions
  refine wp_takeExecTxs h.toConsistent c₁ fun execTxs hexecTxs => ?_
  rw [hexecTxs, wp_bind]
  refine wp_revertExecTxs hbuilt hstart (h.consecutive a) (fun tx htx => (h.bounds_pooled htx).2)
    (hc₁.perm ((List.perm_append_comm.trans (hadded.append_right _)))) ?_
  intro v₂ c₂ hv₂ hc₂
  -- the non-executable transactions
  refine wp_takeNonExecTxs h.toConsistent c₂ fun nonExecTxs hnonExecTxs => ?_
  rw [hnonExecTxs, wp_bind]
  have hend := hv₂.runEnd_le
  rw [← h.expected_eq a] at hv₂ hend
  have hle := (h.intervals a).le
  rw [max_eq_right (hstart.trans hle)] at hend
  refine wp_revertNonExecTxs hv₂.toRebuilding (hstart.trans hle) hend (h.pooledTxs_sorted .NON_EXEC a) ?_ hc₂ ?_
  · intro tx htx
    have hgt := h.nonExec_gt htx
    exact ⟨hgt, hgt.le, (h.bounds_pooled htx).2⟩
  intro v₃ c₃ j hv₃ hc₃
  have hall : (pooledTxs m .NON_EXEC a).foldl (addSurvivor settings (getBalance a) n true)
      ((pooledTxs m .EXEC a).foldl (addSurvivor settings (getBalance a) n true) kept) =
      survivors settings (getBalance a) n true (head :: tail ++ poolOf m a) := by
    rw [poolOf, survivors_append, List.foldl_append]
  rw [hall] at hv₃ hc₃
  have htaken := taken_withoutTxs m a c₃
  simp only [wp_bind, wp_modify, wp_pure, withCache_withCache]
  rw [hv₃.exec, hv₃.nonExec, nextExecNonce_eq hv₃.ascending]
  refine hQ _ _ (updated_settled h htaken hc₃ (ascending_survivors hascending) (fits_survivors_reverted _) ?_)
  rw [htaken.nonces]
  exact noncesFor_insert a n (.inl rfl) m.nonces

/-! `updateAccountWithNewNonce` -/

theorem slotsOf_poolOf (h : Inv settings s m es) (a : Address) :
    slotsOf (poolOf m a) = accountSlots (es.map TxInfo.tx) a := h.accountSlots_eq a

/-- the pooled transactions that a later state nonce leaves are within the bounds -/
theorem Inv.fits_fromNonce (h : Inv settings s m es) (hn : s a ≤ n) : Fits settings n (fromNonce n (poolOf m a)) := by
  have hpool : Fits settings n (poolOf m a) := by
    refine ⟨(slotsOf_poolOf h a).trans_le (h.bounds.slots a), ?_, ?_⟩
    · intro tx htx
      rcases List.mem_append.1 htx with htx | htx <;>
      · have hgap := (h.bounds_pooled htx).1
        unfold getMaxAcceptableNonce at hgap ⊢
        omega
    · intro tx htx
      rcases List.mem_append.1 htx with htx | htx
      · exact (h.bounds_pooled htx).2
      · exact (h.bounds_pooled htx).2
  exact hpool.sublist List.filter_sublist

theorem Inv.ascending_fromNonce (h : Inv settings s m es) (a : Address) (n : ℤ) :
    Ascending getNonce n (fromNonce n (poolOf m a)) := by
  have hpool : Ascending getNonce (s a) ([] ++ poolOf m a) := h.ascending_reverted consecutive_nil (by simp)
  refine ⟨hpool.sorted.sublist List.filter_sublist, fun tx htx => ?_⟩
  simpa using (List.mem_filter.1 htx).2

theorem wp_updateAccountWithNewNonce (h : Inv settings s m es) (getBalance : Address → ℤ) (hn : s a ≤ n)
    {Q : List Tx → MempoolMap Tx → Prop}
    (hQ : ∀ r m', Updated settings s a n false (survivors settings (getBalance a) n false (fromNonce n (poolOf m a))) m m' →
      Q r m') :
    wp (updateAccountWithNewNonce getBalance a n) Q E m := by
  have hnear : ∀ st, ∀ tx ∈ pooledTxs m st a, getNonce tx ≤ getMaxAcceptableNonce settings n := by
    intro st tx htx
    have hgap := (h.bounds_pooled htx).1
    unfold getMaxAcceptableNonce at hgap ⊢
    omega
  unfold updateAccountWithNewNonce
  -- the executable transactions
  refine wp_takeExecTxs (m := m) h.toConsistent m.txCache fun execTxs hexecTxs => ?_
  rw [hexecTxs, wp_bind]
  refine wp_updateExecTxs (rebuildingExec_start hn) rfl (h.consecutive a) (hnear .EXEC) (h.cacheHolds a) ?_
  intro v₁ c₁ hv₁ hc₁
  -- the non-executable transactions
  refine wp_takeNonExecTxs h.toConsistent c₁ fun nonExecTxs hnonExecTxs => ?_
  rw [← h.expected_eq a] at hv₁
  rw [hnonExecTxs, wp_bind, hv₁.exec, nextExecNonce_eq hv₁.ascending]
  refine wp_updateNonExecTxs hv₁.toRebuilding rfl (h.pooledTxs_sorted .NON_EXEC a) ?_ hc₁ ?_
  · intro tx htx
    exact ⟨(h.nonExec_gt htx).le, hnear .NON_EXEC tx htx⟩
  intro v₂ c₂ j promoted hv₂ hc₂
  have hall : (fromNonce n (pooledTxs m .NON_EXEC a)).foldl (addSurvivor settings (getBalance a) n false)
      ((fromNonce n (pooledTxs m .EXEC a)).foldl (addSurvivor settings (getBalance a) n false) []) =
      survivors settings (getBalance a) n false (fromNonce n (poolOf m a)) := by
    rw [poolOf, fromNonce_append, survivors_append]
    rfl
  rw [hall] at hv₂ hc₂ ⊢
  set kept := survivors settings (getBalance a) n false (fromNonce n (poolOf m a)) with hkept
  have htaken := taken_withoutTxs m a c₂
  have hupdated : ∀ nonces, NoncesFor a n false kept m.nonces nonces →
      Updated settings s a n false kept m (settled ((withoutTxs m a).withCache c₂) a n kept nonces) := fun nonces hnonces =>
    updated_settled h htaken hc₂ (ascending_survivors (h.ascending_fromNonce a n))
      ((h.fits_fromNonce hn).sublist (survivors_sublist _)) hnonces
  simp only [hv₂.exec, hv₂.nonExec, isEmpty_byNonce, withCache_withCache]
  refine (wp_ite _).2 ⟨fun hempty => ?_, fun hsome => ?_⟩
  · -- nothing is left, and the expected nonce goes, too
    have hnil : kept = [] := by
      rw [show kept = run getNonce n kept ++ rest getNonce n kept from (run_append_rest n kept).symm]
      exact List.append_eq_nil_iff.2 ⟨List.isEmpty_iff.1 hempty.1, List.isEmpty_iff.1 hempty.2⟩
    have hgone := hupdated (m.nonces.erase a) (by rw [hnil]; exact noncesFor_erase a n m.nonces)
    rw [hnil, settled_nil] at hgone
    simp only [wp_bind, wp_modify, wp_pure, htaken.nonces]
    exact hQ _ _ (hnil ▸ hgone)
  · have hne : kept ≠ [] := by
      intro hnil
      rw [hnil] at hsome
      exact hsome ⟨rfl, rfl⟩
    simp only [wp_bind, wp_modify, wp_pure]
    refine hQ _ _ (hupdated _ ?_)
    rw [htaken.nonces]
    exact noncesFor_insert a n (.inr hne) m.nonces

end Update

end SidechainsSdk.Account.Mempool
