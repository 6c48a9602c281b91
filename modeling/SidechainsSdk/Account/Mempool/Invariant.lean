/-
The invariant of the account mempool, and `remove`.

`Inv settings s m es`: with the state nonces `s`, the pool `m` holds the entries `es`. The cache and the index agree, every
account has its interval of executable nonces, no map is empty, and the bounds per account and transaction hold.

- `AccountInterval`: the executable nonces are those from the state nonce to below the expected nonce, and the other nonces
  are above the expected nonce.
- `Consistent`: all of it but that no map is empty; the methods restore that at their end.
- `wp_remove`: a removal keeps the invariant, and takes exactly the one transaction away. The loop that demotes the followers
  has the interval cut in two: below the removed nonce and from the next nonce on.
-/
import Mathlib.Tactic
import SidechainsSdk.Account.Mempool.Index

namespace SidechainsSdk.Account.Mempool

open AccountTransaction Fallible MempoolMap Indexing TxCache

variable {Tx : Type} [AccountTransaction Tx]

/-! ## Definitions -/

/-- the slot of an entry -/
def TxInfo.slot (e : TxInfo Tx) : Slot := (e.executableStatus, getFrom e.tx, getNonce e.tx)

def TxInfo.txId (e : TxInfo Tx) : ModifierId := idOf e.tx

/-- the expected nonce of an account: the state nonce if none is recorded -/
def expected (s : Address → ℤ) (m : MempoolMap Tx) (account : Address) : ℤ :=
  (m.nonces.lookup account).getD (s account)

/-- the nonces of an account with state nonce `s` and expected nonce `n` -/
structure AccountInterval (s n : ℤ) (ix : TxExecutableStatus → ℤ → Option ModifierId) : Prop where
  le : s ≤ n
  exec : ∀ k, (ix .EXEC k).isSome ↔ s ≤ k ∧ k < n
  nonExec : ∀ k, (ix .NON_EXEC k).isSome → n < k

/-- the slots that an account uses -/
def accountSlots (txs : List Tx) (account : Address) : ℤ :=
  ((txs.filter fun tx => getFrom tx = account).map txSizeInSlot).sum

structure Bounds (settings : AccountMempoolSettings) (s : Address → ℤ) (txs : List Tx) : Prop where
  slots : ∀ a, accountSlots txs a ≤ settings.maxAccountSlots
  gap : ∀ tx ∈ txs, getNonce tx ≤ getMaxAcceptableNonce settings (s (getFrom tx))
  small : ∀ tx ∈ txs, txSizeInSlot tx ≤ MaxNumOfSlotsForTx

structure Consistent (settings : AccountMempoolSettings) (s : Address → ℤ) (m : MempoolMap Tx) (es : List (TxInfo Tx)) :
    Prop where
  repr : m.txCache.Repr es
  index : IsIndex TxInfo.slot TxInfo.txId m.index es
  intervals : ∀ a, AccountInterval (s a) (expected s m a) fun st k => m.index (st, a, k)
  defined : ∀ e ∈ es, (m.nonces.lookup (getFrom e.tx)).isSome
  bounds : Bounds settings s (es.map TxInfo.tx)

structure Inv (settings : AccountMempoolSettings) (s : Address → ℤ) (m : MempoolMap Tx) (es : List (TxInfo Tx)) : Prop
    extends Consistent settings s m es where
  nonEmpty : ∀ st a, NoEmptyMap m st a

variable {settings : AccountMempoolSettings} {s : Address → ℤ} {m : MempoolMap Tx} {es : List (TxInfo Tx)}

/-! ## Bounds -/

theorem accountSlots_append (txs txs' : List Tx) (a : Address) :
    accountSlots (txs ++ txs') a = accountSlots txs a + accountSlots txs' a := by
  simp [accountSlots]

theorem accountSlots_cons (tx : Tx) (txs : List Tx) (a : Address) :
    accountSlots (tx :: txs) a = (if getFrom tx = a then txSizeInSlot tx else 0) + accountSlots txs a := by
  by_cases ha : getFrom tx = a
  · simp [accountSlots, ha]
  · simp [accountSlots, ha]

theorem accountSlots_sublist {txs txs' : List Tx} (h : txs'.Sublist txs) (a : Address) :
    accountSlots txs' a ≤ accountSlots txs a := by
  induction h with
  | slnil => exact le_refl _
  | cons tx _ ih =>
    rw [accountSlots_cons]
    have := txSizeInSlot_nonneg tx
    split_ifs <;> omega
  | cons_cons tx _ ih =>
    rw [accountSlots_cons, accountSlots_cons]
    omega

theorem Bounds.sublist {txs txs' : List Tx} (h : Bounds settings s txs) (hsub : txs'.Sublist txs) :
    Bounds settings s txs' where
  slots := fun a => (accountSlots_sublist hsub a).trans (h.slots a)
  gap := fun tx htx => h.gap tx (hsub.subset htx)
  small := fun tx htx => h.small tx (hsub.subset htx)

omit [AccountTransaction Tx] in
theorem index_empty (slot : Slot) : (MempoolMap.empty : MempoolMap Tx).index slot = none := by
  obtain ⟨st, a, k⟩ := slot
  cases st <;> rfl

theorem inv_empty (settings : AccountMempoolSettings) (s : Address → ℤ) :
    Inv settings s (MempoolMap.empty : MempoolMap Tx) [] where
  repr := repr_empty
  index := by
    intro slot name
    rw [index_empty]
    simp
  intervals := by
    intro a
    refine ⟨le_refl _, fun k => ?_, fun k hk => ?_⟩
    · show ((MempoolMap.empty : MempoolMap Tx).index (.EXEC, a, k)).isSome ↔ s a ≤ k ∧ k < s a
      rw [index_empty]
      simp
    · rw [index_empty] at hk
      cases hk
  defined := by simp
  bounds := by
    refine ⟨fun a => ?_, by simp, by simp⟩
    simp [accountSlots]
  nonEmpty := by
    intro st a txs htxs
    cases st <;> cases htxs

/-! ## Entries and slots -/

theorem mem_of_slot {ix : Slot → Option ModifierId} (h : IsIndex TxInfo.slot TxInfo.txId ix es)
    {st : TxExecutableStatus} {a : Address} {k : ℤ} {txId : ModifierId} (hindex : ix (st, a, k) = some txId) :
    ∃ e ∈ es, e.executableStatus = st ∧ getFrom e.tx = a ∧ getNonce e.tx = k ∧ idOf e.tx = txId := by
  obtain ⟨e, he, hslot, hid⟩ := h.mem_of_eq hindex
  injection hslot with hst hslot
  injection hslot with ha hk
  exact ⟨e, he, hst, ha, hk, hid⟩

section Entries

variable (h : Consistent settings s m es)

include h

theorem Consistent.at_slot {e : TxInfo Tx} (he : e ∈ es) :
    m.index (e.executableStatus, getFrom e.tx, getNonce e.tx) = some (idOf e.tx) := h.index.at_key he

/-- an entry is executable exactly if its nonce is below the expected one -/
theorem Consistent.status_iff {e : TxInfo Tx} (he : e ∈ es) :
    e.executableStatus = .EXEC ↔ getNonce e.tx < expected s m (getFrom e.tx) := by
  have hslot := h.at_slot he
  have hinterval := h.intervals (getFrom e.tx)
  constructor
  · intro hst
    rw [hst] at hslot
    exact ((hinterval.exec _).1 (by rw [hslot]; rfl)).2
  · intro hlt
    cases hst : e.executableStatus with
    | EXEC => rfl
    | NON_EXEC =>
      rw [hst] at hslot
      have := hinterval.nonExec _ (by rw [hslot]; rfl)
      omega

theorem Consistent.nonce_ne {e : TxInfo Tx} (he : e ∈ es) : getNonce e.tx ≠ expected s m (getFrom e.tx) := by
  intro heq
  have hslot := h.at_slot he
  have hinterval := h.intervals (getFrom e.tx)
  cases hst : e.executableStatus with
  | EXEC =>
    have := (h.status_iff he).1 hst
    omega
  | NON_EXEC =>
    rw [hst] at hslot
    have := hinterval.nonExec _ (by rw [hslot]; rfl)
    omega

theorem Consistent.nonce_le {e : TxInfo Tx} (he : e ∈ es) : s (getFrom e.tx) ≤ getNonce e.tx := by
  have hslot := h.at_slot he
  have hinterval := h.intervals (getFrom e.tx)
  cases hst : e.executableStatus with
  | EXEC =>
    rw [hst] at hslot
    exact ((hinterval.exec _).1 (by rw [hslot]; rfl)).1
  | NON_EXEC =>
    rw [hst] at hslot
    have hlt := hinterval.nonExec _ (by rw [hslot]; rfl)
    exact hinterval.le.trans hlt.le

theorem Consistent.lookup_nonces {e : TxInfo Tx} (he : e ∈ es) :
    m.nonces.lookup (getFrom e.tx) = some (expected s m (getFrom e.tx)) := by
  obtain ⟨n, hn⟩ := Option.isSome_iff_exists.1 (h.defined e he)
  rw [expected, hn]
  rfl

theorem Consistent.names_nodup : (es.map TxInfo.txId).Nodup := h.repr.nodup

/-- an account without transactions has the state nonce as its expected nonce -/
theorem Consistent.expected_of_none {a : Address} (hnone : ∀ k, m.index (.EXEC, a, k) = none) :
    expected s m a = s a := by
  have hinterval := h.intervals a
  by_contra hne
  have hlt : s a < expected s m a := lt_of_le_of_ne hinterval.le (Ne.symm hne)
  have hsome := (hinterval.exec (s a)).2 ⟨le_refl _, hlt⟩
  simp only [hnone] at hsome
  cases hsome

/-- the clean-up at the end of a removal -/
theorem Consistent.dropEmptyAccount (st : TxExecutableStatus) (a : Address) :
    Consistent settings s (dropEmptyAccount st a m) es := by
  obtain ⟨nonces, heq, hnonces⟩ := dropEmptyAccount_eq m st a
  have hindex : (MempoolMap.dropEmptyAccount st a m).index = m.index := by
    rw [heq, index_withNonces, index_dropEmptyMap]
  have hexpected : expected s (MempoolMap.dropEmptyAccount st a m) = expected s m := by
    funext a'
    rw [heq]
    rcases hnonces with rfl | ⟨rfl, hnone⟩
    · rfl
    · by_cases ha : a' = a
      · subst ha
        rw [h.expected_of_none fun k => hnone .EXEC k]
        simp [expected]
      · simp [expected, AList.lookup_erase_ne ha]
  refine ⟨?_, ?_, ?_, ?_, h.bounds⟩
  · rw [heq]
    simpa using h.repr
  · rw [hindex]
    exact h.index
  · rw [hindex, hexpected]
    exact h.intervals
  · intro e he
    rw [heq]
    rcases hnonces with rfl | ⟨rfl, hnone⟩
    · exact h.defined e he
    · have hne : getFrom e.tx ≠ a := by
        intro ha
        have hslot := h.at_slot he
        rw [ha, hnone] at hslot
        cases hslot
      show ((m.nonces.erase a).lookup (getFrom e.tx)).isSome
      rw [AList.lookup_erase_ne hne]
      exact h.defined e he

end Entries

/-! ## The transactions of an account -/

/-- nonce and id of a transaction, as in the maps -/
def nonceAndId (tx : Tx) : ℤ × ModifierId := (getNonce tx, idOf tx)

/-- the pooled transactions of an account with a status, by nonce -/
def pooledTxs (m : MempoolMap Tx) (st : TxExecutableStatus) (a : Address) : List Tx :=
  (m.txsOf st a).toList.filterMap fun entry => m.txCache.getTransaction entry.2

section Pooled

variable (h : Consistent settings s m es)

include h

theorem Consistent.toList_eq (st : TxExecutableStatus) (a : Address) :
    (m.txsOf st a).toList = (pooledTxs m st a).map nonceAndId := by
  have hentry : ∀ entry ∈ (m.txsOf st a).toList, ∃ tx, m.txCache.getTransaction entry.2 = some tx ∧
      nonceAndId tx = entry := by
    intro entry hentry
    have hindex : m.index (st, a, entry.1) = some entry.2 := Std.TreeMap.mem_toList_iff_getElem?_eq_some.1 hentry
    obtain ⟨e, he, -, -, hnonce, hid⟩ := mem_of_slot h.index hindex
    refine ⟨e.tx, ?_, Prod.ext hnonce hid⟩
    rw [← hid]
    exact h.repr.getTransaction_of_mem he
  unfold pooledTxs
  generalize (m.txsOf st a).toList = l at hentry
  induction l with
  | nil => rfl
  | cons entry l ih =>
    obtain ⟨tx, htx, hkey⟩ := hentry entry List.mem_cons_self
    have hrest := ih fun x hx => hentry x (List.mem_cons_of_mem _ hx)
    rw [List.filterMap_cons, htx]
    simp only [List.map_cons, hkey]
    rw [← hrest]

theorem Consistent.mem_pooledTxs {st : TxExecutableStatus} {a : Address} {tx : Tx} :
    tx ∈ pooledTxs m st a ↔ ∃ e ∈ es, e.tx = tx ∧ e.executableStatus = st ∧ getFrom tx = a := by
  constructor
  · intro htx
    obtain ⟨entry, hentry, hget⟩ := List.mem_filterMap.1 htx
    have hindex : m.index (st, a, entry.1) = some entry.2 := Std.TreeMap.mem_toList_iff_getElem?_eq_some.1 hentry
    obtain ⟨e, he, hst, hfrom, -, hid⟩ := mem_of_slot h.index hindex
    rw [← hid, h.repr.getTransaction_of_mem he] at hget
    injection hget with hget
    subst hget
    exact ⟨e, he, rfl, hst, hfrom⟩
  · intro hmem
    obtain ⟨e, he, rfl, rfl, rfl⟩ := hmem
    refine List.mem_filterMap.2 ⟨nonceAndId e.tx, ?_, h.repr.getTransaction_of_mem he⟩
    exact Std.TreeMap.mem_toList_iff_getElem?_eq_some.2 (h.at_slot he)

theorem Consistent.pooledTxs_sorted (st : TxExecutableStatus) (a : Address) :
    (pooledTxs m st a).Pairwise fun tx tx' => getNonce tx < getNonce tx' := by
  have hordered : ((pooledTxs m st a).map nonceAndId).Pairwise fun x y => compare x.1 y.1 = .lt := by
    rw [← h.toList_eq]
    exact Std.TreeMap.ordered_keys_toList
  rw [List.pairwise_map] at hordered
  exact hordered.imp fun hlt => compare_lt_iff_lt.1 hlt

theorem Consistent.pooledTxs_perm (a : Address) :
    (pooledTxs m .EXEC a ++ pooledTxs m .NON_EXEC a).Perm ((es.map TxInfo.tx).filter fun tx => getFrom tx = a) := by
  have hnodup : ∀ st, (pooledTxs m st a).Nodup := by
    intro st
    refine (h.pooledTxs_sorted st a).imp ?_
    intro tx tx' hlt heq
    rw [heq] at hlt
    exact lt_irrefl _ hlt
  have htxs : (es.map TxInfo.tx).Nodup := by
    refine List.Nodup.of_map idOf ?_
    rw [List.map_map]
    exact h.repr.nodup
  refine (List.perm_ext_iff_of_nodup ?_ (htxs.filter _)).2 ?_
  · refine List.nodup_append.2 ⟨hnodup .EXEC, hnodup .NON_EXEC, ?_⟩
    intro tx htx tx' htx' heq
    subst heq
    obtain ⟨e, he, hetx, hst, -⟩ := h.mem_pooledTxs.1 htx
    obtain ⟨e', he', hetx', hst', -⟩ := h.mem_pooledTxs.1 htx'
    have hsame : e = e' := eq_of_id h.repr.nodup he he' (by rw [hetx, hetx'])
    rw [hsame, hst'] at hst
    cases hst
  · intro tx
    rw [List.mem_append, h.mem_pooledTxs, h.mem_pooledTxs, List.mem_filter, List.mem_map]
    constructor
    · intro hor
      rcases hor with ⟨e, he, hetx, -, hfrom⟩ | ⟨e, he, hetx, -, hfrom⟩
      · exact ⟨⟨e, he, hetx⟩, by simpa using hfrom⟩
      · exact ⟨⟨e, he, hetx⟩, by simpa using hfrom⟩
    · intro hand
      obtain ⟨⟨e, he, hetx⟩, hfrom⟩ := hand
      have hfrom' : getFrom tx = a := by simpa using hfrom
      cases hst : e.executableStatus with
      | EXEC => exact .inl ⟨e, he, hetx, hst, hfrom'⟩
      | NON_EXEC => exact .inr ⟨e, he, hetx, hst, hfrom'⟩

theorem Consistent.accountSlots_eq (a : Address) :
    ((pooledTxs m .EXEC a ++ pooledTxs m .NON_EXEC a).map txSizeInSlot).sum = accountSlots (es.map TxInfo.tx) a :=
  ((h.pooledTxs_perm a).map _).sum_eq

theorem Consistent.getAccountSlots_eq (a : Address) :
    getAccountSlots m a = .ok (accountSlots (es.map TxInfo.tx) a) := by
  have hfold : ∀ (l : List Tx) (sum : ℤ), (∀ tx ∈ l, ∃ e ∈ es, e.tx = tx) →
      (l.map nonceAndId).foldlM (fun sum entry => do
        let tx ← m.txCache.apply entry.2
        return sum + txSizeInSlot tx) sum = (.ok (sum + (l.map txSizeInSlot).sum) : Except MempoolException ℤ) := by
    intro l
    induction l with
    | nil =>
      intro sum _
      simp
      rfl
    | cons tx l ih =>
      intro sum hl
      obtain ⟨e, he, rfl⟩ := hl tx List.mem_cons_self
      have happly : m.txCache.apply (nonceAndId e.tx).2 = .ok e.tx := h.repr.apply_of_mem he
      rw [List.map_cons, List.foldlM_cons, happly]
      show (l.map nonceAndId).foldlM _ (sum + txSizeInSlot e.tx) = _
      rw [ih _ fun x hx => hl x (List.mem_cons_of_mem _ hx), List.map_cons, List.sum_cons, add_assoc]
  rw [getAccountSlots, h.toList_eq, h.toList_eq, ← List.map_append, hfold, zero_add, h.accountSlots_eq]
  intro tx htx
  rcases List.mem_append.1 htx with htx | htx
  · obtain ⟨e, he, hetx, -⟩ := h.mem_pooledTxs.1 htx
    exact ⟨e, he, hetx⟩
  · obtain ⟨e, he, hetx, -⟩ := h.mem_pooledTxs.1 htx
    exact ⟨e, he, hetx⟩

end Pooled

/-! ## The operations of the cache -/

section Cache

variable {Q : Unit → MempoolMap Tx → Prop} {E : MempoolException → MempoolMap Tx → Prop} (h : m.txCache.Repr es)

include h

theorem wp_cacheAdd {tx : Tx} {st : TxExecutableStatus} (hfresh : ∀ e ∈ es, idOf e.tx ≠ idOf tx)
    (hQ : ∀ c deadline, TxCache.Repr c (es ++ [⟨tx, st, deadline⟩]) → Q () (m.withCache c)) :
    wp (cacheAdd settings tx st) Q E m := by
  obtain ⟨c, deadline, hadd, hrepr⟩ := h.add settings.toTime tx st hfresh
  simp only [cacheAdd, wp_bind, wp_get, wp_orThrow_ok hadd, wp_modify]
  exact hQ c deadline hrepr

theorem wp_cacheRemove {Q : Option Tx → MempoolMap Tx → Prop} {e : TxInfo Tx} (he : e ∈ es)
    (hQ : ∀ c, TxCache.Repr c (withoutId (idOf e.tx) es) → Q (some e.tx) (m.withCache c)) :
    wp (cacheRemove (idOf e.tx)) Q E m := by
  obtain ⟨c, hremove, hrepr⟩ := h.remove he
  simp only [cacheRemove, wp_bind, wp_get, hremove, wp_modify, wp_pure]
  exact hQ c hrepr

theorem wp_cachePromote {Q : Tx → MempoolMap Tx → Prop} {e : TxInfo Tx} (he : e ∈ es)
    (hst : e.executableStatus = .NON_EXEC)
    (hQ : ∀ c, TxCache.Repr c (setStatus (idOf e.tx) .EXEC es) → Q e.tx (m.withCache c)) :
    wp (cachePromote (idOf e.tx)) Q E m := by
  obtain ⟨c, hpromote, hrepr⟩ := h.promoteTransaction he hst
  simp only [cachePromote, wp_bind, wp_get, wp_orThrow_ok hpromote, wp_modify, wp_pure]
  exact hQ c hrepr

theorem wp_cacheDemote {e : TxInfo Tx} (he : e ∈ es) (hst : e.executableStatus = .EXEC)
    (hQ : ∀ c, TxCache.Repr c (setStatus (idOf e.tx) .NON_EXEC es) → Q () (m.withCache c)) :
    wp (cacheDemote (idOf e.tx)) Q E m := by
  rw [cacheDemote, wp_modify]
  exact hQ _ (h.demoteTransaction he hst)

theorem wp_cacheApply {Q : Tx → MempoolMap Tx → Prop} {e : TxInfo Tx} (he : e ∈ es) (hQ : Q e.tx m) :
    wp (cacheApply (idOf e.tx)) Q E m := by
  simp only [cacheApply, wp_bind, wp_get, wp_orThrow_ok (h.apply_of_mem he)]
  exact hQ

end Cache

/-- a change of the status of an entry, in the index -/
theorem IsIndex.setStatus {ix : Slot → Option ModifierId} (h : IsIndex TxInfo.slot TxInfo.txId ix es)
    (hnodup : (es.map TxInfo.txId).Nodup) {e : TxInfo Tx} (he : e ∈ es) (st : TxExecutableStatus)
    (hfree : ix (st, getFrom e.tx, getNonce e.tx) = none) :
    IsIndex TxInfo.slot TxInfo.txId
      (Function.update (Function.update ix e.slot none) (st, getFrom e.tx, getNonce e.tx) (some (idOf e.tx)))
      (setStatus (idOf e.tx) st es) :=
  h.move hnodup he (fun x => { x with executableStatus := st }) (fun _ => rfl) hfree

/-! ## `remove` -/

/-- the loop that demotes the followers, at nonce `j`: the nonce `k` of account `a` was removed from the interval from `lo`
to below `hi` -/
structure Demoting (m₀ : MempoolMap Tx) (a : Address) (lo hi k : ℤ) (txs : List Tx) (j : ℤ) (m : MempoolMap Tx)
    (es : List (TxInfo Tx)) : Prop where
  repr : m.txCache.Repr es
  index : IsIndex TxInfo.slot TxInfo.txId m.index es
  txs : es.map TxInfo.tx = txs
  nonces : m.nonces = m₀.nonces
  frame : ∀ st a' i, a' ≠ a → m.index (st, a', i) = m₀.index (st, a', i)
  range : k < j ∧ j ≤ hi
  exec : ∀ i, (m.index (.EXEC, a, i)).isSome ↔ (lo ≤ i ∧ i < k) ∨ (j ≤ i ∧ i < hi)
  nonExec : ∀ i, (m.index (.NON_EXEC, a, i)).isSome → k < i ∧ (i < j ∨ hi < i)
  nonEmpty : ∀ st' a', ¬ (st' = .EXEC ∧ a' = a) → NoEmptyMap m st' a'

theorem demoteNext_spec {m₀ m : MempoolMap Tx} {a : Address} {lo hi k j : ℤ} {txs : List Tx} {es : List (TxInfo Tx)}
    {E : MempoolException → MempoolMap Tx → Prop} (h : Demoting m₀ a lo hi k txs j m es) :
    wp (demoteNext a j) (Iteration (fun j m => ∃ es, Demoting m₀ a lo hi k txs j m es)
      (fun _ m => (m.txsOf .EXEC a).size) (fun _ m => ∃ es, Demoting m₀ a lo hi k txs hi m es)
      (m.txsOf .EXEC a).size) E m := by
  have hrange := h.range
  simp only [demoteNext, wp_bind, wp_get]
  cases hj : (m.txsOf .EXEC a)[j]? with
  | none =>
    have hnone : ¬ (m.index (.EXEC, a, j)).isSome := by
      rw [MempoolMap.index, hj]
      simp
    have hend : j = hi := by
      by_contra hne
      exact hnone ((h.exec j).2 (.inr ⟨le_refl _, lt_of_le_of_ne hrange.2 hne⟩))
    subst hend
    exact ⟨es, h⟩
  | some txId =>
    have hindex : m.index (.EXEC, a, j) = some txId := hj
    obtain ⟨e, he, hst, hfrom, hnonce, rfl⟩ := mem_of_slot h.index hindex
    have hlt : j < hi := by
      rcases (h.exec j).1 (by rw [hindex]; rfl) with hlow | hhigh
      · omega
      · exact hhigh.2
    have hfree : m.index (.NON_EXEC, a, j) = none := by
      cases hnon : m.index (.NON_EXEC, a, j) with
      | none => rfl
      | some x =>
        have := (h.nonExec j (by rw [hnon]; rfl)).2
        omega
    have hrepr : (removeTx .EXEC a j m).txCache.Repr es := by
      rw [removeTx_txCache]
      exact h.repr
    simp only [wp_bind, wp_modify, wp_pure]
    refine wp_cacheDemote hrepr he hst ?_
    intro c hrepr'
    have hindex' : (putTx .NON_EXEC a j (idOf e.tx) ((removeTx .EXEC a j m).withCache c)).index =
        Function.update (Function.update m.index (.EXEC, a, j) none) (.NON_EXEC, a, j) (some (idOf e.tx)) := by
      rw [index_putTx, index_withCache, index_removeTx]
    refine ⟨⟨setStatus (idOf e.tx) .NON_EXEC es, ?_, ?_, ?_, ?_, ?_, ?_, ?_, ?_, ?_⟩, ?_⟩
    · rw [putTx_txCache]
      exact hrepr'
    · rw [hindex']
      have hmove := IsIndex.setStatus h.index h.repr.nodup he .NON_EXEC (by rw [hfrom, hnonce]; exact hfree)
      rw [show e.slot = (.EXEC, a, j) by rw [TxInfo.slot, hst, hfrom, hnonce], hfrom, hnonce] at hmove
      exact hmove
    · rw [setStatus_txs]
      exact h.txs
    · rw [putTx_nonces, withCache_nonces, removeTx_nonces]
      exact h.nonces
    · intro st a' i ha'
      rw [hindex', Function.update_of_ne (by simp [ha']), Function.update_of_ne (by simp [ha'])]
      exact h.frame st a' i ha'
    · omega
    · intro i
      rw [hindex', Function.update_of_ne (by simp)]
      by_cases hi : i = j
      · subst hi
        rw [Function.update_self]
        constructor
        · intro hsome
          cases hsome
        · intro hor
          omega
      · rw [Function.update_of_ne (by simpa using hi), h.exec i]
        omega
    · intro i
      rw [hindex']
      by_cases hi : i = j
      · intro _
        omega
      · rw [Function.update_of_ne (by simpa using hi), Function.update_of_ne (by simp)]
        intro hsome
        have := h.nonExec i hsome
        omega
    · intro st' a' hmap
      refine noEmptyMap_putTx _ _ _ _ _ _ _ ?_
      rw [noEmptyMap_withCache]
      exact noEmptyMap_removeTx m .EXEC st' a a' j hmap (h.nonEmpty st' a' hmap)
    · beta_reduce
      rw [txsOf_putTx_of_ne _ _ _ _ _ _ _ (by simp)]
      exact size_removeTx_lt m .EXEC a j (by rw [hindex]; rfl)

theorem demoteLoop_spec {m₀ m : MempoolMap Tx} {a : Address} {lo hi k j : ℤ} {txs : List Tx} {es : List (TxInfo Tx)}
    {E : MempoolException → MempoolMap Tx → Prop} (h : Demoting m₀ a lo hi k txs j m es) {fuel : ℕ}
    (hfuel : (m.txsOf .EXEC a).size < fuel) :
    wp (loop .endlessLoop (demoteNext a) fuel j) (fun _ m' => ∃ es', Demoting m₀ a lo hi k txs hi m' es') E m := by
  refine wp_loop (fun j m => ∃ es, Demoting m₀ a lo hi k txs j m es) (fun _ m => (m.txsOf .EXEC a).size) ?_ ⟨es, h⟩ hfuel
  intro j m hj
  obtain ⟨es, hj⟩ := hj
  exact demoteNext_spec hj

/-- the state after the loop, for the account whose transaction with nonce `k` was removed -/
theorem Demoting.interval {m₀ m : MempoolMap Tx} {a : Address} {lo hi k : ℤ} {txs : List Tx} {es : List (TxInfo Tx)}
    (h : Demoting m₀ a lo hi k txs hi m es) (hlo : lo ≤ k) : AccountInterval lo k fun st i => m.index (st, a, i) where
  le := hlo
  exec := by
    intro i
    rw [h.exec i]
    omega
  nonExec := fun i hi => (h.nonExec i hi).1

section Remove

variable (h : Inv settings s m es) {e : TxInfo Tx} (he : e ∈ es) {c : TxCache Tx}
  (hrepr : c.Repr (withoutId (idOf e.tx) es))

include h he hrepr

/-- a non-executable transaction: only its own slot changes -/
theorem Inv.removeNonExec (hst : e.executableStatus = .NON_EXEC) :
    Inv settings s (dropEmptyAccount .NON_EXEC (getFrom e.tx)
      (removeTx .NON_EXEC (getFrom e.tx) (getNonce e.tx) (m.withCache c))) (withoutId (idOf e.tx) es) := by
  have hindex : (removeTx .NON_EXEC (getFrom e.tx) (getNonce e.tx) (m.withCache c)).index =
      Function.update m.index (.NON_EXEC, getFrom e.tx, getNonce e.tx) none := by
    rw [index_removeTx, index_withCache]
  have hexpected : expected s (removeTx .NON_EXEC (getFrom e.tx) (getNonce e.tx) (m.withCache c)) = expected s m := by
    funext a
    simp [expected]
  have hconsistent : Consistent settings s (removeTx .NON_EXEC (getFrom e.tx) (getNonce e.tx) (m.withCache c))
      (withoutId (idOf e.tx) es) := by
    refine ⟨by simpa using hrepr, ?_, ?_, ?_, h.bounds.sublist (List.filter_sublist.map _)⟩
    · rw [hindex]
      have hremove := h.index.remove h.names_nodup he
      rw [show e.slot = (.NON_EXEC, getFrom e.tx, getNonce e.tx) by rw [TxInfo.slot, hst]] at hremove
      exact hremove
    · intro a
      have hinterval := h.intervals a
      rw [hindex, hexpected]
      refine ⟨hinterval.le, ?_, ?_⟩
      · intro k
        rw [Function.update_of_ne (by simp)]
        exact hinterval.exec k
      · intro k hk
        by_cases hak : (TxExecutableStatus.NON_EXEC, a, k) = (.NON_EXEC, getFrom e.tx, getNonce e.tx)
        · rw [hak, Function.update_self] at hk
          cases hk
        · rw [Function.update_of_ne hak] at hk
          exact hinterval.nonExec k hk
    · intro x hx
      rw [removeTx_nonces, withCache_nonces]
      exact h.defined x (List.mem_filter.1 hx).1
  refine ⟨hconsistent.dropEmptyAccount .NON_EXEC _, noEmptyMap_dropEmptyAccount ?_⟩
  intro st' a' hother
  refine noEmptyMap_removeTx _ _ _ _ _ _ hother ?_
  rw [noEmptyMap_withCache]
  exact h.nonEmpty st' a'

/-- the state in which the loop starts -/
theorem Inv.demoting_start (hst : e.executableStatus = .EXEC) :
    Demoting (putNonce (getFrom e.tx) (getNonce e.tx) m) (getFrom e.tx) (s (getFrom e.tx)) (expected s m (getFrom e.tx))
      (getNonce e.tx) ((withoutId (idOf e.tx) es).map TxInfo.tx) (getNonce e.tx + 1)
      (putNonce (getFrom e.tx) (getNonce e.tx) (removeTx .EXEC (getFrom e.tx) (getNonce e.tx) (m.withCache c)))
      (withoutId (idOf e.tx) es) := by
  have hinterval := h.intervals (getFrom e.tx)
  have hlt := (h.status_iff he).1 hst
  have hlo := h.nonce_le he
  have hindex : (putNonce (getFrom e.tx) (getNonce e.tx)
      (removeTx .EXEC (getFrom e.tx) (getNonce e.tx) (m.withCache c))).index =
      Function.update m.index (.EXEC, getFrom e.tx, getNonce e.tx) none := by
    rw [putNonce, index_withNonces, index_removeTx, index_withCache]
  refine ⟨by simpa [putNonce] using hrepr, ?_, rfl, by simp [putNonce], ?_, ⟨by omega, by omega⟩, ?_, ?_, ?_⟩
  · rw [hindex]
    have hremove := h.index.remove h.names_nodup he
    rw [show e.slot = (.EXEC, getFrom e.tx, getNonce e.tx) by rw [TxInfo.slot, hst]] at hremove
    exact hremove
  · intro st a' i ha'
    rw [hindex, Function.update_of_ne (by simp [ha']), putNonce, index_withNonces]
  · intro i
    rw [hindex]
    by_cases hi : i = getNonce e.tx
    · subst hi
      rw [Function.update_self]
      constructor
      · intro hsome
        cases hsome
      · intro hor
        omega
    · have hiff := hinterval.exec i
      rw [Function.update_of_ne (by simpa using hi), hiff]
      omega
  · intro i hi
    rw [hindex, Function.update_of_ne (by simp)] at hi
    have := hinterval.nonExec i hi
    omega
  · intro st' a' hother
    rw [putNonce, noEmptyMap_withNonces]
    refine noEmptyMap_removeTx _ _ _ _ _ _ hother ?_
    rw [noEmptyMap_withCache]
    exact h.nonEmpty st' a'

omit hrepr in
/-- the state in which the loop ends -/
theorem Inv.demoting_end {m' : MempoolMap Tx} {es' : List (TxInfo Tx)}
    (h' : Demoting (putNonce (getFrom e.tx) (getNonce e.tx) m) (getFrom e.tx) (s (getFrom e.tx))
      (expected s m (getFrom e.tx)) (getNonce e.tx) ((withoutId (idOf e.tx) es).map TxInfo.tx)
      (expected s m (getFrom e.tx)) m' es') :
    Inv settings s (dropEmptyAccount .EXEC (getFrom e.tx) m') es' := by
  have hlo := h.nonce_le he
  have hconsistent : Consistent settings s m' es' := by
    refine ⟨h'.repr, h'.index, ?_, ?_, ?_⟩
    · intro a
      by_cases ha : a = getFrom e.tx
      · subst ha
        have hexpected : expected s m' (getFrom e.tx) = getNonce e.tx := by
          rw [expected, h'.nonces]
          simp [putNonce]
        rw [hexpected]
        exact h'.interval hlo
      · have hexpected : expected s m' a = expected s m a := by
          rw [expected, h'.nonces]
          simp [putNonce, expected, AList.lookup_insert_ne ha]
        have hindex : ∀ st k, m'.index (st, a, k) = m.index (st, a, k) := by
          intro st k
          rw [h'.frame st a k ha, putNonce, index_withNonces]
        rw [hexpected]
        simp only [hindex]
        exact h.intervals a
    · intro x hx
      rw [h'.nonces]
      show ((m.nonces.insert (getFrom e.tx) (getNonce e.tx)).lookup (getFrom x.tx)).isSome
      by_cases ha : getFrom x.tx = getFrom e.tx
      · rw [ha, AList.lookup_insert]
        rfl
      · rw [AList.lookup_insert_ne ha]
        have hmem : x.tx ∈ (withoutId (idOf e.tx) es).map TxInfo.tx := h'.txs ▸ List.mem_map_of_mem hx
        obtain ⟨y, hy, hyx⟩ := List.mem_map.1 hmem
        rw [← hyx]
        exact h.defined y (List.mem_filter.1 hy).1
    · rw [h'.txs]
      exact h.bounds.sublist (List.filter_sublist.map _)
  exact ⟨hconsistent.dropEmptyAccount .EXEC _, noEmptyMap_dropEmptyAccount h'.nonEmpty⟩

end Remove

theorem withoutId_absent {txId : ModifierId} (hid : ∀ e ∈ es, idOf e.tx ≠ txId) : withoutId txId es = es :=
  List.filter_eq_self.2 (by simpa using hid)

/-- **Removal.** The invariant is kept. The transaction with the id is gone, and if it was not executable then nothing else
has changed. -/
theorem wp_remove (h : Inv settings s m es) (tx : Tx) {Q : Unit → MempoolMap Tx → Prop}
    {E : MempoolException → MempoolMap Tx → Prop}
    (hQ : ∀ m' es', Inv settings s m' es' → es'.map TxInfo.tx = (withoutId (idOf tx) es).map TxInfo.tx →
      ((∀ e ∈ es, e.tx = tx → e.executableStatus = .NON_EXEC) → es' = withoutId (idOf tx) es) → Q () m') :
    wp (remove tx) Q E m := by
  unfold remove
  rw [wp_bind]
  by_cases hmem : ∃ e ∈ es, idOf e.tx = idOf tx
  · obtain ⟨e, he, hid⟩ := hmem
    obtain rfl : e.tx = tx := id_injective hid
    refine wp_cacheRemove h.repr he ?_
    intro c hrepr
    have hslot := h.at_slot he
    have hne := h.nonce_ne he
    have hstatus := h.status_iff he
    have hmap : ((m.withCache c).txs e.executableStatus).lookup (getFrom e.tx) ≠ none := by
      obtain ⟨txs, htxs⟩ := lookup_of_index (m.withCache c) e.executableStatus (getFrom e.tx)
        (by rw [index_withCache, hslot]; rfl)
      rw [htxs]
      exact Option.some_ne_none txs
    simp only [Option.isSome_some, if_true, wp_bind, wp_get, withCache_nonces, h.lookup_nonces he]
    by_cases hlt : expected s m (getFrom e.tx) < getNonce e.tx
    · have hst : e.executableStatus = .NON_EXEC := by
        cases hst : e.executableStatus with
        | EXEC =>
          have := hstatus.1 hst
          omega
        | NON_EXEC => rfl
      rw [hst] at hmap
      have hmap' : ((m.withCache c).nonExecutableTxs.lookup (getFrom e.tx)).isSome := Option.isSome_iff_ne_none.2 hmap
      simp only [hlt, if_true, hmap', wp_bind, wp_modify]
      exact hQ _ _ (h.removeNonExec he hrepr hst) rfl fun _ => rfl
    · have hst : e.executableStatus = .EXEC := hstatus.2 (by omega)
      rw [hst] at hmap
      have hmap' : ((m.withCache c).executableTxs.lookup (getFrom e.tx)).isSome := Option.isSome_iff_ne_none.2 hmap
      simp only [hlt, if_false, hmap', if_true, wp_bind, wp_modify]
      have hstart := h.demoting_start he hrepr hst
      have hfuel : ((putNonce (getFrom e.tx) (getNonce e.tx)
          (removeTx .EXEC (getFrom e.tx) (getNonce e.tx) (m.withCache c))).txsOf .EXEC (getFrom e.tx)).size <
          ((m.withCache c).txsOf .EXEC (getFrom e.tx)).size + 1 := by
        have hsize := size_removeTx_lt (m.withCache c) .EXEC (getFrom e.tx) (getNonce e.tx)
          (by rw [index_withCache, ← hst, hslot]; rfl)
        exact Nat.lt_succ_of_lt hsize
      refine wp_mono (demoteLoop_spec hstart hfuel) ?_ (fun _ _ h' => h')
      intro j m' hend
      obtain ⟨es', hend⟩ := hend
      refine hQ _ es' (h.demoting_end he hend) hend.txs ?_
      intro hnon
      have hnon' := hnon e he rfl
      rw [hst] at hnon'
      cases hnon'
  · push Not at hmem
    simp only [cacheRemove, wp_bind, wp_get, h.repr.remove_absent hmem, wp_modify, wp_pure]
    have hsame : withoutId (idOf tx) es = es := withoutId_absent hmem
    refine hQ _ es ?_ (by rw [hsame]) (fun _ => hsame.symm)
    exact h

end SidechainsSdk.Account.Mempool
