/-
Runs of the account mempool: transactions are added and removed, and blocks change the state nonces.

Between two calls the state nonces stay as they are; `updateMemPool` is called with the blocks that have changed them. Every call
keeps the invariant and the limits, so every pool reached from the empty one has them.

- `Reached`: the state nonces and the pools that are reached. `Reached.inv`: each has the invariant and is within its limits.
- `Represented`: the invariant in terms of the five structures. `reached_represented`: every pool reached has it.
- `Limited`: the sizes and their limits. `reached_limited`: the same for these, and no operation runs into the end of the list.
- `rejected_add_unchanged_iff`: when a refused transaction leaves the pool as it was.
-/
import Mathlib.Tactic
import SidechainsSdk.Account.Mempool.Eviction
import SidechainsSdk.Account.Mempool.Adding
import SidechainsSdk.Account.Mempool.ReorgUpdate

namespace SidechainsSdk.Account.Mempool

open AccountTransaction Fallible MempoolMap Indexing TxCache ConsecutiveRun

variable {Tx : Type} [AccountTransaction Tx] {settings : AccountMempoolSettings} {s : Address → ℤ} {m : MempoolMap Tx}
  {es : List (TxInfo Tx)}

/-! ## Runs -/

/-- the pools reached from the empty one, with the state nonces at that time -/
inductive Reached (settings : AccountMempoolSettings) : (Address → ℤ) → MempoolMap Tx → Prop
  | empty (s : Address → ℤ) : Reached settings s MempoolMap.empty
  | added {s : Address → ℤ} {m : MempoolMap Tx} (h : Reached settings s m) (tx : Tx) :
      Reached settings s (exec (add settings s tx) m).2
  | removed {s : Address → ℤ} {m : MempoolMap Tx} (h : Reached settings s m) (tx : Tx) :
      Reached settings s (exec (removeFromMempool settings tx) m).2
  | updated {s s' : Address → ℤ} {m : MempoolMap Tx} (h : Reached settings s m)
      {rejectedBlocks appliedBlocks : List (List Tx)}
      (hswitch : Switches s s' rejectedBlocks appliedBlocks) (order : UpdateOrder Tx) (getBalance : Address → ℤ) :
      Reached settings s' (exec (updateMemPool settings order getBalance rejectedBlocks appliedBlocks) m).2

omit [AccountTransaction Tx] in
theorem limits_empty (settings : AccountMempoolSettings) : Limits settings (MempoolMap.empty : MempoolMap Tx) :=
  ⟨Int.natCast_nonneg _, Int.natCast_nonneg _⟩

/-- **Runs.** By induction on the run; every operation keeps the invariant and the limits. -/
theorem Reached.inv (h : Reached settings s m) : (∃ es, Inv settings s m es) ∧ Limits settings m := by
  induction h with
  | empty s => exact ⟨⟨[], inv_empty settings s⟩, limits_empty settings⟩
  | @added s m _ tx ih =>
    obtain ⟨⟨es, hinv⟩, hlimits⟩ := ih
    have hkept : wp (add settings s tx) (fun _ m' => (∃ es', Inv settings s m' es') ∧ Limits settings m')
        (fun _ m' => (∃ es', Inv settings s m' es') ∧ Limits settings m') m := by
      refine wp_mono (add_keeps hinv tx) ?_ ?_
      · intro _ m' hm'
        exact ⟨hm'.1, hm'.2 hlimits⟩
      · intro _ m' hm'
        obtain ⟨es', hinv', hlimits'⟩ := hm'
        exact ⟨⟨es', hinv'⟩, hlimits' hlimits⟩
    exact wp_state_iff.1 hkept
  | @removed s m _ tx ih =>
    obtain ⟨⟨es, hinv⟩, hlimits⟩ := ih
    have hkept : wp (removeFromMempool settings tx) (fun _ m' => (∃ es', Inv settings s m' es') ∧ Limits settings m')
        (fun _ m' => (∃ es', Inv settings s m' es') ∧ Limits settings m') m :=
      wp_removeFromMempool hinv hlimits tx fun m' es' hinv' hlimits' => ⟨⟨es', hinv'⟩, hlimits'⟩
    exact wp_state_iff.1 hkept
  | @updated s s' m _ rejectedBlocks appliedBlocks hswitch order getBalance ih =>
    obtain ⟨⟨es, hinv⟩, -⟩ := ih
    have hkept : wp (updateMemPool settings order getBalance rejectedBlocks appliedBlocks)
        (fun _ m' => (∃ es', Inv settings s' m' es') ∧ Limits settings m')
        (fun _ m' => (∃ es', Inv settings s' m' es') ∧ Limits settings m') m :=
      wp_updateMemPool hinv hswitch order getBalance
    exact wp_state_iff.1 hkept

/-! ## Representation -/

/-- what the five structures have in common -/
structure Represented (s : Address → ℤ) (m : MempoolMap Tx) : Prop where
  exec : ∀ a n, m.nonces.lookup a = some n → s a ≤ n ∧ ∀ k : ℤ, ((m.txsOf .EXEC a)[k]?).isSome ↔ s a ≤ k ∧ k < n
  nonExec : ∀ a n, m.nonces.lookup a = some n → ∀ k : ℤ, ((m.txsOf .NON_EXEC a)[k]?).isSome → n < k
  unknown : ∀ a, m.nonces.lookup a = none → ∀ st, (m.txs st).lookup a = none
  distinct : ∀ st a st' a' (k k' : ℤ) txId, (m.txsOf st a)[k]? = some txId → (m.txsOf st' a')[k']? = some txId →
    st = st' ∧ a = a' ∧ k = k'
  cached : ∀ st a (k : ℤ) txId, (m.txsOf st a)[k]? = some txId → ∃ info, m.txCache.all.lookup txId = some info ∧
    info.value.executableStatus = st ∧ getFrom info.value.tx = a ∧ getNonce info.value.tx = k
  stored : ∀ txId info, m.txCache.all.lookup txId = some info → idOf info.value.tx = txId ∧
    (m.txsOf info.value.executableStatus (getFrom info.value.tx))[getNonce info.value.tx]? = some txId
  nonEmpty : ∀ st a txs, (m.txs st).lookup a = some txs → txs.isEmpty = false

theorem Inv.represented (h : Inv settings s m es) : Represented s m where
  exec := by
    intro a n hn
    have hinterval := h.intervals a
    rw [expected, hn] at hinterval
    exact ⟨hinterval.le, hinterval.exec⟩
  nonExec := by
    intro a n hn
    have hinterval := h.intervals a
    rw [expected, hn] at hinterval
    exact hinterval.nonExec
  unknown := by
    intro a hnone st
    cases hlookup : (m.txs st).lookup a with
    | none => rfl
    | some txs =>
      -- the map is not empty, and its first transaction defines an expected nonce
      have hfull := h.nonEmpty st a txs hlookup
      obtain ⟨k, hk⟩ : ∃ k, k ∈ txs := by
        by_contra hno
        push Not at hno
        rw [Std.TreeMap.isEmpty_iff_forall_not_mem.2 hno] at hfull
        cases hfull
      obtain ⟨txId, htxId⟩ := Option.isSome_iff_exists.1 (Std.TreeMap.isSome_getElem?_iff_mem.2 hk)
      have hindex : m.index (st, a, k) = some txId := by
        rw [MempoolMap.index, txsOf, hlookup]
        exact htxId
      obtain ⟨e, he, hslot, -⟩ := h.index.mem_of_eq hindex
      have hfrom : getFrom e.tx = a := congrArg (fun slot : Slot => slot.2.1) hslot
      have hdefined := h.defined e he
      rw [hfrom, hnone] at hdefined
      cases hdefined
  distinct := by
    intro st a st' a' k k' txId hk hk'
    obtain ⟨e, he, hslot, hid⟩ := h.index.mem_of_eq (k := (st, a, k)) hk
    obtain ⟨e', he', hslot', hid'⟩ := h.index.mem_of_eq (k := (st', a', k')) hk'
    obtain rfl := eq_of_id h.repr.nodup he he' (hid.trans hid'.symm)
    have hsame := hslot.symm.trans hslot'
    exact ⟨congrArg Prod.fst hsame, congrArg (fun slot : Slot => slot.2.1) hsame,
      congrArg (fun slot : Slot => slot.2.2) hsame⟩
  cached := by
    intro st a k txId hk
    obtain ⟨e, he, hslot, hid⟩ := h.index.mem_of_eq (k := (st, a, k)) hk
    obtain ⟨info, hinfo, rfl⟩ := h.repr.lookup_of_mem he
    rw [show idOf info.value.tx = txId from hid] at hinfo
    exact ⟨info, hinfo, congrArg Prod.fst hslot, congrArg (fun slot : Slot => slot.2.1) hslot,
      congrArg (fun slot : Slot => slot.2.2) hslot⟩
  stored := by
    intro txId info hinfo
    obtain ⟨he, rfl⟩ := h.repr.mem_of_lookup hinfo
    exact ⟨rfl, h.at_slot he⟩
  nonEmpty := h.nonEmpty

/-- **Representation.** Every pool that is reached: of every account the executable nonces are those from the state nonce to below
the expected one, the maps hold the ids in the cache, each once and at its own place, and no map is empty. -/
theorem reached_represented (h : Reached settings s m) : Represented s m := by
  obtain ⟨⟨es, hinv⟩, -⟩ := h.inv
  exact hinv.represented

/-- an account from which two transactions have come -/
theorem represented_twoTxs : Represented (fun _ => 0)
    (exec (add smallSettings (fun _ => 0) (⟨111⟩ : DigitsTx))
      (exec (add smallSettings (fun _ => 0) (⟨101⟩ : DigitsTx)) MempoolMap.empty).2).2 := by
  have hempty : Reached smallSettings (fun _ => 0) (MempoolMap.empty : MempoolMap DigitsTx) := .empty _
  exact reached_represented ((hempty.added ⟨101⟩).added ⟨111⟩)

/-! ## Limits -/

/-- the sizes and their limits -/
structure Limited (settings : AccountMempoolSettings) (s : Address → ℤ) (m : MempoolMap Tx) : Prop where
  size : getMempoolSizeInSlots m = slots m.txCache.infos ∧ getMempoolSizeInSlots m ≤ settings.maxMemPoolSlots
  nonExec : getNonExecSubpoolSizeInSlots m = nonExecSlots m.txCache.infos ∧
    getNonExecSubpoolSizeInSlots m ≤ settings.maxNonExecMemPoolSlots
  account : ∀ a, ∃ n, getAccountSlots m a = .ok n ∧ n ≤ settings.maxAccountSlots
  gap : ∀ e ∈ m.txCache.infos, getNonce e.tx ≤ s (getFrom e.tx) + settings.maxNonceGap - 1

theorem slots_perm {es es' : List (TxInfo Tx)} (h : es.Perm es') : slots es = slots es' := (h.map _).sum_eq

theorem Inv.limited (h : Inv settings s m es) (hlimits : Limits settings m) : Limited settings s m where
  size := ⟨h.size_eq.trans (slots_perm h.repr.infos_perm).symm, hlimits.size⟩
  nonExec := ⟨h.nonExecSize_eq.trans (slots_perm (h.repr.infos_perm.filter _)).symm, hlimits.nonExec⟩
  account := fun a => ⟨_, h.getAccountSlots_eq a, h.bounds.slots a⟩
  gap := by
    intro e he
    have hgap := h.bounds.gap e.tx (List.mem_map_of_mem (h.repr.infos_perm.mem_iff.1 he))
    unfold getMaxAcceptableNonce maxAllowedNonceGap at hgap
    omega

/-- an added transaction is refused at most by one of the checks, or because there is nothing to replace -/
theorem Inv.add_refuses (h : Inv settings s m es) (tx : Tx) :
    wp (add settings s tx) (fun _ _ => True) (fun e _ => Refused e) m :=
  wp_add h (fun _ _ _ _ _ _ _ _ _ _ _ => trivial) (fun _ hrefused _ => hrefused) (fun _ => trivial)
    fun _ hrefused _ => hrefused

/-- **Limits.** In every pool that is reached the counters are the sums over the cache and within their limits, and so are the
accounts. From it no operation runs into the end of the list: what is removed or updated does not throw, and `add` throws its
refusals only. The eviction loops end from any pool with the invariant that is over the limit. -/
theorem reached_limited (h : Reached settings s m) :
    Limited settings s m ∧
    (∀ tx e m', exec (add settings s tx) m = (.error e, m') → Refused e) ∧
    (∀ tx, ∃ m', exec (removeFromMempool settings tx) m = (.ok (), m')) ∧
    (∀ s' rejectedBlocks appliedBlocks, Switches s s' rejectedBlocks appliedBlocks → ∀ order getBalance,
      ∃ r m', exec (updateMemPool settings order getBalance rejectedBlocks appliedBlocks) m = (.ok r, m')) ∧
    ∀ (s₁ : Address → ℤ) (m₁ : MempoolMap Tx) es₁, Inv settings s₁ m₁ es₁ →
      (settings.maxMemPoolSlots < getMempoolSizeInSlots m₁ → ∃ m', exec (freeMempoolSlots settings) m₁ = (.ok (), m')) ∧
      (settings.maxNonExecMemPoolSlots < getNonExecSubpoolSizeInSlots m₁ →
        ∃ m', exec (freeNonExecSubpoolSlots settings) m₁ = (.ok (), m')) := by
  obtain ⟨⟨es, hinv⟩, hlimits⟩ := h.inv
  refine ⟨hinv.limited hlimits, ?_, ?_, ?_, ?_⟩
  · intro tx e m' hadd
    have hrefused := wp_error (hinv.add_refuses tx) hadd
    exact hrefused
  · intro tx
    have hremoved : wp (removeFromMempool settings tx) (fun _ _ => True) (fun _ _ => False) m :=
      wp_removeFromMempool hinv hlimits tx fun _ _ _ _ => trivial
    obtain ⟨⟨⟩, m', hexec, -⟩ := wp_total_iff.1 hremoved
    exact ⟨m', hexec⟩
  · intro s' rejectedBlocks appliedBlocks hswitch order getBalance
    obtain ⟨r, m', hexec, -⟩ := wp_total_iff.1 (wp_updateMemPool hinv hswitch order getBalance)
    exact ⟨r, m', hexec⟩
  · intro s₁ m₁ es₁ hinv₁
    refine ⟨fun hover => ?_, fun hover => ?_⟩
    · have hfreed : wp (freeMempoolSlots settings) (fun _ _ => True) (fun _ _ => False) m₁ :=
        wp_freeMempoolSlots hinv₁ hover fun _ _ => trivial
      obtain ⟨⟨⟩, m', hexec, -⟩ := wp_total_iff.1 hfreed
      exact ⟨m', hexec⟩
    · have hfreed : wp (freeNonExecSubpoolSlots settings) (fun _ _ => True) (fun _ _ => False) m₁ :=
        wp_freeNonExecSubpoolSlots hinv₁ hover fun _ _ => trivial
      obtain ⟨⟨⟩, m', hexec, -⟩ := wp_total_iff.1 hfreed
      exact ⟨m', hexec⟩

def tightSettings : AccountMempoolSettings :=
  { smallSettings with maxAccountSlots := 2, maxMemPoolSlots := 3, maxNonExecMemPoolSlots := 1 }

/-- The third transaction is one too many for the non-executable ones and evicts the second. The fifth is one too many for the
pool and evicts the first, and the third goes as well, because the fourth is not executable without the first. -/
theorem limited_evicting :
    Limited tightSettings (fun _ => 0)
      (poolWith tightSettings (fun _ => 0) ([⟨101⟩, ⟨121⟩, ⟨221⟩, ⟨111⟩, ⟨301⟩] : List DigitsTx)) ∧
      (poolWith tightSettings (fun _ => 0)
        ([⟨101⟩, ⟨121⟩, ⟨221⟩, ⟨111⟩, ⟨301⟩] : List DigitsTx)).txCache.infos.map
        (fun info => info.tx.id) = [111, 301] := by
  have hempty : Reached tightSettings (fun _ => 0) (MempoolMap.empty : MempoolMap DigitsTx) := .empty _
  have hreached := ((((hempty.added ⟨101⟩).added ⟨121⟩).added ⟨221⟩).added ⟨111⟩).added ⟨301⟩
  exact ⟨(reached_limited hreached).1, by decide +kernel⟩

/-! ## Refused transactions -/

/-- the two pools hold the same; the expected nonces are compared as a map -/
structure SamePool (m m' : MempoolMap Tx) : Prop where
  txCache : m'.txCache = m.txCache
  executableTxs : m'.executableTxs = m.executableTxs
  nonExecutableTxs : m'.nonExecutableTxs = m.nonExecutableTxs
  nonces : ∀ a, m'.nonces.lookup a = m.nonces.lookup a

/-- the first transaction of an account, with a nonce below the state nonce and nothing else wrong with it -/
structure FirstTooLow (settings : AccountMempoolSettings) (s : Address → ℤ) (m : MempoolMap Tx) (tx : Tx) : Prop where
  first : m.nonces.lookup (getFrom tx) = none
  low : getNonce tx < s (getFrom tx)
  small : size tx ≤ MaxTxSize
  slots : txSizeInSlot tx ≤ settings.maxAccountSlots

theorem Inv.low_of_refusedLate (h : Inv settings s m es) {tx : Tx} (hlate : RefusedLate settings s m es tx) :
    getNonce tx < s (getFrom tx) := by
  by_contra hle
  have hexec := ((h.intervals (getFrom tx)).exec (getNonce tx)).2 ⟨not_lt.1 hle, hlate.nonce⟩
  obtain ⟨txId, hid⟩ := Option.isSome_iff_exists.1 hexec
  obtain ⟨e, he, hslot, -⟩ := h.index.mem_of_eq hid
  exact hlate.free e he ⟨congrArg (fun slot : Slot => slot.2.1) hslot, congrArg (fun slot : Slot => slot.2.2) hslot⟩

theorem Inv.refusedLate_iff (h : Inv settings s m es) {tx : Tx} (hfirst : m.nonces.lookup (getFrom tx) = none) :
    RefusedLate settings s m es tx ↔ FirstTooLow settings s m tx := by
  have hnone : ∀ e ∈ es, getFrom e.tx ≠ getFrom tx := by
    intro e he hfrom
    have hdefined := h.defined e he
    rw [hfrom, hfirst] at hdefined
    cases hdefined
  have hslots : accountSlots (es.map TxInfo.tx) (getFrom tx) = 0 := by
    have hnil : (es.map TxInfo.tx).filter (fun x => getFrom x = getFrom tx) = [] := by
      refine List.filter_eq_nil_iff.2 fun x hx hfrom => ?_
      obtain ⟨e, he, rfl⟩ := List.mem_map.1 hx
      exact hnone e he (by simpa using hfrom)
    rw [accountSlots, hnil]
    rfl
  constructor
  · intro hlate
    have hfits := hlate.slots
    rw [hslots, zero_add] at hfits
    exact ⟨hfirst, h.low_of_refusedLate hlate, hlate.small, hfits⟩
  · intro hlow
    refine ⟨hlow.small, ?_, ?_, fun e he hslot => hnone e he hslot.1, ?_⟩
    · rw [expected, hfirst]
      exact hlow.low
    · have hlt := hlow.low
      unfold getMaxAcceptableNonce maxAllowedNonceGap
      omega
    · rw [hslots, zero_add]
      exact hlow.slots

/-- **Refused transactions.** They leave the pool as it was, but for the first transaction of an account with a nonce below the
state nonce: it defines an expected nonce before there turns out to be nothing to replace. -/
theorem rejected_add_unchanged_iff (h : Reached settings s m) {tx : Tx} {e : MempoolException} {m' : MempoolMap Tx}
    (hadd : exec (add settings s tx) m = (.error e, m')) : SamePool m m' ↔ ¬ FirstTooLow settings s m tx := by
  obtain ⟨⟨es, hinv⟩, -⟩ := h.inv
  have hcases : wp (add settings s tx) (fun _ _ => True) (fun _ m' => ¬ RefusedLate settings s m es tx ∧ m' = m ∨
      RefusedLate settings s m es tx ∧ m' = putNonce (getFrom tx) (expected s m (getFrom tx)) m) m :=
    wp_add hinv (fun _ _ _ _ _ _ _ _ _ _ _ => trivial) (fun _ _ hlate => .inr ⟨hlate, rfl⟩) (fun _ => trivial)
      fun _ _ hearly => .inl ⟨hearly, rfl⟩
  rcases wp_error hcases hadd with ⟨hearly, rfl⟩ | ⟨hlate, rfl⟩
  · refine iff_of_true ⟨rfl, rfl, rfl, fun _ => rfl⟩ fun hlow => hearly ?_
    exact (hinv.refusedLate_iff hlow.first).2 hlow
  · cases hlookup : m.nonces.lookup (getFrom tx) with
    | none =>
      refine iff_of_false (fun hsame => ?_) (not_not.2 ((hinv.refusedLate_iff hlookup).1 hlate))
      have hnonce := hsame.nonces (getFrom tx)
      rw [hlookup, putNonce, withNonces, AList.lookup_insert] at hnonce
      cases hnonce
    | some n =>
      refine iff_of_true ⟨rfl, rfl, rfl, fun a => ?_⟩ fun hlow => ?_
      · rw [putNonce, withNonces, expected, hlookup]
        by_cases ha : a = getFrom tx
        · rw [ha, AList.lookup_insert, hlookup]
          rfl
        · rw [AList.lookup_insert_ne ha]
      · rw [hlow.first] at hlookup
        cases hlookup

/-- a transaction with nonce 0 of an account with state nonce 5 -/
theorem rejected_add_defines_nonce :
    Reached smallSettings (fun _ => 5) (MempoolMap.empty : MempoolMap DigitsTx) ∧
    ∃ m', exec (add smallSettings (fun _ => 5) (⟨101⟩ : DigitsTx)) MempoolMap.empty =
      (.error (.noSuchElement "executableTxs(account)"), m') ∧ m'.nonces.lookup 1 = some 5 ∧
      (MempoolMap.empty : MempoolMap DigitsTx).nonces.lookup 1 = none :=
  ⟨.empty _, _, rfl, rfl, rfl⟩

theorem rejected_add_sameDigits :
    SamePool (exec (add smallSettings (fun _ => 0) (⟨102⟩ : DigitsTx)) MempoolMap.empty).2
      (exec (add smallSettings (fun _ => 0) (⟨101⟩ : DigitsTx))
        (exec (add smallSettings (fun _ => 0) (⟨102⟩ : DigitsTx)) MempoolMap.empty).2).2 := by
  have hempty : Reached smallSettings (fun _ => 0) (MempoolMap.empty : MempoolMap DigitsTx) := .empty _
  have hadd : exec (add smallSettings (fun _ => 0) (⟨101⟩ : DigitsTx))
      (exec (add smallSettings (fun _ => 0) (⟨102⟩ : DigitsTx)) MempoolMap.empty).2 =
      (.error (.transactionReplaceUnderpriced 101), (exec (add smallSettings (fun _ => 0) (⟨101⟩ : DigitsTx))
        (exec (add smallSettings (fun _ => 0) (⟨102⟩ : DigitsTx)) MempoolMap.empty).2).2) := rfl
  refine (rejected_add_unchanged_iff (hempty.added ⟨102⟩) hadd).2 fun hlow => ?_
  have hfirst := hlow.first
  cases hfirst

end SidechainsSdk.Account.Mempool
