/-
The two maps of all accounts as one index: a slot is a status, an account and a nonce, and `index` is the id in a slot.

Every write to a map of an account changes the index in one slot, and removing an empty map does not change it. What the
index does not see is whether an account has an empty map or none; `NoEmptyMap` is about that.
-/
import Mathlib.Tactic
import SidechainsSdk.Core.Indexing
import SidechainsSdk.Account.Mempool.MempoolMap

namespace SidechainsSdk.Account.Mempool

variable {Tx : Type}

abbrev Slot := TxExecutableStatus × Address × ℤ

namespace MempoolMap

def index (m : MempoolMap Tx) (slot : Slot) : Option ModifierId := (m.txsOf slot.1 slot.2.1)[slot.2.2]?

/-- an account has a map only if it is not empty -/
def NoEmptyMap (m : MempoolMap Tx) (status : TxExecutableStatus) (account : Address) : Prop :=
  ∀ txs, (m.txs status).lookup account = some txs → txs.isEmpty = false

section Maps

variable (m : MempoolMap Tx) (status status' : TxExecutableStatus) (account account' : Address)

@[simp] theorem txs_setTxs (txs : AList fun _ : Address => TxIdByNonceMap) :
    (m.setTxs status txs).txs status' = if status' = status then txs else m.txs status' := by
  cases status <;> cases status' <;> rfl

@[simp] theorem setTxs_txCache (txs : AList fun _ : Address => TxIdByNonceMap) :
    (m.setTxs status txs).txCache = m.txCache := by
  cases status <;> rfl

@[simp] theorem setTxs_nonces (txs : AList fun _ : Address => TxIdByNonceMap) :
    (m.setTxs status txs).nonces = m.nonces := by
  cases status <;> rfl

/-- the map of one account is replaced -/
theorem lookup_setTxs_insert (txs : TxIdByNonceMap) :
    ((m.setTxs status ((m.txs status).insert account txs)).txs status').lookup account' =
      if status' = status ∧ account' = account then some txs else (m.txs status').lookup account' := by
  rw [txs_setTxs]
  by_cases hstatus : status' = status
  · subst hstatus
    by_cases haccount : account' = account
    · subst haccount
      simp
    · simp [haccount, AList.lookup_insert_ne haccount]
  · simp [hstatus]

theorem lookup_setTxs_erase :
    ((m.setTxs status ((m.txs status).erase account)).txs status').lookup account' =
      if status' = status ∧ account' = account then none else (m.txs status').lookup account' := by
  rw [txs_setTxs]
  by_cases hstatus : status' = status
  · subst hstatus
    by_cases haccount : account' = account
    · subst haccount
      simp
    · simp [haccount, AList.lookup_erase_ne haccount]
  · simp [hstatus]

theorem index_eq (slot : Slot) :
    m.index slot = (((m.txs slot.1).lookup slot.2.1).getD ∅)[slot.2.2]? := rfl

theorem lookup_of_index {nonce : ℤ} (h : (m.index (status, account, nonce)).isSome) :
    ∃ txs, (m.txs status).lookup account = some txs := by
  cases hlookup : (m.txs status).lookup account with
  | some txs => exact ⟨txs, rfl⟩
  | none =>
    rw [index_eq, hlookup] at h
    simp at h

/-! ### `putTx` -/

variable (nonce : ℤ) (txId : ModifierId)

@[simp] theorem putTx_txCache : (putTx status account nonce txId m).txCache = m.txCache := setTxs_txCache _ _ _

@[simp] theorem putTx_nonces : (putTx status account nonce txId m).nonces = m.nonces := setTxs_nonces _ _ _

theorem index_putTx : (putTx status account nonce txId m).index =
    Function.update m.index (status, account, nonce) (some txId) := by
  funext slot
  obtain ⟨st, a, k⟩ := slot
  rw [index_eq, putTx, lookup_setTxs_insert]
  by_cases hmap : st = status ∧ a = account
  · obtain ⟨rfl, rfl⟩ := hmap
    rw [if_pos ⟨rfl, rfl⟩, Option.getD_some, Std.TreeMap.getElem?_insert]
    by_cases hk : nonce = k
    · subst hk
      simp
    · have hslot : (st, a, k) ≠ (st, a, nonce) := by
        intro heq
        injection heq with _ heq
        injection heq with _ heq
        exact hk heq.symm
      rw [if_neg (by simpa using hk), Function.update_of_ne hslot]
      rfl
  · have hslot : (st, a, k) ≠ (status, account, nonce) := by
      intro heq
      injection heq with hst heq
      injection heq with ha _
      exact hmap ⟨hst, ha⟩
    rw [if_neg hmap, Function.update_of_ne hslot]
    rfl

theorem noEmptyMap_putTx_self : NoEmptyMap (putTx status account nonce txId m) status account := by
  intro txs hlookup
  rw [putTx, lookup_setTxs_insert, if_pos ⟨rfl, rfl⟩] at hlookup
  injection hlookup with hlookup
  rw [← hlookup]
  exact Std.TreeMap.isEmpty_insert

theorem noEmptyMap_putTx (h : NoEmptyMap m status' account') :
    NoEmptyMap (putTx status account nonce txId m) status' account' := by
  by_cases hmap : status' = status ∧ account' = account
  · obtain ⟨rfl, rfl⟩ := hmap
    exact noEmptyMap_putTx_self m status' account' nonce txId
  · intro txs hlookup
    rw [putTx, lookup_setTxs_insert, if_neg hmap] at hlookup
    exact h txs hlookup

/-! ### `removeTx` -/

@[simp] theorem removeTx_txCache : (removeTx status account nonce m).txCache = m.txCache := by
  unfold removeTx
  split
  · exact setTxs_txCache _ _ _
  · rfl

@[simp] theorem removeTx_nonces : (removeTx status account nonce m).nonces = m.nonces := by
  unfold removeTx
  split
  · exact setTxs_nonces _ _ _
  · rfl

theorem index_removeTx : (removeTx status account nonce m).index =
    Function.update m.index (status, account, nonce) none := by
  funext slot
  obtain ⟨st, a, k⟩ := slot
  unfold removeTx
  cases hlookup : (m.txs status).lookup account with
  | none =>
    by_cases hslot : (st, a, k) = (status, account, nonce)
    · rw [hslot, Function.update_self, index_eq, hlookup]
      simp
    · rw [Function.update_of_ne hslot]
  | some txs =>
    simp only
    rw [index_eq, lookup_setTxs_insert]
    by_cases hmap : st = status ∧ a = account
    · obtain ⟨rfl, rfl⟩ := hmap
      rw [if_pos ⟨rfl, rfl⟩, Option.getD_some, Std.TreeMap.getElem?_erase]
      by_cases hk : nonce = k
      · subst hk
        simp
      · have hslot : (st, a, k) ≠ (st, a, nonce) := by
          intro heq
          injection heq with _ heq
          injection heq with _ heq
          exact hk heq.symm
        rw [if_neg (by simpa using hk), Function.update_of_ne hslot, index_eq, hlookup]
        rfl
    · have hslot : (st, a, k) ≠ (status, account, nonce) := by
        intro heq
        injection heq with hst heq
        injection heq with ha _
        exact hmap ⟨hst, ha⟩
      rw [if_neg hmap, Function.update_of_ne hslot]
      rfl

theorem noEmptyMap_removeTx (hmap : ¬ (status' = status ∧ account' = account)) (h : NoEmptyMap m status' account') :
    NoEmptyMap (removeTx status account nonce m) status' account' := by
  intro txs hlookup
  unfold removeTx at hlookup
  split at hlookup
  · rw [lookup_setTxs_insert, if_neg hmap] at hlookup
    exact h txs hlookup
  · exact h txs hlookup

theorem size_removeTx_lt (h : (m.index (status, account, nonce)).isSome) :
    ((removeTx status account nonce m).txsOf status account).size < (m.txsOf status account).size := by
  obtain ⟨txs, hlookup⟩ := lookup_of_index m status account h
  have hbefore : m.txsOf status account = txs := by rw [txsOf, hlookup]; rfl
  have hafter : (removeTx status account nonce m).txsOf status account = txs.erase nonce := by
    rw [removeTx, hlookup, txsOf, lookup_setTxs_insert, if_pos ⟨rfl, rfl⟩]
    rfl
  have hmem : txs.contains nonce := by
    rw [index, hbefore, Std.TreeMap.isSome_getElem?_eq_contains] at h
    exact h
  have hpos : txs.size ≠ 0 := by
    intro hzero
    have hempty : txs.isEmpty := by
      rw [Std.TreeMap.isEmpty_eq_size_eq_zero, hzero]
      rfl
    rw [Std.TreeMap.contains_of_isEmpty hempty] at hmem
    cases hmem
  rw [hbefore, hafter, Std.TreeMap.size_erase, if_pos hmem]
  omega

theorem txsOf_putTx_of_ne (hne : status' ≠ status) :
    (putTx status account nonce txId m).txsOf status' account' = m.txsOf status' account' := by
  rw [txsOf, putTx, lookup_setTxs_insert, if_neg fun hmap => hne hmap.1]
  rfl

/-! ### Empty maps -/

/-- an empty map has no ids in its slots -/
theorem index_erase_of_isEmpty {txs : TxIdByNonceMap} (hlookup : (m.txs status).lookup account = some txs)
    (hempty : txs.isEmpty) : (m.setTxs status ((m.txs status).erase account)).index = m.index := by
  funext slot
  obtain ⟨st, a, k⟩ := slot
  rw [index_eq, lookup_setTxs_erase]
  by_cases hmap : st = status ∧ a = account
  · obtain ⟨rfl, rfl⟩ := hmap
    rw [if_pos ⟨rfl, rfl⟩, index_eq, hlookup, Option.getD_some]
    have hnone : txs[k]? = none := Std.TreeMap.getElem?_of_isEmpty hempty
    rw [hnone]
    simp
  · rw [if_neg hmap]
    rfl

theorem noEmptyMap_erase (hother : ¬ (status' = status ∧ account' = account) → NoEmptyMap m status' account') :
    NoEmptyMap (m.setTxs status ((m.txs status).erase account)) status' account' := by
  intro txs hlookup
  rw [lookup_setTxs_erase] at hlookup
  split_ifs at hlookup with hmap
  exact hother hmap txs hlookup

@[simp] theorem dropEmptyMap_txCache : (dropEmptyMap status account m).txCache = m.txCache := by
  unfold dropEmptyMap
  split
  · split_ifs
    · exact setTxs_txCache _ _ _
    · rfl
  · rfl

@[simp] theorem dropEmptyMap_nonces : (dropEmptyMap status account m).nonces = m.nonces := by
  unfold dropEmptyMap
  split
  · split_ifs
    · exact setTxs_nonces _ _ _
    · rfl
  · rfl

theorem index_dropEmptyMap : (dropEmptyMap status account m).index = m.index := by
  unfold dropEmptyMap
  split
  · next txs hlookup =>
    split_ifs with hempty
    · exact index_erase_of_isEmpty m status account hlookup hempty
    · rfl
  · rfl

/-- afterwards no map is empty if the others were not -/
theorem noEmptyMap_dropEmptyMap (hother : ¬ (status' = status ∧ account' = account) → NoEmptyMap m status' account') :
    NoEmptyMap (dropEmptyMap status account m) status' account' := by
  unfold dropEmptyMap
  split
  · next txs hlookup =>
    split_ifs with hempty
    · exact noEmptyMap_erase m status status' account account' hother
    · by_cases hmap : status' = status ∧ account' = account
      · obtain ⟨rfl, rfl⟩ := hmap
        intro txs' hlookup'
        rw [hlookup] at hlookup'
        injection hlookup' with hlookup'
        rw [← hlookup']
        simpa using hempty
      · exact hother hmap
  · next hlookup =>
    by_cases hmap : status' = status ∧ account' = account
    · obtain ⟨rfl, rfl⟩ := hmap
      intro txs' hlookup'
      rw [hlookup] at hlookup'
      cases hlookup'
    · exact hother hmap

/-- `dropEmptyAccount` does the same, and may remove the expected nonce of an account that has no transactions -/
theorem dropEmptyAccount_eq : ∃ nonces, dropEmptyAccount status account m =
      (dropEmptyMap status account m).withNonces nonces ∧
    (nonces = m.nonces ∨ nonces = m.nonces.erase account ∧ ∀ st k, m.index (st, account, k) = none) := by
  unfold dropEmptyAccount dropEmptyMap
  cases hlookup : (m.txs status).lookup account with
  | none => exact ⟨m.nonces, rfl, .inl rfl⟩
  | some txs =>
    by_cases hempty : txs.isEmpty
    · simp only [hempty, if_true]
      by_cases hother : ((m.setTxs status ((m.txs status).erase account)).txs (other status)).lookup account = none
      · refine ⟨m.nonces.erase account, by rw [if_pos hother, setTxs_nonces], .inr ⟨rfl, ?_⟩⟩
        intro st k
        have hnone : ((m.setTxs status ((m.txs status).erase account)).txs st).lookup account = none := by
          by_cases hst : st = status
          · rw [lookup_setTxs_erase, if_pos ⟨hst, rfl⟩]
          · have hst' : st = other status := by
              cases st <;> cases status <;> simp_all [other]
            rw [hst']
            exact hother
        rw [← index_erase_of_isEmpty m status account hlookup hempty, index_eq, hnone]
        simp
      · refine ⟨m.nonces, ?_, .inl rfl⟩
        rw [if_neg hother, ← setTxs_nonces m status ((m.txs status).erase account)]
        rfl
    · simp only [hempty]
      exact ⟨m.nonces, rfl, .inl rfl⟩

end Maps

section Parts

variable (m : MempoolMap Tx) (c : TxCache Tx) (nonces : AList fun _ : Address => ℤ)

@[simp] theorem withCache_txCache : (m.withCache c).txCache = c := rfl

@[simp] theorem withCache_nonces : (m.withCache c).nonces = m.nonces := rfl

@[simp] theorem withNonces_txCache : (m.withNonces nonces).txCache = m.txCache := rfl

@[simp] theorem withNonces_nonces : (m.withNonces nonces).nonces = nonces := rfl

@[simp] theorem index_withCache : (m.withCache c).index = m.index := by
  funext slot
  obtain ⟨st, a, k⟩ := slot
  cases st <;> rfl

@[simp] theorem index_withNonces : (m.withNonces nonces).index = m.index := by
  funext slot
  obtain ⟨st, a, k⟩ := slot
  cases st <;> rfl

@[simp] theorem noEmptyMap_withCache (st : TxExecutableStatus) (a : Address) :
    NoEmptyMap (m.withCache c) st a ↔ NoEmptyMap m st a := by
  cases st <;> rfl

@[simp] theorem noEmptyMap_withNonces (st : TxExecutableStatus) (a : Address) :
    NoEmptyMap (m.withNonces nonces) st a ↔ NoEmptyMap m st a := by
  cases st <;> rfl

end Parts

theorem noEmptyMap_dropEmptyAccount {m : MempoolMap Tx} {st : TxExecutableStatus} {a : Address}
    (hother : ∀ st' a', ¬ (st' = st ∧ a' = a) → NoEmptyMap m st' a') :
    ∀ st' a', NoEmptyMap (dropEmptyAccount st a m) st' a' := by
  obtain ⟨nonces, heq, -⟩ := dropEmptyAccount_eq m st a
  intro st' a'
  rw [heq, noEmptyMap_withNonces]
  exact noEmptyMap_dropEmptyMap m st st' a a' (hother st' a')

end MempoolMap

end SidechainsSdk.Account.Mempool
