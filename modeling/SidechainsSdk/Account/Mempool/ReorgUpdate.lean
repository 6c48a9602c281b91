/-
Updates of the account mempool after a change of the chain.

The nonces of an account in the rejected blocks run up to the old state nonce, those in the applied blocks from the fork point
to the new one. With this `updateMemPool` calls one of two routines for every account whose state nonce may have changed, and
both leave the same: what is given back and what was pooled, filtered once.

- `remaining`: the filter. `wp_updateAccount`, `wp_revertAccount`: each routine leaves what it says.
- `reorg_update_eq_reference`: the two of them, as runs that do not throw.
- `Switches`: how the blocks change the state nonces. `wp_updateMemPool`: the update keeps the invariant and ends within the
  limits.
-/
import Mathlib.Tactic
import Mathlib.Data.List.TakeWhile
import SidechainsSdk.Core.Grouping
import SidechainsSdk.Account.Mempool.Adding
import SidechainsSdk.Account.Mempool.AccountUpdate

namespace SidechainsSdk.Account.Mempool

open AccountTransaction Fallible MempoolMap Indexing TxCache ConsecutiveRun

variable {Tx : Type} [AccountTransaction Tx]

/-! ## The reference -/

/-- what is left of an account with state nonce `n`: of the transactions given back and the pooled ones from `n` on, those that
the balance covers, up to the first one beyond the nonce gap; if there are any to give back, those that do not fit are left out -/
def remaining (settings : AccountMempoolSettings) (balance n : ℤ) (givenBack pooled : List Tx) : List Tx :=
  let near := affordable settings balance n (givenBack ++ fromNonce n pooled)
  if givenBack.isEmpty then near else near.foldl (addFitting settings) []

section Account

variable {settings : AccountMempoolSettings} {s : Address → ℤ} {m : MempoolMap Tx} {es : List (TxInfo Tx)} {a : Address}
  {n f balance : ℤ} {txs : List Tx}

theorem fromNonce_eq_self (h : ∀ tx ∈ txs, n ≤ getNonce tx) : fromNonce n txs = txs := by
  refine List.filter_eq_self.2 ?_
  intro tx htx
  exact decide_eq_true (h tx htx)

theorem Inv.state_le_poolOf (h : Inv settings s m es) : ∀ tx ∈ poolOf m a, s a ≤ getNonce tx := by
  intro tx htx
  have hpool : Ascending getNonce (s a) ([] ++ poolOf m a) := h.ascending_reverted consecutive_nil (by simp)
  exact hpool.le tx htx

theorem remaining_givenBack (h : Inv settings s m es) (hne : txs ≠ []) (hcons : Consecutive getNonce n txs)
    (hlast : n + txs.length = s a) :
    remaining settings balance n txs (poolOf m a) = survivors settings balance n true (txs ++ poolOf m a) := by
  have hpool : fromNonce n (poolOf m a) = poolOf m a := by
    refine fromNonce_eq_self fun tx htx => ?_
    have hle := h.state_le_poolOf tx htx
    omega
  rw [survivors_eq (h.ascending_reverted hcons hlast), if_pos rfl, remaining, hpool, if_neg (by simpa using hne)]

theorem remaining_nil (h : Inv settings s m es) :
    remaining settings balance n [] (poolOf m a) = survivors settings balance n false (fromNonce n (poolOf m a)) := by
  rw [survivors_eq (h.ascending_fromNonce a n), if_neg (by decide)]
  rfl

/-! ## The two routines -/

/-- transactions to give back are there exactly if the old state nonce is above the new one -/
theorem existRejectedTxsWithValidNonce_iff (hcons : Consecutive getNonce f txs) (hf : f ≤ n) :
    existRejectedTxsWithValidNonce txs n = true ↔ n < f + txs.length := by
  unfold existRejectedTxsWithValidNonce
  rcases List.eq_nil_or_concat txs with rfl | ⟨init, last, rfl⟩
  · simp only [List.getLast?_nil, List.length_nil, Nat.cast_zero, add_zero]
    constructor
    · intro hfalse
      cases hfalse
    · omega
  · rw [List.concat_eq_append] at hcons ⊢
    have hkey := hcons.key_last
    simp only [List.getLast?_append, List.getLast?_singleton, Option.some_or, decide_eq_true_eq, hkey, List.length_append,
      List.length_singleton]
    push_cast
    omega

variable {Q : List Tx → MempoolMap Tx → Prop} {E : MempoolException → MempoolMap Tx → Prop}

/-- `updateAccountWithRevertedNonce` -/
theorem wp_revertAccount (h : Inv settings s m es) (getBalance : Address → ℤ) (hne : txs ≠ [])
    (hfrom : ∀ tx ∈ txs, getFrom tx = a) (hcons : Consecutive getNonce n txs) (hlast : n + txs.length = s a)
    (hQ : ∀ r m', Updated settings s a n true (remaining settings (getBalance a) n txs (poolOf m a)) m m' → Q r m') :
    wp (updateAccountWithRevertedNonce settings getBalance a txs) Q E m := by
  refine wp_updateAccountWithRevertedNonce h getBalance hne hfrom hcons hlast fun r m' hupdated => hQ r m' ?_
  rw [remaining_givenBack h hne hcons hlast]
  exact hupdated

/-- which routine `updateAccount` calls, and with which transactions -/
theorem updateAccount_cases (settings : AccountMempoolSettings) (getBalance : Address → ℤ) (a : Address)
    (hcons : Consecutive getNonce f txs) (hf : f ≤ n) :
    (n < f + txs.length ∧ updateAccount settings getBalance a (n - 1) txs =
      updateAccountWithRevertedNonce settings getBalance a (txs.dropWhile fun tx => getNonce tx < n)) ∨
    (f + txs.length ≤ n ∧ updateAccount settings getBalance a (n - 1) txs = updateAccountWithNewNonce getBalance a n ∧
      (txs.dropWhile fun tx => getNonce tx < n) = []) := by
  unfold updateAccount
  dsimp only
  rw [sub_add_cancel]
  by_cases hlt : n < f + txs.length
  · exact .inl ⟨hlt, if_pos ((existRejectedTxsWithValidNonce_iff hcons hf).2 hlt)⟩
  · refine .inr ⟨not_lt.1 hlt, if_neg (mt (existRejectedTxsWithValidNonce_iff hcons hf).1 hlt), ?_⟩
    refine List.dropWhile_eq_nil_iff.2 fun tx htx => decide_eq_true ?_
    have hbounds := hcons.exists_mem_iff.1 ⟨tx, htx, rfl⟩
    omega

/-- the transactions with valid nonces run up to the old state nonce, too -/
theorem givenBack_of_lt (hcons : Consecutive getNonce f txs) (hf : f ≤ n) (hlt : n < f + txs.length) :
    (txs.dropWhile fun tx => getNonce tx < n) ≠ [] ∧ Consecutive getNonce n (txs.dropWhile fun tx => getNonce tx < n) ∧
      n + (txs.dropWhile fun tx => getNonce tx < n).length = f + txs.length := by
  obtain ⟨hback, hend⟩ := hcons.dropWhile_lt hf hlt.le
  refine ⟨?_, hback, hend⟩
  intro hnil
  rw [hnil] at hend
  simp only [List.length_nil, Nat.cast_zero, add_zero] at hend
  omega

/-- **`updateAccount`.** The rejected transactions of the account run up to its old state nonce. -/
theorem wp_updateAccount (h : Inv settings s m es) (getBalance : Address → ℤ) (hfrom : ∀ tx ∈ txs, getFrom tx = a)
    (hcons : Consecutive getNonce f txs) (hlast : f + txs.length = s a) (hf : f ≤ n)
    (hQ : ∀ r m', Updated settings s a n (!(txs.dropWhile fun tx => getNonce tx < n).isEmpty)
      (remaining settings (getBalance a) n (txs.dropWhile fun tx => getNonce tx < n) (poolOf m a)) m m' → Q r m') :
    wp (updateAccount settings getBalance a (n - 1) txs) Q E m := by
  rcases updateAccount_cases settings getBalance a hcons hf with ⟨hlt, hroutine⟩ | ⟨hle, hroutine, hnil⟩
  · obtain ⟨hne, hback, hend⟩ := givenBack_of_lt hcons hf hlt
    rw [hroutine]
    rw [List.isEmpty_eq_false_iff.2 hne] at hQ
    refine wp_revertAccount h getBalance hne ?_ hback (hend.trans hlast) hQ
    intro tx htx
    exact hfrom tx ((List.dropWhile_sublist _).subset htx)
  · rw [hroutine]
    rw [hnil] at hQ
    refine wp_updateAccountWithNewNonce h getBalance (hlast ▸ hle) fun r m' hupdated => hQ r m' ?_
    rw [remaining_nil h]
    exact hupdated

/-- The account is left as the reference has it, and the other accounts as they were. The expected nonce is the end of the run;
there is none exactly if nothing was given back and nothing is left. -/
structure LeftAs (settings : AccountMempoolSettings) (balance n : ℤ) (givenBack : List Tx) (a : Address)
    (m m' : MempoolMap Tx) :
    Prop where
  exec : pooledTxs m' .EXEC a = run getNonce n (remaining settings balance n givenBack (poolOf m a))
  nonExec : pooledTxs m' .NON_EXEC a = rest getNonce n (remaining settings balance n givenBack (poolOf m a))
  nonces : m'.nonces.lookup a = if givenBack = [] ∧ remaining settings balance n givenBack (poolOf m a) = [] then none
    else some (runEnd getNonce n (remaining settings balance n givenBack (poolOf m a)))
  others : ∀ st a', a' ≠ a → pooledTxs m' st a' = pooledTxs m st a' ∧ m'.nonces.lookup a' = m.nonces.lookup a'

theorem Updated.leftAs {m' : MempoolMap Tx} {givenBack : List Tx}
    (h : Updated settings s a n (!givenBack.isEmpty) (remaining settings balance n givenBack (poolOf m a)) m m') :
    LeftAs settings balance n givenBack a m m' where
  exec := h.account .EXEC
  nonExec := h.account .NON_EXEC
  nonces := by
    rw [h.nonces.account]
    simp only [Bool.not_not, Bool.and_eq_true, List.isEmpty_iff]
  others := fun st a' ha => ⟨h.others st a' ha, h.nonces.others a' ha⟩

/-- **One account.** Both routines leave the account as the reference has it, for `updateAccount` with the transactions whose
nonces are still valid. The rejected transactions of the account run up to its old state nonce. -/
theorem reorg_update_eq_reference (h : Inv settings s m es) (getBalance : Address → ℤ)
    (hfrom : ∀ tx ∈ txs, getFrom tx = a)
    (hcons : Consecutive getNonce f txs) (hlast : f + txs.length = s a) :
    (∀ n, f ≤ n → ∃ r m', exec (updateAccount settings getBalance a (n - 1) txs) m = (.ok r, m') ∧
      (∃ es', Inv settings (Function.update s a n) m' es') ∧
      LeftAs settings (getBalance a) n (txs.dropWhile fun tx => getNonce tx < n) a m m') ∧
    (txs ≠ [] → ∃ r m', exec (updateAccountWithRevertedNonce settings getBalance a txs) m = (.ok r, m') ∧
      (∃ es', Inv settings (Function.update s a f) m' es') ∧ LeftAs settings (getBalance a) f txs a m m') := by
  constructor
  · intro n hf
    have hupdated : wp (updateAccount settings getBalance a (n - 1) txs) (fun _ m' => Updated settings s a n
        (!(txs.dropWhile fun tx => getNonce tx < n).isEmpty)
        (remaining settings (getBalance a) n (txs.dropWhile fun tx => getNonce tx < n) (poolOf m a)) m m')
        (fun _ _ => False) m := wp_updateAccount h getBalance hfrom hcons hlast hf fun _ _ h' => h'
    obtain ⟨r, m', hexec, hm'⟩ := wp_total_iff.1 hupdated
    exact ⟨r, m', hexec, hm'.inv, hm'.leftAs⟩
  · intro hne
    have hupdated : wp (updateAccountWithRevertedNonce settings getBalance a txs)
        (fun _ m' => Updated settings s a f true (remaining settings (getBalance a) f txs (poolOf m a)) m m')
          (fun _ _ => False) m :=
      wp_revertAccount h getBalance hne hfrom hcons hlast fun _ _ h' => h'
    obtain ⟨r, m', hexec, hm'⟩ := wp_total_iff.1 hupdated
    have hgave : (!txs.isEmpty) = true := by rw [List.isEmpty_eq_false_iff.2 hne]; rfl
    exact ⟨r, m', hexec, hm'.inv, Updated.leftAs (hgave ▸ hm')⟩

end Account

/-- a transaction is given back in front of two others -/
theorem reorg_update_one_back : ∃ r m',
    exec (updateAccountWithRevertedNonce smallSettings (fun _ => 5) 1 [(⟨103⟩ : DigitsTx)])
      (poolWith smallSettings (fun _ => 1) [⟨111⟩, ⟨129⟩]) = (.ok r, m') ∧
    (∃ es', Inv smallSettings (Function.update (fun _ => 1) 1 0) m' es') ∧
    LeftAs smallSettings 5 0 [⟨103⟩] 1 (poolWith smallSettings (fun _ => 1) [⟨111⟩, ⟨129⟩]) m' := by
  obtain ⟨es, h⟩ := inv_poolWith smallSettings (fun _ => 1) [(⟨111⟩ : DigitsTx), ⟨129⟩]
  refine (reorg_update_eq_reference h (fun _ => 5) (a := 1) (f := 0) ?_ ?_ ?_).2 (List.cons_ne_nil _ _)
  · intro tx htx
    obtain rfl := List.mem_singleton.1 htx
    rfl
  · exact consecutive_cons.2 ⟨rfl, consecutive_nil⟩
  · decide

/-- the only transaction of an account is in a block, and no expected nonce is left -/
theorem emptied_account_has_no_nonce : ∃ es m',
    Inv smallSettings (fun _ => 0) (poolWith smallSettings (fun _ => 0) [(⟨103⟩ : DigitsTx)]) es ∧
    exec (updateAccount smallSettings (fun _ => 5) 1 0 []) (poolWith smallSettings (fun _ => 0) [(⟨103⟩ : DigitsTx)]) =
    (.ok [], m') ∧
    runEnd getNonce 1 (remaining smallSettings 5 1 [] (poolOf (poolWith smallSettings (fun _ => 0) [(⟨103⟩ : DigitsTx)]) 1)) =
      1 ∧
    m'.nonces.lookup 1 = none := by
  obtain ⟨es, h⟩ := inv_poolWith smallSettings (fun _ => 0) [(⟨103⟩ : DigitsTx)]
  exact ⟨es, _, h, rfl, rfl, rfl⟩

/-! ## Blocks -/

/-- the transactions of an account, in the order of the blocks -/
def ofAccount (a : Address) (txs : List Tx) : List Tx := txs.filter fun tx => getFrom tx = a

/-- the blocks change the state nonces from `s` to `s'`: back to those of the fork point, and on from there -/
def Switches (s s' : Address → ℤ) (rejectedBlocks appliedBlocks : List (List Tx)) : Prop :=
  ∃ fork : Address → ℤ, ∀ a,
    (Consecutive getNonce (fork a) (ofAccount a rejectedBlocks.flatten) ∧
      fork a + (ofAccount a rejectedBlocks.flatten).length = s a) ∧
    Consecutive getNonce (fork a) (ofAccount a appliedBlocks.flatten) ∧
      fork a + (ofAccount a appliedBlocks.flatten).length = s' a

section Blocks

variable {settings : AccountMempoolSettings} {s s' : Address → ℤ} {m : MempoolMap Tx} {es : List (TxInfo Tx)} {a : Address}
  {rejected applied : List Tx}

theorem ofAccount_from {tx : Tx} {txs : List Tx} (h : tx ∈ ofAccount a txs) : getFrom tx = a := by
  simpa using (List.mem_filter.1 h).2

/-- the last nonce of an account in the applied blocks -/
theorem lookup_appliedTxNonces (a : Address) (txs : List Tx) :
    (appliedTxNoncesByAccount txs).lookup a = (ofAccount a txs).getLast?.map getNonce := by
  induction txs using List.reverseRecOn with
  | nil => rfl
  | append_singleton txs tx ih =>
    have hconcat : appliedTxNoncesByAccount (txs ++ [tx]) =
        (appliedTxNoncesByAccount txs).insert (getFrom tx) (getNonce tx) := by
      rw [appliedTxNoncesByAccount, List.foldl_append]
      rfl
    rw [hconcat, ofAccount, List.filter_append]
    by_cases ha : getFrom tx = a
    · subst ha
      rw [AList.lookup_insert]
      simp
    · rw [AList.lookup_insert_ne (Ne.symm ha), ih]
      simp [ofAccount, ha]

theorem last_nonce {n : ℤ} {txs : List Tx} (h : Consecutive getNonce n txs) :
    txs.getLast?.map getNonce = if txs = [] then none else some (n + txs.length - 1) := by
  rcases List.eq_nil_or_concat txs with rfl | ⟨init, last, rfl⟩
  · rfl
  · rw [List.concat_eq_append] at h ⊢
    rw [if_neg (by simp), List.getLast?_append, List.getLast?_singleton, Option.some_or, Option.map_some, h.key_last,
      List.length_append, List.length_singleton]
    push_cast
    ring_nf

/-- what the loop over the rejected accounts has done: those to come have the old state nonce, the others the new one unless they
have no rejected transactions -/
structure Reverting (settings : AccountMempoolSettings) (s s' : Address → ℤ) (rejected applied : List Tx)
    (v : (AList fun _ : Address => ℤ) × List Tx) (left : List (Address × List Tx)) (m : MempoolMap Tx)
    (s₁ : Address → ℤ) :
    Prop where
  inv : ∃ es, Inv settings s₁ m es
  nodup : (left.map Prod.fst).Nodup
  group : ∀ g ∈ left, g.2 = ofAccount g.1 rejected ∧ g.2 ≠ []
  toCome : ∀ a ∈ left.map Prod.fst, s₁ a = s a ∧ v.1.lookup a = (ofAccount a applied).getLast?.map getNonce
  done : ∀ a ∉ left.map Prod.fst,
    (s₁ a = s a ∧ ofAccount a rejected = [] ∧ v.1.lookup a = (ofAccount a applied).getLast?.map getNonce) ∨
      (s₁ a = s' a ∧ v.1.lookup a = none)

/-- what the loop over the accounts left in the applied blocks has done -/
structure Applying (settings : AccountMempoolSettings) (s s' : Address → ℤ) (rejected : List Tx)
    (left : List ((_ : Address) × ℤ)) (m : MempoolMap Tx) (s₁ : Address → ℤ) : Prop where
  inv : ∃ es, Inv settings s₁ m es
  nodup : (left.map Sigma.fst).Nodup
  toCome : ∀ e ∈ left, s₁ e.1 = s e.1 ∧ ofAccount e.1 rejected = [] ∧ e.2 = s' e.1 - 1
  done : ∀ a ∉ left.map Sigma.fst, s₁ a = s' a

/-- an account is taken off the list and has its new state nonce -/
theorem Reverting.next {v : (AList fun _ : Address => ℤ) × List Tx} {g : Address × List Tx} {left : List (Address × List Tx)}
    {s₁ : Address → ℤ} {m' : MempoolMap Tx} (h : Reverting settings s s' rejected applied v (g :: left) m s₁)
    (hinv : ∃ es, Inv settings (Function.update s₁ g.1 (s' g.1)) m' es) (promotedTxs : List Tx) :
    Reverting settings s s' rejected applied (v.1.erase g.1, promotedTxs) left m' (Function.update s₁ g.1 (s' g.1)) := by
  obtain ⟨hnew, hnodup⟩ := List.nodup_cons.1 h.nodup
  refine ⟨hinv, hnodup, fun x hx => h.group x (List.mem_cons_of_mem g hx), ?_, ?_⟩
  · intro a ha
    have hne : a ≠ g.1 := fun heq => hnew (heq ▸ ha)
    rw [Function.update_of_ne hne, AList.lookup_erase_ne hne]
    exact h.toCome a (List.mem_cons_of_mem _ ha)
  · intro a ha
    by_cases heq : a = g.1
    · subst heq
      exact .inr ⟨Function.update_self _ _ _, AList.lookup_erase _ _⟩
    · rw [Function.update_of_ne heq, AList.lookup_erase_ne heq]
      refine h.done a fun hmem => ?_
      rcases List.mem_cons.1 hmem with hmem | hmem
      · exact heq hmem
      · exact ha hmem

theorem Applying.next {e : (_ : Address) × ℤ} {left : List ((_ : Address) × ℤ)} {s₁ : Address → ℤ}
    {m' : MempoolMap Tx}
    (h : Applying settings s s' rejected (e :: left) m s₁)
    (hinv : ∃ es, Inv settings (Function.update s₁ e.1 (s' e.1)) m' es) :
    Applying settings s s' rejected left m' (Function.update s₁ e.1 (s' e.1)) := by
  obtain ⟨hnew, hnodup⟩ := List.nodup_cons.1 h.nodup
  refine ⟨hinv, hnodup, ?_, ?_⟩
  · intro x hx
    have hne : x.1 ≠ e.1 := fun heq => hnew (heq ▸ List.mem_map_of_mem hx)
    rw [Function.update_of_ne hne]
    exact h.toCome x (List.mem_cons_of_mem e hx)
  · intro a ha
    by_cases heq : a = e.1
    · rw [heq, Function.update_self]
    · rw [Function.update_of_ne heq]
      refine h.done a fun hmem => ?_
      rcases List.mem_cons.1 hmem with hmem | hmem
      · exact heq hmem
      · exact ha hmem

section Steps

variable {fork : Address → ℤ} {E : MempoolException → MempoolMap Tx → Prop}
  (hrejected : ∀ a, Consecutive getNonce (fork a) (ofAccount a rejected) ∧ fork a + (ofAccount a rejected).length = s a)
  (happlied : ∀ a, Consecutive getNonce (fork a) (ofAccount a applied) ∧ fork a + (ofAccount a applied).length = s' a)

include happlied in
/-- the last nonce in the applied blocks is the one before the new state nonce -/
theorem last_applied (a : Address) : (ofAccount a applied).getLast?.map getNonce = none ∧ s' a = fork a ∨
    (ofAccount a applied).getLast?.map getNonce = some (s' a - 1) ∧ fork a ≤ s' a := by
  obtain ⟨hcons, hend⟩ := happlied a
  rw [last_nonce hcons]
  by_cases hnil : ofAccount a applied = []
  · rw [hnil] at hend
    rw [if_pos hnil]
    exact .inl ⟨rfl, by simpa using hend.symm⟩
  · rw [if_neg hnil, hend]
    exact .inr ⟨rfl, by omega⟩

include hrejected happlied

theorem wp_updateRejectedAccount (getBalance : Address → ℤ) {v : (AList fun _ : Address => ℤ) × List Tx}
    {g : Address × List Tx} {left : List (Address × List Tx)} {s₁ : Address → ℤ}
    (h : Reverting settings s s' rejected applied v (g :: left) m s₁) :
    wp (updateRejectedAccount settings getBalance v g)
      (fun v' m' => ∃ s₂, Reverting settings s s' rejected applied v' left m' s₂) E m := by
  obtain ⟨es, hinv⟩ := h.inv
  obtain ⟨hgroup, hne⟩ := h.group g List.mem_cons_self
  obtain ⟨hold, hlookup⟩ := h.toCome g.1 List.mem_cons_self
  obtain ⟨hcons, hend⟩ := hrejected g.1
  rw [← hgroup] at hcons hend
  have hfrom : ∀ tx ∈ g.2, getFrom tx = g.1 := by
    intro tx htx
    rw [hgroup] at htx
    exact ofAccount_from htx
  unfold updateRejectedAccount
  rcases last_applied happlied g.1 with ⟨hlast, hnew⟩ | ⟨hlast, hle⟩
  · rw [hlookup, hlast]
    dsimp only
    rw [wp_bind]
    refine wp_revertAccount hinv getBalance hne hfrom hcons (hend.trans hold.symm) fun r m' hupdated => ?_
    exact ⟨_, h.next (hnew ▸ hupdated.inv) _⟩
  · rw [hlookup, hlast]
    dsimp only
    rw [wp_bind]
    refine wp_updateAccount hinv getBalance hfrom hcons (hend.trans hold.symm) hle fun r m' hupdated => ?_
    exact ⟨_, h.next hupdated.inv _⟩

omit happlied in
theorem wp_updateAppliedAccount (getBalance : Address → ℤ) {newExecTxs : List Tx} {e : (_ : Address) × ℤ}
    {left : List ((_ : Address) × ℤ)} {s₁ : Address → ℤ} (hle : fork e.1 ≤ s' e.1)
    (h : Applying settings s s' rejected (e :: left) m s₁) :
    wp (updateAppliedAccount settings getBalance newExecTxs e)
      (fun _ m' => ∃ s₂, Applying settings s s' rejected left m' s₂) E m := by
  obtain ⟨es, hinv⟩ := h.inv
  obtain ⟨hold, hnil, hlast⟩ := h.toCome e List.mem_cons_self
  have hfork : fork e.1 = s e.1 := by
    have hend := (hrejected e.1).2
    rw [hnil] at hend
    simpa using hend
  unfold updateAppliedAccount
  rw [wp_bind, hlast]
  refine wp_updateAccount hinv getBalance (f := s e.1) (by simp) consecutive_nil (by simp [hold]) (hfork ▸ hle)
    fun r m' hupdated => ?_
  exact ⟨_, h.next hupdated.inv⟩

/-- what the first loop leaves to the second -/
theorem Reverting.applying {v : (AList fun _ : Address => ℤ) × List Tx} {s₁ : Address → ℤ}
    (h : Reverting settings s s' rejected applied v [] m s₁) {left : List ((_ : Address) × ℤ)}
    (hleft : left.Perm v.1.entries) : Applying settings s s' rejected left m s₁ := by
  have hdone : ∀ a, _ := fun a => h.done a (by simp)
  refine ⟨h.inv, (hleft.map Sigma.fst).nodup_iff.2 v.1.nodupKeys, ?_, ?_⟩
  · intro e he
    have hlookup : v.1.lookup e.1 = some e.2 := AList.mem_lookup_iff.2 (hleft.mem_iff.1 he)
    rcases hdone e.1 with ⟨hold, hnil, hlast⟩ | ⟨-, hnone⟩
    · refine ⟨hold, hnil, ?_⟩
      rcases last_applied happlied e.1 with ⟨hnone, -⟩ | ⟨hsome, -⟩
      · rw [hlast, hnone] at hlookup
        cases hlookup
      · rw [hlast, hsome] at hlookup
        exact (Option.some.inj hlookup).symm
    · rw [hnone] at hlookup
      cases hlookup
  · intro a ha
    have hnone : v.1.lookup a = none := by
      rw [AList.lookup_eq_none]
      intro hkey
      exact ha ((hleft.map Sigma.fst).mem_iff.2 (AList.mem_keys.1 hkey))
    rcases hdone a with ⟨hold, hnil, hlast⟩ | ⟨hnew, -⟩
    · rcases last_applied happlied a with ⟨-, hfork⟩ | ⟨hsome, -⟩
      · -- the account is in no block
        have hend := (hrejected a).2
        rw [hnil] at hend
        rw [hold, hfork, ← hend]
        simp
      · rw [hlast, hsome] at hnone
        cases hnone
    · exact hnew

end Steps

/-- **`updateMemPool`.** The pool is consistent with the new state nonces and within its limits. -/
theorem wp_updateMemPool (h : Inv settings s m es) {rejectedBlocks appliedBlocks : List (List Tx)}
    (hswitch : Switches s s' rejectedBlocks appliedBlocks) (order : UpdateOrder Tx) (getBalance : Address → ℤ)
    {E : MempoolException → MempoolMap Tx → Prop} :
    wp (updateMemPool settings order getBalance rejectedBlocks appliedBlocks)
      (fun _ m' => (∃ es', Inv settings s' m' es') ∧ Limits settings m') E m := by
  obtain ⟨fork, hfork⟩ := hswitch
  have hrejected := fun a => (hfork a).1
  have happlied := fun a => (hfork a).2
  have hperm := order.rejected.perm (Grouping.groupBy getFrom rejectedBlocks.flatten)
  have hstart : Reverting settings s s' rejectedBlocks.flatten appliedBlocks.flatten
      (appliedTxNoncesByAccount appliedBlocks.flatten, [])
      (order.rejected.iterate (Grouping.groupBy getFrom rejectedBlocks.flatten)) m s := by
    refine ⟨⟨es, h⟩, (hperm.map Prod.fst).nodup_iff.2 (Grouping.groupBy_keys_nodup getFrom _), ?_, ?_, ?_⟩
    · intro g hg
      obtain ⟨hgroup, hkey⟩ := Grouping.mem_groupBy getFrom _ g (hperm.mem_iff.1 hg)
      refine ⟨hgroup, ?_⟩
      obtain ⟨tx, htx, hfrom⟩ := List.mem_map.1 hkey
      rw [hgroup]
      exact List.ne_nil_of_mem (List.mem_filter.2 ⟨htx, decide_eq_true hfrom⟩)
    · exact fun a _ => ⟨rfl, lookup_appliedTxNonces a _⟩
    · intro a ha
      refine .inl ⟨rfl, ?_, lookup_appliedTxNonces a _⟩
      refine List.filter_eq_nil_iff.2 fun tx htx hfrom => ha ?_
      rw [(hperm.map Prod.fst).mem_iff, Grouping.mem_groupBy_keys]
      exact List.mem_map.2 ⟨tx, htx, by simpa using hfrom⟩
  have hstep : ∀ v g left m,
      (∃ s₁, Reverting settings s s' rejectedBlocks.flatten appliedBlocks.flatten v (g :: left) m s₁) →
      wp (updateRejectedAccount settings getBalance v g)
        (fun v' m' => ∃ s₂, Reverting settings s s' rejectedBlocks.flatten appliedBlocks.flatten v' left m' s₂) E m := by
    rintro v g left m ⟨s₁, hI⟩
    exact wp_updateRejectedAccount hrejected happlied getBalance hI
  have hreverting := wp_foldlM
    (fun v left m => ∃ s₁, Reverting settings s s' rejectedBlocks.flatten appliedBlocks.flatten v left m s₁) hstep
      _ ⟨s, hstart⟩
  unfold updateMemPool
  dsimp only
  rw [wp_bind]
  refine wp_mono hreverting ?_ fun _ _ h' => h'
  rintro ⟨appliedNonces, newExecTxs⟩ m₁ ⟨s₁, h₁⟩
  have hstep : ∀ (txs : List Tx) e left m, (∃ s₁, Applying settings s s' rejectedBlocks.flatten (e :: left) m s₁) →
      wp (updateAppliedAccount settings getBalance txs e)
        (fun _ m' => ∃ s₂, Applying settings s s' rejectedBlocks.flatten left m' s₂) E m := by
    rintro txs e left m ⟨s₁, hI⟩
    have hend := (happlied e.1).2
    exact wp_updateAppliedAccount hrejected getBalance (by omega) hI
  have happlying := wp_foldlM (b :=
    newExecTxs) (fun _ left m => ∃ s₁, Applying settings s s' rejectedBlocks.flatten left m s₁) hstep _
    ⟨s₁, h₁.applying hrejected happlied (order.applied.perm _)⟩
  dsimp only
  rw [wp_bind]
  refine wp_mono happlying ?_ fun _ _ h' => h'
  rintro newExecTxs' m₂ ⟨s₂, h₂⟩
  obtain rfl : s₂ = s' := funext fun a => h₂.done a (by simp)
  obtain ⟨es₂, hinv₂⟩ := h₂.inv
  rw [wp_bind]
  refine wp_removeTimedoutTransactions hinv₂ fun m₃ es₃ hinv₃ => ?_
  rw [wp_bind]
  refine wp_checkMempoolSize hinv₃ fun m₄ es₄ hinv₄ hlimits _ => ?_
  exact ⟨⟨es₄, hinv₄⟩, hlimits⟩

end Blocks

end SidechainsSdk.Account.Mempool
