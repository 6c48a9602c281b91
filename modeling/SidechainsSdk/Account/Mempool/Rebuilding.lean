/-
The loops that update an account after a change of the chain.

Both routines build the two maps of the account anew, in up to three loops with shared flags. What they have put so far are
the survivors of the transactions that they have gone through, each in the map of its status (`Rebuilding`). The flag for
non-executable transactions is set exactly if the next executable nonce has been passed (`RebuildingExec`), and the flag for
the nonce gap only when all further nonces are too far away. So every loop has one rule, and each of them computes `survivors`.
-/
import Mathlib.Tactic
import SidechainsSdk.Account.Mempool.Survivors

namespace SidechainsSdk.Account.Mempool

open AccountTransaction Fallible MempoolMap TxCache ConsecutiveRun

variable {Tx : Type} [AccountTransaction Tx]

/-! ## The maps built so far -/

/-- the maps hold the survivors `kept`, and the nonces below `j` are done -/
structure Rebuilding (settings : AccountMempoolSettings) (n : ℤ) (reverted : Bool) (v : Rebuild) (kept : List Tx) (j : ℤ) :
    Prop where
  exec : v.newExecTxs = byNonce (partOf n kept .EXEC)
  nonExec : v.newNonExecTxs = byNonce (partOf n kept .NON_EXEC)
  ascending : Ascending getNonce n kept
  below : ∀ tx ∈ kept, getNonce tx < j
  slots : reverted = true → v.currAccountSlots = slotsOf kept
  exceeded : v.maxNonceGapExceeded = true → getMaxAcceptableNonce settings n < j

/-- as long as the executable transactions are gone through, the flag says whether the run of executable nonces is broken -/
structure RebuildingExec (settings : AccountMempoolSettings) (n : ℤ) (reverted : Bool) (v : Rebuild) (kept : List Tx)
    (j : ℤ) : Prop extends Rebuilding settings n reverted v kept j where
  broken : v.haveBecomeNonExecutable = true → runEnd getNonce n kept < max n j
  unbroken : v.haveBecomeNonExecutable = false → v.maxNonceGapExceeded = false → runEnd getNonce n kept = max n j

section Steps

variable {settings : AccountMempoolSettings} {n j k : ℤ} {reverted : Bool} {v : Rebuild} {kept : List Tx} {tx : Tx}

theorem rebuildingExec_start (hj : j ≤ n) : RebuildingExec settings n reverted {} ([] : List Tx) j where
  exec := rfl
  nonExec := rfl
  ascending := .nil
  below := by simp
  slots := fun _ => rfl
  exceeded := fun h => by cases h
  broken := fun h => by cases h
  unbroken := fun _ _ => by rw [runEnd_nil, max_eq_left hj]

namespace Rebuilding

theorem runEnd_le (h : Rebuilding settings n reverted v kept j) : runEnd getNonce n kept ≤ max n j :=
  ConsecutiveRun.runEnd_le (le_max_left n j) fun tx htx => lt_max_of_lt_right (h.below tx htx)

/-- nonces that are gone through without a change -/
theorem advance (h : Rebuilding settings n reverted v kept j) (hjk : j ≤ k) : Rebuilding settings n reverted v kept k where
  exec := h.exec
  nonExec := h.nonExec
  ascending := h.ascending
  below := fun tx htx => (h.below tx htx).trans_le hjk
  slots := h.slots
  exceeded := fun hgap => (h.exceeded hgap).trans_le hjk

/-- a survivor is put into the map of its status -/
theorem put (h : Rebuilding settings n reverted v kept j) (hj : j ≤ getNonce tx) (hn : n ≤ getNonce tx) {v' : Rebuild}
    (hexec : v'.newExecTxs = if getNonce tx = runEnd getNonce n kept then v.newExecTxs.insert (getNonce tx) (idOf tx)
      else v.newExecTxs)
    (hnonExec : v'.newNonExecTxs = if getNonce tx = runEnd getNonce n kept then v.newNonExecTxs
      else v.newNonExecTxs.insert (getNonce tx) (idOf tx))
    (hslots : reverted = true → v'.currAccountSlots = v.currAccountSlots + txSizeInSlot tx)
    (hgap : v'.maxNonceGapExceeded = v.maxNonceGapExceeded) :
    Rebuilding settings n reverted v' (kept ++ [tx]) (getNonce tx + 1) := by
  have hbelow : ∀ x ∈ kept, getNonce x < getNonce tx := fun x hx => (h.below x hx).trans_le hj
  have hparts : ∀ st, byNonce (partOf n (kept ++ [tx]) st) =
      if st = (if getNonce tx = runEnd getNonce n kept then TxExecutableStatus.EXEC else .NON_EXEC) then
        (byNonce (partOf n kept st)).insert (getNonce tx) (idOf tx)
      else byNonce (partOf n kept st) := by
    intro st
    by_cases heq : getNonce tx = runEnd getNonce n kept
    · obtain ⟨hrun, hrest⟩ := run_concat_of_eq h.ascending hbelow heq
      cases st <;> simp [partOf, hrun, hrest, heq, byNonce_concat]
    · obtain ⟨hrun, hrest⟩ := run_concat_of_ne heq
      cases st <;> simp [partOf, hrun, hrest, heq, byNonce_concat]
  refine ⟨?_, ?_, h.ascending.concat hn hbelow, ?_, ?_, ?_⟩
  · rw [hexec, hparts, h.exec]
    by_cases heq : getNonce tx = runEnd getNonce n kept <;> simp [heq]
  · rw [hnonExec, hparts, h.nonExec]
    by_cases heq : getNonce tx = runEnd getNonce n kept <;> simp [heq]
  · intro x hx
    rcases List.mem_append.1 hx with hx | hx
    · exact (hbelow x hx).trans (lt_add_one _)
    · rw [List.mem_singleton.1 hx]
      exact lt_add_one _
  · intro hreverted
    rw [hslots hreverted, h.slots hreverted, slotsOf_concat]
  · intro hexceeded
    rw [hgap] at hexceeded
    have hlt := h.exceeded hexceeded
    omega

end Rebuilding

namespace RebuildingExec

/-- in which map the next executable transaction is put -/
theorem flag_iff (h : RebuildingExec settings n reverted v kept (getNonce tx)) (hn : n ≤ getNonce tx)
    (hgap : v.maxNonceGapExceeded = false) :
    v.haveBecomeNonExecutable = true ↔ getNonce tx ≠ runEnd getNonce n kept := by
  have hmax : max n (getNonce tx) = getNonce tx := max_eq_right hn
  cases hflag : v.haveBecomeNonExecutable with
  | true =>
    have hlt := h.broken hflag
    rw [hmax] at hlt
    simpa using hlt.ne'
  | false =>
    have heq := h.unbroken hflag hgap
    rw [hmax] at heq
    simpa using heq.symm

theorem keep (h : RebuildingExec settings n reverted v kept (getNonce tx)) (hn : n ≤ getNonce tx)
    (hgap : v.maxNonceGapExceeded = false) {slots : ℤ}
    (hslots : reverted = true → slots = v.currAccountSlots + txSizeInSlot tx) :
    RebuildingExec settings n reverted { v.put (getNonce tx) (idOf tx) with currAccountSlots := slots } (kept ++ [tx])
      (getNonce tx + 1) := by
  have hflag := h.flag_iff hn hgap
  have hput : (v.put (getNonce tx) (idOf tx)).haveBecomeNonExecutable = v.haveBecomeNonExecutable := by
    unfold Rebuild.put
    split_ifs <;> rfl
  have hbase : Rebuilding settings n reverted { v.put (getNonce tx) (idOf tx) with currAccountSlots := slots }
      (kept ++ [tx]) (getNonce tx + 1) := by
    refine h.toRebuilding.put le_rfl hn ?_ ?_ hslots ?_
    · unfold Rebuild.put
      by_cases heq : getNonce tx = runEnd getNonce n kept <;> simp [hflag, heq]
    · unfold Rebuild.put
      by_cases heq : getNonce tx = runEnd getNonce n kept <;> simp [hflag, heq]
    · unfold Rebuild.put
      split_ifs <;> rfl
  have hmax : max n (getNonce tx + 1) = getNonce tx + 1 := max_eq_right (by omega)
  refine ⟨hbase, ?_, ?_⟩
  · intro hbroken
    have hne := hflag.1 (hput ▸ hbroken)
    have hle := h.runEnd_le
    rw [max_eq_right hn] at hle
    rw [runEnd_concat_of_ne hne, hmax]
    omega
  · intro hunbroken _
    have heq : getNonce tx = runEnd getNonce n kept := by
      by_contra hne
      have htrue := hflag.2 hne
      rw [← hput] at htrue
      rw [show (v.put (getNonce tx) (idOf tx)).haveBecomeNonExecutable = false from hunbroken] at htrue
      cases htrue
    rw [hmax, runEnd_concat_of_eq h.ascending h.below heq, heq]

theorem drop (h : RebuildingExec settings n reverted v kept j) (hn : n ≤ j) :
    RebuildingExec settings n reverted { v with haveBecomeNonExecutable := true } kept (j + 1) := by
  have hbase : Rebuilding settings n reverted { v with haveBecomeNonExecutable := true } kept j :=
    ⟨h.exec, h.nonExec, h.ascending, h.below, h.slots, h.exceeded⟩
  have hle := h.runEnd_le
  refine ⟨hbase.advance (by omega), fun _ => ?_, fun hflag => by cases hflag⟩
  omega

theorem exceed (h : RebuildingExec settings n reverted v kept j) (hj : getMaxAcceptableNonce settings n < j) :
    RebuildingExec settings n reverted { v with maxNonceGapExceeded := true } kept (j + 1) := by
  have hbase : Rebuilding settings n reverted { v with maxNonceGapExceeded := true } kept j :=
    ⟨h.exec, h.nonExec, h.ascending, h.below, h.slots, fun _ => hj⟩
  refine ⟨hbase.advance (by omega), fun hflag => ?_, fun _ hgap => by cases hgap⟩
  have hlt := h.broken hflag
  omega

/-- a nonce before the state nonce, or after the nonce gap -/
theorem skip (h : RebuildingExec settings n reverted v kept j) (hj : j < n ∨ v.maxNonceGapExceeded = true) :
    RebuildingExec settings n reverted v kept (j + 1) := by
  refine ⟨h.toRebuilding.advance (by omega), fun hflag => ?_, fun hflag hgap => ?_⟩
  · have hlt := h.broken hflag
    omega
  · rcases hj with hj | hj
    · have heq := h.unbroken hflag hgap
      omega
    · rw [hj] at hgap
      cases hgap

end RebuildingExec

end Steps

/-! ## Transactions of rejected blocks -/

section Reverted

variable {settings : AccountMempoolSettings} {balance n j hi : ℤ} {v : Rebuild} {kept : List Tx} {a : Address}
  {others : List (TxInfo Tx)} {m : MempoolMap Tx} {E : MempoolException → MempoolMap Tx → Prop}

theorem survives_iff (balance : ℤ) (h : Rebuilding settings n true v kept j) (tx : Tx) :
    Survives settings balance n true kept tx ↔ getNonce tx ≤ getMaxAcceptableNonce settings n ∧ maxCost tx ≤ balance ∧
      txSizeInSlot tx ≤ MaxNumOfSlotsForTx ∧ v.currAccountSlots + txSizeInSlot tx ≤ settings.maxAccountSlots := by
  rw [Survives, h.slots rfl]
  simp

theorem not_survives_of_exceeded {reverted : Bool} (h : Rebuilding settings n reverted v kept j) {tx : Tx}
    (hj : j ≤ getNonce tx) (hgap : v.maxNonceGapExceeded = true) : ¬ Survives settings balance n reverted kept tx := by
  rintro ⟨hnear, -⟩
  have hlt := h.exceeded hgap
  omega

/-- the first loop -/
theorem foldl_reinjectTx {txs : List Tx} {added : List (Tx × TxExecutableStatus)}
    (h : RebuildingExec settings n true v kept j) (hn : n ≤ j) (hadded : added.Perm (placed n kept))
    (htxs : Consecutive getNonce j txs) :
    RebuildingExec settings n true (txs.foldl (reinjectTx settings balance (getMaxAcceptableNonce settings n)) (v, added)).1
      (txs.foldl (addSurvivor settings balance n true) kept) (j + txs.length) ∧
    (txs.foldl (reinjectTx settings balance (getMaxAcceptableNonce settings n)) (v, added)).2.Perm
      (placed n (txs.foldl (addSurvivor settings balance n true) kept)) := by
  induction txs generalizing v added kept j with
  | nil => simpa using ⟨h, hadded⟩
  | cons tx txs ih =>
    obtain ⟨hfirst, htail⟩ := consecutive_cons.1 htxs
    subst hfirst
    rw [List.foldl_cons, List.foldl_cons, List.length_cons, Nat.cast_succ, add_comm (txs.length : ℤ) 1, ← add_assoc]
    have hn' : n ≤ getNonce tx + 1 := by omega
    cases hgap : v.maxNonceGapExceeded with
    | true =>
      have hstep : reinjectTx settings balance (getMaxAcceptableNonce settings n) (v, added) tx = (v, added) := by
        simp [reinjectTx, hgap]
      rw [hstep, addSurvivor_of_not (not_survives_of_exceeded h.toRebuilding le_rfl hgap)]
      exact ih (h.skip (.inr hgap)) hn' hadded htail
    | false =>
      have hsurvives := survives_iff balance h.toRebuilding tx
      by_cases hnear : getNonce tx ≤ getMaxAcceptableNonce settings n
      · by_cases hfits : maxCost tx ≤ balance ∧ txSizeInSlot tx ≤ MaxNumOfSlotsForTx ∧
            v.currAccountSlots + txSizeInSlot tx ≤ settings.maxAccountSlots
        · have hstep : reinjectTx settings balance (getMaxAcceptableNonce settings n) (v, added) tx =
              ({ v.put (getNonce tx) (idOf tx) with currAccountSlots := v.currAccountSlots + txSizeInSlot tx },
                (tx, if v.haveBecomeNonExecutable then .NON_EXEC else .EXEC) :: added) := by
            simp only [reinjectTx, hgap, Bool.false_eq_true, if_false, if_pos hnear, if_pos hfits]
          have hbelow : ∀ x ∈ kept, getNonce x < getNonce tx := h.below
          rw [hstep, addSurvivor_of_survives (hsurvives.2 ⟨hnear, hfits⟩)]
          refine ih (h.keep hn hgap fun _ => rfl) hn' ?_ htail
          rw [placed_concat h.ascending hbelow]
          have hstatus : (if v.haveBecomeNonExecutable then TxExecutableStatus.NON_EXEC else .EXEC) =
              if getNonce tx = runEnd getNonce n kept then .EXEC else .NON_EXEC := by
            have hflag := h.flag_iff hn hgap
            by_cases heq : getNonce tx = runEnd getNonce n kept <;> simp [hflag, heq]
          rw [hstatus]
          exact (hadded.cons _).trans (List.perm_append_singleton _ _).symm
        · have hstep : reinjectTx settings balance (getMaxAcceptableNonce settings n) (v, added) tx =
              ({ v with haveBecomeNonExecutable := true }, added) := by
            simp only [reinjectTx, hgap, Bool.false_eq_true, if_false, if_pos hnear, if_neg hfits]
          rw [hstep, addSurvivor_of_not fun hs => hfits (hsurvives.1 hs).2]
          exact ih (h.drop hn) hn' hadded htail
      · have hstep : reinjectTx settings balance (getMaxAcceptableNonce settings n) (v, added) tx =
            ({ v with maxNonceGapExceeded := true }, added) := by
          simp only [reinjectTx, hgap, Bool.false_eq_true, if_false, if_neg hnear]
        rw [hstep, addSurvivor_of_not fun hs => hnear hs.1]
        exact ih (h.exceed (not_le.1 hnear)) hn' hadded htail

/-- the survivors go into the cache -/
theorem wp_addSurvivors {txs l : List (Tx × TxExecutableStatus)} {Q : PUnit → MempoolMap Tx → Prop}
    (h : CacheHolds a others txs m.txCache) (hfrom : ∀ p ∈ l, getFrom p.1 = a) (hnodup : ((txs ++ l).map Prod.fst).Nodup)
    (hQ : ∀ c, CacheHolds a others (txs ++ l) c → Q () (m.withCache c)) :
    wp (l.forM fun entry => cacheAdd settings entry.1 entry.2) Q E m := by
  induction l generalizing txs m with
  | nil =>
    rw [List.append_nil] at hQ
    exact hQ m.txCache h
  | cons p l ih =>
    change wp (cacheAdd settings p.1 p.2 >>= fun _ => l.forM fun entry => cacheAdd settings entry.1 entry.2) Q E m
    rw [wp_bind]
    have hfresh : p.1 ∉ txs.map Prod.fst := by
      rw [List.map_append, List.map_cons, List.nodup_append] at hnodup
      intro hmem
      exact hnodup.2.2 p.1 hmem p.1 List.mem_cons_self rfl
    refine wp_addOwn h (hfrom p List.mem_cons_self) hfresh ?_
    intro c hc
    refine @ih (m.withCache c) (txs ++ [p]) hc (fun q hq => hfrom q (List.mem_cons_of_mem _ hq)) ?_ ?_
    · simpa using hnodup
    · intro c' hc'
      refine hQ c' ?_
      simpa using hc'

/-- the next pending transaction to the front -/
theorem CacheHolds.front {l l' : List (Tx × TxExecutableStatus)} {p : Tx × TxExecutableStatus} {c : TxCache Tx}
    (h : CacheHolds a others (l ++ p :: l') c) : CacheHolds a others (p :: (l ++ l')) c := h.perm List.perm_middle

/-- it stays, with the status of its part -/
theorem CacheHolds.placed_concat {l : List (Tx × TxExecutableStatus)} {tx : Tx} {st : TxExecutableStatus} {c : TxCache Tx}
    (h : CacheHolds a others ((tx, st) :: (placed n kept ++ l)) c) (hkept : Ascending getNonce n kept)
    (hbelow : ∀ x ∈ kept, getNonce x < getNonce tx)
    (hst : st = if getNonce tx = runEnd getNonce n kept then .EXEC else .NON_EXEC) :
    CacheHolds a others (placed n (kept ++ [tx]) ++ l) c := by
  rw [Mempool.placed_concat hkept hbelow, ← hst, List.append_assoc]
  exact h.perm List.perm_middle.symm

/-- the second loop -/
theorem wp_revertExecTxs {txs : List Tx} {pending : List (Tx × TxExecutableStatus)} {Q : Rebuild → MempoolMap Tx → Prop}
    (h : RebuildingExec settings n true v kept j) (hn : n ≤ j) (htxs : Consecutive getNonce j txs)
    (hsmall : ∀ tx ∈ txs, txSizeInSlot tx ≤ MaxNumOfSlotsForTx)
    (hcache : CacheHolds a others (placed n kept ++ (withStatus .EXEC txs ++ pending)) m.txCache)
    (hQ : ∀ v' c, RebuildingExec settings n true v' (txs.foldl (addSurvivor settings balance n true) kept)
        (j + txs.length) →
      CacheHolds a others (placed n (txs.foldl (addSurvivor settings balance n true) kept) ++ pending) c →
      Q v' (m.withCache c)) :
    wp ((txs.map nonceAndId).foldlM (revertExecTx settings balance (getMaxAcceptableNonce settings n)) v) Q E m := by
  induction txs generalizing v kept j m with
  | nil =>
    rw [List.map_nil, List.foldlM_nil, wp_pure]
    exact hQ v m.txCache (by simpa using h) hcache
  | cons tx txs ih =>
    obtain ⟨hfirst, htail⟩ := consecutive_cons.1 htxs
    subst hfirst
    have hsmallTail : ∀ x ∈ txs, txSizeInSlot x ≤ MaxNumOfSlotsForTx := fun x hx => hsmall x (List.mem_cons_of_mem _ hx)
    have hbelow : ∀ x ∈ kept, getNonce x < getNonce tx := h.below
    have hsurvives := survives_iff balance h.toRebuilding tx
    rw [withStatus_cons, List.cons_append] at hcache
    rw [List.foldl_cons, List.length_cons, Nat.cast_succ, add_comm (txs.length : ℤ) 1, ← add_assoc] at hQ
    rw [List.map_cons, List.foldlM_cons, wp_bind]
    simp only [nonceAndId, revertExecTx]
    refine (wp_ite _).2 ⟨fun hnear => ?_, fun hnear => ?_⟩
    · have hgap : v.maxNonceGapExceeded = false := Bool.not_eq_true _ ▸ hnear.1
      rw [wp_bind]
      refine wp_applyOwn hcache.front ((wp_ite _).2 ⟨fun hfits => ?_, fun hfits => ?_⟩)
      · rw [addSurvivor_of_survives (hsurvives.2 ⟨hnear.2, hfits.1, hsmall tx List.mem_cons_self, hfits.2⟩)] at hQ
        have hkeep := h.keep hn hgap fun _ => rfl
        have hflag := h.flag_iff hn hgap
        refine (wp_ite _).2 ⟨fun hbroken => ?_, fun hbroken => ?_⟩
        · rw [wp_bind]
          refine wp_demoteOwn hcache.front ?_
          intro c hc
          refine ih hkeep (by omega) htail hsmallTail ?_ hQ
          exact hc.placed_concat h.ascending hbelow (by rw [if_neg (hflag.1 hbroken)])
        · refine ih hkeep (by omega) htail hsmallTail ?_ hQ
          refine hcache.front.placed_concat h.ascending hbelow ?_
          rw [if_pos (not_not.1 fun hne => hbroken (hflag.2 hne))]
      · rw [addSurvivor_of_not fun hs => hfits ⟨(hsurvives.1 hs).2.1, (hsurvives.1 hs).2.2.2⟩] at hQ
        rw [wp_bind]
        refine wp_removeOwn hcache.front ?_
        intro c hc
        exact ih (h.drop hn) (by omega) htail hsmallTail hc hQ
    · have hfar : getMaxAcceptableNonce settings n < getNonce tx := by
        by_contra hle
        refine hnear ⟨fun hgap => ?_, not_lt.1 hle⟩
        exact hle (h.exceeded hgap)
      rw [addSurvivor_of_not fun hs => absurd hs.1 (not_le.2 hfar)] at hQ
      rw [wp_bind]
      refine wp_removeOwn hcache.front ?_
      intro c hc
      exact ih (h.exceed hfar) (by omega) htail hsmallTail hc hQ

/-- the third loop -/
theorem wp_revertNonExecTxs {txs : List Tx} {Q : Rebuild → MempoolMap Tx → Prop}
    (h : Rebuilding settings n true v kept j) (hn : n ≤ hi) (hend : runEnd getNonce n kept ≤ hi)
    (hsorted : txs.Pairwise fun x y => getNonce x < getNonce y)
    (htxs : ∀ tx ∈ txs, hi < getNonce tx ∧ j ≤ getNonce tx ∧ txSizeInSlot tx ≤ MaxNumOfSlotsForTx)
    (hcache : CacheHolds a others (placed n kept ++ withStatus .NON_EXEC txs) m.txCache)
    (hQ : ∀ v' c j', Rebuilding settings n true v' (txs.foldl (addSurvivor settings balance n true) kept) j' →
      CacheHolds a others (placed n (txs.foldl (addSurvivor settings balance n true) kept)) c → Q v' (m.withCache c)) :
    wp ((txs.map nonceAndId).foldlM (revertNonExecTx settings balance (getMaxAcceptableNonce settings n)) v) Q E m := by
  induction txs generalizing v kept j m with
  | nil =>
    rw [List.map_nil, List.foldlM_nil, wp_pure]
    exact hQ v m.txCache j h (by simpa [withStatus] using hcache)
  | cons tx txs ih =>
    obtain ⟨hhead, hsorted⟩ := List.pairwise_cons.1 hsorted
    obtain ⟨hhi, hj, hsmall⟩ := htxs tx List.mem_cons_self
    have htail : ∀ x ∈ txs, hi < getNonce x ∧ getNonce tx + 1 ≤ getNonce x ∧ txSizeInSlot x ≤ MaxNumOfSlotsForTx := by
      intro x hx
      obtain ⟨hhi, -, hsmall⟩ := htxs x (List.mem_cons_of_mem _ hx)
      have hlt := hhead x hx
      exact ⟨hhi, by omega, hsmall⟩
    have hbelow : ∀ x ∈ kept, getNonce x < getNonce tx := fun x hx => (h.below x hx).trans_le hj
    have hne : getNonce tx ≠ runEnd getNonce n kept := by omega
    have hsurvives := survives_iff balance h tx
    rw [withStatus_cons] at hcache
    rw [List.foldl_cons] at hQ
    rw [List.map_cons, List.foldlM_cons, wp_bind]
    simp only [nonceAndId, revertNonExecTx]
    refine (wp_ite _).2 ⟨fun hnear => ?_, fun hnear => ?_⟩
    · rw [wp_bind]
      refine wp_applyOwn hcache.front ((wp_ite _).2 ⟨fun hfits => ?_, fun hfits => ?_⟩)
      · rw [addSurvivor_of_survives (hsurvives.2 ⟨hnear.2, hfits.1, hsmall, hfits.2⟩)] at hQ
        rw [wp_pure]
        refine ih (j := getNonce tx + 1) ?_ ?_ hsorted htail ?_ hQ
        · refine h.put hj (by omega) ?_ ?_ (fun _ => rfl) rfl
          · rw [if_neg hne]
          · rw [if_neg hne]
        · rw [runEnd_concat_of_ne hne]
          exact hend
        · exact hcache.front.placed_concat h.ascending hbelow (by rw [if_neg hne])
      · rw [addSurvivor_of_not fun hs => hfits ⟨(hsurvives.1 hs).2.1, (hsurvives.1 hs).2.2.2⟩] at hQ
        rw [wp_bind]
        refine wp_removeOwn hcache.front ?_
        intro c hc
        exact ih (h.advance (by omega)) hend hsorted htail hc hQ
    · have hfar : getMaxAcceptableNonce settings n < getNonce tx := by
        by_contra hle
        refine hnear ⟨fun hgap => ?_, not_lt.1 hle⟩
        exact hle ((h.exceeded hgap).trans_le hj)
      rw [addSurvivor_of_not fun hs => absurd hs.1 (not_le.2 hfar)] at hQ
      rw [wp_bind]
      refine wp_removeOwn hcache.front ?_
      intro c hc
      have hadvance := h.advance (k := getNonce tx + 1) (by omega)
      refine ih (j := getNonce tx + 1) ?_ hend hsorted htail hc hQ
      exact ⟨h.exec, h.nonExec, h.ascending, hadvance.below, h.slots, fun _ => by omega⟩

end Reverted

/-! ## No transactions to put back -/

section Applied

variable {settings : AccountMempoolSettings} {balance n j : ℤ} {v : Rebuild} {kept : List Tx} {a : Address}
  {others : List (TxInfo Tx)} {m : MempoolMap Tx} {E : MempoolException → MempoolMap Tx → Prop}

theorem survives_applied_iff {tx : Tx} (hnear : getNonce tx ≤ getMaxAcceptableNonce settings n) :
    Survives settings balance n false kept tx ↔ maxCost tx ≤ balance := by
  simp [Survives, hnear]

/-- the transactions that the new state nonce leaves -/
def fromNonce (n : ℤ) (txs : List Tx) : List Tx := txs.filter fun tx => n ≤ getNonce tx

theorem fromNonce_cons_of_lt {tx : Tx} {txs : List Tx} (h : getNonce tx < n) :
    fromNonce n (tx :: txs) = fromNonce n txs := List.filter_cons_of_neg (by simpa using h)

theorem fromNonce_cons_of_le {tx : Tx} {txs : List Tx} (h : n ≤ getNonce tx) :
    fromNonce n (tx :: txs) = tx :: fromNonce n txs := List.filter_cons_of_pos (by simpa using h)

theorem fromNonce_append (txs txs' : List Tx) : fromNonce n (txs ++ txs') = fromNonce n txs ++ fromNonce n txs' :=
  List.filter_append txs txs'

/-- the first loop -/
theorem wp_updateExecTxs {txs : List Tx} {pending : List (Tx × TxExecutableStatus)} {Q : Rebuild → MempoolMap Tx → Prop}
    (h : RebuildingExec settings n false v kept j) (hgap : v.maxNonceGapExceeded = false)
    (htxs : Consecutive getNonce j txs) (hnear : ∀ tx ∈ txs, getNonce tx ≤ getMaxAcceptableNonce settings n)
    (hcache : CacheHolds a others (placed n kept ++ (withStatus .EXEC txs ++ pending)) m.txCache)
    (hQ : ∀ v' c, RebuildingExec settings n false v'
        ((fromNonce n txs).foldl (addSurvivor settings balance n false) kept) (j + txs.length) →
      CacheHolds a others (placed n ((fromNonce n txs).foldl (addSurvivor settings balance n false) kept) ++ pending) c →
      Q v' (m.withCache c)) :
    wp ((txs.map nonceAndId).foldlM (updateExecTx balance n) v) Q E m := by
  induction txs generalizing v kept j m with
  | nil =>
    rw [List.map_nil, List.foldlM_nil, wp_pure]
    exact hQ v m.txCache (by simpa [fromNonce] using h) hcache
  | cons tx txs ih =>
    obtain ⟨hfirst, htail⟩ := consecutive_cons.1 htxs
    subst hfirst
    have hnearTail : ∀ x ∈ txs, getNonce x ≤ getMaxAcceptableNonce settings n :=
      fun x hx => hnear x (List.mem_cons_of_mem _ hx)
    have hbelow : ∀ x ∈ kept, getNonce x < getNonce tx := h.below
    rw [withStatus_cons, List.cons_append] at hcache
    rw [List.length_cons, Nat.cast_succ, add_comm (txs.length : ℤ) 1, ← add_assoc] at hQ
    rw [List.map_cons, List.foldlM_cons, wp_bind]
    simp only [nonceAndId, updateExecTx]
    refine (wp_ite _).2 ⟨fun hlt => ?_, fun hle => ?_⟩
    · rw [fromNonce_cons_of_lt hlt] at hQ
      rw [wp_bind]
      refine wp_removeOwn hcache.front ?_
      intro c hc
      exact ih (h.skip (.inl hlt)) hgap htail hnearTail hc hQ
    · have hn : n ≤ getNonce tx := not_lt.1 hle
      have hsurvives : Survives settings balance n false kept tx ↔ maxCost tx ≤ balance :=
        survives_applied_iff (hnear tx List.mem_cons_self)
      rw [fromNonce_cons_of_le hn, List.foldl_cons] at hQ
      rw [wp_bind]
      refine wp_applyOwn hcache.front ((wp_ite _).2 ⟨fun hfits => ?_, fun hfits => ?_⟩)
      · rw [addSurvivor_of_survives (hsurvives.2 hfits)] at hQ
        have hkeep : RebuildingExec settings n false (v.put (getNonce tx) (idOf tx)) (kept ++ [tx]) (getNonce tx + 1) :=
          h.keep hn hgap fun hreverted => by cases hreverted
        have hgapKept : (v.put (getNonce tx) (idOf tx)).maxNonceGapExceeded = false := by
          unfold Rebuild.put
          split_ifs <;> exact hgap
        have hflag := h.flag_iff hn hgap
        refine (wp_ite _).2 ⟨fun hbroken => ?_, fun hbroken => ?_⟩
        · rw [wp_bind]
          refine wp_demoteOwn hcache.front ?_
          intro c hc
          refine ih hkeep hgapKept htail hnearTail ?_ hQ
          exact hc.placed_concat h.ascending hbelow (by rw [if_neg (hflag.1 hbroken)])
        · refine ih hkeep hgapKept htail hnearTail ?_ hQ
          refine hcache.front.placed_concat h.ascending hbelow ?_
          rw [if_pos (not_not.1 fun hne => hbroken (hflag.2 hne))]
      · rw [addSurvivor_of_not fun hs => hfits (hsurvives.1 hs)] at hQ
        rw [wp_bind]
        refine wp_removeOwn hcache.front ?_
        intro c hc
        exact ih (h.drop hn) hgap htail hnearTail hc hQ

/-- the second loop; the expected nonce goes with the run -/
theorem wp_updateNonExecTxs {txs promotedTxs : List Tx} {newExpectedNonce : ℤ}
    {Q : Rebuild × ℤ × List Tx → MempoolMap Tx → Prop} (h : Rebuilding settings n false v kept j)
    (hend : newExpectedNonce = runEnd getNonce n kept) (hsorted : txs.Pairwise fun x y => getNonce x < getNonce y)
    (htxs : ∀ tx ∈ txs, j ≤ getNonce tx ∧ getNonce tx ≤ getMaxAcceptableNonce settings n)
    (hcache : CacheHolds a others (placed n kept ++ withStatus .NON_EXEC txs) m.txCache)
    (hQ : ∀ v' c j' promoted, Rebuilding settings n false v'
        ((fromNonce n txs).foldl (addSurvivor settings balance n false) kept) j' →
      CacheHolds a others (placed n ((fromNonce n txs).foldl (addSurvivor settings balance n false) kept)) c →
      Q (v', runEnd getNonce n ((fromNonce n txs).foldl (addSurvivor settings balance n false) kept), promoted)
        (m.withCache c)) :
    wp ((txs.map nonceAndId).foldlM (updateNonExecTx balance) (v, newExpectedNonce, promotedTxs)) Q E m := by
  induction txs generalizing v kept j m newExpectedNonce promotedTxs with
  | nil =>
    rw [List.map_nil, List.foldlM_nil, wp_pure, hend]
    exact hQ v m.txCache j promotedTxs h (by simpa [withStatus, fromNonce] using hcache)
  | cons tx txs ih =>
    subst hend
    obtain ⟨hhead, hsorted⟩ := List.pairwise_cons.1 hsorted
    obtain ⟨hj, hnear⟩ := htxs tx List.mem_cons_self
    have htail : ∀ x ∈ txs, getNonce tx + 1 ≤ getNonce x ∧ getNonce x ≤ getMaxAcceptableNonce settings n :=
      fun x hx => ⟨hhead x hx, (htxs x (List.mem_cons_of_mem _ hx)).2⟩
    have hbelow : ∀ x ∈ kept, getNonce x < getNonce tx := fun x hx => (h.below x hx).trans_le hj
    have hadvance := h.advance (k := getNonce tx + 1) (by omega)
    rw [withStatus_cons] at hcache
    rw [List.map_cons, List.foldlM_cons, wp_bind]
    simp only [nonceAndId, updateNonExecTx]
    refine (wp_ite _).2 ⟨fun hlt => ?_, fun hle => ?_⟩
    · -- the run ends behind a nonce only if it is empty
      have hlow : getNonce tx < n := by
        have hmax := h.runEnd_le
        omega
      rw [fromNonce_cons_of_lt hlow] at hQ
      rw [wp_bind]
      refine wp_removeOwn hcache.front ?_
      intro c hc
      exact ih hadvance rfl hsorted htail hc hQ
    · have hn : n ≤ getNonce tx := (le_runEnd n kept).trans (not_lt.1 hle)
      have hsurvives : Survives settings balance n false kept tx ↔ maxCost tx ≤ balance := survives_applied_iff hnear
      rw [fromNonce_cons_of_le hn, List.foldl_cons] at hQ
      rw [wp_bind]
      refine wp_applyOwn hcache.front ((wp_ite _).2 ⟨fun hfits => ?_, fun hfits => ?_⟩)
      · rw [addSurvivor_of_survives (hsurvives.2 hfits)] at hQ
        refine (wp_ite _).2 ⟨fun heq => ?_, fun hne => ?_⟩
        · rw [wp_bind]
          refine wp_promoteOwn hcache.front ?_
          intro c hc
          refine ih (j := getNonce tx + 1) ?_ ?_ hsorted htail ?_ hQ
          · refine h.put hj hn ?_ ?_ (fun hreverted => by cases hreverted) rfl
            · rw [if_pos heq]
            · rw [if_pos heq]
          · exact (runEnd_concat_of_eq h.ascending hbelow heq).symm
          · exact hc.placed_concat h.ascending hbelow (by rw [if_pos heq])
        · refine ih (j := getNonce tx + 1) ?_ ?_ hsorted htail ?_ hQ
          · refine h.put hj hn ?_ ?_ (fun hreverted => by cases hreverted) rfl
            · rw [if_neg hne]
            · rw [if_neg hne]
          · exact (runEnd_concat_of_ne hne).symm
          · exact hcache.front.placed_concat h.ascending hbelow (by rw [if_neg hne])
      · rw [addSurvivor_of_not fun hs => hfits (hsurvives.1 hs)] at hQ
        rw [wp_bind]
        refine wp_removeOwn hcache.front ?_
        intro c hc
        exact ih hadvance rfl hsorted htail hc hQ

end Applied

end SidechainsSdk.Account.Mempool
