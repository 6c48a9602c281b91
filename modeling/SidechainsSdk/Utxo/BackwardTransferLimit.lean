/-
The gradual limit of withdrawal requests (`SidechainState.checkWithdrawalBoxesAllowed`): after a block with index `i` in its
withdrawal epoch, at most `min(M, M * i / (L - 1))` requests are stored for that epoch.

The check takes the requests of the epoch and the index of the state before the block. For a block that starts an epoch
both belong to the epoch before, and the index is beyond its end: the requests of the old epoch and those of the block
together are compared with `M`. The product is one of `Int`s: from `M * i = 2 ^ 31` on (`i = 537006` for `M = 3999`) it
wraps, and the check allows less.

- `allowance_of_fits`, `allowance_le`: what the code computes, within an `Int` and beyond.
- `check_ok_iff`, `check_iff_respects`: what the check comes to, and when that is the limit of the block's own epoch.
- `backward_transfer_limit`: in a run whose blocks all meet `LimitsAgree` the limit holds after every block, and a further
  block is checked by its own limit exactly if it meets it.
- `limit_broken_at_new_epoch`: the first block of an epoch carries no reference and a withdrawal request.
-/
import Mathlib.Tactic
import SidechainsSdk.Utxo.SidechainState

namespace SidechainsSdk.Utxo.BackwardTransferLimit

open Fallible Ledger SidechainState
open Withdrawals (WithdrawalEpochInfo)

/-- the number of withdrawal request boxes that the transactions of a block create -/
def blockWBs (mod : SidechainBlock) : ℕ := (mod.transactions.map fun tx => tx.newBoxes.countP Box.isWithdrawalRequestBox).sum

/-- the limit at index `i` of an epoch -/
def limitAt (params : NetworkParams) (i : ℕ) : ℕ :=
  min params.maxWBsAllowed (params.maxWBsAllowed * i / (params.withdrawalEpochLength - 1))

theorem limitAt_mono (params : NetworkParams) {i j : ℕ} (h : i ≤ j) : limitAt params i ≤ limitAt params j := by
  unfold limitAt
  gcongr

/-- from the next to last index on the limit is the maximum -/
theorem limitAt_eq_max {params : NetworkParams} {i : ℕ} (hL : 2 ≤ params.withdrawalEpochLength)
    (hi : params.withdrawalEpochLength ≤ i + 1) : limitAt params i = params.maxWBsAllowed := by
  apply min_eq_left
  rw [Nat.le_div_iff_mul_le (by omega)]
  exact Nat.mul_le_mul_left _ (by omega)

/-! ## The product -/

/-- the quotient at index `i`, of the product as an `Int` -/
def wrapped (params : NetworkParams) (i : ℕ) : ℤ :=
  (MachineInt.intOf (params.maxWBsAllowed * i : ℕ)).tdiv (params.withdrawalEpochLength - 1)

/-- the smaller one of the maximum and this quotient -/
def allowance (params : NetworkParams) (i : ℕ) : ℤ := min (params.maxWBsAllowed : ℤ) (wrapped params i)

theorem limitAt_eq (params : NetworkParams) (hL : 2 ≤ params.withdrawalEpochLength) (i : ℕ) : (limitAt params i : ℤ) =
    min (params.maxWBsAllowed : ℤ) (((params.maxWBsAllowed * i : ℕ) : ℤ).tdiv (params.withdrawalEpochLength - 1)) := by
  have hlength : (params.withdrawalEpochLength : ℤ) - 1 = (params.withdrawalEpochLength - 1 : ℕ) := by omega
  rw [limitAt, hlength, ← Int.ofNat_tdiv]
  push_cast
  rfl

theorem allowance_of_fits {params : NetworkParams} {i : ℕ} (hL : 2 ≤ params.withdrawalEpochLength)
    (hfits : params.maxWBsAllowed * i < 2 ^ 31) : allowance params i = limitAt params i := by
  have hint : MachineInt.intOf (params.maxWBsAllowed * i : ℕ) = (params.maxWBsAllowed * i : ℕ) :=
    MachineInt.intOf_eq ⟨by omega, by omega⟩
  rw [allowance, wrapped, hint, limitAt_eq params hL]

theorem allowance_le (params : NetworkParams) (hL : 2 ≤ params.withdrawalEpochLength) (i : ℕ) :
    allowance params i ≤ limitAt params i := by
  rw [allowance, wrapped, limitAt_eq params hL]
  have hproduct : MachineInt.intOf (params.maxWBsAllowed * i : ℕ) ≤ (params.maxWBsAllowed * i : ℕ) :=
    MachineInt.intOf_le (by omega)
  exact min_le_min_left _ (Int.tdiv_le_tdiv (by omega) hproduct)

example : allowance { sampleParams with withdrawalEpochLength := 600000 } 537005 = 3579 := by decide +kernel

example : allowance { sampleParams with withdrawalEpochLength := 600000 } 537006 = -3579 := by decide +kernel

/-! ## The check -/

section Check

variable {σ τ : Type} {params : NetworkParams} {env : Externals σ τ} {s s' : SidechainState σ τ} {mod : SidechainBlock}
  {info : WithdrawalEpochInfo} {consensusEpoch : ℕ}

/-- the sum only grows, so that the last comparison decides -/
theorem countWithdrawalBoxes_ok (allowed : ℤ) (n : ℕ) (txs : List BoxTransaction) :
    countWithdrawalBoxes allowed n txs = .ok () ↔
      txs = [] ∨ ((n + (txs.map fun tx => tx.newBoxes.countP Box.isWithdrawalRequestBox).sum : ℕ) : ℤ) ≤ allowed := by
  induction txs generalizing n with
  | nil => simp [countWithdrawalBoxes]
  | cons tx txs ih =>
    simp only [countWithdrawalBoxes, failIf_bind_ok, ih, not_lt, List.map_cons, List.sum_cons, reduceCtorEq, false_or]
    constructor
    · rintro ⟨hle, rfl | hsum⟩
      · simpa using hle
      · omega
    · intro hsum
      exact ⟨by omega, .inr (by omega)⟩

theorem check_ok_iff (hL : 2 ≤ params.withdrawalEpochLength) :
    s.checkWithdrawalBoxesAllowed params mod = .ok () ↔ mod.transactions = [] ∨
      ((s.getAlreadyMinedWithdrawalRequestBoxesInCurrentEpoch + blockWBs mod : ℕ) : ℤ) ≤
        allowance params (s.getWithdrawalEpochInfo.lastEpochIndex + mod.mainchainBlockReferencesData.length) := by
  have hallowed : s.getAllowedWithdrawalRequestBoxes params mod.mainchainBlockReferencesData.length =
      .ok (allowance params (s.getWithdrawalEpochInfo.lastEpochIndex + mod.mainchainBlockReferencesData.length)) := by
    rw [getAllowedWithdrawalRequestBoxes, failIf, if_neg (by omega)]
    rfl
  rw [checkWithdrawalBoxesAllowed, hallowed]
  exact countWithdrawalBoxes_ok _ _ _

theorem blockWBs_nil (h : mod.transactions = []) : blockWBs mod = 0 := by
  simp [blockWBs, h]

/-- the block respects the limit of its own epoch -/
def Respects (params : NetworkParams) (s : SidechainState σ τ) (mod : SidechainBlock) (info : WithdrawalEpochInfo) : Prop :=
  (s.withdrawalRequests info.epoch).length + blockWBs mod ≤ limitAt params info.lastEpochIndex

/-- the limit holds in the state, and nothing is stored for later epochs -/
structure Inv (params : NetworkParams) (s : SidechainState σ τ) : Prop where
  later : ∀ e > s.getWithdrawalEpochInfo.epoch, s.withdrawalRequests e = []
  within : s.getAlreadyMinedWithdrawalRequestBoxesInCurrentEpoch ≤ limitAt params s.getWithdrawalEpochInfo.lastEpochIndex

/-- the block is beyond both numbers, or beyond none of them -/
def SameSide (n m : ℕ) (allowed : ℤ) (limit : ℕ) : Prop := (n : ℤ) ≤ allowed ∧ m ≤ limit ∨ allowed < n ∧
    limit < m

/-- The first block of an epoch must not lie between what `M` leaves beside the requests of the old epoch and what its own epoch
allows. Any other block is checked by its own limit if the product fits an `Int`; if not, it must not lie between the limit
and what the wrapped product gives. -/
def LimitsAgree (params : NetworkParams) (s : SidechainState σ τ) (mod : SidechainBlock) : Prop :=
  let stored := s.getAlreadyMinedWithdrawalRequestBoxesInCurrentEpoch
  let index := s.getWithdrawalEpochInfo.lastEpochIndex
  let refs := mod.mainchainBlockReferencesData.length
  let fits := params.maxWBsAllowed * (index + refs) < 2 ^ 31
  mod.transactions = [] ∨
    (index = params.withdrawalEpochLength ∧ fits ∧
      SameSide (stored + blockWBs mod) (blockWBs mod) params.maxWBsAllowed (limitAt params refs)) ∨
    (index = params.withdrawalEpochLength ∧ ¬ fits ∧
      SameSide (stored + blockWBs mod) (blockWBs mod) (allowance params (index + refs)) (limitAt params refs)) ∨
    (index ≠ params.withdrawalEpochLength ∧ fits) ∨
    (index ≠ params.withdrawalEpochLength ∧ ¬ fits ∧
      SameSide (stored + blockWBs mod) (stored + blockWBs mod) (allowance params (index + refs)) (limitAt params (index + refs)))

instance (n m : ℕ) (allowed : ℤ) (limit : ℕ) : Decidable (SameSide n m allowed limit) :=
  inferInstanceAs (Decidable (_ ∨ _))

instance (params : NetworkParams) (s : SidechainState σ τ) (mod : SidechainBlock) : Decidable (LimitsAgree params s mod) :=
  inferInstanceAs (Decidable (_ ∨ _ ∨ _ ∨ _ ∨ _))

theorem sameSide_iff {n m : ℕ} {allowed : ℤ} {limit : ℕ} :
    SameSide n m allowed limit ↔ ((n : ℤ) ≤ allowed ↔ m ≤ limit) := by
  rw [SameSide, ← not_le, ← not_le]
  exact iff_iff_and_or_not_and_not.symm

theorem respects_same (hinfo : info = ⟨s.getWithdrawalEpochInfo.epoch,
      s.getWithdrawalEpochInfo.lastEpochIndex + mod.mainchainBlockReferencesData.length⟩) :
    Respects params s mod info ↔ s.getAlreadyMinedWithdrawalRequestBoxesInCurrentEpoch + blockWBs mod ≤
      limitAt params (s.getWithdrawalEpochInfo.lastEpochIndex + mod.mainchainBlockReferencesData.length) := by
  rw [Respects, hinfo]
  rfl

/-- in the first block of an epoch the index is beyond the end of the old one, and the limit there is the maximum -/
theorem allowance_next (hL : 2 ≤ params.withdrawalEpochLength)
    (hparent : s.getWithdrawalEpochInfo.lastEpochIndex = params.withdrawalEpochLength) {refs : ℕ}
    (hfits : params.maxWBsAllowed * (s.getWithdrawalEpochInfo.lastEpochIndex + refs) < 2 ^ 31) :
    allowance params (s.getWithdrawalEpochInfo.lastEpochIndex + refs) = params.maxWBsAllowed := by
  rw [allowance_of_fits hL hfits, limitAt_eq_max hL (by omega)]

theorem respects_next (hs : Inv params s)
    (hinfo : info = ⟨s.getWithdrawalEpochInfo.epoch + 1, mod.mainchainBlockReferencesData.length⟩) :
    Respects params s mod info ↔ blockWBs mod ≤ limitAt params mod.mainchainBlockReferencesData.length := by
  have hnone : s.withdrawalRequests info.epoch = [] := by
    apply hs.later
    rw [hinfo]
    simp
  rw [Respects, hnone, hinfo]
  simp

theorem limitsAgree_next (hL : 2 ≤ params.withdrawalEpochLength) (htxs : mod.transactions ≠ [])
    (hparent : s.getWithdrawalEpochInfo.lastEpochIndex = params.withdrawalEpochLength) :
    LimitsAgree params s mod ↔ SameSide (s.getAlreadyMinedWithdrawalRequestBoxesInCurrentEpoch + blockWBs mod) (blockWBs mod)
      (allowance params (s.getWithdrawalEpochInfo.lastEpochIndex + mod.mainchainBlockReferencesData.length))
      (limitAt params mod.mainchainBlockReferencesData.length) := by
  by_cases hfits : params.maxWBsAllowed *
      (s.getWithdrawalEpochInfo.lastEpochIndex + mod.mainchainBlockReferencesData.length) < 2 ^ 31
  · rw [allowance_next hL hparent hfits]
    simp only [LimitsAgree, htxs, hparent, hparent ▸ hfits, true_and, false_and, or_false, false_or, not_true, ne_eq]
  · simp only [LimitsAgree, htxs, hparent, hparent ▸ hfits, true_and, false_and, or_false, false_or, not_true,
      not_false_eq_true,
      ne_eq]

theorem limitsAgree_same (hL : 2 ≤ params.withdrawalEpochLength) (htxs : mod.transactions ≠ [])
    (hparent : s.getWithdrawalEpochInfo.lastEpochIndex ≠ params.withdrawalEpochLength) :
    LimitsAgree params s mod ↔ SameSide (s.getAlreadyMinedWithdrawalRequestBoxesInCurrentEpoch + blockWBs mod)
      (s.getAlreadyMinedWithdrawalRequestBoxesInCurrentEpoch + blockWBs mod)
      (allowance params (s.getWithdrawalEpochInfo.lastEpochIndex + mod.mainchainBlockReferencesData.length))
      (limitAt params (s.getWithdrawalEpochInfo.lastEpochIndex + mod.mainchainBlockReferencesData.length)) := by
  by_cases hfits : params.maxWBsAllowed *
      (s.getWithdrawalEpochInfo.lastEpochIndex + mod.mainchainBlockReferencesData.length) < 2 ^ 31
  · simp only [allowance_of_fits hL hfits, sameSide_iff, Nat.cast_le, iff_true]
    simp only [LimitsAgree, hparent, hfits, ne_eq, not_false_eq_true, true_and, true_or, or_true]
  · simp only [LimitsAgree, htxs, hparent, hfits, ne_eq, not_false_eq_true, true_and, false_and, false_or]

/-- **The check.** It decides by the limit of the block's own epoch exactly if the two limits agree on the block. -/
theorem check_iff_respects (hL : 2 ≤ params.withdrawalEpochLength) (hs : Inv params s)
    (hcases : EpochCases params.withdrawalEpochLength s.getWithdrawalEpochInfo mod.mainchainBlockReferencesData.length info) :
    (s.checkWithdrawalBoxesAllowed params mod = .ok () ↔ Respects params s mod info) ↔ LimitsAgree params s mod := by
  rw [check_ok_iff hL]
  by_cases htxs : mod.transactions = []
  · -- nothing is counted, and the requests of the block's epoch stay within a limit that only grows
    have hrespects : Respects params s mod info := by
      rcases hcases with ⟨-, -, hinfo⟩ | ⟨-, -, hinfo⟩
      · rw [respects_next hs hinfo, blockWBs_nil htxs]
        exact Nat.zero_le _
      · rw [respects_same hinfo, blockWBs_nil htxs]
        exact hs.within.trans (limitAt_mono params (Nat.le_add_right _ _))
    have hagree : LimitsAgree params s mod := .inl htxs
    simp only [htxs, true_or, hrespects, hagree]
  · rw [or_iff_right htxs]
    rcases hcases with ⟨hparent, -, hinfo⟩ | ⟨hparent, -, hinfo⟩
    · rw [respects_next hs hinfo, limitsAgree_next hL htxs hparent, sameSide_iff]
    · rw [respects_same hinfo, limitsAgree_same hL htxs hparent, sameSide_iff]

end Check

/-! ## Runs -/

section Runs

variable {σ τ : Type} {params : NetworkParams} {env : Externals σ τ}

theorem feePayments_not_withdrawalRequests (s : SidechainState σ τ) (e : ℤ) (info : Option BlockFeeInfo) :
    (s.getFeePayments env e info).filter Box.isWithdrawalRequestBox = [] := by
  rw [List.filter_eq_nil_iff]
  intro box hbox
  simp only [getFeePayments] at hbox
  split_ifs at hbox
  · simp at hbox
  · obtain ⟨hbox, -⟩ := List.mem_filter.1 hbox
    obtain ⟨i, hi, rfl⟩ := List.mem_mapIdx.1 hbox
    simp [feePaymentBox, Box.isWithdrawalRequestBox]

/-- the requests that a block adds are those of its transactions -/
theorem length_withdrawalRequests (s : SidechainState σ τ) (mod : SidechainBlock) (d : BlockData) :
    ((s.boxesToAppend params env (changes mod) d).filter Box.isWithdrawalRequestBox).length = blockWBs mod := by
  have hchanges : ((changes mod).toAppend.filter Box.isWithdrawalRequestBox).length = blockWBs mod := by
    rw [← List.countP_eq_length_filter, changes, List.countP_flatMap]
    rfl
  unfold boxesToAppend
  split_ifs
  · rw [List.filter_append, feePayments_not_withdrawalRequests, List.append_nil, hchanges]
  · exact hchanges

theorem update_withdrawalRequests_nil {c : StateContents} {u : StateContents.Update} {e : ℤ}
    (he : e ≠ u.withdrawalEpochInfo.epoch) (hnil : c.withdrawalRequests e = []) :
    (c.update params u).withdrawalRequests e = [] := by
  simp only [StateContents.update, if_neg he, hnil, ite_self]

theorem length_update_withdrawalRequests (c : StateContents) (u : StateContents.Update) :
    ((c.update params u).withdrawalRequests u.withdrawalEpochInfo.epoch).length ≤
      (c.withdrawalRequests u.withdrawalEpochInfo.epoch).length + u.withdrawalRequestAppendSeq.length := by
  simp only [StateContents.update, if_true]
  split_ifs
  · simp
  · rw [List.length_append]

/-- after a block: nothing for later epochs, and for its own epoch at most what there was and what it adds -/
theorem withdrawalRequests_after {s s' : SidechainState σ τ} {mod : SidechainBlock} {info : WithdrawalEpochInfo}
    {consensusEpoch : ℕ} (h : Applied params env s mod s' info consensusEpoch) :
    (∀ e, e ≠ info.epoch → s.withdrawalRequests e = [] → s'.withdrawalRequests e = []) ∧
      (s'.withdrawalRequests info.epoch).length ≤ (s.withdrawalRequests info.epoch).length + blockWBs mod := by
  obtain ⟨root, keys, hcontents⟩ := h.contents_eq
  constructor
  · intro e he hnil
    rw [SidechainState.withdrawalRequests, hcontents]
    exact update_withdrawalRequests_nil he hnil
  · rw [SidechainState.withdrawalRequests, hcontents, ← length_withdrawalRequests s mod
      (blockData params mod info consensusEpoch)]
    exact length_update_withdrawalRequests _ _

theorem step_inv (hL : 2 ≤ params.withdrawalEpochLength)
    (hlimit : ∀ e, (env.getSidechainFork e).backwardTransferLimitEnabled) {t : Transition σ τ}
    (ht : t.Accepted params env) (hs : Inv params t.before) (hagree : LimitsAgree params t.before t.block) :
    Inv params t.after := by
  obtain ⟨info, consensusEpoch, happlied⟩ := applyModifier_ok ht.byState
  have hvalid := validate_ok happlied.epoch_eq happlied.info_eq happlied.validated
  have hcheck := hvalid.withdrawalBoxesAllowed happlied.epoch_eq (hlimit consensusEpoch)
  have hcases := epoch_cases (by omega) ht.byHistory happlied.info_eq
  have hrespects := ((check_iff_respects hL hs hcases).2 hagree).1 hcheck
  obtain ⟨hothers, hown⟩ := withdrawalRequests_after happlied
  have hepoch : t.before.getWithdrawalEpochInfo.epoch ≤ info.epoch := by
    rcases hcases with ⟨-, -, hinfo⟩ | ⟨-, -, hinfo⟩
      <;> simp [hinfo]
  refine ⟨?_, ?_⟩
  · intro e he
    rw [happlied.getWithdrawalEpochInfo_eq] at he
    exact hothers e he.ne' (hs.later e (hepoch.trans_lt he))
  · rw [getAlreadyMinedWithdrawalRequestBoxesInCurrentEpoch, happlied.getWithdrawalEpochInfo_eq]
    exact hown.trans hrespects

/-- **Gradual limit.** In every run of accepted blocks with the limit enabled, from a state without withdrawal requests, in
which the two limits agree on every block: after every block the number of requests stored for its own epoch is at most
`min(M, M * i / (L - 1))`; and whatever block follows, it is rejected by the check exactly if it does not respect this
bound in its own epoch, if and only if the two limits agree on it. -/
theorem backward_transfer_limit (hL : 2 ≤ params.withdrawalEpochLength)
    (hlimit : ∀ e, (env.getSidechainFork e).backwardTransferLimitEnabled) {start : SidechainState σ τ}
    (hstart : ∀ e, start.withdrawalRequests e = []) {ts : List (Transition σ τ)} (hrun : Run params env start ts)
    (hagree : ∀ t ∈ ts, LimitsAgree params t.before t.block) :
    ∀ t ∈ ts,
      t.after.getAlreadyMinedWithdrawalRequestBoxesInCurrentEpoch ≤
          limitAt params t.after.getWithdrawalEpochInfo.lastEpochIndex ∧
        ∀ mod info, AcceptedByHistory params t.after.getWithdrawalEpochInfo mod →
          Withdrawals.WithdrawalEpochUtils.getWithdrawalEpochInfo mod.mainchainBlockReferencesData.length
            t.after.getWithdrawalEpochInfo params.withdrawalEpochLength = .ok info →
          ((t.after.checkWithdrawalBoxesAllowed params mod = .ok () ↔ Respects params t.after mod info) ↔
            LimitsAgree params t.after mod) := by
  have hinv : Inv params start :=
    ⟨fun e _ => hstart e, by simp [getAlreadyMinedWithdrawalRequestBoxesInCurrentEpoch, hstart]⟩
  clear hstart
  induction ts generalizing start with
  | nil => simp
  | cons t ts ih =>
    obtain ⟨rfl, haccepted, hrest⟩ := hrun
    have hafter := step_inv hL hlimit haccepted hinv (hagree t List.mem_cons_self)
    intro t' ht'
    rcases List.mem_cons.1 ht' with rfl | ht'
    · refine ⟨hafter.within, ?_⟩
      intro mod info hhistory hinfo
      exact check_iff_respects hL hafter (epoch_cases (by omega) hhistory hinfo)
    · exact ih hrest (fun t'' ht'' => hagree t'' (List.mem_cons_of_mem _ ht'')) hafter t' ht'

end Runs

/-! ## Epochs of three references -/

/-- ends epoch 0 and brings 100 coins -/
def sampleLast : SidechainBlock := ⟨2, 1, 1, 7, [sampleReference 2 [.forwardTransfer 2 0 7 100], sampleReference 3 []], [], 0⟩

/-- a block on it with `refs` references that withdraws these coins -/
def sampleWithdrawing (refs : List MainchainBlockReferenceData) : SidechainBlock :=
  ⟨3, 2, 2, 7, refs, [⟨9, .other, 100, [⟨2, 7⟩], [⟨5, 0, 8, 100, .withdrawalRequest⟩], 0⟩], 0⟩

theorem sample_run (refs : List MainchainBlockReferenceData)
    (hlast : AcceptedByHistory sampleParams ⟨0, 3⟩ (sampleWithdrawing refs) ∧
      (exec (applyModifier sampleParams sampleExternals (sampleWithdrawing refs))
        (sampleTransition (sampleTransition sampleState sampleGenesis).after sampleLast).after).1 = .ok ()) :
    Run sampleParams sampleExternals sampleState
      (sampleTransitions sampleState [sampleGenesis, sampleLast, sampleWithdrawing refs]) := by
  apply sampleTransitions_run
  simp only [sampleTransitions, List.forall_mem_cons, List.not_mem_nil, false_implies, implies_true, and_true]
  exact ⟨⟨.inr ⟨rfl, rfl⟩, rfl⟩, ⟨.inl rfl, rfl⟩, hlast⟩

/-- with two references of the new epoch the request is within its limit -/
theorem limit_kept_at_new_epoch :
    Run sampleParams sampleExternals sampleState (sampleTransitions sampleState
        [sampleGenesis, sampleLast, sampleWithdrawing [sampleReference 4 [], sampleReference 5 []]]) ∧
      ∀ t ∈ sampleTransitions sampleState
          [sampleGenesis, sampleLast, sampleWithdrawing [sampleReference 4 [], sampleReference 5 []]],
        t.after.getAlreadyMinedWithdrawalRequestBoxesInCurrentEpoch ≤
          limitAt sampleParams t.after.getWithdrawalEpochInfo.lastEpochIndex := by
  have hrun := sample_run [sampleReference 4 [], sampleReference 5 []] ⟨.inl rfl, rfl⟩
  refine ⟨hrun, ?_⟩
  intro t ht
  refine (backward_transfer_limit (by decide) (fun _ => rfl) (fun _ => rfl) hrun ?_ t ht).1
  decide +kernel

/-- a block without references starts epoch 1: its limit is 0, and the request is accepted -/
theorem limit_broken_at_new_epoch :
    Run sampleParams sampleExternals sampleState
        (sampleTransitions sampleState [sampleGenesis, sampleLast, sampleWithdrawing []]) ∧
      ¬ ∀ t ∈ sampleTransitions sampleState [sampleGenesis, sampleLast, sampleWithdrawing []],
        t.after.getAlreadyMinedWithdrawalRequestBoxesInCurrentEpoch ≤
          limitAt sampleParams t.after.getWithdrawalEpochInfo.lastEpochIndex := by
  refine ⟨sample_run [] ⟨.inl rfl, rfl⟩, ?_⟩
  decide +kernel

end SidechainsSdk.Utxo.BackwardTransferLimit
