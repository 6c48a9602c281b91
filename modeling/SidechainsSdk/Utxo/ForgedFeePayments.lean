/-
The hash of the fee payments in a block: the forger puts it in (`ForgeMessageBuilder.createNewBlock`), the state compares it
with its own (`SidechainState.validate`). The forger takes the epoch of the state, the state that of the block.

They differ when the parent ended an epoch and the block carries a whole epoch of references: the forger pays the fees of
the old epoch once more, which are still stored, and the state expects the fees of the new one, of which there are none.

- `FeesInv`: no fees are stored for epochs to come; kept by every accepted block.
- `Recorded.info_eq`: the history and the state know the same epoch info of a block.
- `forged_fee_payments`: the hashes agree exactly if the block does not fill an epoch, or nothing is owed for the old one.
- `forged_block_pays_twice`: a block that fills an epoch.
-/
import Mathlib.Tactic
import SidechainsSdk.Forging.ForgeMessageBuilder
import SidechainsSdk.Utxo.FeeRewards

namespace SidechainsSdk.Utxo.ForgedFeePayments

open Fallible Ledger SidechainState
open Forging hiding ModifierId
open Withdrawals (WithdrawalEpochInfo)
open Withdrawals.WithdrawalEpochUtils (isEpochLastIndex getWithdrawalEpochInfo)

/-! ## The forger -/

/-- the arguments of `SidechainBlock.create` that a block keeps besides its headers and ommers -/
structure BlockParts where
  parentId : ModifierId
  timestamp : ℤ
  mainchainBlockReferencesData : List MainchainBlockReferenceData
  sidechainTransactions : List SidechainTransaction
  blockSignPublicKey : Proposition
  feePaymentsHash : Hash

section Forger

variable {σ τ Header Ommer : Type} (env : Externals σ τ)

/-- `SidechainBlock.create`. Signing and hashing is outside: `sealing` gives the id of the block, or fails. -/
def create (sealing : BlockParts → Except String ModifierId) (p : BlockParts) : Except String SidechainBlock := do
  let id ← sealing p
  return ⟨id, p.parentId, p.timestamp, p.blockSignPublicKey, p.mainchainBlockReferencesData, p.sidechainTransactions,
    p.feePaymentsHash⟩

section

variable (sealing : List Header → List Ommer → BlockParts → Except String ModifierId) (blockSignPublicKey : Proposition)
  (state : SidechainState σ τ) (history : HistoryView SidechainBlock)
  (n : NewBlock Header MainchainBlockReferenceData Ommer SidechainTransaction)

def createWith (feePaymentsHash : Hash) : Except String SidechainBlock :=
  create (sealing n.mainchainHeaders n.ommers)
    ⟨n.parentId, n.timestamp, n.mainchainBlockReferencesData, n.sidechainTransactions, blockSignPublicKey, feePaymentsHash⟩

/-- the first part of `createNewBlock` -/
def feePayments : Except String (List Box) :=
  if n.isWithdrawalEpochLastBlock then do
    failIf (history.bestBlockId ≠ n.branchPointInfo.branchPointId)
      "requirement failed: Last block of the withdrawal epoch expect to be a continuation of the tip."
    failIf (n.ommers.length ≠ 0) "requirement failed: No Ommers allowed for the last block of the withdrawal epoch."
    let withdrawalEpochNumber := state.getWithdrawalEpochInfo.epoch
    -- a template with a dummy hash
    let blockTemplate ← createWith sealing blockSignPublicKey n 0
    return state.getFeePayments env withdrawalEpochNumber (some blockTemplate.feeInfo)
  else return []

def createNewBlock : Except String SidechainBlock := do
  let feePayments ← feePayments env sealing blockSignPublicKey state history n
  createWith sealing blockSignPublicKey n (calculateFeePaymentsHash env feePayments)

end

variable {env}

theorem create_ok {sealing : BlockParts → Except String ModifierId} {p : BlockParts} {block : SidechainBlock}
    (h : create sealing p = .ok block) :
    block.mainchainBlockReferencesData = p.mainchainBlockReferencesData ∧
      block.sidechainTransactions = p.sidechainTransactions ∧ block.forgerPublicKey = p.blockSignPublicKey ∧
      block.feePaymentsHash = p.feePaymentsHash := by
  obtain ⟨id, -, h⟩ := bind_ok h
  cases h
  exact ⟨rfl, rfl, rfl, rfl⟩

theorem create_feeInfo {sealing : BlockParts → Except String ModifierId} {p : BlockParts} {block : SidechainBlock}
    (h : create sealing p = .ok block) :
    block.feeInfo = (SidechainBlock.mk 0 0 0 p.blockSignPublicKey p.mainchainBlockReferencesData p.sidechainTransactions
      0).feeInfo := by
  obtain ⟨hdata, htxs, hkey, -⟩ := create_ok h
  simp only [SidechainBlock.feeInfo, SidechainBlock.transactions, hdata, htxs, hkey]

/-- the payments that the hash in a forged block is about -/
theorem createNewBlock_ok {sealing : List Header → List Ommer → BlockParts → Except String ModifierId} {key : Proposition}
    {state : SidechainState σ τ} {history : HistoryView SidechainBlock}
    {n : NewBlock Header MainchainBlockReferenceData Ommer SidechainTransaction} {block : SidechainBlock}
    (h : createNewBlock env sealing key state history n = .ok block) :
    block.mainchainBlockReferencesData = n.mainchainBlockReferencesData ∧
      block.sidechainTransactions = n.sidechainTransactions ∧
      block.feePaymentsHash = calculateFeePaymentsHash env (if n.isWithdrawalEpochLastBlock then
        state.getFeePayments env state.getWithdrawalEpochInfo.epoch (some block.feeInfo) else []) := by
  obtain ⟨payments, hpayments, h⟩ := bind_ok h
  obtain ⟨hdata, htxs, -, hhash⟩ := create_ok h
  refine ⟨hdata, htxs, hhash.trans (congrArg (calculateFeePaymentsHash env) ?_)⟩
  unfold feePayments at hpayments
  split_ifs at hpayments ⊢ with hlast
  · simp only [bind_ok_iff, failIf_ok] at hpayments
    obtain ⟨⟨⟩, -, ⟨⟩, -, template, htemplate, hpayments⟩ := hpayments
    have hfeeInfo : template.feeInfo = block.feeInfo := (create_feeInfo htemplate).trans (create_feeInfo h).symm
    rw [← hfeeInfo]
    exact (Except.ok.inj hpayments).symm
  · exact (Except.ok.inj hpayments).symm

end Forger

/-! ## Fees of epochs to come -/

section Runs

variable {σ τ : Type} {params : NetworkParams} {env : Externals σ τ}

/-- nothing is stored for later epochs, and the index is one of an epoch -/
structure FeesInv (params : NetworkParams) (s : SidechainState σ τ) : Prop where
  later : ∀ e > s.getWithdrawalEpochInfo.epoch, s.contents.blockFeeInfos e = []
  index_le : s.getWithdrawalEpochInfo.lastEpochIndex ≤ params.withdrawalEpochLength

theorem update_blockFeeInfos_nil {c : StateContents} {u : StateContents.Update} {e : ℤ}
    (he : e ≠ u.withdrawalEpochInfo.epoch) (hnil : c.blockFeeInfos e = []) : (c.update params u).blockFeeInfos e = [] := by
  simp only [StateContents.update, if_neg he, hnil, ite_self]

theorem step_feesInv (hL : 0 < params.withdrawalEpochLength) {t : Transition σ τ} (ht : t.Accepted params env)
    (hs : FeesInv params t.before) : FeesInv params t.after := by
  obtain ⟨info, consensusEpoch, happlied⟩ := applyModifier_ok ht.byState
  have hcases := epoch_cases hL ht.byHistory happlied.info_eq
  obtain ⟨root, keys, hcontents⟩ := happlied.contents_eq
  have hinfo := happlied.getWithdrawalEpochInfo_eq
  have hepoch : t.before.getWithdrawalEpochInfo.epoch ≤ info.epoch := by
    rcases hcases with ⟨-, -, hinfo⟩ | ⟨-, -, hinfo⟩
    · simp [hinfo]
    · simp [hinfo]
  refine ⟨?_, ?_⟩
  · intro e he
    rw [hinfo] at he
    rw [hcontents]
    exact update_blockFeeInfos_nil he.ne' (hs.later e (hepoch.trans_lt he))
  · rw [hinfo]
    rcases hcases with ⟨-, hrefs, hinfo⟩ | ⟨-, hrefs, hinfo⟩
    · simpa [hinfo] using hrefs
    · simpa [hinfo] using hrefs

theorem run_feesInv (hL : 0 < params.withdrawalEpochLength) {start : SidechainState σ τ} {ts : List (Transition σ τ)}
    (hrun : Run params env start ts) (hstart : FeesInv params start) : ∀ t ∈ ts, FeesInv params t.after := by
  induction ts generalizing start with
  | nil => simp
  | cons t ts ih =>
    obtain ⟨rfl, haccepted, hrest⟩ := hrun
    have hafter := step_feesInv hL haccepted hstart
    exact List.forall_mem_cons.2 ⟨hafter, ih hrest hafter⟩

/-- the infos that the history has calculated for the blocks (`calculateBlockInfo`), from the one of the first parent on -/
def Recorded (params : NetworkParams) (history : HistoryView SidechainBlock) :
    WithdrawalEpochInfo → List (Transition σ τ) → Prop
  | _, [] => True
  | parent, t :: ts => ∃ info, history.infos t.block.id = some info ∧
      getWithdrawalEpochInfo t.block.mainchainBlockReferencesData.length parent params.withdrawalEpochLength =
        .ok info.withdrawalEpochInfo ∧
      Recorded params history info.withdrawalEpochInfo ts

/-- the history and the state agree on the epoch of a block -/
theorem Recorded.info_eq {history : HistoryView SidechainBlock} {start : SidechainState σ τ} {ts : List (Transition σ τ)}
    (hrun : Run params env start ts) (h : Recorded params history start.getWithdrawalEpochInfo ts) :
    ∀ t ∈ ts, t.after.version = t.block.id ∧ ∃ info, history.infos t.block.id = some info ∧
      info.withdrawalEpochInfo = t.after.getWithdrawalEpochInfo := by
  induction ts generalizing start with
  | nil => simp
  | cons t ts ih =>
    obtain ⟨rfl, haccepted, hrest⟩ := hrun
    obtain ⟨info, hinfo, hcalculated, hrecorded⟩ := h
    obtain ⟨info', consensusEpoch, happlied⟩ := applyModifier_ok haccepted.byState
    have heq : info.withdrawalEpochInfo = t.after.getWithdrawalEpochInfo := by
      rw [happlied.getWithdrawalEpochInfo_eq]
      exact Except.ok.inj (hcalculated.symm.trans happlied.info_eq)
    rw [heq] at hrecorded
    exact List.forall_mem_cons.2 ⟨⟨happlied.version_eq, info, hinfo, heq⟩, ih hrest hrecorded⟩

/-! ## The two hashes -/

/-- the builder of a UTXO sidechain in the state `s` -/
structure IsUtxoBuilder {Header Ommer : Type} (params : NetworkParams) (env : Externals σ τ) (s : SidechainState σ τ)
    (b : Builder Header MainchainBlockReferenceData Ommer SidechainTransaction SidechainBlock) : Prop where
  length_eq : b.withdrawalEpochLength = params.withdrawalEpochLength
  created : ∃ sealing key, b.createNewBlock = createNewBlock env sealing key s

/-- the parent ended an epoch, and the references of the block are those of the whole next one -/
def FillsEpoch (params : NetworkParams) (s : SidechainState σ τ) (block : SidechainBlock) : Prop :=
  s.getWithdrawalEpochInfo.lastEpochIndex = params.withdrawalEpochLength ∧
    block.mainchainBlockReferencesData.length = params.withdrawalEpochLength

/-- with the fees stored for the epoch of the state, and a block without fees, no forger is owed anything -/
def NothingOwed (s : SidechainState σ τ) (forger : Proposition) : Prop :=
  ∀ reward ∈ aggregateRewards (forgersRewards (s.contents.blockFeeInfos s.getWithdrawalEpochInfo.epoch ++ [⟨0, forger⟩])),
    reward.2 ≤ 0

theorem nothingOwed_iff {s : SidechainState σ τ} {forger : Proposition}
    (h : FeesInRange (s.contents.blockFeeInfos s.getWithdrawalEpochInfo.epoch)) :
    NothingOwed s forger ↔ ∀ info ∈ s.contents.blockFeeInfos s.getWithdrawalEpochInfo.epoch, info.fee = 0 := by
  have hrange : FeesInRange (s.contents.blockFeeInfos s.getWithdrawalEpochInfo.epoch ++ [⟨0, forger⟩]) := by
    refine ⟨?_, ?_⟩
    · intro info hinfo
      rcases List.mem_append.1 hinfo with hinfo | hinfo
      · exact h.nonneg info hinfo
      · rw [List.mem_singleton.1 hinfo]
    · simpa using h.total
  rw [NothingOwed, rewards_nonpos_iff (by simp) hrange, List.forall_mem_append]
  simp

theorem feeInfo_without_transactions {block : SidechainBlock} (h : block.sidechainTransactions = []) :
    block.feeInfo = ⟨0, block.forgerPublicKey⟩ := by
  have hfees : ∀ x ∈ block.transactions.map BoxTransaction.fee, x = 0 := by
    intro x hx
    simp only [SidechainBlock.transactions, h, List.map_nil, List.append_nil, List.map_map, List.mem_map] at hx
    obtain ⟨tx, -, rfl⟩ := hx
    rfl
  have hsum : (block.transactions.map BoxTransaction.fee).sum = 0 := List.sum_eq_zero hfees
  have hlong : Long.sum (block.transactions.map BoxTransaction.fee) = 0 := by
    rw [Long.sum_eq (fun x hx => (hfees x hx).ge) (by rw [hsum]; norm_num), hsum]
  rw [SidechainBlock.feeInfo, hlong]

theorem calculateFeePaymentsHash_eq_default
    (hhash : ∀ boxes ≠ [], env.feePaymentsTransactionId boxes ≠ DEFAULT_FEE_PAYMENTS_HASH)
    (boxes : List Box) : calculateFeePaymentsHash env boxes = DEFAULT_FEE_PAYMENTS_HASH ↔ boxes = [] := by
  unfold calculateFeePaymentsHash
  cases boxes with
  | nil => simp
  | cons box boxes => simpa using hhash (box :: boxes) (by simp)

theorem getFeePayments_some (s : SidechainState σ τ) (e : ℤ) (info : BlockFeeInfo) :
    s.getFeePayments env e (some info) = feePaymentBoxes env e (s.contents.blockFeeInfos e ++ [info]) := by
  simp [getFeePayments]

/-- in a block that fills an epoch the state expects no payments -/
theorem expected_of_fillsEpoch {s : SidechainState σ τ} {block : SidechainBlock} (hinv : FeesInv params s)
    (htxs : block.sidechainTransactions = []) :
    s.expectedFeePaymentsHash params env block ⟨s.getWithdrawalEpochInfo.epoch + 1, params.withdrawalEpochLength⟩ =
      DEFAULT_FEE_PAYMENTS_HASH := by
  have hnone : s.contents.blockFeeInfos (s.getWithdrawalEpochInfo.epoch + 1) = [] := hinv.later _ (by omega)
  have hboxes : feePaymentBoxes env (s.getWithdrawalEpochInfo.epoch + 1) [⟨0, block.forgerPublicKey⟩] = [] := by
    rw [feePaymentBoxes_eq_nil_iff,
      rewards_nonpos_iff (by simp) ⟨by simp, by simp [ZenCoinsUtils.MAX_MONEY, ZenCoinsUtils.COIN]⟩]
    simp
  rw [expectedFeePaymentsHash, getFeePayments_some, hnone, feeInfo_without_transactions htxs, List.nil_append, hboxes]
  simp [calculateFeePaymentsHash]

/-- the hash that the forger has put in -/
theorem forged_hash {Header Ommer : Type} {s : SidechainState σ τ} {history : HistoryView SidechainBlock}
    {b : Builder Header MainchainBlockReferenceData Ommer SidechainTransaction SidechainBlock}
    (hb : IsUtxoBuilder params env s b) {fuel : ℕ} {timestamp : ℤ} {branchPointInfo : BranchPointInfo}
    {parentInfo : BlockInfo}
    (hparent : history.infos branchPointInfo.branchPointId = some parentInfo)
    (hepoch : parentInfo.withdrawalEpochInfo = s.getWithdrawalEpochInfo) {block : SidechainBlock}
    (h : forgeBlock b history fuel timestamp branchPointInfo = .forgeSuccess block) :
    (block.mainchainBlockReferencesData.length = withdrawalEpochMcBlocksLeft b s.getWithdrawalEpochInfo →
        block.sidechainTransactions = []) ∧
      block.feePaymentsHash = calculateFeePaymentsHash env
        (if block.mainchainBlockReferencesData.length = withdrawalEpochMcBlocksLeft b s.getWithdrawalEpochInfo then
          s.getFeePayments env s.getWithdrawalEpochInfo.epoch (some block.feeInfo) else []) := by
  obtain ⟨c, hc, -, hcreated⟩ := forgeBlock_success h
  obtain ⟨sealing, key, hcreate⟩ := hb.created
  rw [hcreate] at hcreated
  obtain ⟨hdata, htxs, hhash⟩ := createNewBlock_ok hcreated
  have hinfo : c.parentBlockInfo.withdrawalEpochInfo = s.getWithdrawalEpochInfo := by
    rw [← hepoch]
    exact congrArg BlockInfo.withdrawalEpochInfo (Option.some.inj ((collect_parent hc).symm.trans hparent))
  simp only [newBlock, hinfo] at hdata htxs hhash
  rw [hdata]
  refine ⟨?_, ?_⟩
  · intro hlast
    rw [htxs, if_pos hlast]
  · rw [hhash]
    simp only [decide_eq_true_eq]

/-- **Fee payments.** In every reachable state whose block is the tip of the history, for every block that is forged on it
with references of one epoch: the hash of the fee payments in the block is the one that the state computes, if and only
if the block does not fill a whole epoch on a parent that ended one, or nothing is owed for the fees of the old epoch.
With fees within the money range the latter means that they are all zero. -/
theorem forged_fee_payments {Header Ommer : Type} (hL : 0 < params.withdrawalEpochLength)
    (hhash : ∀ boxes ≠ [], env.feePaymentsTransactionId boxes ≠ DEFAULT_FEE_PAYMENTS_HASH) {start : SidechainState σ τ}
    {boxes : Boxes} (hstart : start.contents = .restored boxes) {ts : List (Transition σ τ)} (hrun : Run params env start ts)
    {history : HistoryView SidechainBlock} (hrecorded : Recorded params history ⟨0, 0⟩ ts) {t : Transition σ τ}
    (ht : t ∈ ts)
    (htip : history.bestBlockId = t.block.id)
    {b : Builder Header MainchainBlockReferenceData Ommer SidechainTransaction SidechainBlock}
    (hb : IsUtxoBuilder params env t.after b) {fuel : ℕ} {timestamp : ℤ} {branchPointInfo : BranchPointInfo}
    (hbranch : branchPointInfo.branchPointId = history.bestBlockId) {block : SidechainBlock}
    (hforged : forgeBlock b history fuel timestamp branchPointInfo = .forgeSuccess block)
    (hwithin : block.mainchainBlockReferencesData.length ≤ withdrawalEpochMcBlocksLeft b t.after.getWithdrawalEpochInfo) :
    (∃ info, getWithdrawalEpochInfo block.mainchainBlockReferencesData.length t.after.getWithdrawalEpochInfo
        params.withdrawalEpochLength = .ok info ∧
      (block.feePaymentsHash = t.after.expectedFeePaymentsHash params env block info ↔
        ¬ FillsEpoch params t.after block ∨ NothingOwed t.after block.forgerPublicKey)) ∧
      (FeesInRange (t.after.contents.blockFeeInfos t.after.getWithdrawalEpochInfo.epoch) →
        (NothingOwed t.after block.forgerPublicKey ↔
          ∀ info ∈ t.after.contents.blockFeeInfos t.after.getWithdrawalEpochInfo.epoch, info.fee = 0)) := by
  refine ⟨?_, nothingOwed_iff⟩
  have hstartInfo : start.getWithdrawalEpochInfo = ⟨0, 0⟩ := by
    rw [SidechainState.getWithdrawalEpochInfo, hstart]
    rfl
  have hstartInv : FeesInv params start := by
    refine ⟨?_, ?_⟩
    · intro e _
      rw [hstart]
      rfl
    · rw [hstartInfo]
      exact Nat.zero_le _
  have hinv := run_feesInv hL hrun hstartInv t ht
  rw [← hstartInfo] at hrecorded
  obtain ⟨-, parentInfo, hparent, hepoch⟩ := Recorded.info_eq hrun hrecorded t ht
  rw [← htip, ← hbranch] at hparent
  obtain ⟨htxs, hforgedHash⟩ := forged_hash hb hparent hepoch hforged
  have hindex := hinv.index_le
  rw [hforgedHash]
  unfold withdrawalEpochMcBlocksLeft at hwithin htxs ⊢
  rw [hb.length_eq] at hwithin htxs ⊢
  by_cases hlast : t.after.getWithdrawalEpochInfo.lastEpochIndex = params.withdrawalEpochLength
  · -- the parent ended an epoch
    simp only [hlast, Nat.sub_self, if_true] at hwithin htxs ⊢
    refine ⟨_, Withdrawals.getWithdrawalEpochInfo_next hlast hwithin, ?_⟩
    by_cases hfills : block.mainchainBlockReferencesData.length = params.withdrawalEpochLength
    · rw [if_pos hfills, hfills, expected_of_fillsEpoch hinv (htxs hfills), calculateFeePaymentsHash_eq_default hhash,
        getFeePayments_some, feePaymentBoxes_eq_nil_iff, feeInfo_without_transactions (htxs hfills)]
      simp [FillsEpoch, hlast, hfills, NothingOwed]
    · rw [if_neg hfills]
      simp [expectedFeePaymentsHash, isEpochLastIndex, hfills, FillsEpoch, calculateFeePaymentsHash]
  · have hleft : params.withdrawalEpochLength - t.after.getWithdrawalEpochInfo.lastEpochIndex ≠ 0 := by omega
    rw [if_neg hleft] at hwithin htxs ⊢
    refine ⟨_, Withdrawals.getWithdrawalEpochInfo_same hlast (by omega), ?_⟩
    have hnot : ¬ FillsEpoch params t.after block := fun h => hlast h.1
    simp only [hnot, not_false_eq_true, true_or, iff_true]
    unfold expectedFeePaymentsHash isEpochLastIndex
    by_cases hends : block.mainchainBlockReferencesData.length =
        params.withdrawalEpochLength - t.after.getWithdrawalEpochInfo.lastEpochIndex
    · have hsum : t.after.getWithdrawalEpochInfo.lastEpochIndex + block.mainchainBlockReferencesData.length =
          params.withdrawalEpochLength := by omega
      rw [if_pos hends]
      simp [hsum]
    · have hsum : t.after.getWithdrawalEpochInfo.lastEpochIndex + block.mainchainBlockReferencesData.length ≠
          params.withdrawalEpochLength := by omega
      simp [hends, hsum, calculateFeePaymentsHash]

end Runs

/-! ## An epoch with a fee -/

/-- a coin comes in, its transfer pays a fee of 10, and the third block pays it out at the end of epoch 0 -/
def sampleBlocks : List SidechainBlock :=
  [sampleGenesis,
    ⟨2, 1, 1, 7, [sampleReference 2 [.forwardTransfer 2 0 7 100]], [], 0⟩,
    ⟨3, 2, 2, 7, [], [⟨9, .other, 100, [⟨2, 7⟩], [⟨5, 0, 8, 90, .zen⟩], 10⟩], 0⟩,
    ⟨4, 3, 3, 7, [sampleReference 3 []], [], 7558273⟩]

/-- the last block and the states around it -/
def sampleTip : Transition Unit Unit :=
  (sampleTransitions sampleState sampleBlocks).getLastD (sampleTransition sampleState sampleGenesis)

theorem sampleBlocks_run : Run sampleParams sampleExternals sampleState (sampleTransitions sampleState sampleBlocks) := by
  apply sampleTransitions_run
  simp only [sampleBlocks, sampleTransitions, List.forall_mem_cons, List.not_mem_nil, false_implies, implies_true, and_true]
  exact ⟨⟨.inr ⟨rfl, rfl⟩, rfl⟩, ⟨.inl rfl, rfl⟩, ⟨.inl rfl, rfl⟩, ⟨.inl rfl, by decide +kernel⟩⟩

/-- the history of these blocks -/
def sampleHistory : HistoryView SidechainBlock where
  bestBlockId := 4
  infos id :=
    match id with
    | 1 => some ⟨0, [1], ⟨0, 1⟩⟩
    | 2 => some ⟨1, [2], ⟨0, 2⟩⟩
    | 3 => some ⟨2, [], ⟨0, 2⟩⟩
    | 4 => some ⟨3, [3], ⟨0, 3⟩⟩
    | _ => none
  blocks id := sampleBlocks.find? fun block => block.id = id

theorem sampleHistory_recorded :
    Recorded sampleParams sampleHistory ⟨0, 0⟩ (sampleTransitions sampleState sampleBlocks) :=
  ⟨_, rfl, rfl, _, rfl, rfl, _, rfl, rfl, _, rfl, rfl, trivial⟩

/-- the references are there for the asking, and the next block gets the id 5 -/
def sampleForger : Builder ℕ MainchainBlockReferenceData Unit SidechainTransaction SidechainBlock where
  withdrawalEpochLength := 3
  getMaxBlockOverheadSize := 1000
  precalculateBlockHeaderSize _ _ := 10
  headersSize _ := 10
  getOmmersSize _ := 10
  dataSize _ := 10
  getMainchainBlockHeaders hashes := .ok hashes
  getMainchainBlockReference hash := .ok (sampleReference hash [])
  isTimeout _ := false
  parentId block := block.parentId
  toOmmer _ := ()
  timeStampToEpochNumber _ := .ok 1
  tooManyBlocksWithoutMcHeaders _ _ _ _ := .ok false
  collectTransactionsFromMemPool _ _ _ _ := []
  createNewBlock := createNewBlock sampleExternals (fun _ _ _ => .ok 5) 7 sampleTip.after

/-- forged on the tip with these references -/
def sampleForged (hashes : List ℕ) (feePaymentsHash : Hash) : SidechainBlock :=
  ⟨5, 4, 4, 7, hashes.map fun hash => sampleReference hash [], [], feePaymentsHash⟩

/-- a block in the middle of the next epoch -/
theorem forged_in_the_middle :
    ∃ info, getWithdrawalEpochInfo 1 sampleTip.after.getWithdrawalEpochInfo 3 = .ok info ∧
      (sampleForged [10] 0).feePaymentsHash =
        sampleTip.after.expectedFeePaymentsHash sampleParams sampleExternals (sampleForged [10] 0) info := by
  have hforged : forgeBlock sampleForger sampleHistory 0 4 ⟨4, [10], [10]⟩ = .forgeSuccess (sampleForged [10] 0) := rfl
  have hbuilder : IsUtxoBuilder sampleParams sampleExternals sampleTip.after sampleForger := ⟨rfl, _, _, rfl⟩
  obtain ⟨⟨info, hinfo, hiff⟩, -⟩ :=
    forged_fee_payments (by decide) (by simp [sampleExternals, DEFAULT_FEE_PAYMENTS_HASH])
    rfl sampleBlocks_run sampleHistory_recorded (by simp [sampleTip, sampleTransitions, sampleBlocks]) rfl hbuilder rfl hforged
    (by decide +kernel)
  exact ⟨info, hinfo, hiff.2 (.inl fun hfills => absurd hfills.2 (by decide))⟩

/-- a block that fills epoch 1 pays the fee of epoch 0 once more, and the state expects no payments -/
theorem forged_block_pays_twice :
    Run sampleParams sampleExternals sampleState (sampleTransitions sampleState sampleBlocks) ∧
      forgeBlock sampleForger sampleHistory 0 4 ⟨4, [10, 11, 12], [10, 11, 12]⟩ =
        .forgeSuccess (sampleForged [10, 11, 12] 7558273) ∧
      getWithdrawalEpochInfo 3 sampleTip.after.getWithdrawalEpochInfo 3 = .ok ⟨1, 3⟩ ∧
      sampleTip.after.expectedFeePaymentsHash sampleParams sampleExternals (sampleForged [10, 11, 12] 7558273) ⟨1, 3⟩ = 0 :=
  ⟨sampleBlocks_run, by decide +kernel, by decide +kernel, by decide +kernel⟩

end SidechainsSdk.Utxo.ForgedFeePayments
