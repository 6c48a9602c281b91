/-
How long a chain may go without mainchain headers (`AccountHistory.tooManyBlocksWithoutMcHeaders`). The rule is asked twice: by
the forger before it makes a block, and by the node view before it applies one. The forger tells it whether the block
carries mainchain headers, the node view whether it carries reference data.

- `Grown.closed`, `Grows.extends`: the walk back stays in the history, and blocks that come later do not change it.
- `rules_agree`: forger and node view decide alike exactly if the block has both or neither, or the rule does not apply.
- `headers_without_data_rejected`: what happens otherwise.
-/
import Mathlib.Tactic
import SidechainsSdk.Forging.ForgeMessageBuilder

namespace SidechainsSdk.Forging

open Fallible
open Withdrawals (WithdrawalEpochInfo)

/-- an account block, as far as the rule and the builder look at it -/
structure AccountBlock (Header Data Ommer TX : Type) where
  parentId : ModifierId
  timestamp : ℤ
  mainchainHeaders : List Header
  mainchainBlockReferencesData : List Data
  sidechainTransactions : List TX
  ommers : List Ommer
deriving DecidableEq, Repr

structure RuleParams where
  maxHistoryRewritingLength : ℕ
  sidechainGenesisBlockId : ModifierId
  /-- `Version1_3_0Fork.get(epoch).active` -/
  version1_3_0ForkActive : ℕ → Bool

section Rule

variable {Block : Type} (params : RuleParams) (history : HistoryView Block)

/-- the loop of `tooManyBlocksWithoutMcHeadersDataSince`, with how many blocks without headers make too many -/
def walkBack : ℕ → BlockInfo → Except String Bool
  | maxBlocksWithoutMcHeaders, info =>
    if info.mainchainHeaderHashes ≠ [] then .ok false
    else
      match maxBlocksWithoutMcHeaders with
      | 0 => .ok true
      | 1 => .ok true
      | n + 2 =>
        if info.parentId = params.sidechainGenesisBlockId then .ok false
        else do
          let parentInfo ← history.blockInfoById info.parentId
          walkBack (n + 1) parentInfo

def tooManyBlocksWithoutMcHeadersDataSince (blockId : ModifierId) : Except String Bool := do
  let sidechainBlockInfo ← history.blockInfoById blockId
  walkBack params history (params.maxHistoryRewritingLength - 1) sidechainBlockInfo

/-- a block of a test network on which the rule is not applied -/
def exemptedParent : ModifierId := 0x0b4383a95047e218d93e84cdf98f8daf1adf0cfa145230e17bd9cc795aed39b3

/-- of `AccountHistory` -/
def tooManyBlocksWithoutMcHeaders (parentBlockId : ModifierId) (noMcHeadersInCurrentBlock : Bool) (consensusEpochNumber : ℕ) :
    Except String Bool :=
  if noMcHeadersInCurrentBlock then
    if !params.version1_3_0ForkActive consensusEpochNumber then .ok false
    else if parentBlockId = exemptedParent then .ok false
    else tooManyBlocksWithoutMcHeadersDataSince params history parentBlockId
  else .ok false

end Rule

section Agreement

variable {Header Data Ommer TX : Type}

/-- the history of an account sidechain -/
abbrev AccountHistory (Header Data Ommer TX : Type) := HistoryView (AccountBlock Header Data Ommer TX)

/-- the rule as `applyStateAndWallet` asks it: of the reference data that the block carries -/
def nodeTooManyBlocks (params : RuleParams) (timeStampToEpochNumber : ℤ → Except String ℕ)
    (history : AccountHistory Header Data Ommer TX) (modToApply : AccountBlock Header Data Ommer TX) : Except String Bool := do
  let consensusEpochNumber ← timeStampToEpochNumber modToApply.timestamp
  tooManyBlocksWithoutMcHeaders params history modToApply.parentId modToApply.mainchainBlockReferencesData.isEmpty
    consensusEpochNumber

/-- the builder of an account sidechain: it asks this rule, and the new block has the parts it was asked to have -/
structure IsAccountBuilder (params : RuleParams) (b : Builder Header Data Ommer TX (AccountBlock Header Data Ommer TX)) :
    Prop where
  rule : b.tooManyBlocksWithoutMcHeaders = tooManyBlocksWithoutMcHeaders params
  created : ∀ history n block, b.createNewBlock history n = .ok block → block.parentId = n.parentId ∧
    block.timestamp = n.timestamp ∧ block.mainchainHeaders = n.mainchainHeaders ∧
    block.mainchainBlockReferencesData = n.mainchainBlockReferencesData

/-- the block that is made, or would be, with what has been collected -/
structure Carries (timestamp : ℤ) (branchPointInfo : BranchPointInfo) (c : Collected Header Data Ommer)
    (block : AccountBlock Header Data Ommer TX) : Prop where
  parentId_eq : block.parentId = branchPointInfo.branchPointId
  timestamp_eq : block.timestamp = timestamp
  headers_eq : block.mainchainHeaders = c.mainchainHeaders
  data_eq : block.mainchainBlockReferencesData = c.mainchainReferenceData

/-- one more block -/
def appended (history : AccountHistory Header Data Ommer TX) (id : ModifierId) (info : BlockInfo)
    (block : AccountBlock Header Data Ommer TX) (best : ModifierId) : AccountHistory Header Data Ommer TX where
  bestBlockId := best
  infos := Function.update history.infos id (some info)
  blocks := Function.update history.blocks id (some block)

/-- new blocks on known ones, whichever of them becomes the best -/
inductive Grows (history : AccountHistory Header Data Ommer TX) : AccountHistory Header Data Ommer TX → Prop
  | refl : Grows history history
  | append {later : AccountHistory Header Data Ommer TX} {id : ModifierId} {info : BlockInfo}
      (block : AccountBlock Header Data Ommer TX) (best : ModifierId) (hlater : Grows history later)
      (hnew : later.infos id = none) (hparent : (later.infos info.parentId).isSome) :
      Grows history (appended later id info block best)

/-- only the genesis block, which carries a mainchain header -/
def IsGenesis (params : RuleParams) (history : AccountHistory Header Data Ommer TX) : Prop :=
  ∀ id info, history.infos id = some info → id = params.sidechainGenesisBlockId ∧ info.mainchainHeaderHashes ≠ []

/-- a history that can be reached -/
def Grown (params : RuleParams) (history : AccountHistory Header Data Ommer TX) : Prop :=
  ∃ genesis, IsGenesis params genesis ∧ Grows genesis history

/-- every block without headers has its parent in the history -/
def Closed (history : AccountHistory Header Data Ommer TX) : Prop :=
  ∀ id info, history.infos id = some info → info.mainchainHeaderHashes = [] → (history.infos info.parentId).isSome

/-- the same blocks, and maybe more -/
def Extends (history later : AccountHistory Header Data Ommer TX) : Prop :=
  ∀ id info, history.infos id = some info → later.infos id = some info

variable {params : RuleParams} {history later : AccountHistory Header Data Ommer TX}

@[simp] theorem appended_infos (id : ModifierId) (info : BlockInfo) (block : AccountBlock Header Data Ommer TX)
    (best : ModifierId) : (appended history id info block best).infos = Function.update history.infos id (some info) := rfl

theorem appended_extends {id : ModifierId} {info : BlockInfo} {block : AccountBlock Header Data Ommer TX} {best : ModifierId}
    (hnew : history.infos id = none) : Extends history (appended history id info block best) := by
  intro id' info' hinfo
  have hne : id' ≠ id := by
    rintro rfl
    rw [hnew] at hinfo
    cases hinfo
  rw [appended_infos, Function.update_of_ne hne]
  exact hinfo

theorem Grows.extends (h : Grows history later) : Extends history later := by
  induction h with
  | refl => exact fun _ _ hinfo => hinfo
  | append block best hlater hnew hparent ih =>
    intro id info hinfo
    exact appended_extends hnew id info (ih id info hinfo)

theorem Grows.closed (h : Grows history later) (hclosed : Closed history) : Closed later := by
  induction h with
  | refl => exact hclosed
  | @append later newId newInfo block best hlater hnew hparent ih =>
    have hextends : Extends later (appended later newId newInfo block best) := appended_extends hnew
    have hkept : ∀ id, (later.infos id).isSome → ((appended later newId newInfo block best).infos id).isSome := by
      intro id hid
      obtain ⟨info, hinfo⟩ := Option.isSome_iff_exists.1 hid
      rw [hextends id info hinfo]
      rfl
    intro id info hinfo hheaders
    by_cases hid : id = newId
    · rw [appended_infos, hid, Function.update_self, Option.some.injEq] at hinfo
      rw [← hinfo]
      exact hkept _ hparent
    · rw [appended_infos, Function.update_of_ne hid] at hinfo
      exact hkept _ (ih id info hinfo hheaders)

theorem Grown.closed (h : Grown params history) : Closed history := by
  obtain ⟨genesis, hgenesis, hgrows⟩ := h
  apply hgrows.closed
  intro id info hinfo hheaders
  exact absurd hheaders (hgenesis id info hinfo).2

theorem blockInfoById_ok {id : ModifierId} {info : BlockInfo} (h : history.infos id = some info) :
    history.blockInfoById id = .ok info := by
  rw [HistoryView.blockInfoById, h]
  rfl

/-- the walk ends without an exception, and later blocks do not change it -/
theorem walkBack_extends (params : RuleParams) (hclosed : Closed history) (hextends : Extends history later) {n : ℕ}
    {id : ModifierId}
    {info : BlockInfo} (hinfo : history.infos id = some info) :
    ∃ r, walkBack params history n info = .ok r ∧ walkBack params later n info = .ok r := by
  induction n using Nat.strong_induction_on generalizing id info with
  | _ n ih =>
    unfold walkBack
    by_cases hheaders : info.mainchainHeaderHashes ≠ []
    · exact ⟨false, if_pos hheaders, if_pos hheaders⟩
    · simp only [if_neg hheaders]
      match n with
      | 0 => exact ⟨true, rfl, rfl⟩
      | 1 => exact ⟨true, rfl, rfl⟩
      | n + 2 =>
        by_cases hgenesis : info.parentId = params.sidechainGenesisBlockId
        · exact ⟨false, if_pos hgenesis, if_pos hgenesis⟩
        · obtain ⟨parent, hparent⟩ := Option.isSome_iff_exists.1 (hclosed id info hinfo (not_not.1 hheaders))
          obtain ⟨r, hr, hr'⟩ := ih (n + 1) (by omega) hparent
          refine ⟨r, ?_, ?_⟩
          · simp only [if_neg hgenesis, blockInfoById_ok hparent]
            exact hr
          · simp only [if_neg hgenesis, blockInfoById_ok (hextends _ _ hparent)]
            exact hr'

theorem tooManySince_extends (params : RuleParams) (hclosed : Closed history) (hextends : Extends history later) {id : ModifierId}
    {info : BlockInfo} (hinfo : history.infos id = some info) :
    ∃ r, tooManyBlocksWithoutMcHeadersDataSince params history id = .ok r ∧
      tooManyBlocksWithoutMcHeadersDataSince params later id = .ok r := by
  obtain ⟨r, hr, hr'⟩ :=
    walkBack_extends params hclosed hextends (n := params.maxHistoryRewritingLength - 1) hinfo
  refine ⟨r, ?_, ?_⟩
  · rw [tooManyBlocksWithoutMcHeadersDataSince, blockInfoById_ok hinfo]
    exact hr
  · rw [tooManyBlocksWithoutMcHeadersDataSince, blockInfoById_ok (hextends _ _ hinfo)]
    exact hr'

/-- a block without headers on this parent is one too many -/
def RuleApplies (params : RuleParams) (history : AccountHistory Header Data Ommer TX) (parentId : ModifierId)
    (consensusEpochNumber : ℕ) : Prop :=
  params.version1_3_0ForkActive consensusEpochNumber = true ∧ parentId ≠ exemptedParent ∧
    tooManyBlocksWithoutMcHeadersDataSince params history parentId = .ok true

/-- the rule, in the history at hand and in a later one, for any value of the flag -/
theorem tooMany_eq (hclosed : Closed history) (hextends : Extends history later) {id : ModifierId} {info : BlockInfo}
    (hinfo : history.infos id = some info) (noMcHeaders : Bool) (epoch : ℕ) :
    ∃ r, tooManyBlocksWithoutMcHeaders params history id noMcHeaders epoch = .ok r ∧
      tooManyBlocksWithoutMcHeaders params later id noMcHeaders epoch = .ok r ∧
      (r = true ↔ noMcHeaders = true ∧ RuleApplies params history id epoch) := by
  obtain ⟨r, hr, hr'⟩ := tooManySince_extends params hclosed hextends hinfo
  simp only [tooManyBlocksWithoutMcHeaders, RuleApplies, hr, hr', Except.ok.injEq]
  cases noMcHeaders with
  | false => exact ⟨false, rfl, rfl, by simp⟩
  | true =>
    cases hfork : params.version1_3_0ForkActive epoch with
    | false => exact ⟨false, rfl, rfl, by simp⟩
    | true =>
      by_cases hexempted : id = exemptedParent
      · exact ⟨false, by simp [hexempted], by simp [hexempted], by simp [hexempted]⟩
      · exact ⟨r, by simp [hexempted], by simp [hexempted], by simp [hexempted]⟩

/-- a forged block has what was collected for it -/
theorem IsAccountBuilder.carries {b : Builder Header Data Ommer TX (AccountBlock Header Data Ommer TX)}
    (hb : IsAccountBuilder params b) {timestamp : ℤ} {branchPointInfo : BranchPointInfo} {c : Collected Header Data Ommer}
    {block : AccountBlock Header Data Ommer TX}
    (h : b.createNewBlock history (newBlock b history timestamp branchPointInfo c) = .ok block) :
    Carries timestamp branchPointInfo c block := by
  obtain ⟨hparent, htime, hheaders, hdata⟩ := hb.created _ _ _ h
  exact ⟨hparent, htime, hheaders, hdata⟩

/-- **Reference rule.** For every history, everything that can be collected for a block, and every later history in which
the block is applied: a block that passes the rule of the forger passes that of the node view, and a block that does not would be
rejected, if and only if the block has headers exactly when it has reference data, or the rule does not apply on its
parent. What is forged is such a block. -/
theorem rules_agree {b : Builder Header Data Ommer TX (AccountBlock Header Data Ommer TX)} (hb : IsAccountBuilder params b)
    (hhistory : Grown params history) (hlater : Grows history later) {fuel epoch : ℕ} {timestamp : ℤ}
    {branchPointInfo : BranchPointInfo} {c : Collected Header Data Ommer}
    (hc : collect b history fuel timestamp branchPointInfo = .ok c) (hepoch : b.timeStampToEpochNumber timestamp = .ok epoch) :
    (∀ block, forgeBlock b history fuel timestamp branchPointInfo = .forgeSuccess block →
        Carries timestamp branchPointInfo c block) ∧
      ∀ block, Carries timestamp branchPointInfo c block →
        (((forgerTooManyBlocks b history timestamp branchPointInfo c = .ok false →
              nodeTooManyBlocks params b.timeStampToEpochNumber later block = .ok false) ∧
            (forgerTooManyBlocks b history timestamp branchPointInfo c = .ok true →
              nodeTooManyBlocks params b.timeStampToEpochNumber later block = .ok true)) ↔
          (c.mainchainHeaders.isEmpty = c.mainchainReferenceData.isEmpty ∨
            ¬ RuleApplies params history branchPointInfo.branchPointId epoch)) := by
  have hparent := collect_parent hc
  constructor
  · intro block hblock
    obtain ⟨c', hc', -, hcreated⟩ := forgeBlock_success hblock
    obtain rfl := Except.ok.inj (hc.symm.trans hc')
    exact hb.carries hcreated
  · intro block hcarries
    obtain ⟨r, hr, -, hforger⟩ := tooMany_eq hhistory.closed hlater.extends hparent c.mainchainHeaders.isEmpty epoch
    obtain ⟨r', -, hr', hnode⟩ := tooMany_eq hhistory.closed hlater.extends hparent c.mainchainReferenceData.isEmpty epoch
    have hforgerRule : forgerTooManyBlocks b history timestamp branchPointInfo c = .ok r := by
      rw [forgerTooManyBlocks, hepoch, hb.rule]
      exact hr
    have hnodeRule : nodeTooManyBlocks params b.timeStampToEpochNumber later block = .ok r' := by
      rw [nodeTooManyBlocks, hcarries.timestamp_eq, hepoch, hcarries.parentId_eq, hcarries.data_eq]
      exact hr'
    simp only [hforgerRule, hnodeRule, Except.ok.injEq]
    by_cases happlies : RuleApplies params history branchPointInfo.branchPointId epoch
    · simp only [happlies, and_true, not_true_eq_false, or_false] at hforger hnode ⊢
      have hforger' : r = c.mainchainHeaders.isEmpty := Bool.eq_iff_iff.2 hforger
      have hnode' : r' = c.mainchainReferenceData.isEmpty := Bool.eq_iff_iff.2 hnode
      rw [hforger', hnode']
      cases c.mainchainHeaders.isEmpty <;> cases c.mainchainReferenceData.isEmpty <;> simp
    · simp only [happlies, and_false, iff_false, Bool.not_eq_true] at hforger hnode
      simp [happlies, hforger, hnode]

end Agreement

/-! ## A chain with two blocks without headers -/

/-- at most two blocks in a row -/
def sampleRule : RuleParams := ⟨3, 1, fun _ => true⟩

/-- the synchronizer answers with the hashes it is asked for -/
def sampleBuilder : Builder ℕ ℕ Unit Unit (AccountBlock ℕ ℕ Unit Unit) where
  withdrawalEpochLength := 100
  getMaxBlockOverheadSize := 1000
  precalculateBlockHeaderSize _ _ := 10
  headersSize _ := 10
  getOmmersSize _ := 10
  dataSize _ := 10
  getMainchainBlockHeaders hashes := .ok hashes
  getMainchainBlockReference hash := .ok hash
  isTimeout _ := false
  parentId block := block.parentId
  toOmmer _ := ()
  timeStampToEpochNumber _ := .ok 5
  tooManyBlocksWithoutMcHeaders := tooManyBlocksWithoutMcHeaders sampleRule
  collectTransactionsFromMemPool _ _ _ _ := []
  createNewBlock _ n :=
    .ok ⟨n.parentId, n.timestamp, n.mainchainHeaders, n.mainchainBlockReferencesData, n.sidechainTransactions, n.ommers⟩

theorem sampleBuilder_isAccountBuilder : IsAccountBuilder sampleRule sampleBuilder := by
  refine ⟨rfl, ?_⟩
  rintro history n block hblock
  obtain rfl := Except.ok.inj hblock
  exact ⟨rfl, rfl, rfl, rfl⟩

/-- a block with mainchain headers only -/
def sampleBlockOn (parentId : ModifierId) (mainchainHeaders : List ℕ) : AccountBlock ℕ ℕ Unit Unit :=
  ⟨parentId, 0, mainchainHeaders, [], [], []⟩

def sampleGenesisHistory : AccountHistory ℕ ℕ Unit Unit :=
  ⟨1, fun id => if id = 1 then some ⟨0, [10], ⟨0, 1⟩⟩ else none,
    fun id => if id = 1 then some (sampleBlockOn 0 [10]) else none⟩

def sampleAppended (history : AccountHistory ℕ ℕ Unit Unit) (id parentId : ModifierId) (mainchainHeaders : List ℕ) :
    AccountHistory ℕ ℕ Unit Unit :=
  appended history id ⟨parentId, mainchainHeaders, ⟨0, 1⟩⟩ (sampleBlockOn parentId mainchainHeaders) id

/-- the block 2 has the header 11, whose data are missed, and 3 and 4 have none -/
def sampleHistory : AccountHistory ℕ ℕ Unit Unit :=
  sampleAppended (sampleAppended (sampleAppended sampleGenesisHistory 2 1 [11]) 3 2 []) 4 3 []

/-- the header of the block 5 is orphaned when the mainchain goes on with 12 and 13 after 11 -/
def orphanedHistory : AccountHistory ℕ ℕ Unit Unit := sampleAppended sampleHistory 5 4 [20]

theorem sampleHistory_grown : Grown sampleRule sampleHistory := by
  refine ⟨sampleGenesisHistory, ?_, ?_⟩
  · intro id info hinfo
    simp only [sampleGenesisHistory] at hinfo
    split_ifs at hinfo with hid
    · cases hinfo
      exact ⟨hid, by simp⟩
  · exact .append _ _ (.append _ _ (.append _ _ .refl rfl rfl) rfl rfl) rfl rfl

/-- with a header and data the block is forged and applied -/
theorem header_and_data_applied :
    nodeTooManyBlocks sampleRule sampleBuilder.timeStampToEpochNumber sampleHistory ⟨4, 9, [12], [11, 12], [], []⟩ =
      .ok false := by
  have hc : collect sampleBuilder sampleHistory 0 9 ⟨4, [11, 12], [12]⟩ = .ok ⟨⟨3, [], ⟨0, 1⟩⟩, [12], [], [11, 12],
      66⟩ := rfl
  have hagree := rules_agree sampleBuilder_isAccountBuilder sampleHistory_grown .refl hc rfl
  exact ((hagree.2 ⟨4, 9, [12], [11, 12], [], []⟩ ⟨rfl, rfl, rfl, rfl⟩).2 (.inl rfl)).1 rfl

/-- A block before the orphaned header, with the new headers and without data, is forged and then rejected. One at the tip with
the missed data and without a header is not forged, and would not have been rejected. -/
theorem headers_without_data_rejected :
    (forgeBlock sampleBuilder orphanedHistory 1 9 ⟨4, [], [12, 13]⟩ = .forgeSuccess ⟨4, 9, [12, 13], [], [], [()]⟩ ∧
        nodeTooManyBlocks sampleRule sampleBuilder.timeStampToEpochNumber orphanedHistory ⟨4, 9, [12, 13], [], [], [()]⟩ =
          .ok true) ∧
      (∃ msg, forgeBlock sampleBuilder sampleHistory 0 9 ⟨4, [11], []⟩ = .skipSlot msg) ∧
      nodeTooManyBlocks sampleRule sampleBuilder.timeStampToEpochNumber sampleHistory ⟨4, 9, [], [11], [], []⟩ = .ok false :=
  ⟨⟨rfl, rfl⟩, ⟨_, rfl⟩, rfl⟩

end SidechainsSdk.Forging
