/-
Withdrawal epochs (`WithdrawalEpochUtils`) and the validation of a block with respect to them
(`WithdrawalEpochValidator.validateBlock`).

An epoch is `withdrawalEpochLength` mainchain blocks long. A sidechain block carries references to mainchain blocks; its
`WithdrawalEpochInfo` says in which epoch it is and how many references of that epoch there are up to it. The info of a
block that ends an epoch has the index `withdrawalEpochLength`, and its child starts the next epoch, with index 0 if it
carries no reference.

- `accept_cases`: a block that is accepted stays in the epoch of its parent, or starts the next one after a parent that
  ended it.
- `window_closes_once`: the infos count the references, and in every completed epoch but the first the end of the
  certificate submission window is noticed once, at the first block that reaches it.
- `last_blocks_without_transactions`: when the last block of an epoch carries no transactions. The validator looks for them
  only in a block that stays in the epoch of its parent, not in one that fills a whole epoch.

Counters of references are natural numbers, and epochs have no bound: an index is at most the length of an epoch and a block
adds no more than that, and the number of an epoch is at most that of the mainchain blocks, so that no `Int` overflows as long
as twice the configured length is one.
-/
import Mathlib.Tactic

namespace SidechainsSdk.Withdrawals

/-! ## The code -/

structure WithdrawalEpochInfo where
  epoch : ℤ
  lastEpochIndex : ℕ
deriving DecidableEq, Repr

namespace WithdrawalEpochUtils

def getWithdrawalEpochInfo (mainchainBlockReferenceSize : ℕ) (parentEpochInfo : WithdrawalEpochInfo)
    (withdrawalEpochLength : ℕ) : Except String WithdrawalEpochInfo :=
  if withdrawalEpochLength < mainchainBlockReferenceSize then
    .error <| s!"requirement failed: Number of MC ref greater than withdrawalEpoch length: {mainchainBlockReferenceSize} " ++
      s!"> {withdrawalEpochLength}"
  else
    let withdrawalEpoch :=
      -- the parent is the last block of its epoch
      if parentEpochInfo.lastEpochIndex = withdrawalEpochLength then parentEpochInfo.epoch + 1
      -- the references lead beyond the end of the epoch
      else if parentEpochInfo.lastEpochIndex + mainchainBlockReferenceSize > withdrawalEpochLength then
        parentEpochInfo.epoch + 1
      else parentEpochInfo.epoch
    let withdrawalEpochIndex :=
      if withdrawalEpoch > parentEpochInfo.epoch then
        -- from the end of an epoch to the end of the next one
        if mainchainBlockReferenceSize = withdrawalEpochLength ∧ parentEpochInfo.lastEpochIndex = withdrawalEpochLength then
          mainchainBlockReferenceSize
        else (parentEpochInfo.lastEpochIndex + mainchainBlockReferenceSize) % withdrawalEpochLength
      else parentEpochInfo.lastEpochIndex + mainchainBlockReferenceSize
    .ok ⟨withdrawalEpoch, withdrawalEpochIndex⟩

def isEpochLastIndex (epochInfo : WithdrawalEpochInfo) (withdrawalEpochLength : ℕ) : Bool :=
  epochInfo.lastEpochIndex = withdrawalEpochLength

def certificateSubmissionWindowLength (withdrawalEpochLength : ℕ) : ℕ := max 2 (withdrawalEpochLength / 5)

def hasReachedCertificateSubmissionWindowEnd (newEpochInfo parentEpochInfo : WithdrawalEpochInfo)
    (withdrawalEpochLength : ℕ) : Bool :=
  newEpochInfo.epoch > 0 ∧
    (parentEpochInfo.lastEpochIndex < certificateSubmissionWindowLength withdrawalEpochLength ∨
      isEpochLastIndex parentEpochInfo withdrawalEpochLength) ∧
    newEpochInfo.lastEpochIndex ≥ certificateSubmissionWindowLength withdrawalEpochLength

end WithdrawalEpochUtils

open WithdrawalEpochUtils

/-- the classes of `SidechainRelatedMainchainOutput` -/
inductive MainchainOutput where
  | sidechainCreation
  | forwardTransfer
deriving DecidableEq, Repr

structure MainchainBlockReferenceData where
  /-- its outputs -/
  sidechainRelatedAggregatedTransaction : Option (List MainchainOutput)
deriving DecidableEq, Repr

/-- a block with transactions of type `TX`; the id is the one that messages print -/
structure Block (TX : Type) where
  id : String
  mainchainBlockReferencesData : List MainchainBlockReferenceData
  sidechainTransactions : List TX
deriving DecidableEq, Repr

namespace WithdrawalEpochValidator

variable {TX : Type}

def containsSidechainCreation (data : MainchainBlockReferenceData) : Bool :=
  match data.sidechainRelatedAggregatedTransaction with
  | some outputs => outputs.any (· == .sidechainCreation)
  | none => false

/-- `parentBlockInfo` is the epoch info that the history has stored for the parent -/
def validateBlock (withdrawalEpochLength : ℕ) (block : Block TX) (parentBlockInfo : Option WithdrawalEpochInfo) :
    Except String Unit :=
  if block.mainchainBlockReferencesData.any containsSidechainCreation then
    .error s!"Sidechain block validation failed for {block.id}: non-genesis block contains Sidechain Creation output."
  else
    match parentBlockInfo with
    | none => .error s!"Sidechain block {block.id} parent block is missed."
    | some parent => do
      let blockEpochInfo ← getWithdrawalEpochInfo block.mainchainBlockReferencesData.length parent withdrawalEpochLength
      if blockEpochInfo.epoch > parent.epoch then
        if parent.lastEpochIndex ≠ withdrawalEpochLength then
          .error s!"Sidechain block {block.id} contains MC Block references, that belong to different withdrawal epochs."
        else .ok ()
      else if blockEpochInfo.lastEpochIndex = withdrawalEpochLength ∧ block.sidechainTransactions ≠ [] then
        .error s!"Sidechain block {block.id} is the withdrawal epoch last block, but contains Sidechain Transactions."
      else .ok ()

end WithdrawalEpochValidator

open WithdrawalEpochValidator

/-! ## Chains of accepted blocks -/

section Chains

variable {TX : Type} {L : ℕ}

/-- a block on a parent, with the info that the history stores for it -/
structure Step (TX : Type) where
  parent : WithdrawalEpochInfo
  block : Block TX
  info : WithdrawalEpochInfo
deriving DecidableEq, Repr

/-- the validator has accepted the block, and its info is the one that `AbstractHistory` computes -/
def Step.Accepted (L : ℕ) (s : Step TX) : Prop :=
  validateBlock L s.block (some s.parent) = .ok () ∧
    getWithdrawalEpochInfo s.block.mainchainBlockReferencesData.length s.parent L = .ok s.info

instance (L : ℕ) (s : Step TX) : Decidable (s.Accepted L) := inferInstanceAs (Decidable (_ ∧ _))

def Step.refs (s : Step TX) : ℕ := s.block.mainchainBlockReferencesData.length

/-- accepted blocks, each on the one before, the first on a block with the info `start` -/
def Chain (L : ℕ) : WithdrawalEpochInfo → List (Step TX) → Prop
  | _, [] => True
  | start, s :: steps => s.parent = start ∧ s.Accepted L ∧ Chain L s.info steps

instance Chain.decidable (L : ℕ) :
    (start : WithdrawalEpochInfo) → (steps : List (Step TX)) → Decidable (Chain L start steps)
  | _, [] => inferInstanceAs (Decidable True)
  | _, s :: steps =>
    have := Chain.decidable L s.info steps
    inferInstanceAs (Decidable (_ ∧ _ ∧ _))

/-- how many references there are up to a block, counted from the start of epoch 0 -/
def position (L : ℕ) (info : WithdrawalEpochInfo) : ℤ := info.epoch * L + info.lastEpochIndex

/-- what the validator and the computation of the info come to -/
inductive Step.Cases (L : ℕ) (s : Step TX) : Prop where
  | next (hparent : s.parent.lastEpochIndex = L) (hrefs : s.refs ≤ L) (hinfo : s.info = ⟨s.parent.epoch + 1, s.refs⟩)
  | same (hparent : s.parent.lastEpochIndex ≠ L) (hrefs : s.parent.lastEpochIndex + s.refs ≤ L)
      (hinfo : s.info = ⟨s.parent.epoch, s.parent.lastEpochIndex + s.refs⟩)
      (hempty : s.info.lastEpochIndex = L → s.block.sidechainTransactions = [])

theorem getWithdrawalEpochInfo_next {n : ℕ} {parent : WithdrawalEpochInfo} (hparent : parent.lastEpochIndex = L)
    (hn : n ≤ L) : getWithdrawalEpochInfo n parent L = .ok ⟨parent.epoch + 1, n⟩ := by
  have hindex : n ≠ L → n % L = n := fun hne => Nat.mod_eq_of_lt (lt_of_le_of_ne hn hne)
  simpa [getWithdrawalEpochInfo, hparent, Nat.not_lt.2 hn] using hindex

theorem getWithdrawalEpochInfo_same {n : ℕ} {parent : WithdrawalEpochInfo} (hparent : parent.lastEpochIndex ≠ L)
    (hn : parent.lastEpochIndex + n ≤ L) :
    getWithdrawalEpochInfo n parent L = .ok ⟨parent.epoch, parent.lastEpochIndex + n⟩ := by
  have hsize : ¬ L < n := by omega
  simp [getWithdrawalEpochInfo, hparent, hsize, Nat.not_lt.2 hn]

theorem getWithdrawalEpochInfo_ok {n : ℕ} {parent info : WithdrawalEpochInfo}
    (h : getWithdrawalEpochInfo n parent L = .ok info) : n ≤ L := by
  by_contra hn
  simp [getWithdrawalEpochInfo, Nat.not_le.1 hn] at h

theorem getWithdrawalEpochInfo_beyond {n : ℕ} {parent info : WithdrawalEpochInfo} (hn : L < parent.lastEpochIndex + n)
    (h : getWithdrawalEpochInfo n parent L = .ok info) : info.epoch = parent.epoch + 1 := by
  have hsize := getWithdrawalEpochInfo_ok h
  simp only [getWithdrawalEpochInfo, Nat.not_lt.2 hsize, if_false, gt_iff_lt, hn, if_true, ite_self] at h
  rw [← Except.ok.inj h]

/-- when the validator accepts a block with this info -/
theorem validateBlock_ok {block : Block TX} {parent info : WithdrawalEpochInfo}
    (hinfo : getWithdrawalEpochInfo block.mainchainBlockReferencesData.length parent L = .ok info) :
    validateBlock L block (some parent) = .ok () ↔
      (∀ data ∈ block.mainchainBlockReferencesData, ¬ containsSidechainCreation data) ∧
        (info.epoch > parent.epoch → parent.lastEpochIndex = L) ∧
        (¬ info.epoch > parent.epoch → info.lastEpochIndex = L → block.sidechainTransactions = []) := by
  simp only [validateBlock, hinfo, bind, Except.bind]
  split_ifs with hcreation hepoch hparent hlast
  · simp_all
  · simp [hepoch, hparent]
  · simp only [ne_eq, not_not] at hparent
    simpa [hepoch, hparent] using hcreation
  · simp [hepoch, hlast.1, hlast.2]
  · have hempty : info.lastEpochIndex = L → block.sidechainTransactions = [] := by
      intro h
      by_contra htxs
      exact hlast ⟨h, htxs⟩
    simp_all

/-- **One block.** It stays in the epoch of its parent, or starts the next one after a parent that ended it. -/
theorem accept_cases {s : Step TX} (h : s.Accepted L) : s.Cases L := by
  obtain ⟨hvalid, hinfo⟩ := h
  obtain ⟨-, hnext, hsame⟩ := (validateBlock_ok hinfo).1 hvalid
  have hsize : s.refs ≤ L := getWithdrawalEpochInfo_ok hinfo
  by_cases hparent : s.parent.lastEpochIndex = L
  · have hinfo' := getWithdrawalEpochInfo_next hparent hsize
    exact .next hparent hsize (Except.ok.inj (hinfo.symm.trans hinfo'))
  by_cases hbeyond : s.parent.lastEpochIndex + s.refs ≤ L
  · have hinfo' := Except.ok.inj (hinfo.symm.trans (getWithdrawalEpochInfo_same hparent hbeyond))
    refine .same hparent hbeyond hinfo' (hsame ?_)
    simp [hinfo']
  · -- the references lead beyond the end of the epoch, and the parent is not at its end
    have hepoch := getWithdrawalEpochInfo_beyond (not_le.1 hbeyond) hinfo
    exact absurd (hnext (by omega)) hparent

theorem Step.Accepted.index_le {s : Step TX} (h : s.Accepted L) : s.info.lastEpochIndex ≤ L := by
  rcases accept_cases h with ⟨hparent, hrefs, hinfo⟩ | ⟨hparent, hrefs, hinfo, hempty⟩
  · rw [hinfo]
    exact hrefs
  · rw [hinfo]
    exact hrefs

/-- the epoch goes up by one after a block that ended it, and only then -/
theorem Step.Accepted.epoch {s : Step TX} (h : s.Accepted L) :
    s.info.epoch = if s.parent.lastEpochIndex = L then s.parent.epoch + 1 else s.parent.epoch := by
  rcases accept_cases h with ⟨hparent, hrefs, hinfo⟩ | ⟨hparent, hrefs, hinfo, hempty⟩
  · rw [hinfo, if_pos hparent]
  · rw [hinfo, if_neg hparent]

theorem Step.Accepted.epoch_le {s : Step TX} (h : s.Accepted L) : s.parent.epoch ≤ s.info.epoch := by
  rw [h.epoch]
  split_ifs <;> omega

/-- the info counts the references -/
theorem Step.Accepted.position_eq {s : Step TX} (h : s.Accepted L) :
    position L s.info = position L s.parent + s.refs := by
  rcases accept_cases h with ⟨hparent, hrefs, hinfo⟩ | ⟨hparent, hrefs, hinfo, hempty⟩
  · rw [hinfo, position, position, hparent]
    push_cast
    ring
  · rw [hinfo, position, position]
    push_cast
    ring

theorem Chain.accepted {start : WithdrawalEpochInfo} {steps : List (Step TX)} (h : Chain L start steps) :
    ∀ s ∈ steps, s.Accepted L := by
  induction steps generalizing start with
  | nil => simp
  | cons s steps ih =>
    obtain ⟨rfl, haccepted, hrest⟩ := h
    intro t ht
    rcases List.mem_cons.1 ht with rfl | ht
    · exact haccepted
    · exact ih hrest t ht

theorem Chain.epoch_le {start : WithdrawalEpochInfo} {steps : List (Step TX)} (h : Chain L start steps) :
    ∀ s ∈ steps, start.epoch ≤ s.info.epoch := by
  induction steps generalizing start with
  | nil => simp
  | cons s steps ih =>
    obtain ⟨rfl, haccepted, hrest⟩ := h
    intro t ht
    rcases List.mem_cons.1 ht with rfl | ht
    · exact haccepted.epoch_le
    · exact haccepted.epoch_le.trans (ih hrest t ht)

/-! ## The certificate submission window -/

/-- the block at which the end of the window is noticed -/
def Step.closes (L : ℕ) (s : Step TX) : Bool := hasReachedCertificateSubmissionWindowEnd s.info s.parent L

theorem closes_iff (s : Step TX) :
    s.closes L ↔ 0 < s.info.epoch ∧
      (s.parent.lastEpochIndex < certificateSubmissionWindowLength L ∨ s.parent.lastEpochIndex = L) ∧
      certificateSubmissionWindowLength L ≤ s.info.lastEpochIndex := by
  simp [Step.closes, hasReachedCertificateSubmissionWindowEnd, isEpochLastIndex]

theorem window_le_length (hL : 2 ≤ L) : certificateSubmissionWindowLength L ≤ L := by
  unfold certificateSubmissionWindowLength
  omega

/-- after a block of the epoch that has reached the end of the window, no other one closes it -/
theorem Chain.closed {start : WithdrawalEpochInfo} {steps : List (Step TX)} (h : Chain L start steps)
    (hstart : certificateSubmissionWindowLength L ≤ start.lastEpochIndex) :
    ∀ s ∈ steps, s.info.epoch = start.epoch → ¬ s.closes L := by
  induction steps generalizing start with
  | nil => simp
  | cons s steps ih =>
    obtain ⟨rfl, haccepted, hrest⟩ := h
    intro t ht hepoch
    rcases accept_cases haccepted with ⟨hparent, hrefs, hinfo⟩ | ⟨hparent, hrefs, hinfo, hempty⟩
    · -- the first block starts the next epoch
      have hlater : s.info.epoch ≤ t.info.epoch := by
        rcases List.mem_cons.1 ht with rfl | ht
        · rfl
        · exact hrest.epoch_le t ht
      rw [hinfo] at hlater
      simp only at hlater
      omega
    · rcases List.mem_cons.1 ht with rfl | ht
      · rw [closes_iff]
        rintro ⟨-, hbefore | hlast, -⟩
        · omega
        · exact hparent hlast
      · apply ih hrest
        · rw [hinfo]
          exact hstart.trans (Nat.le_add_right _ _)
        · exact ht
        · rw [hepoch, hinfo]

/-- the blocks of epoch `e` among `steps`: one closes the window, and it is the first that reaches its end -/
def ClosesOnce (L : ℕ) (e : ℤ) (steps : List (Step TX)) : Prop :=
  ∃ before s after, steps = before ++ s :: after ∧ s.info.epoch = e ∧ s.closes L ∧
    certificateSubmissionWindowLength L ≤ s.info.lastEpochIndex ∧
    (∀ t ∈ before, t.info.epoch = e → t.info.lastEpochIndex < certificateSubmissionWindowLength L) ∧
    ∀ t ∈ before ++ after, t.info.epoch = e → ¬ t.closes L

/-- the induction: before the window of epoch `e` has ended, and with a block in `steps` that reaches its end -/
theorem Chain.closesOnce {start : WithdrawalEpochInfo} {steps : List (Step TX)} (h : Chain L start steps) {e : ℤ} (he : 0 < e)
    (hL : certificateSubmissionWindowLength L ≤ L) (hstart : start.epoch < e ∨
      start.epoch = e ∧ start.lastEpochIndex < certificateSubmissionWindowLength L)
    (hreached : ∃ s ∈ steps, s.info.epoch = e ∧ certificateSubmissionWindowLength L ≤ s.info.lastEpochIndex) :
    ClosesOnce L e steps := by
  induction steps generalizing start with
  | nil => simp at hreached
  | cons s steps ih =>
    obtain ⟨rfl, haccepted, hrest⟩ := h
    have hepoch := haccepted.epoch
    by_cases hnow : s.info.epoch = e ∧ certificateSubmissionWindowLength L ≤ s.info.lastEpochIndex
    · refine ⟨[], s, steps, rfl, hnow.1, ?_, hnow.2, by simp, ?_⟩
      · rw [closes_iff]
        refine ⟨hnow.1 ▸ he, ?_, hnow.2⟩
        rcases hstart with hbefore | ⟨-, hindex⟩
        · right
          by_contra hparent
          rw [if_neg hparent] at hepoch
          omega
        · exact .inl hindex
      · intro t ht hte
        exact hrest.closed hnow.2 t ht (hte.trans hnow.1.symm)
    · -- the window is still open after the first block
      have hopen : s.info.epoch < e ∨
          s.info.epoch = e ∧ s.info.lastEpochIndex < certificateSubmissionWindowLength L := by
        rcases hstart with hbefore | ⟨hsame, hindex⟩
        · have hle : s.info.epoch ≤ e := by
            rw [hepoch]
            split_ifs <;> omega
          rcases hle.lt_or_eq with hlt | heq
          · exact .inl hlt
          · exact .inr ⟨heq, not_le.1 fun hwindow => hnow ⟨heq, hwindow⟩⟩
        · rw [if_neg (by omega)] at hepoch
          exact .inr ⟨hepoch.trans hsame, not_le.1 fun hwindow => hnow ⟨hepoch.trans hsame, hwindow⟩⟩
      have hlater : ∃ t ∈ steps, t.info.epoch = e ∧ certificateSubmissionWindowLength L ≤ t.info.lastEpochIndex := by
        obtain ⟨t, ht, htreached⟩ := hreached
        rcases List.mem_cons.1 ht with rfl | ht
        · exact absurd htreached hnow
        · exact ⟨t, ht, htreached⟩
      obtain ⟨before, t, after, rfl, hte, hcloses, hwindow, hbefore, hothers⟩ := ih hrest hopen hlater
      have hindex : s.info.epoch = e → s.info.lastEpochIndex < certificateSubmissionWindowLength L :=
        fun hse => not_le.1 fun hw => hnow ⟨hse, hw⟩
      refine ⟨s :: before, t, after, rfl, hte, hcloses, hwindow, ?_, ?_⟩
      · intro u hu hue
        rcases List.mem_cons.1 hu with rfl | hu
        · exact hindex hue
        · exact hbefore u hu hue
      · intro u hu hue
        rcases List.mem_cons.1 hu with rfl | hu
        · rw [closes_iff]
          rintro ⟨-, -, hw⟩
          exact absurd hw (not_le.2 (hindex hue))
        · exact hothers u hu hue

/-- **Certificate submission window.** In every chain of accepted blocks that starts in epoch 0, the position
`epoch * L + lastEpochIndex` grows by the number of references of each block (index `L` of an epoch and index 0 of the
next one are the same position). In every completed epoch but the first the end of the window is reached once, at the
first block with an index in that epoch of at least `certificateSubmissionWindowLength`; in epoch 0 never. -/
theorem window_closes_once (hL : 2 ≤ L) {start : WithdrawalEpochInfo} (hstart : start.epoch = 0)
    {steps : List (Step TX)} (h : Chain L start steps) :
    (∀ s ∈ steps, position L s.info = position L s.parent + s.refs) ∧
      (∀ e ≥ 1, (∃ s ∈ steps, s.info = ⟨e, L⟩) → ClosesOnce L e steps) ∧
      ∀ s ∈ steps, s.info.epoch = 0 → ¬ s.closes L := by
  refine ⟨fun s hs => (h.accepted s hs).position_eq, ?_, ?_⟩
  · rintro e he ⟨s, hs, hlast⟩
    have hwindow := window_le_length hL
    apply h.closesOnce (by omega) hwindow (.inl (by omega))
    exact ⟨s, hs, by rw [hlast], by rw [hlast]; exact hwindow⟩
  · intro s hs hepoch
    rw [closes_iff]
    rintro ⟨hpos, -⟩
    omega

/-! A chain on a genesis block with epochs of five references: the window of epoch 1 ends at the third block. -/

def refs (n : ℕ) : List MainchainBlockReferenceData := List.replicate n ⟨none⟩

/-- the step of a block with `n` references -/
def sampleStep (parent : WithdrawalEpochInfo) (n : ℕ) (txs : List ℕ) (info : WithdrawalEpochInfo) : Step ℕ :=
  ⟨parent, ⟨"00", refs n, txs⟩, info⟩

theorem window_closes_at_third_block :
    ClosesOnce 5 1 [sampleStep ⟨0, 1⟩ 4 [] ⟨0, 5⟩, sampleStep ⟨0, 5⟩ 1 [7] ⟨1, 1⟩,
      sampleStep ⟨1, 1⟩ 2 [] ⟨1, 3⟩,
      sampleStep ⟨1, 3⟩ 2 [] ⟨1, 5⟩] := by
  have hchain : Chain 5 ⟨0, 1⟩ [sampleStep ⟨0, 1⟩ 4 [] ⟨0, 5⟩, sampleStep ⟨0, 5⟩ 1 [7] ⟨1, 1⟩,
      sampleStep ⟨1, 1⟩ 2 [] ⟨1, 3⟩, sampleStep ⟨1, 3⟩ 2 [] ⟨1, 5⟩] := by decide
  exact (window_closes_once (by decide) rfl hchain).2.1 1 (by decide) (by decide)

/-! ## Transactions in the last block of an epoch -/

/-- all references of the block are of its own epoch: the one with the number `n`, counted from 0, is of epoch `n / L` -/
def Step.SingleEpoch (L : ℕ) (s : Step TX) : Prop := ∀ j < s.refs, (position L s.parent + j) / L = s.info.epoch

/-- a block that ends an epoch carries no transactions -/
def Step.NoTransactionsAtEnd (L : ℕ) (s : Step TX) : Prop :=
  s.info.lastEpochIndex = L → s.block.sidechainTransactions = []

/-- a block with a whole epoch of references, on a parent that ended the epoch before -/
def Step.FillsEpoch (L : ℕ) (s : Step TX) : Prop := s.parent.lastEpochIndex = L ∧ s.refs = L

theorem Step.Accepted.singleEpoch {s : Step TX} (h : s.Accepted L) : s.SingleEpoch L := by
  intro j hj
  have hmul : ∀ (e : ℤ) (i : ℕ), i < L → (e * L + i) / L = e := by
    intro e i hi
    rw [Int.add_comm, Int.add_mul_ediv_right _ _ (by omega), Int.ediv_eq_zero_of_lt (by omega) (by omega)]
    omega
  rcases accept_cases h with ⟨hparent, hrefs, hinfo⟩ | ⟨hparent, hrefs, hinfo, hempty⟩
  · calc (position L s.parent + j) / L = ((s.parent.epoch + 1) * L + j) / L := by
          rw [position, hparent]
          congr 1
          ring
      _ = s.info.epoch := by rw [hmul _ _ (by omega), hinfo]
  · calc (position L s.parent + j) / L = (s.parent.epoch * L + (s.parent.lastEpochIndex + j : ℕ)) / L := by
          rw [position]
          push_cast
          congr 1
          ring
      _ = s.info.epoch := by rw [hmul _ _ (by omega), hinfo]

theorem Step.Accepted.noTransactionsAtEnd_iff {s : Step TX} (h : s.Accepted L) :
    s.NoTransactionsAtEnd L ↔ (s.FillsEpoch L → s.block.sidechainTransactions = []) := by
  unfold Step.NoTransactionsAtEnd Step.FillsEpoch
  rcases accept_cases h with ⟨hparent, hrefs, hinfo⟩ | ⟨hparent, hrefs, hinfo, hempty⟩
  · simp [hinfo, hparent]
  · simp only [hparent, false_and, false_implies, iff_true]
    exact hempty

/-- **Last blocks of epochs.** In every chain of accepted blocks, the references of each block are of one epoch, and the
blocks that end an epoch carry no transactions, if and only if this is so of the blocks that fill a whole epoch. -/
theorem last_blocks_without_transactions {start : WithdrawalEpochInfo} {steps : List (Step TX)}
    (h : Chain L start steps) :
    (∀ s ∈ steps, s.SingleEpoch L ∧ s.NoTransactionsAtEnd L) ↔
      ∀ s ∈ steps, s.FillsEpoch L → s.block.sidechainTransactions = [] := by
  constructor
  · intro hall s hs
    exact (h.accepted s hs).noTransactionsAtEnd_iff.1 (hall s hs).2
  · intro hcond s hs
    have haccepted := h.accepted s hs
    exact ⟨haccepted.singleEpoch, haccepted.noTransactionsAtEnd_iff.2 (hcond s hs)⟩

/-- the block that ends epoch 1 has a transaction, but does not fill the epoch on its own, so it is refused; in a chain
without such blocks the law holds -/
theorem last_blocks_of_five :
    (sampleStep ⟨1, 3⟩ 2 [7] ⟨1, 5⟩).Accepted 5 = False ∧
      ∀ s ∈ [sampleStep ⟨0, 5⟩ 3 [7] ⟨1, 3⟩, sampleStep ⟨1, 3⟩ 2 [] ⟨1, 5⟩], s.SingleEpoch 5 ∧
        s.NoTransactionsAtEnd 5 := by
  have hchain : Chain 5 ⟨0, 5⟩ [sampleStep ⟨0, 5⟩ 3 [7] ⟨1, 3⟩, sampleStep ⟨1, 3⟩ 2 [] ⟨1, 5⟩] := by
    decide
  refine ⟨eq_false (by decide), (last_blocks_without_transactions hchain).2 ?_⟩
  simp [Step.FillsEpoch, Step.refs, sampleStep, refs]

/-- epochs of two references: the second block fills epoch 1 and has a transaction -/
theorem whole_epoch_with_transaction :
    Chain 2 ⟨0, 1⟩ [sampleStep ⟨0, 1⟩ 1 [] ⟨0, 2⟩, sampleStep ⟨0, 2⟩ 2 [7] ⟨1, 2⟩] ∧
      ¬ ∀ s ∈ [sampleStep ⟨0, 1⟩ 1 [] ⟨0, 2⟩, sampleStep ⟨0, 2⟩ 2 [7] ⟨1, 2⟩],
        s.SingleEpoch 2 ∧ s.NoTransactionsAtEnd 2 := by
  refine ⟨by decide, ?_⟩
  intro hall
  have hlast := (hall (sampleStep ⟨0, 2⟩ 2 [7] ⟨1, 2⟩) (by simp)).2
  simp [Step.NoTransactionsAtEnd, sampleStep] at hlast

end Chains

end SidechainsSdk.Withdrawals
