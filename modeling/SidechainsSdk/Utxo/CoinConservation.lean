/-
What a run of accepted blocks does to the boxes of the sidechain and to its coins.

- `boxes_after_run`: the boxes that can be opened are those that were there or have been created, and have not been opened;
  no box is opened twice, and none in the block that creates it.
- `coins_conserved`: the coins in the boxes and the fees that are not paid yet only change by what comes from the mainchain
  and by what is withdrawn. No sum of `Long`s overflows on the way.

The check of a transaction compares sums that may wrap around, and the fees of an epoch are counted in the state until its
last block pays them, and stay stored after that. Both are in the invariant: `Sound`.

Ids of boxes are hashes of what is in the box and of a nonce, which is a hash of the transaction: that a new box has an id
of its own is an assumption (`NewIds`).
-/
import Mathlib.Tactic
import SidechainsSdk.Utxo.ForgedFeePayments

namespace SidechainsSdk.Utxo.CoinConservation

open AssocMap Fallible Ledger SidechainState ForgedFeePayments
open Withdrawals (WithdrawalEpochInfo)
open Withdrawals.WithdrawalEpochUtils (isEpochLastIndex)

variable {σ τ : Type} {params : NetworkParams} {env : Externals σ τ} {s s' : SidechainState σ τ} {mod : SidechainBlock}
  {info : WithdrawalEpochInfo} {consensusEpoch : ℕ}

/-! ## Amounts -/

/-- the coins in a box -/
def coinsValue (box : Box) : ℤ := if box.isCoinsBox then box.value else 0

/-- what a withdrawal request takes out of the sidechain -/
def withdrawalValue (box : Box) : ℤ := if box.isWithdrawalRequestBox then box.value else 0

/-- the coins in all boxes -/
def coins (s : SidechainState σ τ) : ℤ :=
  AssocMap.sum (fun _ => coinsValue) s.contents.boxes + AssocMap.sum (fun _ => coinsValue) s.forgerBoxStorage.current

/-- the fees of the epoch. Its last block pays them; they stay stored until the next epoch begins. -/
def pendingFees (params : NetworkParams) (s : SidechainState σ τ) : ℤ :=
  if isEpochLastIndex s.getWithdrawalEpochInfo params.withdrawalEpochLength then 0
  else ((s.contents.blockFeeInfos s.getWithdrawalEpochInfo.epoch).map BlockFeeInfo.fee).sum

/-- what the mainchain outputs of a block bring -/
def transferred (mod : SidechainBlock) : ℤ :=
  ((mod.mainchainBlockReferencesData.filterMap MainchainBlockReferenceData.sidechainRelatedAggregatedTransaction).map fun tx =>
    ((BoxTransaction.aggregated tx).newBoxes.map Box.value).sum).sum

/-- what the withdrawal requests of a block take -/
def withdrawn (mod : SidechainBlock) : ℤ :=
  (mod.sidechainTransactions.map fun tx => (tx.newBoxes.map withdrawalValue).sum).sum

/-- the coins of the box with this id -/
def openedValue (s : SidechainState σ τ) (id : BoxId) : ℤ := (s.closedBox id).elim 0 coinsValue

theorem coinsValue_add_withdrawalValue (box : Box) :
    coinsValue box + withdrawalValue box = if box.isCoinsBox ∨ box.isWithdrawalRequestBox then box.value else 0 := by
  obtain ⟨id, nonce, proposition, value, kind⟩ := box
  cases kind with
  | custom coins => cases coins <;> simp [coinsValue, withdrawalValue, Box.isCoinsBox, Box.isWithdrawalRequestBox]
  | _ => simp [coinsValue, withdrawalValue, Box.isCoinsBox, Box.isWithdrawalRequestBox]

theorem sum_coinsOrWithdrawals (boxes : List Box) :
    ((boxes.filter fun box => box.isCoinsBox ∨ box.isWithdrawalRequestBox).map Box.value).sum =
      (boxes.map coinsValue).sum + (boxes.map withdrawalValue).sum := by
  induction boxes with
  | nil => rfl
  | cons box boxes ih =>
    have hbox := coinsValue_add_withdrawalValue box
    by_cases h : box.isCoinsBox ∨ box.isWithdrawalRequestBox
    · rw [if_pos h] at hbox
      rw [List.filter_cons_of_pos (by simpa using h)]
      simp only [List.map_cons, List.sum_cons, ih]
      omega
    · rw [if_neg h] at hbox
      rw [List.filter_cons_of_neg (by simpa using h)]
      simp only [List.map_cons, List.sum_cons, ih]
      omega

/-! ## Transactions -/

/-- the boxes are under their ids, each in the storage of its class -/
structure Stored (s : SidechainState σ τ) : Prop where
  boxes : ∀ id box, s.contents.boxes.lookup id = some box →
    box.id = id ∧ box.isForgerBox = false ∧ box.isWithdrawalRequestBox = false
  forgerBoxes : ∀ id box, s.forgerBoxStorage.current.lookup id = some box → box.id = id ∧ box.isForgerBox = true
  apart : ∀ id, s.contents.boxes.lookup id = none ∨ s.forgerBoxStorage.current.lookup id = none

/-- moreover coins and fees are not negative -/
structure Sound (params : NetworkParams) (s : SidechainState σ τ) : Prop extends Stored s where
  coins_nonneg : ∀ id box, s.closedBox id = some box → 0 ≤ coinsValue box
  fees_nonneg : ∀ e, ∀ info ∈ s.contents.blockFeeInfos e, 0 ≤ info.fee
  feesInv : FeesInv params s

theorem closedBox_some (hs : Stored s) (id : BoxId) (box : Box) :
    s.closedBox id = some box ↔
      s.contents.boxes.lookup id = some box ∨ s.forgerBoxStorage.current.lookup id = some box := by
  unfold SidechainState.closedBox
  rcases hs.apart id with hnone | hnone
  · simp [hnone]
  · simp [hnone, Option.or_none]

theorem openedValue_nonneg (hs : Sound params s) (id : BoxId) : 0 ≤ openedValue s id := by
  unfold openedValue
  cases h : s.closedBox id with
  | none => exact le_rfl
  | some box => exact hs.coins_nonneg id box h

/-- a box is in one of the storages -/
theorem openedValue_eq (hs : Stored s) (id : BoxId) :
    openedValue s id = (s.contents.boxes.lookup id).elim 0 coinsValue +
      (s.forgerBoxStorage.current.lookup id).elim 0 coinsValue := by
  unfold openedValue SidechainState.closedBox
  rcases hs.apart id with hnone | hnone
  · simp [hnone]
  · simp [hnone, Option.or_none]

/-- the coins are those that are opened, and others -/
theorem sum_openedValue_le (hs : Sound params s) {ids : List BoxId} (h : ids.Nodup) :
    (ids.map (openedValue s)).sum ≤ coins s := by
  have hnonneg : ∀ boxes : Boxes, (∀ id box, boxes.lookup id = some box → 0 ≤ coinsValue box) →
      0 ≤ AssocMap.sum (fun _ => coinsValue) (eraseAll ids boxes) := by
    intro boxes hboxes
    apply List.sum_nonneg
    intro x hx
    obtain ⟨⟨id, box⟩, hmem, rfl⟩ := List.mem_map.1 hx
    have hlookup : (eraseAll ids boxes).lookup id = some box := AList.mem_lookup_iff.2 hmem
    rw [lookup_eraseAll] at hlookup
    split_ifs at hlookup
    exact hboxes id box hlookup
  have hstate := sum_eraseAll (fun _ => coinsValue) h s.contents.boxes
  have hforger := sum_eraseAll (fun _ => coinsValue) h s.forgerBoxStorage.current
  have hstate' := hnonneg s.contents.boxes fun id box hbox => hs.coins_nonneg id box
      ((closedBox_some hs.toStored id box).2 (.inl hbox))
  have hforger' := hnonneg s.forgerBoxStorage.current fun id box hbox =>
    hs.coins_nonneg id box ((closedBox_some hs.toStored id box).2 (.inr hbox))
  have hopened : (ids.map (openedValue s)).sum = (ids.map fun id => (s.contents.boxes.lookup id).elim 0 coinsValue).sum +
      (ids.map fun id => (s.forgerBoxStorage.current.lookup id).elim 0 coinsValue).sum := by
    rw [← List.sum_map_add]
    simp only [← openedValue_eq hs.toStored]
  unfold coins
  omega

/-- the loop over the unlockers finds every box -/
theorem openBoxes_found {tx : SidechainTransaction} {a b : ℤ} {unlockers : List BoxUnlocker}
    (h : s.openBoxes env tx a unlockers = .ok b) : ∀ u ∈ unlockers, s.closedBox u.closedBoxId ≠ none := by
  induction unlockers generalizing a with
  | nil => simp
  | cons u unlockers ih =>
    unfold SidechainState.openBoxes at h
    cases hbox : s.closedBox u.closedBoxId with
    | none =>
      rw [hbox] at h
      cases h
    | some box =>
      rw [hbox] at h
      rw [List.forall_mem_cons, hbox]
      exact ⟨by simp, ih (failIf_bind_ok.1 h).2⟩

/-- its sum is exact -/
theorem openBoxes_ok (hs : Sound params s) {tx : SidechainTransaction} {a b : ℤ} {unlockers : List BoxUnlocker} (ha : 0 ≤ a)
    (hmax : a + (unlockers.map fun u => openedValue s u.closedBoxId).sum < 2 ^ 63)
    (h : s.openBoxes env tx a unlockers = .ok b) : b = a + (unlockers.map fun u => openedValue s u.closedBoxId).sum := by
  induction unlockers generalizing a with
  | nil =>
    obtain rfl := Except.ok.inj h
    simp
  | cons u unlockers ih =>
    unfold SidechainState.openBoxes at h
    cases hbox : s.closedBox u.closedBoxId with
    | none =>
      rw [hbox] at h
      cases h
    | some box =>
      rw [hbox] at h
      obtain ⟨-, h⟩ := failIf_bind_ok.1 h
      have hvalue : openedValue s u.closedBoxId = coinsValue box := by simp [openedValue, hbox]
      have hnonneg := hs.coins_nonneg _ _ hbox
      have hrest : 0 ≤ (unlockers.map fun u => openedValue s u.closedBoxId).sum := by
        apply List.sum_nonneg
        intro x hx
        obtain ⟨u', -, rfl⟩ := List.mem_map.1 hx
        exact openedValue_nonneg hs _
      rw [List.map_cons, List.sum_cons, hvalue] at hmax
      have hadd : (if box.isCoinsBox then Long.add a box.value else a) = a + coinsValue box := by
        by_cases hcoins : box.isCoinsBox
        · simp only [coinsValue, if_pos hcoins] at hmax hnonneg ⊢
          exact Long.wrap_eq (by omega) (by omega)
        · simp [coinsValue, hcoins]
      rw [hadd] at h
      rw [ih (by omega) (by omega) h, List.map_cons, List.sum_cons, hvalue]
      ring

/-- the loop over the new boxes: values of coins and withdrawals are in the money range, and so is their sum -/
theorem checkOutputBoxes_ok {tx : SidechainTransaction} {a : ℤ} {i : ℕ} {boxes : List Box} (ha : 0 ≤ a)
    (hmax : a ≤ ZenCoinsUtils.MAX_MONEY) (h : checkOutputBoxes env tx a i boxes = .ok ()) :
    (∀ box ∈ boxes, 0 ≤ coinsValue box ∧ 0 ≤ withdrawalValue box) ∧
      a + ((boxes.filter fun box => box.isCoinsBox ∨ box.isWithdrawalRequestBox).map Box.value).sum ≤
        ZenCoinsUtils.MAX_MONEY := by
  induction boxes generalizing a i with
  | nil => simpa using hmax
  | cons box boxes ih =>
    unfold checkOutputBoxes at h
    obtain ⟨a', hbox, h⟩ := bind_ok h
    unfold checkOutputBox at hbox
    obtain ⟨-, hbox⟩ := failIf_bind_ok.1 hbox
    by_cases hcoins : box.isCoinsBox ∨ box.isWithdrawalRequestBox
    · rw [if_pos hcoins] at hbox
      simp only [failIf_bind_ok, ZenCoinsUtils.isValidMoneyRange, decide_eq_true_eq, not_not] at hbox
      obtain ⟨-, ⟨hvalue, hvalue'⟩, ⟨hsum, hsum'⟩, hbox⟩ := hbox
      obtain rfl := Except.ok.inj hbox
      have hMAX : ZenCoinsUtils.MAX_MONEY = 2100000000000000 := by decide
      have hadd : Long.add a box.value = a + box.value := Long.wrap_eq (by omega) (by omega)
      rw [hadd] at h hsum hsum'
      obtain ⟨hboxes, htotal⟩ := ih hsum hsum' h
      rw [List.filter_cons_of_pos (by simpa using hcoins), List.map_cons, List.sum_cons, List.forall_mem_cons]
      refine ⟨⟨?_, hboxes⟩, by omega⟩
      unfold coinsValue withdrawalValue
      split_ifs <;> omega
    · rw [if_neg hcoins] at hbox
      obtain ⟨-, hbox⟩ := failIf_bind_ok.1 hbox
      obtain rfl := Except.ok.inj hbox
      obtain ⟨hboxes, htotal⟩ := ih ha hmax h
      obtain ⟨hnocoins, hnowithdrawal⟩ := not_or.1 hcoins
      rw [List.filter_cons_of_neg (by simpa using hcoins), List.forall_mem_cons]
      exact ⟨⟨by simp [coinsValue, withdrawalValue, hnocoins, hnowithdrawal], hboxes⟩, htotal⟩

/-- an accepted transaction: it takes from the boxes that it opens what it puts into its own and pays -/
structure Balanced (s : SidechainState σ τ) (tx : SidechainTransaction) : Prop where
  values : ∀ box ∈ tx.newBoxes, 0 ≤ coinsValue box ∧ 0 ≤ withdrawalValue box
  fee_nonneg : 0 ≤ tx.fee
  balance : (tx.unlockers.map fun u => openedValue s u.closedBoxId).sum =
    (tx.newBoxes.map coinsValue).sum + (tx.newBoxes.map withdrawalValue).sum + tx.fee

theorem semanticValidity_ok {tx : SidechainTransaction} (h : semanticValidity env (.sidechain tx) = .ok ()) :
    (tx.unlockers.map BoxUnlocker.closedBoxId).Nodup ∧ checkOutputBoxes env tx 0 0 tx.newBoxes = .ok () ∧ 0 ≤ tx.fee := by
  simp only [semanticValidity, bind_ok_iff, failIf_ok] at h
  obtain ⟨⟨⟩, -, ⟨⟩, hlength, ⟨⟩, hboxes, ⟨⟩, hfee, -⟩ := h
  refine ⟨?_, hboxes, not_lt.1 hfee⟩
  have hdedup : (tx.unlockers.map BoxUnlocker.closedBoxId).dedup.length = (tx.unlockers.map BoxUnlocker.closedBoxId).length := by
    rw [List.length_map]
    exact (not_not.1 hlength).symm
  exact List.dedup_eq_self.1 ((List.dedup_sublist _).eq_of_length hdedup)

/-- the comparison of the sums, in each class of transactions -/
theorem validateSidechainTransaction_ok {tx : SidechainTransaction} {epoch : ℤ}
    (h : s.validateSidechainTransaction params env tx consensusEpoch epoch = .ok ()) :
    s.openBoxes env tx 0 tx.unlockers = .ok (Long.add
      (Long.sum ((tx.newBoxes.filter fun box => box.isCoinsBox ∨ box.isWithdrawalRequestBox).map Box.value)) tx.fee) := by
  unfold SidechainState.validateSidechainTransaction at h
  cases hkind : tx.kind with
  | openStake forgerIndex inputId =>
    simp only [hkind, bind_ok_iff, failIf_ok, not_not] at h
    obtain ⟨⟨⟩, -, closed, hopen, ⟨⟩, -, ⟨⟩, rfl, -⟩ := h
    exact hopen
  | keyRotation proof newKeySignature =>
    simp only [hkind, bind_ok_iff, failIf_ok, not_not] at h
    obtain ⟨closed, hopen, ⟨⟩, -, ⟨⟩, -, ⟨⟩, rfl, -⟩ := h
    exact hopen
  | other =>
    simp only [hkind, bind_ok_iff, failIf_ok, not_not] at h
    obtain ⟨closed, hopen, ⟨⟩, -, ⟨⟩, rfl, -⟩ := h
    exact hopen

theorem wrap_overflow {x : ℤ} (hmin : 2 ^ 63 ≤ x) (hmax : x < 2 ^ 64) : Long.wrap x = x - 2 ^ 64 := by
  unfold Long.wrap
  rw [Int.bmod_def]
  norm_num
  omega

/-- an accepted transaction opens boxes of the state, each once -/
theorem opens_of_valid {tx : SidechainTransaction} {epoch : ℤ}
    (h : s.validateTransaction params env consensusEpoch epoch (.sidechain tx) = .ok ()) :
    (tx.unlockers.map BoxUnlocker.closedBoxId).Nodup ∧ ∀ u ∈ tx.unlockers, s.closedBox u.closedBoxId ≠ none := by
  unfold SidechainState.validateTransaction at h
  obtain ⟨⟨⟩, hsemantic, h⟩ := bind_ok h
  obtain ⟨⟨⟩, hstate, -⟩ := bind_ok h
  exact ⟨(semanticValidity_ok hsemantic).1, openBoxes_found (validateSidechainTransaction_ok hstate)⟩

/-- the comparison of the sums is exact: the sum of the new boxes is in the money range, and adding the fee to it wraps around
to a negative number at most -/
theorem balanced_of_valid (hs : Sound params s) (hmax : coins s < 2 ^ 63) {tx : SidechainTransaction} (hfee : tx.fee < 2 ^ 63)
    {epoch : ℤ} (h : s.validateTransaction params env consensusEpoch epoch (.sidechain tx) = .ok ()) : Balanced s tx := by
  unfold SidechainState.validateTransaction at h
  obtain ⟨⟨⟩, hsemantic, h⟩ := bind_ok h
  obtain ⟨⟨⟩, hstate, -⟩ := bind_ok h
  obtain ⟨hnodup, hboxes, hfee0⟩ := semanticValidity_ok hsemantic
  have hopen := validateSidechainTransaction_ok hstate
  have hopened : (tx.unlockers.map fun u => openedValue s u.closedBoxId).sum ≤ coins s := by
    have hle := sum_openedValue_le hs hnodup
    rwa [List.map_map] at hle
  have hsum := openBoxes_ok hs le_rfl (by omega) hopen
  have hMAX : ZenCoinsUtils.MAX_MONEY = 2100000000000000 := by decide
  obtain ⟨hvalues, htotal⟩ := checkOutputBoxes_ok le_rfl (by omega) hboxes
  have hnew := sum_coinsOrWithdrawals tx.newBoxes
  have hnonneg : ∀ y ∈ (tx.newBoxes.filter fun box => box.isCoinsBox ∨ box.isWithdrawalRequestBox).map Box.value,
      0 ≤ y := by
    intro y hy
    obtain ⟨box, hbox, rfl⟩ := List.mem_map.1 hy
    obtain ⟨hmem, hcoins⟩ := List.mem_filter.1 hbox
    have hbox := coinsValue_add_withdrawalValue box
    rw [if_pos (by simpa using hcoins)] at hbox
    have := hvalues box hmem
    omega
  have hnew_nonneg := List.sum_nonneg hnonneg
  have hclosed : 0 ≤ (tx.unlockers.map fun u => openedValue s u.closedBoxId).sum := by
    apply List.sum_nonneg
    intro x hx
    obtain ⟨u, -, rfl⟩ := List.mem_map.1 hx
    exact openedValue_nonneg hs _
  refine ⟨hvalues, hfee0, ?_⟩
  rw [zero_add, Long.sum_eq hnonneg (by omega)] at hsum
  rw [← hnew]
  by_cases hfits : ((tx.newBoxes.filter fun box => box.isCoinsBox ∨ box.isWithdrawalRequestBox).map Box.value).sum + tx.fee <
    2 ^ 63
  · rw [← hsum]
    exact Long.wrap_eq (by omega) hfits
  · -- the sum would be negative
    exfalso
    rw [Long.add, wrap_overflow (by omega) (by omega)] at hsum
    omega

/-! ## Blocks -/

theorem newBoxes_aggregated_coins (tx : MC2SCAggregatedTransaction) :
    (BoxTransaction.aggregated tx).newBoxes.map coinsValue = (BoxTransaction.aggregated tx).newBoxes.map Box.value := by
  apply List.map_congr_left
  intro box hbox
  obtain ⟨output, -, rfl⟩ := List.mem_map.1 hbox
  cases output <;> rfl

/-- what the transactions of the sidechain take, put and pay -/
theorem sum_balance {txs : List SidechainTransaction} (h : ∀ tx ∈ txs, Balanced s tx) :
    ((txs.flatMap fun tx => tx.unlockers.map BoxUnlocker.closedBoxId).map (openedValue s)).sum =
      ((txs.flatMap SidechainTransaction.newBoxes).map coinsValue).sum +
        (txs.map fun tx => (tx.newBoxes.map withdrawalValue).sum).sum + (txs.map SidechainTransaction.fee).sum := by
  induction txs with
  | nil => rfl
  | cons tx txs ih =>
    obtain ⟨htx, htxs⟩ := List.forall_mem_cons.1 h
    have hbalance := htx.balance
    have hrest := ih htxs
    simp only [List.flatMap_cons, List.map_append, List.sum_append, List.map_cons, List.sum_cons, List.map_map] at hrest ⊢
    have hcomp : (tx.unlockers.map (openedValue s ∘ BoxUnlocker.closedBoxId)).sum =
        (tx.unlockers.map fun u => openedValue s u.closedBoxId).sum := rfl
    omega

/-- what a block consists of besides hashes: amounts of the mainchain that are not negative, and fees that are `Long`s -/
structure AmountsFit (mod : SidechainBlock) : Prop where
  outputs : ∀ tx ∈ mod.mainchainBlockReferencesData.filterMap
    MainchainBlockReferenceData.sidechainRelatedAggregatedTransaction, ∀ box ∈ (BoxTransaction.aggregated tx).newBoxes,
      0 ≤ box.value
  fees : ∀ tx ∈ mod.sidechainTransactions, tx.fee < 2 ^ 63

/-- a validated block: the boxes it opens are there, each once -/
structure BlockOpens (s : SidechainState σ τ) (mod : SidechainBlock) : Prop where
  nodup : (changes mod).toRemove.Nodup
  found : ∀ id ∈ (changes mod).toRemove, s.closedBox id ≠ none

/-- the coins that it takes from them are what it creates and pays, except for what comes from the mainchain -/
structure BlockBalanced (s : SidechainState σ τ) (mod : SidechainBlock) : Prop where
  values : ∀ box ∈ (changes mod).toAppend, 0 ≤ coinsValue box
  withdrawn_nonneg : 0 ≤ withdrawn mod
  fee_nonneg : 0 ≤ mod.feeInfo.fee
  fee_le : mod.feeInfo.fee ≤ coins s
  balance : ((changes mod).toRemove.map (openedValue s)).sum + transferred mod =
    ((changes mod).toAppend.map coinsValue).sum + withdrawn mod + mod.feeInfo.fee

theorem toRemove_eq (mod : SidechainBlock) : (changes mod).toRemove =
    mod.sidechainTransactions.flatMap fun tx => tx.unlockers.map BoxUnlocker.closedBoxId := by
  simp [changes, SidechainBlock.transactions, List.flatMap_append, List.flatMap_map, BoxTransaction.unlockers]

theorem toAppend_eq (mod : SidechainBlock) : (changes mod).toAppend =
    (mod.mainchainBlockReferencesData.filterMap MainchainBlockReferenceData.sidechainRelatedAggregatedTransaction).flatMap
      (fun tx => (BoxTransaction.aggregated tx).newBoxes) ++ mod.sidechainTransactions.flatMap SidechainTransaction.newBoxes := by
  simp [changes, SidechainBlock.transactions, List.flatMap_append, List.flatMap_map, BoxTransaction.newBoxes]

theorem fees_eq (mod : SidechainBlock) :
    (mod.transactions.map BoxTransaction.fee).sum = (mod.sidechainTransactions.map SidechainTransaction.fee).sum := by
  simp [SidechainBlock.transactions, BoxTransaction.fee, Function.comp_def]

theorem sum_transferred (mod : SidechainBlock) :
    (((mod.mainchainBlockReferencesData.filterMap MainchainBlockReferenceData.sidechainRelatedAggregatedTransaction).flatMap
      fun tx => (BoxTransaction.aggregated tx).newBoxes).map coinsValue).sum = transferred mod := by
  unfold transferred
  generalize mod.mainchainBlockReferencesData.filterMap MainchainBlockReferenceData.sidechainRelatedAggregatedTransaction = txs
  induction txs with
  | nil => rfl
  | cons tx txs ih =>
    rw [List.flatMap_cons, List.map_append, List.sum_append, ih, newBoxes_aggregated_coins, List.map_cons, List.sum_cons]

theorem mem_transactions {tx : SidechainTransaction} (h : tx ∈ mod.sidechainTransactions) :
    BoxTransaction.sidechain tx ∈ mod.transactions :=
  List.mem_append_right _ (List.mem_map_of_mem h)

/-- the ids that a block opens are those that are checked for duplicates, once no transaction opens a box twice -/
theorem toRemove_nodup (h : s.validateBlockTransactionsMutuality params env mod = .ok ())
    (htxs : ∀ tx ∈ mod.sidechainTransactions, (tx.unlockers.map BoxUnlocker.closedBoxId).Nodup) :
    (changes mod).toRemove.Nodup := by
  simp only [SidechainState.validateBlockTransactionsMutuality, bind_ok_iff, failIf_ok, not_not] at h
  obtain ⟨⟨⟩, -, ⟨⟩, hnodup, -⟩ := h
  have heq : (changes mod).toRemove = mod.transactions.flatMap BoxTransaction.boxIdsToOpen := by
    refine List.flatMap_congr ?_
    intro tx htx
    rcases List.mem_append.1 htx with htx | htx
    · obtain ⟨tx, -, rfl⟩ := List.mem_map.1 htx
      rfl
    · obtain ⟨tx, hmem, rfl⟩ := List.mem_map.1 htx
      exact (List.dedup_eq_self.2 (htxs tx hmem)).symm
  rwa [heq]

theorem block_opens (hvalid : Validated params env s mod info consensusEpoch) : BlockOpens s mod := by
  have htxs : ∀ tx ∈ mod.sidechainTransactions, (tx.unlockers.map BoxUnlocker.closedBoxId).Nodup ∧
      ∀ u ∈ tx.unlockers, s.closedBox u.closedBoxId ≠ none :=
    fun tx htx => opens_of_valid (hvalid.transactions _ (mem_transactions htx))
  refine ⟨toRemove_nodup hvalid.mutuality fun tx htx => (htxs tx htx).1, ?_⟩
  intro id hid
  rw [toRemove_eq] at hid
  obtain ⟨tx, htx, hid⟩ := List.mem_flatMap.1 hid
  obtain ⟨u, hu, rfl⟩ := List.mem_map.1 hid
  exact (htxs tx htx).2 u hu

theorem block_balanced (hs : Sound params s) (hmax : coins s < 2 ^ 63) (hfit : AmountsFit mod)
    (hvalid : Validated params env s mod info consensusEpoch) : BlockBalanced s mod := by
  have htxs : ∀ tx ∈ mod.sidechainTransactions, Balanced s tx := fun tx htx =>
    balanced_of_valid hs hmax (hfit.fees tx htx) (hvalid.transactions _ (mem_transactions htx))
  have hsum := sum_balance htxs
  rw [← toRemove_eq] at hsum
  have hopened := sum_openedValue_le hs (block_opens hvalid).nodup
  have hwithdrawn : 0 ≤ withdrawn mod := by
    apply List.sum_nonneg
    intro x hx
    obtain ⟨tx, htx, rfl⟩ := List.mem_map.1 hx
    apply List.sum_nonneg
    intro y hy
    obtain ⟨box, hbox, rfl⟩ := List.mem_map.1 hy
    exact ((htxs tx htx).values box hbox).2
  have hnew : ∀ box ∈ mod.sidechainTransactions.flatMap SidechainTransaction.newBoxes, 0 ≤ coinsValue box := by
    intro box hbox
    obtain ⟨tx, htx, hbox⟩ := List.mem_flatMap.1 hbox
    exact ((htxs tx htx).values box hbox).1
  have hnew_sum : 0 ≤ ((mod.sidechainTransactions.flatMap SidechainTransaction.newBoxes).map coinsValue).sum := by
    apply List.sum_nonneg
    intro x hx
    obtain ⟨box, hbox, rfl⟩ := List.mem_map.1 hx
    exact hnew box hbox
  have hfees : ∀ y ∈ mod.transactions.map BoxTransaction.fee, 0 ≤ y := by
    intro y hy
    obtain ⟨tx, htx, rfl⟩ := List.mem_map.1 hy
    rcases List.mem_append.1 htx with htx | htx
    · obtain ⟨tx, -, rfl⟩ := List.mem_map.1 htx
      exact le_rfl
    · obtain ⟨tx, hmem, rfl⟩ := List.mem_map.1 htx
      exact (htxs tx hmem).fee_nonneg
  have hfees_sum := List.sum_nonneg hfees
  have hfees_le : (mod.transactions.map BoxTransaction.fee).sum ≤ coins s := by
    rw [fees_eq]
    unfold withdrawn at hwithdrawn
    omega
  have hfee : mod.feeInfo.fee = (mod.transactions.map BoxTransaction.fee).sum := Long.sum_eq hfees (by omega)
  rw [← hfee] at hfees_sum hfees_le
  refine ⟨?_, hwithdrawn, hfees_sum, hfees_le, ?_⟩
  · intro box hbox
    rw [toAppend_eq] at hbox
    rcases List.mem_append.1 hbox with hbox | hbox
    · obtain ⟨tx, htx, hbox⟩ := List.mem_flatMap.1 hbox
      have hvalue := hfit.outputs tx htx box hbox
      unfold coinsValue
      split_ifs
      · exact hvalue
      · exact le_rfl
    · exact hnew box hbox
  · rw [toAppend_eq, List.map_append, List.sum_append, sum_transferred, hfee, fees_eq, hsum]
    unfold withdrawn
    ring

/-! ## The storages of boxes -/

theorem lookup_update {boxes : Boxes} {toAppend : List Box} (h : NewKeys Box.id toAppend boxes) (toRemove : List BoxId)
    (id : BoxId) (box : Box) : (boxes.update toAppend toRemove).lookup id = some box ↔
      id ∉ toRemove ∧ ((box ∈ toAppend ∧ box.id = id) ∨ boxes.lookup id = some box) := by
  change (eraseAll toRemove (insertAll Box.id toAppend boxes)).lookup id = some box ↔ _
  rw [lookup_eraseAll]
  by_cases hid : id ∈ toRemove
  · simp [hid]
  · rw [if_neg hid, lookup_insertAll h]
    simp [hid]

/-- what is removed was there before the new boxes -/
theorem sum_update (f : Box → ℤ) {boxes : Boxes} {toAppend : List Box} {toRemove : List BoxId}
    (h : NewKeys Box.id toAppend boxes) (hnodup : toRemove.Nodup) (hapart : ∀ box ∈ toAppend, box.id ∉ toRemove) :
    AssocMap.sum (fun _ => f) (boxes.update toAppend toRemove) +
        (toRemove.map fun id => (boxes.lookup id).elim 0 f).sum =
      AssocMap.sum (fun _ => f) boxes + (toAppend.map f).sum := by
  have hold : ∀ id ∈ toRemove, (insertAll Box.id toAppend boxes).lookup id = boxes.lookup id := by
    intro id hid
    refine Option.ext fun box => ?_
    rw [lookup_insertAll h]
    constructor
    · rintro (⟨hmem, rfl⟩ | hbox)
      · exact absurd hid (hapart box hmem)
      · exact hbox
    · exact Or.inr
  have hsum := sum_eraseAll (fun _ => f) hnodup (insertAll Box.id toAppend boxes)
  rw [List.map_congr_left fun id hid => by rw [hold id hid], sum_insertAll (fun _ => f) h] at hsum
  exact hsum.symm

/-- the ids of these boxes are new in the state, and each is that of one box -/
structure NewIds (s : SidechainState σ τ) (boxes : List Box) : Prop where
  nodup : (boxes.map Box.id).Nodup
  fresh : ∀ box ∈ boxes, s.closedBox box.id = none

theorem NewIds.filter_boxes {boxes : List Box} (h : NewIds s boxes) (p : Box → Bool) :
    NewKeys Box.id (boxes.filter p) s.contents.boxes := by
  refine ⟨h.nodup.sublist (List.filter_sublist.map _), ?_⟩
  intro box hbox
  have hnone := h.fresh box (List.mem_of_mem_filter hbox)
  unfold SidechainState.closedBox at hnone
  exact (Option.or_eq_none_iff.1 hnone).1

theorem NewIds.filter_forgerBoxes {boxes : List Box} (h : NewIds s boxes) (p : Box → Bool) :
    NewKeys Box.id (boxes.filter p) s.forgerBoxStorage.current := by
  refine ⟨h.nodup.sublist (List.filter_sublist.map _), ?_⟩
  intro box hbox
  have hnone := h.fresh box (List.mem_of_mem_filter hbox)
  unfold SidechainState.closedBox at hnone
  exact (Option.or_eq_none_iff.1 hnone).2

/-- the boxes that an accepted block appends: its own, and with the last block of an epoch the payments of fees -/
def appended (params : NetworkParams) (env : Externals σ τ) (s : SidechainState σ τ) (mod : SidechainBlock)
    (info : WithdrawalEpochInfo) : List Box :=
  s.boxesToAppend params env (changes mod) (blockData params mod info 0)

/-- the storages of boxes after a block -/
structure BoxesAfter (params : NetworkParams) (env : Externals σ τ) (s : SidechainState σ τ) (mod : SidechainBlock)
    (s' : SidechainState σ τ) (info : WithdrawalEpochInfo) : Prop where
  boxes_eq : s'.contents.boxes = s.contents.boxes.update
    ((appended params env s mod info).filter fun box => !box.isForgerBox && !box.isWithdrawalRequestBox) (changes mod).toRemove
  forgerBoxes_eq : s'.forgerBoxStorage.current = s.forgerBoxStorage.current.update
    ((appended params env s mod info).filter Box.isForgerBox) (changes mod).toRemove

theorem boxesAfter_of_applied (h : Applied params env s mod s' info consensusEpoch) : BoxesAfter params env s mod s' info := by
  obtain ⟨root, keys, hcontents⟩ := h.contents_eq
  refine ⟨?_, h.forgerBoxes_eq⟩
  rw [hcontents]
  rfl

/-- **The boxes after a block**: those that it creates, except for withdrawal requests, and those that were there, except for
those that it opens. -/
theorem BoxesAfter.closedBox (h : BoxesAfter params env s mod s' info) (hs : Stored s) (hs' : Stored s')
    (hnew : NewIds s (appended params env s mod info)) (id : BoxId) (box : Box) :
    s'.closedBox id = some box ↔ id ∉ (changes mod).toRemove ∧
      ((box ∈ appended params env s mod info ∧ box.isWithdrawalRequestBox = false ∧ box.id = id) ∨
        s.closedBox id = some box) := by
  have hkind : box.isForgerBox = true → box.isWithdrawalRequestBox = false := by
    obtain ⟨id, nonce, proposition, value, kind⟩ := box
    cases kind <;> simp [Box.isForgerBox, Box.isWithdrawalRequestBox]
  rw [closedBox_some hs', closedBox_some hs, h.boxes_eq, h.forgerBoxes_eq, lookup_update (hnew.filter_boxes _),
    lookup_update (hnew.filter_forgerBoxes _), List.mem_filter, List.mem_filter]
  cases hforger : box.isForgerBox with
  | true =>
    rw [hforger] at hkind
    simp only [hkind rfl]
    simp
    tauto
  | false =>
    simp
    tauto

theorem kinds_after (h : BoxesAfter params env s mod s' info) (hs : Stored s)
    (hnew : NewIds s (appended params env s mod info)) :
    (∀ id box, s'.contents.boxes.lookup id = some box →
        box.id = id ∧ box.isForgerBox = false ∧ box.isWithdrawalRequestBox = false) ∧
      (∀ id box, s'.forgerBoxStorage.current.lookup id = some box → box.id = id ∧ box.isForgerBox = true) := by
  constructor
  · intro id box hbox
    rw [h.boxes_eq, lookup_update (hnew.filter_boxes _)] at hbox
    rcases hbox.2 with ⟨hmem, hid⟩ | hbox
    · have hkind := (List.mem_filter.1 hmem).2
      simp only [Bool.and_eq_true, Bool.not_eq_true'] at hkind
      exact ⟨hid, hkind⟩
    · exact hs.boxes id box hbox
  · intro id box hbox
    rw [h.forgerBoxes_eq, lookup_update (hnew.filter_forgerBoxes _)] at hbox
    rcases hbox.2 with ⟨hmem, hid⟩ | hbox
    · exact ⟨hid, (List.mem_filter.1 hmem).2⟩
    · exact hs.forgerBoxes id box hbox

theorem apart_after (h : BoxesAfter params env s mod s' info) (hs : Stored s)
    (hnew : NewIds s (appended params env s mod info)) (id : BoxId) :
    s'.contents.boxes.lookup id = none ∨ s'.forgerBoxStorage.current.lookup id = none := by
  obtain ⟨hboxes, hforgers⟩ := kinds_after h hs hnew
  cases hbox : s'.contents.boxes.lookup id with
  | none => exact .inl rfl
  | some box =>
    refine .inr ?_
    rw [Option.eq_none_iff_forall_ne_some]
    intro forgerBox hforger
    have hkind := (hboxes id box hbox).2.1
    have hkind' := (hforgers id forgerBox hforger).2
    rw [h.boxes_eq, lookup_update (hnew.filter_boxes _)] at hbox
    rw [h.forgerBoxes_eq, lookup_update (hnew.filter_forgerBoxes _)] at hforger
    rcases hbox.2 with ⟨hmem, hid⟩ | hold
    · rcases hforger.2 with ⟨hmem', hid'⟩ | hold'
      · -- two new boxes with one id
        have heq := List.inj_on_of_nodup_map hnew.nodup (List.mem_of_mem_filter hmem) (List.mem_of_mem_filter hmem')
          (hid.trans hid'.symm)
        rw [heq, hkind'] at hkind
        cases hkind
      · have hfresh := hnew.fresh box (List.mem_of_mem_filter hmem)
        rw [hid, (closedBox_some hs id forgerBox).2 (.inr hold')] at hfresh
        cases hfresh
    · rcases hforger.2 with ⟨hmem', hid'⟩ | hold'
      · have hfresh := hnew.fresh forgerBox (List.mem_of_mem_filter hmem')
        rw [hid', (closedBox_some hs id box).2 (.inl hold)] at hfresh
        cases hfresh
      · rcases hs.apart id with hnone | hnone
        · rw [hnone] at hold
          cases hold
        · rw [hnone] at hold'
          cases hold'

theorem stored_after (h : BoxesAfter params env s mod s' info) (hs : Stored s)
    (hnew : NewIds s (appended params env s mod info)) : Stored s' :=
  ⟨(kinds_after h hs hnew).1, (kinds_after h hs hnew).2, apart_after h hs hnew⟩

/-- withdrawal requests are not stored as boxes, and they are not coins -/
theorem sum_coinsValue_filter (boxes : List Box) :
    ((boxes.filter fun box => !box.isForgerBox && !box.isWithdrawalRequestBox).map coinsValue).sum +
      ((boxes.filter Box.isForgerBox).map coinsValue).sum = (boxes.map coinsValue).sum := by
  induction boxes with
  | nil => rfl
  | cons box boxes ih =>
    obtain ⟨id, nonce, proposition, value, kind⟩ := box
    rw [List.map_cons, List.sum_cons, ← ih, List.filter_cons, List.filter_cons]
    cases kind with
    | zen =>
      simp [coinsValue, Box.isForgerBox, Box.isWithdrawalRequestBox, Box.isCoinsBox]
      ring
    | forger =>
      simp [coinsValue, Box.isForgerBox, Box.isCoinsBox]
      ring
    | withdrawalRequest => simp [coinsValue, Box.isForgerBox, Box.isWithdrawalRequestBox, Box.isCoinsBox]
    | custom coins =>
      simp [coinsValue, Box.isForgerBox, Box.isWithdrawalRequestBox, Box.isCoinsBox]
      ring

theorem coins_after (h : BoxesAfter params env s mod s' info) (hs : Sound params s)
    (hnew : NewIds s (appended params env s mod info)) (hblock : BlockOpens s mod) :
    coins s' + ((changes mod).toRemove.map (openedValue s)).sum =
      coins s + ((appended params env s mod info).map coinsValue).sum := by
  have hapart : ∀ box ∈ appended params env s mod info, box.id ∉ (changes mod).toRemove := fun box hbox hid =>
    hblock.found _ hid (hnew.fresh box hbox)
  have hstate := sum_update coinsValue (hnew.filter_boxes fun box => !box.isForgerBox && !box.isWithdrawalRequestBox) hblock.nodup
    fun box hbox => hapart box (List.mem_of_mem_filter hbox)
  have hforger := sum_update coinsValue (hnew.filter_forgerBoxes Box.isForgerBox) hblock.nodup
    fun box hbox => hapart box (List.mem_of_mem_filter hbox)
  have hopened : ((changes mod).toRemove.map (openedValue s)).sum =
      ((changes mod).toRemove.map fun id => (s.contents.boxes.lookup id).elim 0 coinsValue).sum +
        ((changes mod).toRemove.map fun id => (s.forgerBoxStorage.current.lookup id).elim 0 coinsValue).sum := by
    rw [← List.sum_map_add]
    simp only [← openedValue_eq hs.toStored]
  have hsplit := sum_coinsValue_filter (appended params env s mod info)
  unfold coins
  rw [h.boxes_eq, h.forgerBoxes_eq]
  omega

/-! ## Fees -/

theorem payment_kind {e : ℤ} {rewards : List (Proposition × ℤ)} {box : Box} (h : box ∈ paymentBoxes env e rewards) :
    box.kind = .zen ∧ 0 < box.value := by
  obtain ⟨hmem, hpos⟩ := List.mem_filter.1 h
  obtain ⟨i, hi, rfl⟩ := List.mem_mapIdx.1 hmem
  exact ⟨rfl, of_decide_eq_true hpos⟩

/-- the payments of fees that are not negative and whose sum is a `Long`: positive coins, and together the fees -/
theorem sum_payments {e : ℤ} {feeInfo : BlockFeeInfo} (hfit : FeesFit (s.contents.blockFeeInfos e ++ [feeInfo])) :
    (∀ box ∈ s.getFeePayments env e (some feeInfo), 0 ≤ coinsValue box) ∧
      ((s.getFeePayments env e (some feeInfo)).map coinsValue).sum =
        ((s.contents.blockFeeInfos e).map BlockFeeInfo.fee).sum + feeInfo.fee := by
  have hpayments : s.getFeePayments env e (some feeInfo) = feePaymentBoxes env e (s.contents.blockFeeInfos e ++ [feeInfo]) :=
    getFeePayments_some s e feeInfo
  rw [feePaymentBoxes_by] at hpayments
  obtain ⟨hnonneg, hsum⟩ := aggregated_rewards forgerBlockFee_isShare (by simp) hfit
  have hcoins : ∀ box ∈ s.getFeePayments env e (some feeInfo), coinsValue box = box.value ∧ 0 < box.value := by
    intro box hbox
    rw [hpayments] at hbox
    obtain ⟨hkind, hpos⟩ := payment_kind hbox
    exact ⟨by simp [coinsValue, Box.isCoinsBox, hkind], hpos⟩
  refine ⟨?_, ?_⟩
  · intro box hbox
    obtain ⟨hvalue, hpos⟩ := hcoins box hbox
    omega
  · calc ((s.getFeePayments env e (some feeInfo)).map coinsValue).sum
        = ((s.getFeePayments env e (some feeInfo)).map Box.value).sum := by
          rw [List.map_congr_left fun box hbox => (hcoins box hbox).1]
      _ = ((s.contents.blockFeeInfos e ++ [feeInfo]).map BlockFeeInfo.fee).sum := by
          rw [hpayments, paymentBoxes_value env e hnonneg, hsum]
      _ = ((s.contents.blockFeeInfos e).map BlockFeeInfo.fee).sum + feeInfo.fee := by simp

/-- before a block of the epoch `info`: what is pending are the fees stored for this epoch. The fees of an epoch that is over
are paid, and for the next one nothing is stored. -/
theorem pendingFees_before (hs : Sound params s)
    (hcases : EpochCases params.withdrawalEpochLength s.getWithdrawalEpochInfo mod.mainchainBlockReferencesData.length info) :
    pendingFees params s = ((s.contents.blockFeeInfos info.epoch).map BlockFeeInfo.fee).sum := by
  unfold pendingFees
  rcases hcases with ⟨hparent, -, hinfo⟩ | ⟨hparent, -, hinfo⟩
  · have hnone : s.contents.blockFeeInfos info.epoch = [] := by
      apply hs.feesInv.later
      rw [hinfo]
      simp
    rw [if_pos (by simpa [isEpochLastIndex] using hparent), hnone]
    rfl
  · rw [if_neg (by simpa [isEpochLastIndex] using hparent), hinfo]

theorem pendingFees_nonneg (hs : Sound params s) : 0 ≤ pendingFees params s := by
  unfold pendingFees
  split_ifs
  · exact le_rfl
  · apply List.sum_nonneg
    intro x hx
    obtain ⟨info, hinfo, rfl⟩ := List.mem_map.1 hx
    exact hs.fees_nonneg _ info hinfo

/-- the fees stored after a block: its own is added to those of its epoch -/
theorem blockFeeInfos_after (h : Applied params env s mod s' info consensusEpoch) (e : ℤ) :
    (∀ x ∈ s'.contents.blockFeeInfos e, x ∈ s.contents.blockFeeInfos e ∨ x = mod.feeInfo) ∧
      s'.contents.blockFeeInfos info.epoch = s.contents.blockFeeInfos info.epoch ++ [mod.feeInfo] := by
  obtain ⟨root, keys, hcontents⟩ := h.contents_eq
  rw [hcontents]
  have hepoch : (s.stateUpdate params env (changes mod) (blockData params mod info consensusEpoch) root
    keys).withdrawalEpochInfo = info := rfl
  have hfee : (s.stateUpdate params env (changes mod) (blockData params mod info consensusEpoch) root keys).blockFeeInfo =
    mod.feeInfo := rfl
  simp only [StateContents.update, hepoch, hfee]
  refine ⟨?_, ?_⟩
  · intro x hx
    split_ifs at hx with hold hsame
    · cases hx
    · simpa using hx
    · exact .inl hx
  · rw [if_neg (by omega), if_pos trivial]

/-! ## One block -/

/-- the coins in the boxes, and the fees that will become boxes -/
def supply (params : NetworkParams) (s : SidechainState σ τ) : ℤ := coins s + pendingFees params s

/-- the new boxes of a transition -/
def created (params : NetworkParams) (env : Externals σ τ) (t : Transition σ τ) : List Box :=
  appended params env t.before t.block t.after.getWithdrawalEpochInfo

/-- the ids of the boxes that it opens -/
def spent (t : Transition σ τ) : List BoxId := (changes t.block).toRemove

theorem appended_eq (params : NetworkParams) (env : Externals σ τ) (s : SidechainState σ τ) (mod : SidechainBlock)
    (info : WithdrawalEpochInfo) : appended params env s mod info =
      (changes mod).toAppend ++ if isEpochLastIndex info params.withdrawalEpochLength then
        s.getFeePayments env info.epoch (some mod.feeInfo) else [] := by
  by_cases hlast : isEpochLastIndex info params.withdrawalEpochLength
  · rw [if_pos hlast]
    exact if_pos hlast
  · rw [if_neg hlast, List.append_nil]
    exact if_neg hlast

/-- what an accepted block does to the boxes -/
structure BoxesEffect (params : NetworkParams) (env : Externals σ τ) (t : Transition σ τ) : Prop where
  stored : Stored t.after
  nodup : (spent t).Nodup
  found : ∀ id ∈ spent t, t.before.closedBox id ≠ none
  closedBox : ∀ id box, t.after.closedBox id = some box ↔ id ∉ spent t ∧
    ((box ∈ created params env t ∧ box.isWithdrawalRequestBox = false ∧ box.id = id) ∨ t.before.closedBox id = some box)

theorem boxes_effect {t : Transition σ τ} (ht : t.Accepted params env) (hs : Stored t.before)
    (hnew : NewIds t.before (created params env t)) : BoxesEffect params env t := by
  obtain ⟨info, consensusEpoch, happlied⟩ := applyModifier_ok ht.byState
  have hopens := block_opens (validate_ok happlied.epoch_eq happlied.info_eq happlied.validated)
  have hafter := boxesAfter_of_applied happlied
  unfold created at hnew
  rw [happlied.getWithdrawalEpochInfo_eq] at hnew
  have hstored := stored_after hafter hs hnew
  refine ⟨hstored, hopens.nodup, hopens.found, ?_⟩
  intro id box
  unfold created
  rw [happlied.getWithdrawalEpochInfo_eq]
  exact hafter.closedBox hs hstored hnew id box

/-- a box of the state after a block is one that it has appended, or was there -/
theorem mem_after (h : BoxesAfter params env s mod s' info) (hs : Stored s)
    (hnew : NewIds s (appended params env s mod info)) {id : BoxId} {box : Box} (hbox : s'.closedBox id = some box) :
    box ∈ appended params env s mod info ∨ s.closedBox id = some box := by
  rcases ((h.closedBox hs (stored_after h hs hnew) hnew id box).1 hbox).2 with ⟨hmem, -⟩ | hold
  · exact .inl hmem
  · exact .inr hold

/-- the fees of the epoch with the one of the block are paid now, or still pending -/
theorem pendingFees_after (happlied : Applied params env s mod s' info consensusEpoch)
    (hpending : pendingFees params s = ((s.contents.blockFeeInfos info.epoch).map BlockFeeInfo.fee).sum)
    (hfit : FeesFit (s.contents.blockFeeInfos info.epoch ++ [mod.feeInfo])) :
    pendingFees params s' + ((if isEpochLastIndex info params.withdrawalEpochLength then
        s.getFeePayments env info.epoch (some mod.feeInfo) else []).map coinsValue).sum =
      pendingFees params s + mod.feeInfo.fee := by
  rw [hpending]
  unfold pendingFees
  rw [happlied.getWithdrawalEpochInfo_eq, (blockFeeInfos_after happlied info.epoch).2]
  by_cases hlast : isEpochLastIndex info params.withdrawalEpochLength
  · rw [if_pos hlast, if_pos hlast, zero_add, (sum_payments hfit).2]
  · rw [if_neg hlast, if_neg hlast]
    simp

theorem feesFit_of_supply (hs : Sound params s) (hmax : supply params s < 2 ^ 63) (hblock : BlockBalanced s mod)
    (hpending : pendingFees params s = ((s.contents.blockFeeInfos info.epoch).map BlockFeeInfo.fee).sum) :
    FeesFit (s.contents.blockFeeInfos info.epoch ++ [mod.feeInfo]) := by
  have hfee_le := hblock.fee_le
  refine ⟨?_, ?_⟩
  · intro x hx
    rcases List.mem_append.1 hx with hx | hx
    · exact hs.fees_nonneg _ x hx
    · rw [List.mem_singleton.1 hx]
      exact hblock.fee_nonneg
  · unfold supply at hmax
    simp only [List.map_append, List.sum_append, List.map_cons, List.map_nil, List.sum_cons, List.sum_nil]
    omega

/-- **One block.** The supply changes by what comes from the mainchain and what is withdrawn. -/
theorem supply_effect (hL : 0 < params.withdrawalEpochLength) {t : Transition σ τ} (ht : t.Accepted params env)
    (hs : Sound params t.before) (hmax : supply params t.before < 2 ^ 63) (hfit : AmountsFit t.block)
    (hnew : NewIds t.before (created params env t)) :
    Sound params t.after ∧ supply params t.after + withdrawn t.block = supply params t.before + transferred t.block := by
  obtain ⟨info, consensusEpoch, happlied⟩ := applyModifier_ok ht.byState
  have hvalid := validate_ok happlied.epoch_eq happlied.info_eq happlied.validated
  have hpending := pendingFees_before hs (epoch_cases hL ht.byHistory happlied.info_eq)
  have hpending_nonneg := pendingFees_nonneg hs
  unfold created at hnew
  rw [happlied.getWithdrawalEpochInfo_eq] at hnew
  have hblock := block_balanced hs (by unfold supply at hmax; omega) hfit hvalid
  have hafter := boxesAfter_of_applied happlied
  have hcoins := coins_after hafter hs hnew (block_opens hvalid)
  have hfees := feesFit_of_supply hs hmax hblock hpending
  have hfees_after := pendingFees_after happlied hpending hfees
  refine ⟨⟨stored_after hafter hs.toStored hnew, ?_, ?_, step_feesInv hL ht hs.feesInv⟩, ?_⟩
  · intro id box hbox
    rcases mem_after hafter hs.toStored hnew hbox with hmem | hold
    · rw [appended_eq] at hmem
      rcases List.mem_append.1 hmem with hmem | hmem
      · exact hblock.values box hmem
      · split_ifs at hmem
        · exact (sum_payments hfees).1 box hmem
        · cases hmem
    · exact hs.coins_nonneg id box hold
  · intro e x hx
    rcases (blockFeeInfos_after happlied e).1 x hx with hx | rfl
    · exact hs.fees_nonneg e x hx
    · exact hblock.fee_nonneg
  · have hbalance := hblock.balance
    rw [appended_eq, List.map_append, List.sum_append] at hcoins
    unfold supply
    omega

/-! ## Runs -/

/-- the state after the last block -/
def lastState : SidechainState σ τ → List (Transition σ τ) → SidechainState σ τ
  | start, [] => start
  | _, t :: ts => lastState t.after ts

/-- the new boxes of all blocks -/
def createdIn (params : NetworkParams) (env : Externals σ τ) (ts : List (Transition σ τ)) : List Box :=
  ts.flatMap (created params env)

/-- the ids of all boxes that are opened -/
def spentIn (ts : List (Transition σ τ)) : List BoxId := ts.flatMap spent

def transferredIn (ts : List (Transition σ τ)) : ℤ := (ts.map fun t => transferred t.block).sum

def withdrawnIn (ts : List (Transition σ τ)) : ℤ := (ts.map fun t => withdrawn t.block).sum

theorem NewIds.append_left {boxes boxes' : List Box} (h : NewIds s (boxes ++ boxes')) : NewIds s boxes := by
  refine ⟨?_, fun box hbox => h.fresh box (List.mem_append_left _ hbox)⟩
  exact h.nodup.sublist ((List.sublist_append_left _ _).map _)

/-- ids that are new for the whole run are new after the first block -/
theorem NewIds.after {t : Transition σ τ} {boxes : List Box} (heffect : BoxesEffect params env t)
    (h : NewIds t.before (created params env t ++ boxes)) : NewIds t.after boxes := by
  have hnodup := h.nodup
  rw [List.map_append, List.nodup_append] at hnodup
  obtain ⟨-, hboxes, hdisjoint⟩ := hnodup
  refine ⟨hboxes, ?_⟩
  intro box hbox
  rw [Option.eq_none_iff_forall_ne_some]
  intro box' hbox'
  rcases ((heffect.closedBox _ _).1 hbox').2 with ⟨hmem, -, hid⟩ | hold
  · exact hdisjoint _ (List.mem_map_of_mem hmem) _ (List.mem_map_of_mem hbox) hid
  · rw [h.fresh box (List.mem_append_right _ hbox)] at hold
    cases hold

/-- what a run does to the boxes -/
structure RunEffect (params : NetworkParams) (env : Externals σ τ) (start : SidechainState σ τ)
    (ts : List (Transition σ τ)) :
    Prop where
  stored : Stored (lastState start ts)
  nodup : (spentIn ts).Nodup
  origin : ∀ id ∈ spentIn ts, start.closedBox id ≠ none ∨
    ∃ box ∈ createdIn params env ts, box.isWithdrawalRequestBox = false ∧ box.id = id
  closedBox : ∀ id box, (lastState start ts).closedBox id = some box ↔ id ∉ spentIn ts ∧
    ((box ∈ createdIn params env ts ∧ box.isWithdrawalRequestBox = false ∧ box.id = id) ∨ start.closedBox id = some box)

/-- what the first block opens is not there after it, and it is not created again -/
theorem not_spent_again {t : Transition σ τ} {ts : List (Transition σ τ)} (heffect : BoxesEffect params env t)
    (hnew : NewIds t.before (created params env t ++ createdIn params env ts)) (hrun : RunEffect params env t.after ts)
    {id : BoxId} (hid : id ∈ spent t) : id ∉ spentIn ts ∧ ∀ box ∈ createdIn params env ts, box.id ≠ id := by
  have hcreated : ∀ box ∈ createdIn params env ts, box.id ≠ id := by
    rintro box hbox rfl
    exact heffect.found _ hid (hnew.fresh box (List.mem_append_right _ hbox))
  refine ⟨?_, hcreated⟩
  intro hagain
  rcases hrun.origin id hagain with hthere | ⟨box, hbox, -, heq⟩
  · obtain ⟨box, hbox⟩ := Option.ne_none_iff_exists'.1 hthere
    exact ((heffect.closedBox id box).1 hbox).1 hid
  · exact hcreated box hbox heq

/-- by induction on the blocks: the first one leaves the state in which the others begin -/
theorem run_effect {start : SidechainState σ τ} {ts : List (Transition σ τ)} (hs : Stored start)
    (hrun : Run params env start ts) (hnew : NewIds start (createdIn params env ts)) : RunEffect params env start ts := by
  induction ts generalizing start with
  | nil => exact ⟨hs, List.nodup_nil, by simp [spentIn], by simp [lastState, spentIn, createdIn]⟩
  | cons t ts ih =>
    obtain ⟨rfl, haccepted, hrest⟩ := hrun
    change NewIds t.before (created params env t ++ createdIn params env ts) at hnew
    have heffect := boxes_effect haccepted hs hnew.append_left
    have hafter := ih heffect.stored hrest (hnew.after heffect)
    have hspent : spentIn (t :: ts) = spent t ++ spentIn ts := rfl
    have hcreated : createdIn params env (t :: ts) = created params env t ++ createdIn params env ts := rfl
    refine ⟨hafter.stored, ?_, ?_, ?_⟩
    · rw [hspent, List.nodup_append]
      refine ⟨heffect.nodup, hafter.nodup, ?_⟩
      rintro id hid _ hid' rfl
      exact (not_spent_again heffect hnew hafter hid).1 hid'
    · intro id hid
      rw [hspent] at hid
      rcases List.mem_append.1 hid with hid | hid
      · exact .inl (heffect.found id hid)
      · rw [hcreated]
        rcases hafter.origin id hid with hthere | ⟨box, hbox, hkind, heq⟩
        · obtain ⟨box, hbox⟩ := Option.ne_none_iff_exists'.1 hthere
          rcases ((heffect.closedBox id box).1 hbox).2 with ⟨hmem, hkind, heq⟩ | hold
          · exact .inr ⟨box, List.mem_append_left _ hmem, hkind, heq⟩
          · exact .inl (by simp [hold])
        · exact .inr ⟨box, List.mem_append_right _ hbox, hkind, heq⟩
    · intro id box
      rw [hspent, hcreated, List.mem_append, List.mem_append, not_or]
      refine (hafter.closedBox id box).trans ?_
      rw [heffect.closedBox]
      constructor
      · rintro ⟨hlater, ⟨hmem, hkind, heq⟩ | ⟨hfirst, ⟨hmem, hkind, heq⟩ | hold⟩⟩
        · exact ⟨⟨fun hid => (not_spent_again heffect hnew hafter hid).2 box hmem heq, hlater⟩,
            .inl ⟨.inr hmem, hkind, heq⟩⟩
        · exact ⟨⟨hfirst, hlater⟩, .inl ⟨.inl hmem, hkind, heq⟩⟩
        · exact ⟨⟨hfirst, hlater⟩, .inr hold⟩
      · rintro ⟨⟨hfirst, hlater⟩, ⟨hmem | hmem, hkind, heq⟩ | hold⟩
        · exact ⟨hlater, .inr ⟨hfirst, .inl ⟨hmem, hkind, heq⟩⟩⟩
        · exact ⟨hlater, .inl ⟨hmem, hkind, heq⟩⟩
        · exact ⟨hlater, .inr ⟨hfirst, .inr hold⟩⟩

theorem run_append {start : SidechainState σ τ} {ts ts' : List (Transition σ τ)} :
    Run params env start (ts ++ ts') ↔ Run params env start ts ∧ Run params env (lastState start ts) ts' := by
  induction ts generalizing start with
  | nil => simp [Run, lastState]
  | cons t ts ih =>
    simp only [List.cons_append, Run, lastState, ih, and_assoc]

/-- **Boxes over a run.** From a state with its boxes under their ids, in every run of accepted blocks whose new boxes have new
ids: the boxes that can be opened at the end are those that were there or have been created (withdrawal requests are not
boxes of the state), and have not been opened. No box is opened twice. A box that a block opens was there at the beginning
or has been created by a block before it, and has not been opened before. -/
theorem boxes_after_run {start : SidechainState σ τ} {ts : List (Transition σ τ)} (hs : Stored start)
    (hrun : Run params env start ts) (hnew : NewIds start (createdIn params env ts)) :
    (∀ id box, (lastState start ts).closedBox id = some box ↔ id ∉ spentIn ts ∧
        ((box ∈ createdIn params env ts ∧ box.isWithdrawalRequestBox = false ∧ box.id = id) ∨
          start.closedBox id = some box)) ∧
      (spentIn ts).Nodup ∧
      ∀ pre t post, ts = pre ++ t :: post → ∀ id ∈ spent t, id ∉ spentIn pre ∧
        (start.closedBox id ≠ none ∨ ∃ box ∈ createdIn params env pre, box.isWithdrawalRequestBox = false ∧
          box.id = id) := by
  have heffect := run_effect hs hrun hnew
  refine ⟨heffect.closedBox, heffect.nodup, ?_⟩
  rintro pre t post rfl id hid
  obtain ⟨hpre, hbefore, haccepted, -⟩ := run_append.1 hrun
  have hcreated : createdIn params env (pre ++ t :: post) =
      createdIn params env pre ++ (created params env t ++ createdIn params env post) := by
    unfold createdIn
    rw [List.flatMap_append, List.flatMap_cons]
  rw [hcreated] at hnew
  have hearlier := run_effect hs hpre hnew.append_left
  obtain ⟨info, consensusEpoch, happlied⟩ := applyModifier_ok haccepted.byState
  have hfound := (block_opens (validate_ok happlied.epoch_eq happlied.info_eq happlied.validated)).found id hid
  rw [hbefore] at hfound
  obtain ⟨box, hbox⟩ := Option.ne_none_iff_exists'.1 hfound
  obtain ⟨hunspent, ⟨hmem, hkind, heq⟩ | hold⟩ := (hearlier.closedBox id box).1 hbox
  · exact ⟨hunspent, .inr ⟨box, hmem, hkind, heq⟩⟩
  · exact ⟨hunspent, .inl (by simp [hold])⟩

/-! A sidechain with 500 coins of its creation gets 100 more. A transaction of epoch 0 withdraws 60 of them and pays a fee of
10, which the last block of the epoch turns into a box; one of the next epoch pays 2. -/

def sampleBlocks : List SidechainBlock :=
  [sampleGenesis, ⟨2, 1, 1, 7, [sampleReference 2 [.forwardTransfer 2 0 7 100]], [], 0⟩,
    ⟨3, 2, 2, 7, [], [⟨9, .other, 100, [⟨2, 7⟩], [⟨5, 0, 7, 30, .zen⟩, ⟨6, 1, 8, 60, .withdrawalRequest⟩], 10⟩],
      0⟩,
    ⟨4, 3, 3, 7, [sampleReference 3 []], [], 7558273⟩,
    ⟨5, 4, 4, 8, [sampleReference 4 []], [⟨10, .other, 100, [⟨5, 7⟩], [⟨11, 0, 7, 28, .zen⟩], 2⟩], 0⟩]

def sampleRun : List (Transition Unit Unit) := sampleTransitions sampleState sampleBlocks

theorem sampleRun_accepted : Run sampleParams sampleExternals sampleState sampleRun := by
  apply sampleTransitions_run
  simp only [sampleBlocks, sampleTransitions, List.forall_mem_cons, List.not_mem_nil, false_implies, implies_true, and_true]
  exact ⟨⟨.inr ⟨rfl, rfl⟩, rfl⟩, ⟨.inl rfl, rfl⟩, ⟨.inl rfl, by decide +kernel⟩,
    ⟨.inl (by decide +kernel), by decide +kernel⟩,
    ⟨.inl (by decide +kernel), by decide +kernel⟩⟩

/-- a state without boxes and fees is sound -/
theorem sound_of_empty (hcontents : s.contents = .empty) (hforgers : s.forgerBoxStorage.current = ∅) : Sound params s := by
  refine ⟨⟨?_, ?_, ?_⟩, ?_, ?_, ⟨?_, ?_⟩⟩ <;>
    simp [SidechainState.closedBox, SidechainState.getWithdrawalEpochInfo, hcontents, hforgers, StateContents.empty]

theorem sampleState_sound : Sound sampleParams sampleState := sound_of_empty rfl rfl

theorem sampleRun_newIds : NewIds sampleState (createdIn sampleParams sampleExternals sampleRun) :=
  ⟨by decide +kernel, fun _ _ => rfl⟩

/-- box 2 is opened in the block after the one that creates it, and box 6 is no box of the state -/
theorem boxes_after_sampleRun :
    (lastState sampleState sampleRun).closedBox 2 ≠ some ⟨2, 0, 7, 100, .zen⟩ ∧
      (lastState sampleState sampleRun).closedBox 11 = some ⟨11, 0, 7, 28, .zen⟩ := by
  obtain ⟨hboxes, -, -⟩ := boxes_after_run sampleState_sound.toStored sampleRun_accepted sampleRun_newIds
  refine ⟨?_, ?_⟩
  · intro h
    exact ((hboxes _ _).1 h).1 (by decide +kernel)
  · exact (hboxes _ _).2 ⟨by decide +kernel, .inl ⟨by decide +kernel, rfl, rfl⟩⟩

/-- the supply stays a `Long` for every part of the run: what the mainchain has brought, less what was withdrawn -/
def SupplyFits (params : NetworkParams) (start : SidechainState σ τ) (ts : List (Transition σ τ)) : Prop :=
  ∀ pre, pre <+: ts → supply params start + transferredIn pre - withdrawnIn pre < 2 ^ 63

/-- **Coins over a run.** In every run of accepted blocks from a sound state, with new boxes under new ids, amounts of the
mainchain that are not negative and fees that are `Long`s, as long as what came from the mainchain less what was withdrawn
is a `Long`: the coins in the boxes and the fees not paid yet are those of the beginning and what came from the mainchain,
less what was withdrawn. The state is sound again, so no amount and no recorded fee has become negative. -/
theorem coins_conserved (hL : 0 < params.withdrawalEpochLength) {start : SidechainState σ τ} {ts : List (Transition σ τ)}
    (hs : Sound params start) (hrun : Run params env start ts) (hnew : NewIds start (createdIn params env ts))
    (hfit : ∀ t ∈ ts, AmountsFit t.block) (hmax : SupplyFits params start ts) :
    Sound params (lastState start ts) ∧
      coins (lastState start ts) + pendingFees params (lastState start ts) + withdrawnIn ts =
        coins start + pendingFees params start + transferredIn ts := by
  induction ts generalizing start with
  | nil => exact ⟨hs, rfl⟩
  | cons t ts ih =>
    obtain ⟨rfl, haccepted, hrest⟩ := hrun
    change NewIds t.before (created params env t ++ createdIn params env ts) at hnew
    obtain ⟨hfit, hfits⟩ := List.forall_mem_cons.1 hfit
    have hstart : supply params t.before < 2 ^ 63 := by simpa [transferredIn, withdrawnIn] using hmax [] List.nil_prefix
    obtain ⟨hafter, hsupply⟩ := supply_effect hL haccepted hs hstart hfit hnew.append_left
    have hmax' : SupplyFits params t.after ts := by
      intro pre hpre
      have hcons := hmax (t :: pre) (List.prefix_cons_inj t |>.2 hpre)
      simp only [transferredIn, withdrawnIn, List.map_cons, List.sum_cons] at hcons ⊢
      omega
    obtain ⟨hsound, hrun⟩ := ih hafter hrest (hnew.after (boxes_effect haccepted hs.toStored hnew.append_left)) hfits hmax'
    refine ⟨hsound, ?_⟩
    unfold supply at hsupply
    simp only [transferredIn, withdrawnIn, List.map_cons, List.sum_cons, lastState] at hrun ⊢
    omega

theorem sampleRun_amounts : ∀ t ∈ sampleRun, AmountsFit t.block := by
  have hblocks : ∀ mod ∈ sampleBlocks, (∀ tx ∈ mod.mainchainBlockReferencesData.filterMap
      MainchainBlockReferenceData.sidechainRelatedAggregatedTransaction, ∀ box ∈ (BoxTransaction.aggregated tx).newBoxes,
        0 ≤ box.value) ∧
        ∀ tx ∈ mod.sidechainTransactions, tx.fee < 2 ^ 63 := by
    decide +kernel
  have hmem : sampleRun.map Transition.block = sampleBlocks := rfl
  intro t ht
  have hblock := hblocks t.block (hmem ▸ List.mem_map_of_mem ht)
  exact ⟨hblock.1, hblock.2⟩

/-- 540 coins are in boxes or pending -/
theorem coins_of_sampleRun :
    coins (lastState sampleState sampleRun) + pendingFees sampleParams (lastState sampleState sampleRun) + 60 = 600 := by
  have hmax : ∀ pre ∈ sampleRun.inits,
      supply sampleParams sampleState + transferredIn pre - withdrawnIn pre < 2 ^ 63 := by
    decide +kernel
  exact (coins_conserved (by decide) sampleState_sound sampleRun_accepted sampleRun_newIds sampleRun_amounts
    fun pre hpre => hmax pre ((List.mem_inits pre _).2 hpre)).2

end SidechainsSdk.Utxo.CoinConservation
