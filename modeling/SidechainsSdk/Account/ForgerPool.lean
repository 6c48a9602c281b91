/-
The mainchain forger pool and the block counters it is shared by (`AccountStateView.getMcForgerPoolRewards`,
`updateForgerBlockCounter`, `subtractForgerPoolBalanceAndResetBlockCounters`, as `AccountState.applyModifier` calls them).

Every block counts for its forger. At the end of a withdrawal epoch the balance of the pool address, up to a cap, is shared
in proportion to the counters. The comment on `getFeePaymentsInfo` says that the counters are always reset after that; the
reset stands in the branch for a positive balance of the pool.

- `beforeRewards`, `evalForgersReward`, `applyModifier`: a block, from the state view to the commit of the metadata.
- `run`: blocks from genesis, with what the rewards of each were computed from.
- `Carried`: the counters are those of the current epoch on top of what was carried over into it.
- `counters_cover_epoch_iff`: the counters at the end of an epoch are the blocks of that epoch exactly if the pool was not
  empty at the end of the epoch before.
- `empty_pool_leaks_counters`: two epochs, the pool empty at the end of the first.

The counters are `Long` in the source and integers here: they stay below the number of blocks. Their sum is taken as a `Long`.
The history has validated a block before the state applies it; the
epoch info of its parent is the same in both. Mainchain data and transactions are one parameter, `applyContents`.
-/
import Mathlib.Tactic
import SidechainsSdk.Core.MachineInt
import SidechainsSdk.Account.MetadataStorage
import SidechainsSdk.Withdrawals.Epochs

namespace SidechainsSdk.Account.ForgerPool

open FeePayments MetadataStorage

/-! ## State and blocks -/

/-- `WellKnownAddresses.FORGER_POOL_RECIPIENT_ADDRESS` -/
def FORGER_POOL_RECIPIENT_ADDRESS : Address := 0x33333333333333333333

abbrev Balances := Address → ℤ

structure State where
  metadata : Storage
  balances : Balances
  -- of the stake storage
  getForgerInfo : ForgerPublicKeys → Option ForgerInfo

/-- references and transactions are in `body`, the consensus epoch is that of the timestamp -/
structure AccountBlock (TX : Type) where
  id : Hash
  body : Withdrawals.Block TX
  consensusEpochNumber : ℤ
  forgerAddress : Address
  -- of `header.forgingStakeInfo`
  forgerKeys : ForgerPublicKeys
  feePaymentsHash : Octets

/-- what the mainchain data and the transactions of a block leave on the view -/
structure Outcome where
  balances : Balances
  cumBaseFee : ℤ
  cumForgerTips : ℤ
  topQualityCertificate : Option (ℤ × Octets)
  hasCeased : Bool
  receipts : List (Hash × Octets)
  getForgerInfo : ForgerPublicKeys → Option ForgerInfo

structure Env (TX : Type) where
  withdrawalEpochLength : ℕ
  sidechainGenesisBlockId : Hash
  mainchainCreationBlockHeight : ℤ
  mcHalvingInterval : ℤ
  isForkV1_2Active : ℤ → Bool
  isForkV1_4Active : ℤ → Bool
  -- iteration of the counters and of the payments grouped by address
  countersOrder : HashOrder (ForgerIdentifier × ℤ)
  paymentsOrder : HashOrder (Address × List AccountPayment)
  applyContents : State → AccountBlock TX → Except Exc Outcome
  calculateFeePaymentsHash : List AccountPayment → Octets
  -- logs bloom, receipts root, gas used and state root against the header
  verifyConsistency : AccountBlock TX → Outcome → Balances → Except Exc Unit
  accountStateRoot : Balances → Octets
  calculateNextBaseFee : AccountBlock TX → ℤ

/-- `AccountStateView`: the metadata with the updates of the block, and the balances -/
structure StateView where
  metadata : Storage
  view : View
  balances : Balances

/-! ## The view -/

namespace StateView

def addBalance (balances : Balances) (address : Address) (amount : ℤ) : Except Exc Balances :=
  if amount.sign = 0 then .ok balances
  else if amount.sign < 0 then .error (.executionFailed "cannot add negative amount to balance")
  else .ok (Function.update balances address (balances address + amount))

def subBalance (balances : Balances) (address : Address) (amount : ℤ) : Except Exc Balances :=
  if amount.sign = 0 then .ok balances
  else if amount.sign < 0 then .error (.executionFailed "cannot subtract negative amount from balance")
  else .ok (Function.update balances address (balances address - amount))

def getForgerBlockCountersFromStorage (s : Storage) : BlockCounters :=
  match s.data .forgerBlockCounters with
  | some (.blockCounters counters) => counters
  | _ => ∅

def getForgerBlockCounters (v : StateView) : BlockCounters :=
  v.view.forgerBlockCountersOpt.getD (getForgerBlockCountersFromStorage v.metadata)

variable {TX : Type} (env : Env TX)

def updateForgerBlockCounter (v : StateView) (forgerKey : ForgerIdentifier) (consensusEpochNumber : ℤ) : StateView :=
  if env.isForkV1_2Active consensusEpochNumber then
    let counters := v.getForgerBlockCounters
    let existingCount := (counters.lookup forgerKey).getD 0
    { v with view.forgerBlockCountersOpt := some (counters.insert forgerKey (existingCount + 1)) }
  else v

/-- the rewards in the order of the block counts; the remainder goes to the first ones, at most one wei a block -/
def poolRewards (perBlockFee : ℤ) : ℤ → List (ForgerIdentifier × ℤ) → List (ForgerIdentifier × ℤ)
  | _, [] => []
  | remainder, (forgerKey, blocks) :: rest =>
    let usedRemainder := min remainder blocks
    (forgerKey, perBlockFee * blocks + usedRemainder) :: poolRewards perBlockFee (remainder - usedRemainder) rest

def getMcForgerPoolRewards (v : StateView) (consensusEpochNumber distributionCap : ℤ) : Except Exc PoolRewards :=
  if env.isForkV1_2Active consensusEpochNumber then
    let extraForgerReward := v.balances FORGER_POOL_RECIPIENT_ADDRESS
    if extraForgerReward.sign = 1 then
      let availableReward := min extraForgerReward distributionCap
      let counters := v.getForgerBlockCounters.entries.map fun entry => (entry.1, entry.2)
      -- `counters.values.sum`
      let blocks := MachineInt.longOf (counters.map Prod.snd).sum
      if blocks = 0 then .error (.other "BigInteger divide by zero")
      else
        let sorted := (env.countersOrder.iterate counters).insertionSort fun a b => a.2 ≤ b.2
        let rewards := poolRewards (availableReward.tdiv blocks) (availableReward.tmod blocks) sorted
        .ok (rewards.map fun reward => (⟨reward.1, reward.2⟩ : Sigma fun _ : ForgerIdentifier => ℤ)).toAList
    else .ok ∅
  else .ok ∅

/-- the payments, what of the pool they distribute, and the view with the records of both -/
def getFeePaymentsInfo (v : StateView) (getForgerInfo : ForgerPublicKeys → Option ForgerInfo)
    (withdrawalEpoch consensusEpochNumber distributionCap : ℤ) (blockToAppendFeeInfo : Option AccountBlockFeeInfo) :
    Except Exc (List AccountPayment × ℤ × StateView) := do
  let recorded ← getFeePayments v.metadata v.view withdrawalEpoch
  let blockFeeInfoSeq := recorded ++ blockToAppendFeeInfo.toList
  let mcForgerPoolRewards ← getMcForgerPoolRewards env v consensusEpochNumber distributionCap
  let poolBalanceDistributed := (mcForgerPoolRewards.entries.map Sigma.snd).foldl (fun a b => a + b) 0
  let view := { v.view with mcForgerPoolRewardsOpt := some mcForgerPoolRewards }
  let forgerRewards := getForgersRewards blockFeeInfoSeq mcForgerPoolRewards
  if env.isForkV1_4Active consensusEpochNumber then
    let shares := getForgersAndDelegatorsShares getForgerInfo forgerRewards
    return (groupAllPaymentsByAddress env.paymentsOrder shares.1 shares.2, poolBalanceDistributed,
      { v with view := updateForgerDelegatorPayments view shares.2 consensusEpochNumber })
  else
    return (forgerRewards.map fun fp => ⟨fp.identifier.address, fp.value, none, none⟩, poolBalanceDistributed,
      { v with view })

def subtractForgerPoolBalanceAndResetBlockCounters (v : StateView) (consensusEpochNumber poolBalanceDistributed : ℤ) :
    Except Exc StateView :=
  if env.isForkV1_2Active consensusEpochNumber then do
    let forgerPoolBalance := v.balances FORGER_POOL_RECIPIENT_ADDRESS
    Fallible.failIf (poolBalanceDistributed > forgerPoolBalance) (.illegalArgument
      s!"Trying to subtract more({poolBalanceDistributed}) from the forger pool balance than available({forgerPoolBalance})")
    if forgerPoolBalance.sign = 1 then
      let balances ← subBalance v.balances FORGER_POOL_RECIPIENT_ADDRESS poolBalanceDistributed
      return { v with balances, view.forgerBlockCountersOpt := some ∅ }
    else return v
  else .ok v

end StateView

open StateView

/-! ## Applying a block -/

section Apply

variable {TX : Type} (env : Env TX)

def DEFAULT_ACCOUNT_FEE_PAYMENTS_HASH : Octets := env.calculateFeePaymentsHash []

/-- the mainchain reward of a block at the height, in zennies: 12.5 coins, halved -/
def mainchainReward (height : ℤ) : ℤ :=
  (fun reward => reward / 2)^[(height.tdiv env.mcHalvingInterval).toNat] 1250000000

/-- a tenth of what the mainchain pays in the withdrawal epoch, in wei -/
def getMainchainWithdrawalEpochDistributionCap (epochMaxHeight : ℤ) : ℤ :=
  let heights := (List.range env.withdrawalEpochLength).map fun i : ℕ => epochMaxHeight - env.withdrawalEpochLength + i
  let mcEpochRewardZennies := heights.foldl (fun sum height => sum + mainchainReward env height) 0
  (convertZenniesToWei mcEpochRewardZennies).tdiv 10

def distributionCap (consensusEpochNumber withdrawalEpoch : ℤ) : ℤ :=
  if env.isForkV1_4Active consensusEpochNumber then
    getMainchainWithdrawalEpochDistributionCap env
      (env.mainchainCreationBlockHeight + (withdrawalEpoch + 1) * env.withdrawalEpochLength - 1)
  else MAX_MONEY_IN_WEI

/-- the stored epoch info, as `WithdrawalEpochUtils` takes it -/
def epochInfo (s : Storage) : Withdrawals.WithdrawalEpochInfo :=
  let stored := getWithdrawalEpochInfo s {}
  ⟨stored.epoch, stored.lastEpochIndex.toNat⟩

/-- the forger of a block, as it is counted and paid -/
def forgerIdentifier (b : AccountBlock TX) : ForgerIdentifier :=
  ⟨b.forgerAddress, if env.isForkV1_4Active b.consensusEpochNumber then some b.forgerKeys else none⟩

/-- a block up to the rewards: its epoch info, what its contents have done, and the view with the block counted -/
def beforeRewards (s : State) (b : AccountBlock TX) :
    Except Exc (Withdrawals.WithdrawalEpochInfo × Outcome × StateView) := do
  Fallible.failIf (MetadataStorage.hasCeased s.metadata = true)
    (.other "Can't apply Block, because the sidechain has ceased.")
  let info ← (Withdrawals.WithdrawalEpochUtils.getWithdrawalEpochInfo b.body.mainchainBlockReferencesData.length
    (epochInfo s.metadata) env.withdrawalEpochLength).mapError .illegalArgument
  let outcome ← env.applyContents s b
  let identifier := forgerIdentifier env b
  let view : View :=
    { hasCeasedOpt := if outcome.hasCeased then some true else none
      withdrawalEpochInfoOpt := some ⟨info.epoch, info.lastEpochIndex⟩
      topQualityCertificateOpt := outcome.topQualityCertificate
      lastCertificateReferencedEpochOpt := outcome.topQualityCertificate.map Prod.fst
      lastCertificateSidechainBlockIdOpt := outcome.topQualityCertificate.map fun _ => b.id
      consensusEpochOpt := some b.consensusEpochNumber
      blockFeeInfoOpt := some ⟨outcome.cumBaseFee, outcome.cumForgerTips, identifier.address, identifier.forgerKeys⟩ }
  let counted := updateForgerBlockCounter env ⟨s.metadata, view, outcome.balances⟩ identifier b.consensusEpochNumber
  return (info, outcome, counted)

/-- the rewards, in the last block of a withdrawal epoch -/
def evalForgersReward (b : AccountBlock TX) (info : Withdrawals.WithdrawalEpochInfo) (outcome : Outcome)
    (v : StateView) : Except Exc StateView :=
  if Withdrawals.WithdrawalEpochUtils.isEpochLastIndex info env.withdrawalEpochLength then do
    let (feePayments, poolBalanceDistributed, v) ← getFeePaymentsInfo env v outcome.getForgerInfo info.epoch
      b.consensusEpochNumber (distributionCap env b.consensusEpochNumber info.epoch) none
    Fallible.failIf (b.feePaymentsHash ≠ env.calculateFeePaymentsHash feePayments)
      (.illegalArgument "computed feePaymentsHash is different from the one in the block")
    let v ← subtractForgerPoolBalanceAndResetBlockCounters env v b.consensusEpochNumber poolBalanceDistributed
    let balances ← feePayments.foldlM (fun balances payment => addBalance balances payment.address payment.value) v.balances
    return { v with balances }
  else do
    Fallible.failIf (b.feePaymentsHash ≠ DEFAULT_ACCOUNT_FEE_PAYMENTS_HASH env)
      (.illegalArgument "feePaymentsHash defined when no fee payments expected")
    return v

/-- the checks against the header, and the commit -/
def commit (b : AccountBlock TX) (outcome : Outcome) (v : StateView) : Except Exc State := do
  env.verifyConsistency b outcome v.balances
  let view := { v.view with
    receiptsOpt := some outcome.receipts
    nextBaseFeeOpt := some (env.calculateNextBaseFee b)
    accountStateRootOpt := some (env.accountStateRoot v.balances) }
  let metadata ← saveToStorage v.metadata view b.id false
  return ⟨metadata, v.balances, outcome.getForgerInfo⟩

def applyModifier (s : State) (b : AccountBlock TX) : Except Exc State := do
  let (info, outcome, v) ← beforeRewards env s b
  let v ← evalForgersReward env b info outcome v
  commit env b outcome v

/-- `WithdrawalEpochValidator.validate`; of the genesis block only the number of references is looked at here -/
def validate (s : State) (b : AccountBlock TX) : Except Exc Unit :=
  if b.id = env.sidechainGenesisBlockId then
    Fallible.failIf (b.body.mainchainBlockReferencesData.length ≠ 1)
      (.illegalArgument "genesis block should contain single MC block reference.")
  else
    (Withdrawals.WithdrawalEpochValidator.validateBlock env.withdrawalEpochLength b.body
      (some (epochInfo s.metadata))).mapError .illegalArgument

/-- a block of a run, with what its rewards are computed from -/
structure Applied where
  forger : ForgerIdentifier
  info : Withdrawals.WithdrawalEpochInfo
  -- the balance of the pool and the counters when the rewards are computed
  pool : ℤ
  counters : BlockCounters

def processBlock (s : State) (b : AccountBlock TX) : Except Exc (Applied × State) := do
  validate env s b
  let (info, _, v) ← beforeRewards env s b
  let s' ← applyModifier env s b
  return (⟨forgerIdentifier env b, info, v.balances FORGER_POOL_RECIPIENT_ADDRESS, v.getForgerBlockCounters⟩, s')

/-- the blocks, newest first, on a storage that holds nothing yet -/
def run (balances : Balances) : List (AccountBlock TX) → Except Exc (List Applied × State)
  | [] => .ok ([], ⟨emptyStorage, balances, fun _ => none⟩)
  | b :: older => do
    let (past, s) ← run balances older
    let (applied, s') ← processBlock env s b
    return (applied :: past, s')

/-- the block is the last one of its withdrawal epoch -/
def Applied.Ends (a : Applied) : Prop :=
  Withdrawals.WithdrawalEpochUtils.isEpochLastIndex a.info env.withdrawalEpochLength = true

instance (a : Applied) : Decidable (a.Ends env) := inferInstanceAs (Decidable (_ = true))

end Apply

/-- the blocks of a forger in a withdrawal epoch -/
def forgedIn (past : List Applied) (epoch : ℤ) (forger : ForgerIdentifier) : ℤ :=
  past.countP fun a => a.info.epoch = epoch ∧ a.forger = forger

/-- the count for a forger, zero if it has none -/
def countOf (counters : BlockCounters) (forger : ForgerIdentifier) : ℤ := (counters.lookup forger).getD 0

/-! ## One block -/

section Block

variable {TX : Type} {env : Env TX} (hfork : ∀ consensusEpoch, env.isForkV1_2Active consensusEpoch = true)
include hfork

theorem updateForgerBlockCounter_eq (v : StateView) (forger : ForgerIdentifier) (consensusEpoch : ℤ) :
    updateForgerBlockCounter env v forger consensusEpoch = { v with
      view.forgerBlockCountersOpt := some (v.getForgerBlockCounters.insert forger
        (countOf v.getForgerBlockCounters forger + 1)) } := by
  rw [updateForgerBlockCounter, if_pos (hfork _)]
  rfl

omit hfork in
theorem countOf_insert (counters : BlockCounters) (forger k : ForgerIdentifier) :
    countOf (counters.insert forger (countOf counters forger + 1)) k =
      countOf counters k + if k = forger then 1 else 0 := by
  by_cases hk : k = forger
  · subst hk
    simp [countOf]
  · simp [countOf, hk, AList.lookup_insert_ne hk]

/-- the view on which the rewards are computed -/
theorem beforeRewards_ok {s : State} {b : AccountBlock TX} {info : Withdrawals.WithdrawalEpochInfo} {outcome : Outcome}
    {v : StateView} (h : beforeRewards env s b = .ok (info, outcome, v)) :
    Withdrawals.WithdrawalEpochUtils.getWithdrawalEpochInfo b.body.mainchainBlockReferencesData.length
        (epochInfo s.metadata) env.withdrawalEpochLength = .ok info ∧
      v.metadata = s.metadata ∧ v.view.withdrawalEpochInfoOpt = some ⟨info.epoch, info.lastEpochIndex⟩ ∧
      v.view.forgerBlockCountersOpt = some v.getForgerBlockCounters ∧
      ∀ k, countOf v.getForgerBlockCounters k = countOf (getForgerBlockCountersFromStorage s.metadata) k +
        if k = forgerIdentifier env b then 1 else 0 := by
  unfold beforeRewards at h
  simp only [Fallible.failIf_bind_ok] at h
  obtain ⟨info', hinfo, h⟩ := Fallible.bind_ok h.2
  obtain ⟨outcome', -, h⟩ := Fallible.bind_ok h
  rw [updateForgerBlockCounter_eq hfork] at h
  injection h with h
  injection h with hi h
  injection h with ho hv
  subst hi ho hv
  refine ⟨?_, rfl, rfl, rfl, ?_⟩
  · cases hget : Withdrawals.WithdrawalEpochUtils.getWithdrawalEpochInfo b.body.mainchainBlockReferencesData.length
      (epochInfo s.metadata) env.withdrawalEpochLength with
    | error e =>
      rw [hget] at hinfo
      cases hinfo
    | ok i =>
      rw [hget] at hinfo
      injection hinfo with hinfo
      rw [hinfo]
  · intro k
    exact countOf_insert _ _ _

omit hfork in
theorem getFeePaymentsInfo_ok {v v' : StateView} {getForgerInfo : ForgerPublicKeys → Option ForgerInfo}
    {withdrawalEpoch consensusEpoch cap distributed : ℤ} {payments : List AccountPayment}
    (h : getFeePaymentsInfo env v getForgerInfo withdrawalEpoch consensusEpoch cap none =
      .ok (payments, distributed, v')) :
    v'.metadata = v.metadata ∧ v'.balances = v.balances ∧
      v'.view.withdrawalEpochInfoOpt = v.view.withdrawalEpochInfoOpt ∧
      v'.view.forgerBlockCountersOpt = v.view.forgerBlockCountersOpt := by
  unfold getFeePaymentsInfo at h
  obtain ⟨recorded, -, h⟩ := Fallible.bind_ok h
  obtain ⟨rewards, -, h⟩ := Fallible.bind_ok h
  split_ifs at h with hdelegators
  · injection h with h
    injection h with _ h
    injection h with _ hv
    subst hv
    exact ⟨rfl, rfl, rfl, rfl⟩
  · injection h with h
    injection h with _ h
    injection h with _ hv
    subst hv
    exact ⟨rfl, rfl, rfl, rfl⟩

/-- the counters are reset where the pool has a positive balance, and only there -/
theorem subtractAndReset_ok {v v' : StateView} {consensusEpoch distributed : ℤ}
    (h : subtractForgerPoolBalanceAndResetBlockCounters env v consensusEpoch distributed = .ok v') :
    v'.metadata = v.metadata ∧ v'.view.withdrawalEpochInfoOpt = v.view.withdrawalEpochInfoOpt ∧
      v'.view.forgerBlockCountersOpt =
        if 0 < v.balances FORGER_POOL_RECIPIENT_ADDRESS then some ∅ else v.view.forgerBlockCountersOpt := by
  simp only [subtractForgerPoolBalanceAndResetBlockCounters, hfork, if_true, Fallible.failIf_bind_ok,
    Int.sign_eq_one_iff_pos] at h
  obtain ⟨-, h⟩ := h
  split_ifs at h with hpool
  · obtain ⟨balances, -, h⟩ := Fallible.bind_ok h
    injection h with h
    subst h
    exact ⟨rfl, rfl, (if_pos hpool).symm⟩
  · injection h with h
    subst h
    exact ⟨rfl, rfl, (if_neg hpool).symm⟩

theorem evalForgersReward_ok {b : AccountBlock TX} {info : Withdrawals.WithdrawalEpochInfo} {outcome : Outcome}
    {v v' : StateView} (h : evalForgersReward env b info outcome v = .ok v') :
    v'.metadata = v.metadata ∧ v'.view.withdrawalEpochInfoOpt = v.view.withdrawalEpochInfoOpt ∧
      v'.view.forgerBlockCountersOpt =
        if info.lastEpochIndex = env.withdrawalEpochLength ∧ 0 < v.balances FORGER_POOL_RECIPIENT_ADDRESS then some ∅
        else v.view.forgerBlockCountersOpt := by
  unfold evalForgersReward at h
  simp only [Withdrawals.WithdrawalEpochUtils.isEpochLastIndex, decide_eq_true_eq] at h
  split_ifs at h with hlast
  · obtain ⟨⟨payments, distributed, v₁⟩, hinfo, h⟩ := Fallible.bind_ok h
    simp only [Fallible.failIf_bind_ok] at h
    obtain ⟨v₂, hreset, h⟩ := Fallible.bind_ok h.2
    obtain ⟨balances, -, h⟩ := Fallible.bind_ok h
    injection h with h
    subst h
    obtain ⟨hmetadata₁, hbalances₁, hepoch₁, hcounters₁⟩ := getFeePaymentsInfo_ok hinfo
    obtain ⟨hmetadata₂, hepoch₂, hcounters₂⟩ := subtractAndReset_ok hfork hreset
    refine ⟨hmetadata₂.trans hmetadata₁, hepoch₂.trans hepoch₁, ?_⟩
    show v₂.view.forgerBlockCountersOpt = _
    rw [hcounters₂, hbalances₁, hcounters₁]
    simp [hlast]
  · simp only [Fallible.failIf_bind_ok] at h
    injection h.2 with h
    subst h
    exact ⟨rfl, rfl, by simp [hlast]⟩

omit hfork in
/-- the commit writes the epoch info and the counters of the view -/
theorem commit_ok {b : AccountBlock TX} {outcome : Outcome} {v : StateView} {s' : State}
    (h : commit env b outcome v = .ok s') {info : Withdrawals.WithdrawalEpochInfo} {counters : BlockCounters}
    (hinfo : v.view.withdrawalEpochInfoOpt = some ⟨info.epoch, info.lastEpochIndex⟩)
    (hcounters : v.view.forgerBlockCountersOpt = some counters) :
    epochInfo s'.metadata = info ∧ getForgerBlockCountersFromStorage s'.metadata = counters := by
  unfold commit at h
  obtain ⟨⟨⟩, -, h⟩ := Fallible.bind_ok h
  obtain ⟨metadata, hsave, h⟩ := Fallible.bind_ok h
  injection h with h
  subst h
  have hepoch := saveToStorage_data (k := .withdrawalEpochInformation)
    (x := .withdrawalEpochInfo ⟨info.epoch, info.lastEpochIndex⟩) hsave rfl (by simp [updateList, hinfo])
    (by simp [Key.place])
  have hcount := saveToStorage_data (k := .forgerBlockCounters) (x := .blockCounters counters) hsave rfl
    (by simp [updateList, hcounters]) (by simp [Key.place])
  constructor
  · simp [epochInfo, getWithdrawalEpochInfo, getWithdrawalEpochInfoFromStorage, hepoch]
  · simp [getForgerBlockCountersFromStorage, hcount]

/-- what one block of a run does to the epoch and to the counters -/
structure Counted (env : Env TX) (s : State) (a : Applied) (s' : State) : Prop where
  epoch : a.info.epoch = if (epochInfo s.metadata).lastEpochIndex = env.withdrawalEpochLength
    then (epochInfo s.metadata).epoch + 1 else (epochInfo s.metadata).epoch
  index_le : a.info.lastEpochIndex ≤ env.withdrawalEpochLength
  info : epochInfo s'.metadata = a.info
  used : ∀ k, countOf a.counters k = countOf (getForgerBlockCountersFromStorage s.metadata) k + if k = a.forger then 1 else 0
  kept : getForgerBlockCountersFromStorage s'.metadata =
    if a.Ends env ∧ 0 < a.pool then ∅ else a.counters

omit hfork in
/-- the validator lets a block into the epoch of its parent, or into the next one after a parent that ended it -/
theorem validate_epoch {s : State} {b : AccountBlock TX} (h : validate env s b = .ok ())
    {info : Withdrawals.WithdrawalEpochInfo}
    (hinfo : Withdrawals.WithdrawalEpochUtils.getWithdrawalEpochInfo b.body.mainchainBlockReferencesData.length
      (epochInfo s.metadata) env.withdrawalEpochLength = .ok info)
    (hindex : (epochInfo s.metadata).lastEpochIndex ≤ env.withdrawalEpochLength) :
    info.epoch = (if (epochInfo s.metadata).lastEpochIndex = env.withdrawalEpochLength
      then (epochInfo s.metadata).epoch + 1 else (epochInfo s.metadata).epoch) ∧
      info.lastEpochIndex ≤ env.withdrawalEpochLength := by
  unfold validate at h
  split_ifs at h with hgenesis
  · -- the one reference of the genesis block does not lead beyond the end of an epoch
    have hone : b.body.mainchainBlockReferencesData.length = 1 := by simpa using h
    have hsize := Withdrawals.getWithdrawalEpochInfo_ok hinfo
    rw [hone] at hinfo hsize
    by_cases hlast : (epochInfo s.metadata).lastEpochIndex = env.withdrawalEpochLength
    · rw [Withdrawals.getWithdrawalEpochInfo_next hlast hsize] at hinfo
      injection hinfo with hinfo
      subst hinfo
      exact ⟨(if_pos hlast).symm, hsize⟩
    · have hbefore : (epochInfo s.metadata).lastEpochIndex + 1 ≤ env.withdrawalEpochLength := by omega
      rw [Withdrawals.getWithdrawalEpochInfo_same hlast hbefore] at hinfo
      injection hinfo with hinfo
      subst hinfo
      exact ⟨(if_neg hlast).symm, hbefore⟩
  · have hvalid : Withdrawals.WithdrawalEpochValidator.validateBlock env.withdrawalEpochLength b.body
        (some (epochInfo s.metadata)) = .ok () := by
      cases hcheck : Withdrawals.WithdrawalEpochValidator.validateBlock env.withdrawalEpochLength b.body
          (some (epochInfo s.metadata)) with
      | error e =>
        rw [hcheck] at h
        cases h
      | ok u => rfl
    have haccepted : (⟨epochInfo s.metadata, b.body, info⟩ : Withdrawals.Step TX).Accepted env.withdrawalEpochLength :=
      ⟨hvalid, hinfo⟩
    exact ⟨haccepted.epoch, haccepted.index_le⟩

/-- **One block.** -/
theorem processBlock_counted {s s' : State} {b : AccountBlock TX} {a : Applied}
    (h : processBlock env s b = .ok (a, s'))
    (hindex : (epochInfo s.metadata).lastEpochIndex ≤ env.withdrawalEpochLength) : Counted env s a s' := by
  unfold processBlock at h
  obtain ⟨⟨⟩, hvalid, h⟩ := Fallible.bind_ok h
  obtain ⟨⟨info, outcome, v⟩, hbefore, h⟩ := Fallible.bind_ok h
  obtain ⟨s₁, happly, h⟩ := Fallible.bind_ok h
  injection h with h
  injection h with ha hs
  subst ha hs
  obtain ⟨hinfo, hmetadata, hview, hcounters, hused⟩ := beforeRewards_ok hfork hbefore
  rw [applyModifier, hbefore] at happly
  have happly' : (evalForgersReward env b info outcome v >>= commit env b outcome) = .ok s₁ := happly
  obtain ⟨v', heval, hcommit⟩ := Fallible.bind_ok happly'
  obtain ⟨-, hepoch', hcounters'⟩ := evalForgersReward_ok hfork heval
  obtain ⟨hepoch, hindex'⟩ := validate_epoch hvalid hinfo hindex
  have hstored : v'.view.forgerBlockCountersOpt = some (if info.lastEpochIndex = env.withdrawalEpochLength ∧
      0 < v.balances FORGER_POOL_RECIPIENT_ADDRESS then ∅ else v.getForgerBlockCounters) := by
    rw [hcounters', hcounters]
    split_ifs <;> rfl
  obtain ⟨hinfo', hkept⟩ := commit_ok hcommit (hepoch'.trans hview) hstored
  refine ⟨hepoch, hindex', hinfo', hused, ?_⟩
  rw [hkept]
  simp [Applied.Ends, Withdrawals.WithdrawalEpochUtils.isEpochLastIndex]

end Block

/-! ## Runs -/

section Runs

variable {TX : Type} {env : Env TX}

theorem forgedIn_cons (a : Applied) (past : List Applied) (epoch : ℤ) (k : ForgerIdentifier) :
    forgedIn (a :: past) epoch k = forgedIn past epoch k + if a.info.epoch = epoch ∧ a.forger = k then 1 else 0 := by
  simp only [forgedIn, List.countP_cons, decide_eq_true_eq]
  split_ifs <;> simp

theorem forgedIn_eq_zero {past : List Applied} {epoch : ℤ} (h : ∀ a ∈ past, a.info.epoch < epoch)
    (k : ForgerIdentifier) : forgedIn past epoch k = 0 := by
  have hnone : past.countP (fun a => a.info.epoch = epoch ∧ a.forger = k) = 0 := by
    refine List.countP_eq_zero.2 ?_
    intro a ha hcond
    have := h a ha
    simp only [decide_eq_true_eq] at hcond
    omega
  rw [forgedIn, hnone]
  rfl

/-- the epoch of the next block -/
def nextEpoch (env : Env TX) (s : State) : ℤ :=
  if (epochInfo s.metadata).lastEpochIndex = env.withdrawalEpochLength then (epochInfo s.metadata).epoch + 1
  else (epochInfo s.metadata).epoch

/-- the pool was not empty at the end of the epoch before -/
def PoolBefore (env : Env TX) (past : List Applied) (epoch : ℤ) : Prop :=
  ∀ a ∈ past, a.Ends env → a.info.epoch + 1 = epoch → 0 < a.pool

/-- the counters are the blocks of the current epoch on top of what was carried over into it, which is nothing exactly if
the pool was not empty then -/
structure Carried (env : Env TX) (past : List Applied) (s : State) : Prop where
  index_le : (epochInfo s.metadata).lastEpochIndex ≤ env.withdrawalEpochLength
  epoch_le : ∀ a ∈ past, a.info.epoch ≤ nextEpoch env s
  ended : ∀ a ∈ past, a.Ends env → a.info.epoch < nextEpoch env s
  counters : ∃ carried : ForgerIdentifier → ℤ, (∀ k, 0 ≤ carried k) ∧
    ((∀ k, carried k = 0) ↔ PoolBefore env past (nextEpoch env s)) ∧
    ∀ k, countOf (getForgerBlockCountersFromStorage s.metadata) k = carried k + forgedIn past (nextEpoch env s) k

theorem carried_genesis (balances : Balances) : Carried env [] ⟨emptyStorage, balances, fun _ => none⟩ where
  index_le := Nat.zero_le _
  epoch_le := by simp
  ended := by simp
  counters := by
    refine ⟨fun _ => 0, fun _ => le_rfl, ?_, ?_⟩
    · simp [PoolBefore]
    · intro k
      simp [forgedIn, countOf, getForgerBlockCountersFromStorage, emptyStorage]

section Step

variable {past : List Applied} {s s' : State} {a : Applied}

theorem Counted.epoch_eq (h : Counted env s a s') : a.info.epoch = nextEpoch env s := h.epoch

theorem Counted.next_of_ends (h : Counted env s a s') (hends : a.Ends env) :
    nextEpoch env s' = a.info.epoch + 1 := by
  have hlast : a.info.lastEpochIndex = env.withdrawalEpochLength := by
    simpa [Applied.Ends, Withdrawals.WithdrawalEpochUtils.isEpochLastIndex] using hends
  rw [nextEpoch, h.info, if_pos hlast]

theorem Counted.next_of_not_ends (h : Counted env s a s') (hends : ¬ a.Ends env) :
    nextEpoch env s' = a.info.epoch := by
  have hlast : a.info.lastEpochIndex ≠ env.withdrawalEpochLength := by
    simpa [Applied.Ends, Withdrawals.WithdrawalEpochUtils.isEpochLastIndex] using hends
  rw [nextEpoch, h.info, if_neg hlast]

/-- the counters that the rewards of a block are computed from -/
theorem Counted.used_eq (h : Counted env s a s') {carried : ForgerIdentifier → ℤ}
    (hcounters : ∀ k, countOf (getForgerBlockCountersFromStorage s.metadata) k =
      carried k + forgedIn past (nextEpoch env s) k) (k : ForgerIdentifier) :
    countOf a.counters k = carried k + forgedIn (a :: past) a.info.epoch k := by
  have hcond : (a.info.epoch = a.info.epoch ∧ a.forger = k) ↔ k = a.forger := by simp [eq_comm]
  calc countOf a.counters k
      = carried k + forgedIn past (nextEpoch env s) k + (if k = a.forger then 1 else 0) := by
        rw [h.used k, hcounters k]
    _ = carried k + (forgedIn past a.info.epoch k + if k = a.forger then 1 else 0) := by rw [h.epoch_eq, add_assoc]
    _ = carried k + forgedIn (a :: past) a.info.epoch k := by rw [forgedIn_cons, if_congr hcond rfl rfl]

/-- inside an epoch nothing more is carried over -/
theorem Carried.inside (h : Carried env past s) (hstep : Counted env s a s') (hends : ¬ a.Ends env) :
    Carried env (a :: past) s' := by
  have hnext := hstep.next_of_not_ends hends
  have hepoch := hstep.epoch_eq
  refine ⟨hstep.info ▸ hstep.index_le, ?_, ?_, ?_⟩
  · rintro c (_ | ⟨_, hc⟩)
    · exact hnext.ge
    · have := h.epoch_le c hc
      omega
  · rintro c (_ | ⟨_, hc⟩) hcends
    · exact absurd hcends hends
    · have := h.ended c hc hcends
      omega
  · obtain ⟨carried, hnonneg, hzero, hcounters⟩ := h.counters
    refine ⟨carried, hnonneg, ?_, ?_⟩
    · rw [hzero, hnext, ← hepoch]
      simp [PoolBefore, hends]
    · intro k
      have hkept : getForgerBlockCountersFromStorage s'.metadata = a.counters := by
        rw [hstep.kept, if_neg (fun hboth => hends hboth.1)]
      rw [hkept, hnext]
      exact hstep.used_eq hcounters k

/-- at the end of an epoch everything is carried over, or nothing -/
theorem Carried.atEnd (h : Carried env past s) (hstep : Counted env s a s') (hends : a.Ends env) :
    Carried env (a :: past) s' := by
  have hnext := hstep.next_of_ends hends
  have hepoch := hstep.epoch_eq
  have hbefore : ∀ c ∈ a :: past, c.info.epoch < nextEpoch env s' := by
    rintro c (_ | ⟨_, hc⟩)
    · omega
    · have := h.epoch_le c hc
      omega
  obtain ⟨carried, hnonneg, hzero, hcounters⟩ := h.counters
  refine ⟨hstep.info ▸ hstep.index_le, fun c hc => (hbefore c hc).le, fun c hc _ => hbefore c hc, ?_⟩
  by_cases hpool : 0 < a.pool
  · have hkept : getForgerBlockCountersFromStorage s'.metadata = ∅ := by
      rw [hstep.kept, if_pos ⟨hends, hpool⟩]
    refine ⟨fun _ => 0, fun _ => le_rfl, ?_, ?_⟩
    · refine iff_of_true (fun _ => rfl) ?_
      rintro c (_ | ⟨_, hc⟩) hcends hcnext
      · exact hpool
      · -- no earlier block has ended the same epoch
        have := h.ended c hc hcends
        omega
    · intro k
      rw [hkept, forgedIn_eq_zero hbefore]
      simp [countOf]
  · have hkept : getForgerBlockCountersFromStorage s'.metadata = a.counters := by
      rw [hstep.kept, if_neg (fun hboth => hpool hboth.2)]
    refine ⟨countOf a.counters, ?_, ?_, ?_⟩
    · intro k
      rw [hstep.used_eq hcounters k]
      exact add_nonneg (hnonneg k) (Int.natCast_nonneg _)
    · refine iff_of_false ?_ ?_
      · -- the block itself has been counted
        intro hall
        have hown := hall a.forger
        rw [hstep.used_eq hcounters, forgedIn_cons, if_pos ⟨rfl, rfl⟩] at hown
        have hcarried := hnonneg a.forger
        have hforged : 0 ≤ forgedIn past a.info.epoch a.forger := Int.natCast_nonneg _
        omega
      · intro hall
        exact hpool (hall a List.mem_cons_self hends (by omega))
    · intro k
      rw [hkept, forgedIn_eq_zero hbefore, add_zero]

theorem Carried.step (h : Carried env past s) (hstep : Counted env s a s') : Carried env (a :: past) s' := by
  by_cases hends : a.Ends env
  · exact h.atEnd hstep hends
  · exact h.inside hstep hends

end Step

theorem run_cons_ok {balances : Balances} {b : AccountBlock TX} {older : List (AccountBlock TX)}
    {r : List Applied × State} (h : run env balances (b :: older) = .ok r) :
    ∃ past s a s', run env balances older = .ok (past, s) ∧ processBlock env s b = .ok (a, s') ∧ r = (a :: past, s') := by
  unfold run at h
  obtain ⟨⟨past, s⟩, hpast, h⟩ := Fallible.bind_ok h
  obtain ⟨⟨a, s'⟩, hblock, h⟩ := Fallible.bind_ok h
  injection h with h
  exact ⟨past, s, a, s', hpast, hblock, h.symm⟩

theorem run_carried (hfork : ∀ consensusEpoch, env.isForkV1_2Active consensusEpoch = true) (balances : Balances)
    (blocks : List (AccountBlock TX)) {past : List Applied} {s : State}
    (h : run env balances blocks = .ok (past, s)) : Carried env past s := by
  induction blocks generalizing past s with
  | nil =>
    injection h with h
    injection h with hpast hs
    subst hpast hs
    exact carried_genesis balances
  | cons b older ih =>
    obtain ⟨past', s', a, s'', hpast, hblock, hr⟩ := run_cons_ok h
    injection hr with hp hs
    subst hp hs
    have hbefore := ih hpast
    exact hbefore.step (processBlock_counted hfork hblock hbefore.index_le)

/-- **The counters of an epoch.** In every run with fork 1.2 active from the start and at every block, the last of a
withdrawal epoch in particular, the counters that rewards are computed from are the blocks of that epoch exactly if the
pool was not empty at the end of the epoch before. -/
theorem counters_cover_epoch_iff (hfork : ∀ consensusEpoch, env.isForkV1_2Active consensusEpoch = true)
    (balances : Balances) (blocks : List (AccountBlock TX)) (a : Applied) (past : List Applied) (s : State)
    (hrun : run env balances blocks = .ok (a :: past, s)) :
    (∀ k, countOf a.counters k = forgedIn (a :: past) a.info.epoch k) ↔
      ∀ c ∈ past, c.Ends env → c.info.epoch + 1 = a.info.epoch → 0 < c.pool := by
  cases blocks with
  | nil => cases hrun
  | cons b older =>
    obtain ⟨past', s', a', s'', hpast, hblock, hr⟩ := run_cons_ok hrun
    injection hr with hp hs
    injection hp with ha hp
    subst ha hp hs
    have hbefore := run_carried hfork balances older hpast
    have hstep := processBlock_counted hfork hblock hbefore.index_le
    obtain ⟨carried, -, hzero, hcounters⟩ := hbefore.counters
    have hused := hstep.used_eq hcounters
    calc (∀ k, countOf a.counters k = forgedIn (a :: past) a.info.epoch k)
        ↔ ∀ k, carried k = 0 := forall_congr' fun k => by rw [hused k]; exact add_eq_right
      _ ↔ PoolBefore env past (nextEpoch env s') := hzero
      _ ↔ _ := by rw [← hstep.epoch_eq]; exact Iff.rfl

end Runs

/-- a pool that gets a forward transfer of 100 wei in block 2, epochs of two mainchain blocks -/
def sampleEnv : Env Unit where
  withdrawalEpochLength := 2
  sidechainGenesisBlockId := 0
  mainchainCreationBlockHeight := 1000
  mcHalvingInterval := 840000
  isForkV1_2Active := fun _ => true
  isForkV1_4Active := fun _ => false
  countersOrder := .insertion _
  paymentsOrder := .insertion _
  applyContents := fun s b =>
    let received := if b.id = 2 then 100 else 0
    let balances := fun address =>
      if address = FORGER_POOL_RECIPIENT_ADDRESS then s.balances address + received else s.balances address
    .ok ⟨balances, 0, 0, none, false, [], fun _ => none⟩
  calculateFeePaymentsHash := fun payments => List.replicate payments.length 1
  verifyConsistency := fun _ _ _ => .ok ()
  accountStateRoot := fun _ => []
  calculateNextBaseFee := fun _ => 0

def sampleBlock (id : Hash) (references : ℕ) (forgerAddress : Address) (feePaymentsHash : Octets) : AccountBlock Unit :=
  ⟨id, ⟨"", List.replicate references ⟨none⟩, []⟩, 0, forgerAddress, ⟨0, 0, 0⟩, feePaymentsHash⟩

/-- address 1 forges the two blocks of epoch 0, address 2 the block of epoch 1 -/
def sampleBlocks : List (AccountBlock Unit) :=
  [sampleBlock 2 2 2 [1, 1], sampleBlock 1 1 1 [1], sampleBlock 0 1 1 []]

/-- what holds of the last block of a run and the blocks before it -/
def lastBlock (p : Applied → List Applied → Bool) : Except Exc (List Applied × State) → Bool
  | .ok (a :: past, _) => p a past
  | _ => false

theorem lastBlock_spec {p : Applied → List Applied → Bool} {x : Except Exc (List Applied × State)}
    (h : lastBlock p x = true) : ∃ a past s, x = .ok (a :: past, s) ∧ p a past = true := by
  unfold lastBlock at h
  split at h
  · exact ⟨_, _, _, rfl, h⟩
  · cases h

/-- the pool has a balance at the end of epoch 0 as well, and the counters of epoch 1 are its blocks -/
theorem counters_cover_second_epoch : ∃ a past s,
    run sampleEnv (fun _ => 7) [sampleBlock 2 2 2 [1], sampleBlock 1 1 1 [1], sampleBlock 0 1 1 []] =
      .ok (a :: past, s) ∧ a.Ends sampleEnv ∧ past.length = 2 ∧
      ∀ k, countOf a.counters k = forgedIn (a :: past) a.info.epoch k := by
  have hlast : lastBlock (fun a past => a.Ends sampleEnv ∧ past.length = 2 ∧
        ∀ c ∈ past, c.Ends sampleEnv → c.info.epoch + 1 = a.info.epoch → 0 < c.pool)
      (run sampleEnv (fun _ => 7) [sampleBlock 2 2 2 [1], sampleBlock 1 1 1 [1], sampleBlock 0 1 1 []]) = true := by
    decide +kernel
  obtain ⟨a, past, s, hrun, hp⟩ := lastBlock_spec hlast
  obtain ⟨hends, hlength, hpool⟩ := of_decide_eq_true hp
  exact ⟨a, past, s, hrun, hends, hlength,
    (counters_cover_epoch_iff (fun _ => rfl) (fun _ => 7) _ a past s hrun).2 hpool⟩

/-- the pool is empty at the end of epoch 0 and has a balance at the end of epoch 1: address 1 is counted with two blocks
in epoch 1, where it has forged none, and is paid for them -/
theorem empty_pool_leaks_counters : ∃ a past s,
    run sampleEnv (fun _ => 0) sampleBlocks = .ok (a :: past, s) ∧ a.Ends sampleEnv ∧ a.info.epoch = 1 ∧ a.pool = 100 ∧
      countOf a.counters ⟨1, none⟩ = 2 ∧ forgedIn (a :: past) a.info.epoch ⟨1, none⟩ = 0 ∧
      s.balances 1 = 66 ∧ s.balances 2 = 34 := by
  have hlast : lastBlock (fun a past => a.Ends sampleEnv ∧ a.info.epoch = 1 ∧ a.pool = 100 ∧
      countOf a.counters ⟨1, none⟩ = 2 ∧ forgedIn (a :: past) a.info.epoch ⟨1, none⟩ = 0)
      (run sampleEnv (fun _ => 0) sampleBlocks) = true := by
    decide +kernel
  have hpaid : (run sampleEnv (fun _ => 0) sampleBlocks).toOption.map (fun r => (r.2.balances 1, r.2.balances 2)) =
      some (66, 34) := by
    decide +kernel
  obtain ⟨a, past, s, hrun, hp⟩ := lastBlock_spec hlast
  obtain ⟨hends, hepoch, hpool, hused, hforged⟩ := of_decide_eq_true hp
  rw [hrun] at hpaid
  injection hpaid with hpaid
  injection hpaid with hfirst hsecond
  exact ⟨a, past, s, hrun, hends, hepoch, hpool, hused, hforged, hfirst, hsecond⟩

end SidechainsSdk.Account.ForgerPool
