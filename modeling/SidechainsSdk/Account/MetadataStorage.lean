/-
Metadata of the account state (`AccountStateMetadataStorageView`) and the ledger of delegator rewards in it.

A block is applied on a view: the new values are collected, and a commit writes them in one batch. The batch is a list of
key and value pairs, and `VersionedLevelDbStorageAdapter.update` refuses a batch with a repeated key. At the end of a
withdrawal epoch the rewards of the epoch are distributed, and for every delegator payment the batch gets an entry for the
keys of the forger and the consensus epoch: the stored reward plus this payment.

- `saveToStorage`, `update`: the batch, and how it is written.
- `applyBlock`, `run`: the metadata side of `AccountState.applyModifier`; a block that throws changes nothing.
- `DistinctForgers`: no two identifiers of a distribution share the keys of a forger that gives a share to its delegators.
- `applyBlock_reward`: one block then adds its payments to the ledger; `ledger_complete`: so does every run.
- `ledger_loses_shared_keys`: a forger that has used two reward addresses in the epoch; the block cannot be applied.

Keys are hashes of distinct texts and are taken as distinct. The rewards of the mainchain pool, the forgers registered in
the stake contract and the receipts of a block come with the block: they do not depend on the ledger.
-/
import Mathlib.Tactic
import SidechainsSdk.Account.FeePayments
import SidechainsSdk.Account.GasPool
import SidechainsSdk.Core.Fallible

namespace SidechainsSdk.Account.MetadataStorage

open FeePayments

/-! ## Storage -/

structure WithdrawalEpochInfo where
  epoch : ℤ
  lastEpochIndex : ℤ
deriving DecidableEq

abbrev Hash := BitVec 256

abbrev BlockCounters := AList fun _ : ForgerIdentifier => ℤ

inductive Key where
  | ceasingState
  | height
  | withdrawalEpochInformation
  | consensusEpoch
  | accountStateRoot
  | baseFee
  | topQualityCertificate (referencedWithdrawalEpoch : ℤ)
  | lastCertificateEpochNumber
  | lastCertificateSidechainBlockId
  | blockFeeInfoCounter (withdrawalEpochNumber : ℤ)
  | blockFeeInfo (withdrawalEpochNumber counter : ℤ)
  | forgerBlockCounters
  | mcForgerPoolRewards
  | receipt (txHash : Hash)
  | forgerRewards (forgerKeys : ForgerPublicKeys) (consensusEpochNumber : ℤ)
deriving DecidableEq

/-- stored values, before serialisation -/
inductive Value where
  | int (n : ℤ)
  | bigInteger (n : ℤ)
  | bytes (b : Octets)
  | hash (h : Hash)
  | withdrawalEpochInfo (info : WithdrawalEpochInfo)
  | blockFeeInfo (info : AccountBlockFeeInfo)
  | blockCounters (counters : BlockCounters)
  | poolRewards (rewards : PoolRewards)

structure Storage where
  data : Key → Option Value
  versions : List Hash

/-- the writes of a batch, in order -/
def putAll (data : Key → Option Value) (toUpdate : List (Key × Value)) : Key → Option Value :=
  toUpdate.foldl (fun data entry => Function.update data entry.1 (some entry.2)) data

def removeAll (data : Key → Option Value) (toRemove : List Key) : Key → Option Value :=
  toRemove.foldl (fun data key => Function.update data key none) data

/-- `VersionedLevelDbStorageAdapter.update`; a version is never the hash of a key -/
def update (s : Storage) (version : Hash) (toUpdate : List (Key × Value)) (toRemove : List Key) : Except Exc Storage :=
  if ¬ (toUpdate.map Prod.fst).Nodup then
    .error (.illegalArgument "requirement failed: duplicate key in `toUpdate`")
  else if ¬ toRemove.Nodup then .error (.illegalArgument "requirement failed: duplicate key in `toRemove`")
  else if version ∈ s.versions then
    .error (.illegalArgument "requirement failed: Version is already exist in storage")
  else .ok ⟨removeAll (putAll s.data toUpdate) toRemove, version :: s.versions⟩

/-! ## The view -/

structure View where
  hasCeasedOpt : Option Bool := none
  withdrawalEpochInfoOpt : Option WithdrawalEpochInfo := none
  -- the epoch of the certificate and its bytes
  topQualityCertificateOpt : Option (ℤ × Octets) := none
  lastCertificateReferencedEpochOpt : Option ℤ := none
  lastCertificateSidechainBlockIdOpt : Option Hash := none
  blockFeeInfoOpt : Option AccountBlockFeeInfo := none
  consensusEpochOpt : Option ℤ := none
  forgerBlockCountersOpt : Option BlockCounters := none
  mcForgerPoolRewardsOpt : Option PoolRewards := none
  accountStateRootOpt : Option Octets := none
  receiptsOpt : Option (List (Hash × Octets)) := none
  nextBaseFeeOpt : Option ℤ := none
  delegatorPaymentsSeq : List (Key × ℤ) := []

def getWithdrawalEpochInfoFromStorage (s : Storage) : Option WithdrawalEpochInfo :=
  match s.data .withdrawalEpochInformation with
  | some (.withdrawalEpochInfo info) => some info
  | _ => none

def getWithdrawalEpochInfo (s : Storage) (v : View) : WithdrawalEpochInfo :=
  (v.withdrawalEpochInfoOpt.or (getWithdrawalEpochInfoFromStorage s)).getD ⟨0, 0⟩

def getBlockFeeInfoCounter (s : Storage) (withdrawalEpochNumber : ℤ) : ℤ :=
  match s.data (.blockFeeInfoCounter withdrawalEpochNumber) with
  | some (.int n) => n
  | _ => -1

/-- `0 to n` -/
def rangeTo (n : ℤ) : List ℤ := (List.range (n + 1).toNat).map fun i : ℕ => (i : ℤ)

def getBlockFeeInfo (s : Storage) (withdrawalEpochNumber counter : ℤ) : Except Exc AccountBlockFeeInfo :=
  match s.data (.blockFeeInfo withdrawalEpochNumber counter) with
  | some (.blockFeeInfo info) => .ok info
  | some _ => .error (.other "Error while fee payment parsing.")
  | none => .error (.other "Error while fee payments retrieving: record expected to exist.")

def getFeePayments (s : Storage) (v : View) (withdrawalEpochNumber : ℤ) : Except Exc (List AccountBlockFeeInfo) := do
  let blockFees ← (rangeTo (getBlockFeeInfoCounter s withdrawalEpochNumber)).mapM (getBlockFeeInfo s withdrawalEpochNumber)
  return if (getWithdrawalEpochInfo s v).epoch = withdrawalEpochNumber then blockFees ++ v.blockFeeInfoOpt.toList
    else blockFees

/-- the stored reward, or zero -/
def getForgerReward (s : Storage) (forgerRewardsKey : Key) : ℤ :=
  match s.data forgerRewardsKey with
  | some (.bigInteger n) => n
  | _ => 0

def getForgerRewards (s : Storage) (forgerPublicKeys : ForgerPublicKeys) (consensusEpochStart : ℤ)
    (maxNumOfEpochs : ℕ) : List ℤ :=
  (List.range maxNumOfEpochs).map fun epoch : ℕ =>
    getForgerReward s (.forgerRewards forgerPublicKeys (consensusEpochStart + epoch))

def updateForgerDelegatorPayments (v : View) (delegatorPayments : List DelegatorFeePayment) (consensusEpochNumber : ℤ) :
    View :=
  { v with delegatorPaymentsSeq := delegatorPayments.map fun delegatorPayment =>
      (.forgerRewards delegatorPayment.forgerKeys consensusEpochNumber, delegatorPayment.feePayment.value) }

def getConsensusEpochNumberFromStorage (s : Storage) : Option ℤ :=
  match s.data .consensusEpoch with
  | some (.int n) => some n
  | _ => none

def getHeight (s : Storage) : ℤ :=
  match s.data .height with
  | some (.int n) => n
  | _ => 0

/-- the updates of a commit other than the rewards; every entry of the view has keys of its own -/
def updateList (s : Storage) (v : View) (accountStateRoot : Octets) (isGenesisParent : Bool) : List (Key × Value) :=
  v.withdrawalEpochInfoOpt.toList.map (fun info => (Key.withdrawalEpochInformation, Value.withdrawalEpochInfo info)) ++
  v.topQualityCertificateOpt.toList.map (fun cert => (Key.topQualityCertificate cert.1, Value.bytes cert.2)) ++
  v.lastCertificateReferencedEpochOpt.toList.map (fun epoch => (Key.lastCertificateEpochNumber, Value.int epoch)) ++
  v.lastCertificateSidechainBlockIdOpt.toList.map (fun id => (Key.lastCertificateSidechainBlockId, Value.hash id)) ++
  v.blockFeeInfoOpt.toList.flatMap (fun info =>
    let epoch := (getWithdrawalEpochInfo s v).epoch
    let next := getBlockFeeInfoCounter s epoch + 1
    [(Key.blockFeeInfoCounter epoch, Value.int next), (Key.blockFeeInfo epoch next, Value.blockFeeInfo info)]) ++
  v.consensusEpochOpt.toList.flatMap (fun epoch =>
    if (getConsensusEpochNumberFromStorage s).getD 0 ≠ epoch then [(Key.consensusEpoch, Value.int epoch)] else []) ++
  v.forgerBlockCountersOpt.toList.map (fun counters => (Key.forgerBlockCounters, Value.blockCounters counters)) ++
  v.mcForgerPoolRewardsOpt.toList.map (fun rewards => (Key.mcForgerPoolRewards, Value.poolRewards rewards)) ++
  [(Key.accountStateRoot, Value.bytes accountStateRoot)] ++
  v.hasCeasedOpt.toList.map (fun _ => (Key.ceasingState, Value.bytes [])) ++
  (if isGenesisParent then [] else [(Key.height, Value.int (getHeight s + 1))]) ++
  (v.receiptsOpt.getD []).map (fun r => (Key.receipt r.1, Value.bytes r.2)) ++
  v.nextBaseFeeOpt.toList.map (fun baseFee => (Key.baseFee, Value.bigInteger baseFee))

/-- the reward entries: every one starts from the stored value -/
def rewardUpdates (s : Storage) (v : View) : List (Key × Value) :=
  v.delegatorPaymentsSeq.map fun (key, value) => (key, .bigInteger (getForgerReward s key + value))

/-- the clean-up at a switch of the withdrawal epoch -/
def removeList (s : Storage) (v : View) : List Key :=
  match v.withdrawalEpochInfoOpt, getWithdrawalEpochInfoFromStorage s with
  | some epochInfo, some stored =>
    if stored.epoch ≠ epochInfo.epoch then
      (if (s.data (.topQualityCertificate (epochInfo.epoch - 3))).isSome then [.topQualityCertificate (epochInfo.epoch - 4)]
        else []) ++
      (rangeTo (getBlockFeeInfoCounter s (epochInfo.epoch - 1))).map (.blockFeeInfo (epochInfo.epoch - 1)) ++
      [.blockFeeInfoCounter (epochInfo.epoch - 1)]
    else []
  | _, _ => []

def saveToStorage (s : Storage) (v : View) (version : Hash) (isGenesisParent : Bool) : Except Exc Storage :=
  match v.accountStateRootOpt with
  | none => .error (.illegalArgument "requirement failed: Account State Root must be NOT NULL.")
  | some root => update s version (updateList s v root isGenesisParent ++ rewardUpdates s v) (removeList s v)

/-! ## Blocks -/

/-- a block, with the values that its application computes from the rest of the state -/
structure Block where
  id : Hash
  consensusEpochNumber : ℤ
  withdrawalEpochInfo : WithdrawalEpochInfo
  -- the block reaches the end of the withdrawal epoch
  isEpochLastIndex : Bool
  feeInfo : AccountBlockFeeInfo
  topQualityCertificate : Option (ℤ × Octets)
  hasCeased : Bool
  -- as they are left at the end of the block, and none before fork 1.2
  forgerBlockCounters : Option BlockCounters
  -- `getMcForgerPoolRewards` and `getForgerInfo` at the end of the block
  mcForgerPoolRewards : PoolRewards
  getForgerInfo : ForgerPublicKeys → Option ForgerInfo
  receipts : List (Hash × Octets)
  nextBaseFee : ℤ
  accountStateRoot : Octets

/-- the view of a block before rewards are distributed -/
def blockView (b : Block) : View where
  hasCeasedOpt := if b.hasCeased then some true else none
  withdrawalEpochInfoOpt := some b.withdrawalEpochInfo
  topQualityCertificateOpt := b.topQualityCertificate
  lastCertificateReferencedEpochOpt := b.topQualityCertificate.map Prod.fst
  lastCertificateSidechainBlockIdOpt := b.topQualityCertificate.map fun _ => b.id
  blockFeeInfoOpt := some b.feeInfo
  consensusEpochOpt := some b.consensusEpochNumber
  forgerBlockCountersOpt := b.forgerBlockCounters
  accountStateRootOpt := some b.accountStateRoot
  receiptsOpt := some b.receipts
  nextBaseFeeOpt := some b.nextBaseFee

/-- `AccountStateView.getFeePaymentsInfo`, fork 1.4: the delegator payments -/
def delegatorPayments (s : Storage) (b : Block) : Except Exc (List DelegatorFeePayment) := do
  let blockFeeInfoSeq ← getFeePayments s (blockView b) b.withdrawalEpochInfo.epoch
  return (getForgersAndDelegatorsShares b.getForgerInfo (getForgersRewards blockFeeInfoSeq b.mcForgerPoolRewards)).2

def hasCeased (s : Storage) : Bool := (s.data .ceasingState).isSome

/-- the rewards at the end of a withdrawal epoch: the view with which the block is committed -/
def evalForgersReward (isForkV1_4Active : ℤ → Bool) (s : Storage) (b : Block) : Except Exc View :=
  if b.isEpochLastIndex then do
    let view := { blockView b with mcForgerPoolRewardsOpt := some b.mcForgerPoolRewards }
    if isForkV1_4Active b.consensusEpochNumber then
      let payments ← delegatorPayments s b
      return updateForgerDelegatorPayments view payments b.consensusEpochNumber
    else
      let _ ← getFeePayments s (blockView b) b.withdrawalEpochInfo.epoch
      return view
  else .ok (blockView b)

/-- the metadata side of `AccountState.applyModifier`; `isForkV1_4Active` by consensus epoch -/
def applyBlock (isForkV1_4Active : ℤ → Bool) (s : Storage) (b : Block) : Except Exc Storage :=
  if hasCeased s then .error (.other "Can't apply Block, because the sidechain has ceased.")
  else do
    let view ← evalForgersReward isForkV1_4Active s b
    saveToStorage s view b.id false

/-- a block that cannot be applied leaves the storage as it was -/
def step (isForkV1_4Active : ℤ → Bool) (s : Storage) (b : Block) : Storage :=
  match applyBlock isForkV1_4Active s b with
  | .ok s' => s'
  | .error _ => s

def run (isForkV1_4Active : ℤ → Bool) (s : Storage) (bs : List Block) : Storage := bs.foldl (step isForkV1_4Active) s

/-- the delegator payments that `getFeePaymentsInfo` produces for the keys of a forger when the block is applied, if it
ends a withdrawal epoch in consensus epoch `e` -/
def producedBy (isForkV1_4Active : ℤ → Bool) (s : Storage) (b : Block) (f : ForgerPublicKeys) (e : ℤ) : ℤ :=
  if ¬ hasCeased s ∧ b.isEpochLastIndex ∧ isForkV1_4Active b.consensusEpochNumber ∧ b.consensusEpochNumber = e then
    match delegatorPayments s b with
    | .ok payments => ((payments.filter fun p => p.forgerKeys = f).map fun p => p.feePayment.value).sum
    | .error _ => 0
  else 0

/-- the same over a run -/
def produced (isForkV1_4Active : ℤ → Bool) : Storage → List Block → ForgerPublicKeys → ℤ → ℤ
  | _, [], _, _ => 0
  | s, b :: bs, f, e =>
    producedBy isForkV1_4Active s b f e + produced isForkV1_4Active (step isForkV1_4Active s b) bs f e

def emptyStorage : Storage := ⟨fun _ => none, []⟩

/-! ## Batches -/

theorem putAll_of_not_mem (data : Key → Option Value) (l : List (Key × Value)) (k : Key) (h : k ∉ l.map Prod.fst) :
    putAll data l k = data k := by
  induction l generalizing data with
  | nil => rfl
  | cons entry l ih =>
    rw [List.map_cons, List.mem_cons, not_or] at h
    show putAll (Function.update data entry.1 (some entry.2)) l k = data k
    rw [ih _ h.2, Function.update_of_ne h.1]

theorem putAll_of_mem (data : Key → Option Value) (l : List (Key × Value)) (hl : (l.map Prod.fst).Nodup) {k : Key}
    {v : Value} (h : (k, v) ∈ l) : putAll data l k = some v := by
  induction l generalizing data with
  | nil => cases h
  | cons entry l ih =>
    rw [List.map_cons, List.nodup_cons] at hl
    show putAll (Function.update data entry.1 (some entry.2)) l k = some v
    rcases List.mem_cons.1 h with rfl | h
    · rw [putAll_of_not_mem _ _ _ hl.1, Function.update_self]
    · exact ih _ hl.2 h

theorem removeAll_of_not_mem (data : Key → Option Value) (l : List Key) (k : Key) (h : k ∉ l) :
    removeAll data l k = data k := by
  induction l generalizing data with
  | nil => rfl
  | cons key l ih =>
    rw [List.mem_cons, not_or] at h
    show removeAll (Function.update data key none) l k = data k
    rw [ih _ h.2, Function.update_of_ne h.1]

theorem removeAll_of_mem (data : Key → Option Value) (l : List Key) {k : Key} (h : k ∈ l) : removeAll data l k = none := by
  induction l generalizing data with
  | nil => cases h
  | cons key l ih =>
    by_cases hk : k ∈ l
    · exact ih _ hk
    · show removeAll (Function.update data key none) l k = none
      rw [removeAll_of_not_mem _ _ _ hk, (List.mem_cons.1 h).resolve_right hk, Function.update_self]

/-- where a key stands in the batch -/
def Key.place : Key → ℕ
  | .withdrawalEpochInformation => 0
  | .topQualityCertificate _ => 1
  | .lastCertificateEpochNumber => 2
  | .lastCertificateSidechainBlockId => 3
  | .blockFeeInfoCounter _ => 4
  | .blockFeeInfo _ _ => 5
  | .consensusEpoch => 6
  | .forgerBlockCounters => 7
  | .mcForgerPoolRewards => 8
  | .accountStateRoot => 9
  | .ceasingState => 10
  | .height => 11
  | .receipt _ => 12
  | .baseFee => 13
  | .forgerRewards _ _ => 14

/-- only certificates and block fees are cleaned up -/
theorem removeList_place (s : Storage) (v : View) :
    ∀ key ∈ removeList s v, key.place = 1 ∨ key.place = 4 ∨ key.place = 5 := by
  intro key hkey
  unfold removeList at hkey
  split at hkey
  · split_ifs at hkey
    · simp only [List.mem_append, List.mem_singleton, List.mem_map] at hkey
      rcases hkey with (rfl | ⟨c, -, rfl⟩) | rfl <;> simp [Key.place]
    · simp only [List.nil_append, List.mem_append, List.mem_singleton, List.mem_map] at hkey
      rcases hkey with ⟨c, -, rfl⟩ | rfl <;> simp [Key.place]
    · cases hkey
  · cases hkey

theorem removeList_not_reward (s : Storage) (v : View) : ∀ key ∈ removeList s v, key.place < 14 := by
  intro key hkey
  have hplace := removeList_place s v key hkey
  omega

theorem removeList_nodup (s : Storage) (v : View) : (removeList s v).Nodup := by
  have hrange : ∀ n e, ((rangeTo n).map (Key.blockFeeInfo e)).Nodup := by
    intro n e
    refine List.Nodup.map (fun a b h => ?_) ?_
    · injection h
    · exact List.Nodup.map (fun a b h => by exact_mod_cast h) List.nodup_range
  unfold removeList
  split
  · split_ifs
    · simp [List.nodup_append, hrange]
    · simp [List.nodup_append, hrange]
    · simp
  · simp

/-- entries with different keys, at places from `lo` to below `hi` -/
structure Placed (l : List (Key × Value)) (lo hi : ℕ) : Prop where
  nodup : (l.map Prod.fst).Nodup
  place : ∀ entry ∈ l, lo ≤ entry.1.place ∧ entry.1.place < hi

theorem Placed.append {l l' : List (Key × Value)} {lo mid hi : ℕ} (h : Placed l lo mid) (h' : Placed l' mid hi)
    (hlo : lo ≤ mid) (hhi : mid ≤ hi) : Placed (l ++ l') lo hi := by
  refine ⟨?_, ?_⟩
  · rw [List.map_append]
    refine List.nodup_append.2 ⟨h.nodup, h'.nodup, ?_⟩
    intro k hk k' hk' heq
    obtain ⟨entry, hentry, rfl⟩ := List.mem_map.1 hk
    obtain ⟨entry', hentry', rfl⟩ := List.mem_map.1 hk'
    have hlt := (h.place entry hentry).2
    have hge := (h'.place entry' hentry').1
    rw [heq] at hlt
    omega
  · intro entry hentry
    rcases List.mem_append.1 hentry with hentry | hentry
    · exact ⟨(h.place entry hentry).1, (h.place entry hentry).2.trans_le hhi⟩
    · exact ⟨hlo.trans (h'.place entry hentry).1, (h'.place entry hentry).2⟩

theorem placed_nil (lo hi : ℕ) : Placed [] lo hi := ⟨List.nodup_nil, by simp⟩

theorem placed_singleton (k : Key) (v : Value) : Placed [(k, v)] k.place (k.place + 1) :=
  ⟨List.nodup_singleton _, by simp⟩

theorem placed_option {α : Type} (o : Option α) (f : α → Key × Value) (n : ℕ) (hf : ∀ x, (f x).1.place = n) :
    Placed (o.toList.map f) n (n + 1) := by
  cases o with
  | none => exact placed_nil _ _
  | some x =>
    have hx := placed_singleton (f x).1 (f x).2
    rw [hf x] at hx
    exact hx

theorem placed_receipts (receipts : List (Hash × Octets)) (h : (receipts.map Prod.fst).Nodup) :
    Placed (receipts.map fun r => (Key.receipt r.1, Value.bytes r.2)) 12 13 := by
  refine ⟨?_, ?_⟩
  · have hkeys : (receipts.map fun r => (Key.receipt r.1, Value.bytes r.2)).map Prod.fst =
        (receipts.map Prod.fst).map Key.receipt := by
      simp [Function.comp_def]
    rw [hkeys]
    refine h.map ?_
    intro a b hab
    injection hab
  · intro entry hentry
    obtain ⟨r, -, rfl⟩ := List.mem_map.1 hentry
    simp [Key.place]

/-- the updates other than rewards have different keys if the receipts do -/
theorem updateList_placed (s : Storage) (v : View) (root : Octets) (g : Bool)
    (hreceipts : ((v.receiptsOpt.getD []).map Prod.fst).Nodup) : Placed (updateList s v root g) 0 14 := by
  have hfee : Placed (v.blockFeeInfoOpt.toList.flatMap fun info =>
      [(Key.blockFeeInfoCounter (getWithdrawalEpochInfo s v).epoch,
          Value.int (getBlockFeeInfoCounter s (getWithdrawalEpochInfo s v).epoch + 1)),
        (Key.blockFeeInfo (getWithdrawalEpochInfo s v).epoch
          (getBlockFeeInfoCounter s (getWithdrawalEpochInfo s v).epoch + 1), Value.blockFeeInfo info)]) 4 6 := by
    cases v.blockFeeInfoOpt with
    | none => exact placed_nil _ _
    | some info => exact (placed_singleton _ _).append (placed_singleton _ _) (by simp [Key.place]) (by simp [Key.place])
  have hconsensus : Placed (v.consensusEpochOpt.toList.flatMap fun epoch =>
      if (getConsensusEpochNumberFromStorage s).getD 0 ≠ epoch then [(Key.consensusEpoch, Value.int epoch)] else [])
      6 7 := by
    cases v.consensusEpochOpt with
    | none => exact placed_nil _ _
    | some epoch =>
      rw [Option.toList_some, List.flatMap_singleton]
      split_ifs
      · exact placed_singleton _ _
      · exact placed_nil _ _
  have hheight : Placed (if g then [] else [(Key.height, Value.int (getHeight s + 1))]) 11 12 := by
    split_ifs
    · exact placed_nil _ _
    · exact placed_singleton _ _
  have h1 := (placed_option v.withdrawalEpochInfoOpt
    (fun info => (.withdrawalEpochInformation, .withdrawalEpochInfo info)) 0 (fun _ => rfl)).append
    (placed_option v.topQualityCertificateOpt (fun cert => (.topQualityCertificate cert.1, .bytes cert.2)) 1
      (fun _ => rfl)) (by decide) (by decide)
  have h2 := h1.append (placed_option v.lastCertificateReferencedEpochOpt
    (fun epoch => (.lastCertificateEpochNumber, .int epoch)) 2 (fun _ => rfl)) (by decide) (by decide)
  have h3 := h2.append (placed_option v.lastCertificateSidechainBlockIdOpt
    (fun id => (.lastCertificateSidechainBlockId, .hash id)) 3 (fun _ => rfl)) (by decide) (by decide)
  have h4 := (h3.append hfee (by decide) (by decide)).append hconsensus (by decide) (by decide)
  have h5 := h4.append (placed_option v.forgerBlockCountersOpt
    (fun counters => (.forgerBlockCounters, .blockCounters counters)) 7 (fun _ => rfl)) (by decide) (by decide)
  have h6 := h5.append (placed_option v.mcForgerPoolRewardsOpt
    (fun rewards => (.mcForgerPoolRewards, .poolRewards rewards)) 8 (fun _ => rfl)) (by decide) (by decide)
  have h7 := h6.append (placed_singleton .accountStateRoot (.bytes root)) (by decide) (by decide)
  have h8 := h7.append (placed_option v.hasCeasedOpt (fun _ => (.ceasingState, .bytes [])) 10 (fun _ => rfl))
    (by decide) (by decide)
  have h9 := (h8.append hheight (by decide) (by decide)).append (placed_receipts _ hreceipts) (by decide) (by decide)
  exact h9.append (placed_option v.nextBaseFeeOpt (fun baseFee => (.baseFee, .bigInteger baseFee)) 13 (fun _ => rfl))
    (by decide) (by decide)

/-- with different keys there is at most one entry for a key -/
theorem sum_filter_key {α β : Type} [DecidableEq α] [AddCommMonoid β] (l : List (α × β)) (hl : (l.map Prod.fst).Nodup)
    {k : α} {x : β} (h : (k, x) ∈ l) : ((l.filter fun e => e.1 = k).map Prod.snd).sum = x := by
  induction l with
  | nil => cases h
  | cons e l ih =>
    rw [List.map_cons, List.nodup_cons] at hl
    rcases List.mem_cons.1 h with rfl | h
    · have hrest : l.filter (fun e => e.1 = k) = [] := by
        refine List.filter_eq_nil_iff.2 ?_
        intro e he hek
        exact hl.1 (List.mem_map.2 ⟨e, he, by simpa using hek⟩)
      simp [hrest]
    · have hne : e.1 ≠ k := by
        rintro rfl
        exact hl.1 (List.mem_map.2 ⟨_, h, rfl⟩)
      simpa [hne] using ih hl.2 h

section Commit

variable {s : Storage} {v : View} {root : Octets} {version : Hash} {g : Bool}

theorem rewardUpdates_placed (hkeys : (v.delegatorPaymentsSeq.map Prod.fst).Nodup)
    (hplace : ∀ p ∈ v.delegatorPaymentsSeq, p.1.place = 14) : Placed (rewardUpdates s v) 14 15 := by
  refine ⟨?_, ?_⟩
  · have hmap : (rewardUpdates s v).map Prod.fst = v.delegatorPaymentsSeq.map Prod.fst := by
      simp [rewardUpdates, Function.comp_def]
    rw [hmap]
    exact hkeys
  · intro entry hentry
    obtain ⟨p, hp, rfl⟩ := List.mem_map.1 hentry
    have := hplace p hp
    exact ⟨this.ge, by show p.1.place < 15; omega⟩

/-- the ledger after a batch that was written: every payment is added to the stored reward -/
theorem update_reward (hreceipts : ((v.receiptsOpt.getD []).map Prod.fst).Nodup)
    (hkeys : (v.delegatorPaymentsSeq.map Prod.fst).Nodup) (hplace : ∀ p ∈ v.delegatorPaymentsSeq, p.1.place = 14)
    (f : ForgerPublicKeys) (e : ℤ) :
    getForgerReward ⟨removeAll (putAll s.data (updateList s v root g ++ rewardUpdates s v)) (removeList s v),
        version :: s.versions⟩ (.forgerRewards f e) =
      getForgerReward s (.forgerRewards f e) +
        ((v.delegatorPaymentsSeq.filter fun p => p.1 = .forgerRewards f e).map Prod.snd).sum := by
  have hbatch := (updateList_placed s v root g hreceipts).append (rewardUpdates_placed (s := s) hkeys hplace)
    (by decide) (by decide)
  have hremove : Key.forgerRewards f e ∉ removeList s v := by
    intro hmem
    have := removeList_not_reward s v _ hmem
    simp [Key.place] at this
  have hdata : ∀ data : Key → Option Value, removeAll data (removeList s v) (.forgerRewards f e) =
      data (.forgerRewards f e) := fun data => removeAll_of_not_mem data _ _ hremove
  by_cases hmem : ∃ x, (Key.forgerRewards f e, x) ∈ v.delegatorPaymentsSeq
  · obtain ⟨x, hx⟩ := hmem
    have hentry : (Key.forgerRewards f e, Value.bigInteger (getForgerReward s (.forgerRewards f e) + x)) ∈
        updateList s v root g ++ rewardUpdates s v :=
      List.mem_append_right _ (List.mem_map.2 ⟨_, hx, rfl⟩)
    rw [sum_filter_key _ hkeys hx]
    simp only [getForgerReward, hdata, putAll_of_mem s.data _ hbatch.nodup hentry]
  · have hnone : v.delegatorPaymentsSeq.filter (fun p => p.1 = .forgerRewards f e) = [] := by
      refine List.filter_eq_nil_iff.2 ?_
      intro p hp hpk
      have hpk' : p.1 = .forgerRewards f e := by simpa using hpk
      exact hmem ⟨p.2, hpk' ▸ hp⟩
    have hput : Key.forgerRewards f e ∉ (updateList s v root g ++ rewardUpdates s v).map Prod.fst := by
      intro hk
      obtain ⟨entry, hentry, hkey⟩ := List.mem_map.1 hk
      rcases List.mem_append.1 hentry with hentry | hentry
      · have := ((updateList_placed s v root g hreceipts).place entry hentry).2
        rw [hkey] at this
        simp [Key.place] at this
      · obtain ⟨p, hp, rfl⟩ := List.mem_map.1 hentry
        exact hmem ⟨p.2, hkey ▸ hp⟩
    rw [hnone]
    simp only [getForgerReward, hdata, putAll_of_not_mem s.data _ _ hput]
    simp

/-- what a commit that succeeds has written: every entry of the batch that is not cleaned up -/
theorem saveToStorage_written {s' : Storage} (h : saveToStorage s v version g = .ok s') {k : Key} {x : Value}
    (hroot : v.accountStateRootOpt = some root) (hmem : (k, x) ∈ updateList s v root g) (hnot : k ∉ removeList s v) :
    s'.data k = some x := by
  simp only [saveToStorage, hroot, update] at h
  split_ifs at h with hbatch hremove hversion
  injection h with h
  rw [← h]
  show removeAll _ (removeList s v) k = some x
  rw [removeAll_of_not_mem _ _ _ hnot]
  exact putAll_of_mem _ _ hbatch (List.mem_append_left _ hmem)

/-- the same for the keys that are never cleaned up -/
theorem saveToStorage_data {s' : Storage} (h : saveToStorage s v version g = .ok s') {k : Key} {x : Value}
    (hroot : v.accountStateRootOpt = some root) (hmem : (k, x) ∈ updateList s v root g)
    (hkept : ¬ (k.place = 1 ∨ k.place = 4 ∨ k.place = 5)) : s'.data k = some x :=
  saveToStorage_written h hroot hmem fun hk => hkept (removeList_place s v k hk)

/-- what a commit that succeeds has left: every key outside the batch that is not cleaned up -/
theorem saveToStorage_unchanged {s' : Storage} (h : saveToStorage s v version g = .ok s') {k : Key}
    (hroot : v.accountStateRootOpt = some root) (hupdate : k ∉ (updateList s v root g).map Prod.fst)
    (hrewards : ∀ p ∈ v.delegatorPaymentsSeq, p.1 ≠ k) (hnot : k ∉ removeList s v) : s'.data k = s.data k := by
  simp only [saveToStorage, hroot, update] at h
  split_ifs at h with hbatch hremove hversion
  injection h with h
  have hput : k ∉ (updateList s v root g ++ rewardUpdates s v).map Prod.fst := by
    intro hk
    obtain ⟨entry, hentry, hkey⟩ := List.mem_map.1 hk
    rcases List.mem_append.1 hentry with hentry | hentry
    · exact hupdate (hkey ▸ List.mem_map_of_mem hentry)
    · obtain ⟨p, hp, rfl⟩ := List.mem_map.1 hentry
      exact hrewards p hp hkey
  rw [← h]
  show removeAll _ (removeList s v) k = s.data k
  rw [removeAll_of_not_mem _ _ _ hnot, putAll_of_not_mem _ _ _ hput]

/-- a cleaned-up key is gone -/
theorem saveToStorage_removed {s' : Storage} (h : saveToStorage s v version g = .ok s') {k : Key}
    (hroot : v.accountStateRootOpt = some root) (hmem : k ∈ removeList s v) : s'.data k = none := by
  simp only [saveToStorage, hroot, update] at h
  split_ifs at h with hbatch hremove hversion
  injection h with h
  rw [← h]
  exact removeAll_of_mem _ _ hmem

theorem saveToStorage_reward (hroot : v.accountStateRootOpt = some root)
    (hreceipts : ((v.receiptsOpt.getD []).map Prod.fst).Nodup) (hfresh : version ∉ s.versions)
    (hplace : ∀ p ∈ v.delegatorPaymentsSeq, p.1.place = 14) (hkeys : (v.delegatorPaymentsSeq.map Prod.fst).Nodup) :
    ∃ s', saveToStorage s v version g = .ok s' ∧ s'.versions = version :: s.versions ∧
      ∀ f e, getForgerReward s' (.forgerRewards f e) = getForgerReward s (.forgerRewards f e) +
        ((v.delegatorPaymentsSeq.filter fun p => p.1 = .forgerRewards f e).map Prod.snd).sum := by
  have hbatch := (updateList_placed s v root g hreceipts).append (rewardUpdates_placed (s := s) hkeys hplace)
    (by decide) (by decide)
  refine ⟨⟨removeAll (putAll s.data (updateList s v root g ++ rewardUpdates s v)) (removeList s v),
    version :: s.versions⟩, ?_, rfl, ?_⟩
  · simp only [saveToStorage, hroot, update]
    rw [if_neg (not_not.2 hbatch.nodup), if_neg (not_not.2 (removeList_nodup s v)), if_neg hfresh]
  · intro f e
    exact update_reward hreceipts hkeys hplace f e

end Commit

/-! ## Distributions -/

/-- the keys under which the delegators' part of an identifier's rewards is booked, if it has one -/
def delegatorKeys (getForgerInfo : ForgerPublicKeys → Option ForgerInfo) (identifier : ForgerIdentifier) :
    Option ForgerPublicKeys :=
  match identifier.forgerKeys.bind getForgerInfo with
  | some info => if info.rewardShare = 0 then none else some info.forgerPublicKeys
  | none => none

theorem sharesOf_forgerKeys (getForgerInfo : ForgerPublicKeys → Option ForgerInfo) (p : ForgerPayment) :
    (sharesOf getForgerInfo p).2.map DelegatorFeePayment.forgerKeys = delegatorKeys getForgerInfo p.identifier := by
  simp only [sharesOf, delegatorKeys]
  cases p.identifier.forgerKeys.bind getForgerInfo with
  | none => rfl
  | some info =>
    simp only [getForgerAndDelegatorShares]
    split_ifs <;> rfl

theorem getForgersRewards_identifiers (infos : List AccountBlockFeeInfo) (rewards : PoolRewards) :
    ((getForgersRewards infos rewards).map ForgerPayment.identifier).Nodup ∧
      ∀ i ∈ (getForgersRewards infos rewards).map ForgerPayment.identifier,
        i ∈ infos.map identifierOf ++ rewards.keys := by
  by_cases hinfos : infos = []
  · have hids : (getForgersRewards infos rewards).map ForgerPayment.identifier = rewards.keys := by
      simp [getForgersRewards, hinfos, AList.keys, List.keys, Function.comp_def]
    rw [hids]
    exact ⟨rewards.keys_nodup, fun i hi => List.mem_append_right _ hi⟩
  · have hids : (getForgersRewards infos rewards).map ForgerPayment.identifier =
        (infos.map identifierOf ++ rewards.keys).eraseDups := by
      simp [getForgersRewards, hinfos, allForgersRewards_identifiers, Function.comp_def]
    rw [hids]
    exact ⟨Grouping.nodup_distinct _, fun i hi => List.mem_eraseDups.1 hi⟩

/-- no two identifiers of the distribution share the keys of a forger with a share for its delegators -/
def DistinctForgers (s : Storage) (b : Block) : Prop :=
  ∀ infos, getFeePayments s (blockView b) b.withdrawalEpochInfo.epoch = .ok infos →
    ∀ i ∈ infos.map identifierOf ++ b.mcForgerPoolRewards.keys,
    ∀ j ∈ infos.map identifierOf ++ b.mcForgerPoolRewards.keys, ∀ f,
      delegatorKeys b.getForgerInfo i = some f → delegatorKeys b.getForgerInfo j = some f → i = j

theorem delegatorPayments_nodup {s : Storage} {b : Block} (h : DistinctForgers s b) {payments : List DelegatorFeePayment}
    (hpayments : delegatorPayments s b = .ok payments) : (payments.map DelegatorFeePayment.forgerKeys).Nodup := by
  obtain ⟨infos, hinfos, hok⟩ := Fallible.bind_ok hpayments
  have hshares : payments = (getForgersAndDelegatorsShares b.getForgerInfo
      (getForgersRewards infos b.mcForgerPoolRewards)).2 := by
    injection hok with hok
    exact hok.symm
  have hkeys : payments.map DelegatorFeePayment.forgerKeys =
      ((getForgersRewards infos b.mcForgerPoolRewards).map ForgerPayment.identifier).filterMap
        (delegatorKeys b.getForgerInfo) := by
    rw [hshares, getForgersAndDelegatorsShares, List.filterMap_map, List.map_filterMap, List.filterMap_map]
    refine List.filterMap_congr ?_
    intro p _
    exact sharesOf_forgerKeys b.getForgerInfo p
  obtain ⟨hnodup, hmem⟩ := getForgersRewards_identifiers infos b.mcForgerPoolRewards
  rw [hkeys, List.Nodup, List.pairwise_filterMap]
  refine hnodup.imp_of_mem ?_
  intro i j hi hj hne f hf f' hf' heq
  subst heq
  exact hne (h infos hinfos i (hmem i hi) j (hmem j hj) f hf hf')

/-! ## One block -/

/-- what the reward side of a block can put on its view -/
theorem evalForgersReward_cases {fork : ℤ → Bool} {s : Storage} {b : Block} {view : View}
    (h : evalForgersReward fork s b = .ok view) :
    view.accountStateRootOpt = some b.accountStateRoot ∧ view.receiptsOpt = some b.receipts ∧
      ((b.isEpochLastIndex ∧ fork b.consensusEpochNumber ∧ ∃ payments, delegatorPayments s b = .ok payments ∧
          view.delegatorPaymentsSeq = payments.map fun p =>
            (Key.forgerRewards p.forgerKeys b.consensusEpochNumber, p.feePayment.value)) ∨
        (¬ (b.isEpochLastIndex ∧ fork b.consensusEpochNumber) ∧ view.delegatorPaymentsSeq = [])) := by
  unfold evalForgersReward at h
  by_cases hlast : b.isEpochLastIndex
  · rw [if_pos hlast] at h
    by_cases hfork : fork b.consensusEpochNumber
    · simp only [hfork, if_true] at h
      obtain ⟨payments, hpayments, hok⟩ := Fallible.bind_ok h
      injection hok with hview
      subst hview
      exact ⟨rfl, rfl, .inl ⟨hlast, hfork, payments, hpayments, rfl⟩⟩
    · simp only [hfork] at h
      obtain ⟨infos, -, hok⟩ := Fallible.bind_ok h
      injection hok with hview
      subst hview
      exact ⟨rfl, rfl, .inr ⟨fun hboth => hfork hboth.2, rfl⟩⟩
  · rw [if_neg hlast] at h
    injection h with hview
    subst hview
    exact ⟨rfl, rfl, .inr ⟨fun hboth => hlast hboth.1, rfl⟩⟩

/-- no payments are produced by a block whose rewards cannot be computed -/
theorem producedBy_of_error {fork : ℤ → Bool} {s : Storage} {b : Block} {err : Exc}
    (h : evalForgersReward fork s b = .error err) (f : ForgerPublicKeys) (e : ℤ) : producedBy fork s b f e = 0 := by
  unfold producedBy
  split_ifs with hcond
  · obtain ⟨-, hlast, hfork, -⟩ := hcond
    cases hpayments : delegatorPayments s b with
    | error err' => rfl
    | ok payments =>
      rw [evalForgersReward, if_pos hlast, if_pos hfork, hpayments] at h
      cases h
  · rfl

/-- the payments of a block are those on the view it is committed with -/
theorem producedBy_eq {fork : ℤ → Bool} {s : Storage} {b : Block} {view : View} (hceased : hasCeased s = false)
    (h : evalForgersReward fork s b = .ok view) (f : ForgerPublicKeys) (e : ℤ) :
    producedBy fork s b f e =
      ((view.delegatorPaymentsSeq.filter fun p => p.1 = .forgerRewards f e).map Prod.snd).sum := by
  obtain ⟨-, -, ⟨hlast, hfork, payments, hpayments, hseq⟩ | ⟨hnot, hseq⟩⟩ := evalForgersReward_cases h
  · rw [hseq, List.filter_map, List.map_map]
    by_cases he : b.consensusEpochNumber = e
    · have hcond : ¬ hasCeased s ∧ b.isEpochLastIndex ∧ fork b.consensusEpochNumber ∧ b.consensusEpochNumber = e :=
        ⟨by simp [hceased], hlast, hfork, he⟩
      rw [producedBy, if_pos hcond, hpayments]
      simp [Function.comp_def, he]
    · have hcond : ¬ (¬ hasCeased s ∧ b.isEpochLastIndex ∧ fork b.consensusEpochNumber ∧ b.consensusEpochNumber = e) :=
        fun hall => he hall.2.2.2
      rw [producedBy, if_neg hcond]
      simp [Function.comp_def, he]
  · have hcond : ¬ (¬ hasCeased s ∧ b.isEpochLastIndex ∧ fork b.consensusEpochNumber ∧ b.consensusEpochNumber = e) :=
      fun hall => hnot ⟨hall.2.1, hall.2.2.1⟩
    rw [producedBy, if_neg hcond, hseq]
    rfl

/-- what a block that meets the condition does: it is recorded, or has produced nothing, and the ledger grows by what it
has produced -/
theorem applyBlock_reward (fork : ℤ → Bool) (s : Storage) (b : Block) (hfresh : b.id ∉ s.versions)
    (hreceipts : (b.receipts.map Prod.fst).Nodup)
    (hdistinct : b.isEpochLastIndex → fork b.consensusEpochNumber → DistinctForgers s b) :
    (∀ f e, getForgerReward (step fork s b) (.forgerRewards f e) =
      getForgerReward s (.forgerRewards f e) + producedBy fork s b f e) ∧
    ∀ version ∈ (step fork s b).versions, version = b.id ∨ version ∈ s.versions := by
  by_cases hceased : hasCeased s
  · have hstep : step fork s b = s := by simp [step, applyBlock, hceased]
    rw [hstep]
    exact ⟨fun f e => by simp [producedBy, hceased], fun _ h => .inr h⟩
  · cases heval : evalForgersReward fork s b with
    | error err =>
      have happly : applyBlock fork s b = .error err := by
        rw [applyBlock, if_neg hceased, heval]
        rfl
      have hstep : step fork s b = s := by rw [step, happly]
      rw [hstep]
      exact ⟨fun f e => by rw [producedBy_of_error heval, add_zero], fun _ h => .inr h⟩
    | ok view =>
      obtain ⟨hroot, hview, hpayments⟩ := evalForgersReward_cases heval
      have hkeys : (view.delegatorPaymentsSeq.map Prod.fst).Nodup := by
        rcases hpayments with ⟨hlast, hfork, payments, hpayments, hseq⟩ | ⟨-, hseq⟩
        · have hnodup := delegatorPayments_nodup (hdistinct hlast hfork) hpayments
          rw [hseq, List.map_map]
          have hinj : Function.Injective fun f => Key.forgerRewards f b.consensusEpochNumber := by
            intro f f' heq
            injection heq
          simpa [Function.comp_def] using hnodup.map hinj
        · rw [hseq]
          exact List.nodup_nil
      have hplace : ∀ p ∈ view.delegatorPaymentsSeq, p.1.place = 14 := by
        intro p hp
        rcases hpayments with ⟨-, -, payments, -, hseq⟩ | ⟨-, hseq⟩
        · rw [hseq] at hp
          obtain ⟨payment, -, rfl⟩ := List.mem_map.1 hp
          rfl
        · rw [hseq] at hp
          cases hp
      obtain ⟨s', hsave, hversions, hrewards⟩ := saveToStorage_reward (g := false) hroot
        (by rw [hview]; exact hreceipts) hfresh hplace hkeys
      have happly : applyBlock fork s b = .ok s' := by
        rw [applyBlock, if_neg hceased, heval]
        exact hsave
      have hstep : step fork s b = s' := by rw [step, happly]
      rw [hstep]
      refine ⟨?_, ?_⟩
      · intro f e
        rw [hrewards, producedBy_eq (by simpa using hceased) heval]
      · intro version hversion
        rw [hversions] at hversion
        exact List.mem_cons.1 hversion

/-! ## Runs -/

/-- every block that ends a withdrawal epoch with fork 1.4 active is met in a state where its distribution has no shared
keys -/
def DistinctForgersRun (fork : ℤ → Bool) : Storage → List Block → Prop
  | _, [] => True
  | s, b :: bs =>
    (b.isEpochLastIndex → fork b.consensusEpochNumber → DistinctForgers s b) ∧
      DistinctForgersRun fork (step fork s b) bs

/-- the induction: from any storage that has none of the blocks yet -/
theorem run_reward (fork : ℤ → Bool) (bs : List Block) (s : Storage) (hids : (bs.map Block.id).Nodup)
    (hfresh : ∀ b ∈ bs, b.id ∉ s.versions) (hreceipts : ∀ b ∈ bs, (b.receipts.map Prod.fst).Nodup)
    (hdistinct : DistinctForgersRun fork s bs) (f : ForgerPublicKeys) (e : ℤ) :
    getForgerReward (run fork s bs) (.forgerRewards f e) =
      getForgerReward s (.forgerRewards f e) + produced fork s bs f e := by
  induction bs generalizing s with
  | nil => exact (add_zero _).symm
  | cons b bs ih =>
    rw [List.map_cons, List.nodup_cons] at hids
    obtain ⟨hledger, hversions⟩ := applyBlock_reward fork s b (hfresh b List.mem_cons_self)
      (hreceipts b List.mem_cons_self) hdistinct.1
    have hfresh' : ∀ b' ∈ bs, b'.id ∉ (step fork s b).versions := by
      intro b' hb' hmem
      rcases hversions _ hmem with heq | hold
      · exact hids.1 (heq ▸ List.mem_map_of_mem hb')
      · exact hfresh b' (List.mem_cons_of_mem _ hb') hold
    have hrest := ih (step fork s b) hids.2 hfresh' (fun b' hb' => hreceipts b' (List.mem_cons_of_mem _ hb'))
      hdistinct.2
    calc getForgerReward (run fork s (b :: bs)) (.forgerRewards f e)
        = getForgerReward (step fork s b) (.forgerRewards f e) + produced fork (step fork s b) bs f e := hrest
      _ = getForgerReward s (.forgerRewards f e) +
            (producedBy fork s b f e + produced fork (step fork s b) bs f e) := by rw [hledger, add_assoc]

theorem DistinctForgersRun.take {fork : ℤ → Bool} {bs : List Block} {s : Storage} (h : DistinctForgersRun fork s bs)
    (n : ℕ) : DistinctForgersRun fork s (bs.take n) := by
  induction bs generalizing s n with
  | nil => simp [DistinctForgersRun]
  | cons b bs ih =>
    cases n with
    | zero => exact trivial
    | succ n => exact ⟨h.1, ih h.2 n⟩

/-- **The ledger of delegator rewards.** In a run of blocks in which no distribution has two identifiers with the same
forger keys, the reward stored for the keys of a forger and a consensus epoch is, after every block, the sum of all
delegator payments produced for them at the ends of withdrawal epochs that fell in that consensus epoch. -/
theorem ledger_complete (fork : ℤ → Bool) (bs : List Block) (hids : (bs.map Block.id).Nodup)
    (hreceipts : ∀ b ∈ bs, (b.receipts.map Prod.fst).Nodup) (hdistinct : DistinctForgersRun fork emptyStorage bs)
    (n : ℕ) (f : ForgerPublicKeys) (e : ℤ) :
    getForgerRewards (run fork emptyStorage (bs.take n)) f e 1 = [produced fork emptyStorage (bs.take n) f e] := by
  have hreward := run_reward fork (bs.take n) emptyStorage
    (hids.sublist ((List.take_sublist n bs).map _)) (by simp [emptyStorage])
    (fun b hb => hreceipts b (List.mem_of_mem_take hb)) (hdistinct.take n) f e
  have hempty : getForgerReward emptyStorage (.forgerRewards f e) = 0 := rfl
  rw [hempty, zero_add] at hreward
  simp [getForgerRewards, hreward]

/-- the forger of the examples, with half of its rewards for delegators -/
def sampleForger : ForgerInfo := ⟨⟨5, ⟨6, 0⟩⟩, 500, 7⟩

/-- a block of that forger in consensus epoch 40, with a base fee of 100 -/
def sampleBlock (id : Hash) (withdrawalEpoch : ℤ) (isEpochLastIndex : Bool) (forgerAddress : Address) : Block where
  id := id
  consensusEpochNumber := 40
  withdrawalEpochInfo := ⟨withdrawalEpoch, 1⟩
  isEpochLastIndex := isEpochLastIndex
  feeInfo := ⟨100, 0, forgerAddress, some sampleForger.forgerPublicKeys⟩
  topQualityCertificate := none
  hasCeased := false
  forgerBlockCounters := none
  mcForgerPoolRewards := ∅
  getForgerInfo := fun keys => if keys = sampleForger.forgerPublicKeys then some sampleForger else none
  receipts := []
  nextBaseFee := 100
  accountStateRoot := []

/-- two withdrawal epochs, of two blocks and of one, that end in the same consensus epoch: 100 and 50 for the delegators -/
theorem ledger_complete_two_epochs :
    getForgerRewards (run (fun _ => true) emptyStorage
      [sampleBlock 1 0 false 9, sampleBlock 2 0 true 9, sampleBlock 3 1 true 8]) sampleForger.forgerPublicKeys 40 1 =
      [150] := by
  have hone : ∀ s b a, (∀ infos, getFeePayments s (blockView b) b.withdrawalEpochInfo.epoch = .ok infos →
      ∀ i ∈ infos.map identifierOf ++ b.mcForgerPoolRewards.keys, i = a) → DistinctForgers s b := by
    intro s b a hall infos hinfos i hi j hj f _ _
    rw [hall infos hinfos i hi, hall infos hinfos j hj]
  have hrun := ledger_complete (fun _ => true) [sampleBlock 1 0 false 9, sampleBlock 2 0 true 9, sampleBlock 3 1 true 8]
    (by decide) (by decide)
    ⟨fun h => absurd h (by decide),
      fun _ _ => hone _ _ ⟨9, some sampleForger.forgerPublicKeys⟩ (by
        intro infos hinfos
        cases hinfos
        decide +kernel),
      fun _ _ => hone _ _ ⟨8, some sampleForger.forgerPublicKeys⟩ (by
        intro infos hinfos
        cases hinfos
        decide +kernel),
      trivial⟩ 3 sampleForger.forgerPublicKeys 40
  have hproduced : produced (fun _ => true) emptyStorage
      [sampleBlock 1 0 false 9, sampleBlock 2 0 true 9, sampleBlock 3 1 true 8] sampleForger.forgerPublicKeys 40 =
      150 := by decide +kernel
  rw [← hproduced]
  exact hrun

/-- A forger that changes its reward address inside a withdrawal epoch: the two payments have the same key, the batch is
refused, and neither is stored. -/
theorem ledger_loses_shared_keys :
    produced (fun _ => true) emptyStorage [sampleBlock 1 0 false 9, sampleBlock 2 0 true 8]
        sampleForger.forgerPublicKeys 40 = 100 ∧
      getForgerRewards (run (fun _ => true) emptyStorage [sampleBlock 1 0 false 9, sampleBlock 2 0 true 8])
        sampleForger.forgerPublicKeys 40 1 = [0] ∧
      (run (fun _ => true) emptyStorage [sampleBlock 1 0 false 9, sampleBlock 2 0 true 8]).versions = [1] := by
  decide +kernel

end SidechainsSdk.Account.MetadataStorage
