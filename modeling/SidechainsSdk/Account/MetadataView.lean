/-
The getters of `AccountStateMetadataStorageView` and what a commit does to what they return.

The update calls of a block put values on the view, a getter looks for them there first, and a commit writes them out and
empties the view. So a getter should not be able to tell whether the commit has already happened.

- `Update`, `view`: the update calls of a block, in any order and number, from an empty view.
- `written`: what a commit puts under each key; `saved_data`: so what is stored afterwards.
- `Agrees`: every getter returns just before the commit what it returns just after it. Certificates that the commit
  cleans up are excepted; the height goes up with every commit and is not among them.
- `Persisted`: storages made by commits; `Persisted.readable`: in each of them no getter throws.
- `reads_own_writes_iff`: when the getters agree. `getForgerRewards` never looks at the payments on the view, a view with
  receipts of its own no longer finds the receipts of earlier blocks, and consensus epoch 0 is not written to a storage
  that has none.
-/
import Mathlib.Tactic
import SidechainsSdk.Account.MetadataStorage
import SidechainsSdk.Account.FeeUtils

namespace SidechainsSdk.Account.MetadataView

open FeePayments MetadataStorage

/-! ## Getters -/

def getTopQualityCertificateFromStorage (s : Storage) (referencedWithdrawalEpoch : ℤ) : Option Octets :=
  match s.data (.topQualityCertificate referencedWithdrawalEpoch) with
  | some (.bytes cert) => some cert
  | _ => none

/-- the certificate of the view if it is for that epoch -/
def getTopQualityCertificate (s : Storage) (v : View) (referencedWithdrawalEpoch : ℤ) : Option Octets :=
  match v.topQualityCertificateOpt with
  | some (epochNumber, cert) =>
    if epochNumber = referencedWithdrawalEpoch then some cert
    else getTopQualityCertificateFromStorage s referencedWithdrawalEpoch
  | none => getTopQualityCertificateFromStorage s referencedWithdrawalEpoch

def lastCertificateReferencedEpochFromStorage (s : Storage) : Option ℤ :=
  match s.data .lastCertificateEpochNumber with
  | some (.int epoch) => some epoch
  | _ => none

def lastCertificateReferencedEpoch (s : Storage) (v : View) : Option ℤ :=
  v.lastCertificateReferencedEpochOpt.or (lastCertificateReferencedEpochFromStorage s)

def lastCertificateSidechainBlockIdFromStorage (s : Storage) : Option Hash :=
  match s.data .lastCertificateSidechainBlockId with
  | some (.hash blockId) => some blockId
  | _ => none

def lastCertificateSidechainBlockId (s : Storage) (v : View) : Option Hash :=
  v.lastCertificateSidechainBlockIdOpt.or (lastCertificateSidechainBlockIdFromStorage s)

def getConsensusEpochNumber (s : Storage) (v : View) : Option ℤ :=
  v.consensusEpochOpt.or (getConsensusEpochNumberFromStorage s)

/-- `hasCeased` of a view -/
def viewHasCeased (s : Storage) (v : View) : Bool := v.hasCeasedOpt.getD (hasCeased s)

def DEFAULT_ACCOUNT_STATE_ROOT : Octets := List.replicate 32 0

def getAccountStateRootFromStorage (s : Storage) : Option Octets :=
  match s.data .accountStateRoot with
  | some (.bytes root) => some root
  | _ => none

def getAccountStateRoot (s : Storage) (v : View) : Octets :=
  (v.accountStateRootOpt.or (getAccountStateRootFromStorage s)).getD DEFAULT_ACCOUNT_STATE_ROOT

/-- a receipt that cannot be parsed is an error -/
def getTransactionReceiptFromStorage (s : Storage) (txHash : Hash) : Except Exc (Option Octets) :=
  match s.data (.receipt txHash) with
  | some (.bytes receipt) => .ok (some receipt)
  | some _ => .error (.other "Error while receipt parsing.")
  | none => .ok none

def getTransactionReceipt (s : Storage) (v : View) (txHash : Hash) : Except Exc (Option Octets) :=
  match v.receiptsOpt with
  | some receipts => .ok ((receipts.find? fun r => r.1 = txHash).map Prod.snd)
  | none => getTransactionReceiptFromStorage s txHash

def getNextBaseFeeFromStorage (s : Storage) : Except Exc (Option ℤ) :=
  match s.data .baseFee with
  | some (.bigInteger baseFee) => .ok (some baseFee)
  | some _ => .error (.other "Zero length BigInteger")
  | none => .ok none

def getNextBaseFee (s : Storage) (v : View) : Except Exc ℤ :=
  match v.nextBaseFeeOpt with
  | some baseFee => .ok baseFee
  | none => (getNextBaseFeeFromStorage s).map fun stored => stored.getD FeeUtils.INITIAL_BASE_FEE

def getForgerBlockCountersFromStorage (s : Storage) : BlockCounters :=
  match s.data .forgerBlockCounters with
  | some (.blockCounters counters) => counters
  | _ => ∅

def getForgerBlockCounters (s : Storage) (v : View) : BlockCounters :=
  v.forgerBlockCountersOpt.getD (getForgerBlockCountersFromStorage s)

def getMcForgerPoolRewardsFromStorage (s : Storage) : PoolRewards :=
  match s.data .mcForgerPoolRewards with
  | some (.poolRewards rewards) => rewards
  | _ => ∅

def getMcForgerPoolRewards (s : Storage) (v : View) : PoolRewards :=
  v.mcForgerPoolRewardsOpt.getD (getMcForgerPoolRewardsFromStorage s)

/-- `getHeight` with the exception of `Ints.fromByteArray`; it is the same before and after a block's updates -/
def readHeight (s : Storage) : Except Exc ℤ :=
  match s.data .height with
  | some (.int height) => .ok height
  | some _ => .error (.other "array too small")
  | none => .ok 0

/-! ## Updates -/

/-- the update calls -/
inductive Update where
  | updateWithdrawalEpochInfo (withdrawalEpochInfo : WithdrawalEpochInfo)
  | updateTopQualityCertificate (epochNumber : ℤ) (topQualityCertificate : Octets)
  | updateLastCertificateReferencedEpoch (lastCertificateReferencedEpoch : ℤ)
  | updateLastCertificateSidechainBlockIdOpt (blockId : Hash)
  | updateTransactionReceipts (receipts : List (Hash × Octets))
  | updateFeePaymentInfo (blockFeeInfo : AccountBlockFeeInfo)
  | updateConsensusEpochNumber (consensusEpochNum : ℤ)
  | updateAccountStateRoot (accountStateRoot : Octets)
  | updateNextBaseFee (baseFee : ℤ)
  | setCeased
  | updateForgerBlockCounter (forgerPublicKey : ForgerIdentifier)
  | resetForgerBlockCounters
  | updateMcForgerPoolRewards (forgerPoolRewards : PoolRewards)
  | updateForgerDelegatorPayments (delegatorPayments : List DelegatorFeePayment) (consensusEpochNumber : ℤ)

def Update.apply (s : Storage) (v : View) : Update → View
  | .updateWithdrawalEpochInfo withdrawalEpochInfo => { v with withdrawalEpochInfoOpt := some withdrawalEpochInfo }
  | .updateTopQualityCertificate epochNumber topQualityCertificate =>
    { v with topQualityCertificateOpt := some (epochNumber, topQualityCertificate) }
  | .updateLastCertificateReferencedEpoch epoch => { v with lastCertificateReferencedEpochOpt := some epoch }
  | .updateLastCertificateSidechainBlockIdOpt blockId => { v with lastCertificateSidechainBlockIdOpt := some blockId }
  | .updateTransactionReceipts receipts => { v with receiptsOpt := some receipts }
  | .updateFeePaymentInfo blockFeeInfo => { v with blockFeeInfoOpt := some blockFeeInfo }
  | .updateConsensusEpochNumber consensusEpochNum => { v with consensusEpochOpt := some consensusEpochNum }
  | .updateAccountStateRoot accountStateRoot => { v with accountStateRootOpt := some accountStateRoot }
  | .updateNextBaseFee baseFee => { v with nextBaseFeeOpt := some baseFee }
  | .setCeased => { v with hasCeasedOpt := some true }
  | .updateForgerBlockCounter forgerPublicKey =>
    let counters := getForgerBlockCounters s v
    let existingCount := (counters.lookup forgerPublicKey).getD 0
    { v with forgerBlockCountersOpt := some (counters.insert forgerPublicKey (existingCount + 1)) }
  | .resetForgerBlockCounters => { v with forgerBlockCountersOpt := some ∅ }
  | .updateMcForgerPoolRewards forgerPoolRewards => { v with mcForgerPoolRewardsOpt := some forgerPoolRewards }
  | .updateForgerDelegatorPayments delegatorPayments consensusEpochNumber =>
    MetadataStorage.updateForgerDelegatorPayments v delegatorPayments consensusEpochNumber

/-- the view after the updates of a block -/
def view (s : Storage) (us : List Update) : View := us.foldl (Update.apply s) {}

/-- storages that commits have made -/
inductive Persisted : Storage → Prop
  | empty : Persisted emptyStorage
  | commit {s s' : Storage} {us : List Update} {version : Hash} {g : Bool} (hs : Persisted s)
      (h : saveToStorage s (view s us) version g = .ok s') : Persisted s'

/-- what holds of every view that updates make: no call takes the ceased flag back, and payments are booked under the
keys of rewards -/
structure Built (v : View) : Prop where
  hasCeasedOpt : v.hasCeasedOpt = none ∨ v.hasCeasedOpt = some true
  delegatorPaymentsSeq : ∀ p ∈ v.delegatorPaymentsSeq, ∃ f e, p.1 = .forgerRewards f e

theorem Built.apply {s : Storage} {v : View} (hv : Built v) (u : Update) : Built (u.apply s v) := by
  cases u with
  | setCeased => exact ⟨.inr rfl, hv.delegatorPaymentsSeq⟩
  | updateForgerDelegatorPayments delegatorPayments consensusEpochNumber =>
    refine ⟨hv.hasCeasedOpt, ?_⟩
    intro p hp
    obtain ⟨payment, -, rfl⟩ := List.mem_map.1 hp
    exact ⟨_, _, rfl⟩
  | _ => exact ⟨hv.hasCeasedOpt, hv.delegatorPaymentsSeq⟩

theorem built_view (s : Storage) (us : List Update) : Built (view s us) := by
  have hfold : ∀ v, Built v → Built (us.foldl (Update.apply s) v) := by
    induction us with
    | nil => exact fun v hv => hv
    | cons u us ih => exact fun v hv => ih _ (hv.apply u)
  exact hfold {} ⟨.inl rfl, by simp⟩

/-! ## What a commit stores -/

/-- the value that a commit puts under a key -/
def written (s : Storage) (v : View) (accountStateRoot : Octets) (isGenesisParent : Bool) : Key → Option Value
  | .withdrawalEpochInformation => v.withdrawalEpochInfoOpt.map .withdrawalEpochInfo
  | .topQualityCertificate epoch =>
    v.topQualityCertificateOpt.bind fun cert => if cert.1 = epoch then some (.bytes cert.2) else none
  | .lastCertificateEpochNumber => v.lastCertificateReferencedEpochOpt.map .int
  | .lastCertificateSidechainBlockId => v.lastCertificateSidechainBlockIdOpt.map .hash
  | .blockFeeInfoCounter epoch =>
    if (getWithdrawalEpochInfo s v).epoch = epoch then
      v.blockFeeInfoOpt.map fun _ => .int (getBlockFeeInfoCounter s epoch + 1)
    else none
  | .blockFeeInfo epoch counter =>
    if (getWithdrawalEpochInfo s v).epoch = epoch ∧ counter = getBlockFeeInfoCounter s epoch + 1 then
      v.blockFeeInfoOpt.map .blockFeeInfo
    else none
  | .consensusEpoch =>
    v.consensusEpochOpt.bind fun epoch =>
      if (getConsensusEpochNumberFromStorage s).getD 0 ≠ epoch then some (.int epoch) else none
  | .forgerBlockCounters => v.forgerBlockCountersOpt.map .blockCounters
  | .mcForgerPoolRewards => v.mcForgerPoolRewardsOpt.map .poolRewards
  | .accountStateRoot => some (.bytes accountStateRoot)
  | .ceasingState => v.hasCeasedOpt.map fun _ => .bytes []
  | .height => if isGenesisParent then none else some (.int (getHeight s + 1))
  | .receipt txHash => ((v.receiptsOpt.getD []).find? fun r => r.1 = txHash).map fun r => .bytes r.2
  | .baseFee => v.nextBaseFeeOpt.map .bigInteger
  | .forgerRewards f e =>
    (v.delegatorPaymentsSeq.find? fun p => p.1 = .forgerRewards f e).map fun p =>
      .bigInteger (getForgerReward s (.forgerRewards f e) + p.2)

section Commit

variable {s s' : Storage} {v : View} {root : Octets} {version : Hash} {g : Bool}

theorem mem_of_written {k : Key} {x : Value} (h : written s v root g k = some x) :
    (k, x) ∈ updateList s v root g ++ rewardUpdates s v := by
  cases k with
  | receipt txHash =>
    simp only [written, Option.map_eq_some_iff] at h
    obtain ⟨r, hr, rfl⟩ := h
    have hmem := List.mem_of_find?_eq_some hr
    have hkey : r.1 = txHash := by simpa using List.find?_some hr
    subst hkey
    refine List.mem_append_left _ ?_
    simp only [updateList, List.mem_append]
    exact .inl (.inr (List.mem_map.2 ⟨r, hmem, rfl⟩))
  | forgerRewards f e =>
    simp only [written, Option.map_eq_some_iff] at h
    obtain ⟨p, hp, rfl⟩ := h
    have hmem := List.mem_of_find?_eq_some hp
    have hkey : p.1 = .forgerRewards f e := by simpa using List.find?_some hp
    rw [← hkey]
    exact List.mem_append_right _ (List.mem_map.2 ⟨p, hmem, rfl⟩)
  | _ =>
    refine List.mem_append_left _ ?_
    simp only [written, Option.map_eq_some_iff, Option.bind_eq_some_iff, ite_eq_iff, Option.some.injEq, reduceCtorEq,
      and_false, or_false, false_or] at h
    simp only [updateList, List.mem_append, List.mem_map, List.mem_flatMap, Option.mem_toList, Prod.mk.injEq, reduceCtorEq]
    grind

/-- every entry of the batch is for a key that gets a value -/
theorem written_of_mem (hv : Built v) {k : Key} (h : k ∈ (updateList s v root g ++ rewardUpdates s v).map Prod.fst) :
    written s v root g k ≠ none := by
  obtain ⟨⟨k', x⟩, hmem, rfl⟩ := List.mem_map.1 h
  rcases List.mem_append.1 hmem with hmem | hmem
  · simp only [updateList, List.mem_append, List.mem_map, List.mem_flatMap, Option.mem_toList, Prod.mk.injEq,
      List.mem_singleton, or_assoc] at hmem
    rcases hmem with ⟨_, hopt, rfl, -⟩ | ⟨_, hopt, rfl, -⟩ | ⟨_, hopt, rfl, -⟩ | ⟨_, hopt, rfl, -⟩ | ⟨info,
      hopt, hfee⟩ |
      ⟨epoch, hopt, hepoch⟩ | ⟨_, hopt, rfl, -⟩ | ⟨_, hopt, rfl, -⟩ | ⟨rfl, -⟩ | ⟨_, hopt, rfl, -⟩ | hheight |
      ⟨r, hr, rfl, -⟩ | ⟨_, hopt, rfl, -⟩
    · simp [written, hopt]
    · simp [written, hopt]
    · simp [written, hopt]
    · simp [written, hopt]
    · simp only [List.mem_cons, Prod.mk.injEq, List.not_mem_nil, or_false] at hfee
      rcases hfee with ⟨rfl, -⟩ | ⟨rfl, -⟩ <;> simp [written, hopt]
    · split_ifs at hepoch with hne
      · obtain ⟨rfl, -⟩ := Prod.mk.inj (List.mem_singleton.1 hepoch)
        simp [written, hopt, hne]
      · cases hepoch
    · simp [written, hopt]
    · simp [written, hopt]
    · simp [written]
    · simp [written, hopt]
    · split_ifs at hheight with hg
      · cases hheight
      · obtain ⟨rfl, -⟩ := Prod.mk.inj (List.mem_singleton.1 hheight)
        simp [written, hg]
    · simp only [written, ne_eq, Option.map_eq_none_iff, List.find?_eq_none, decide_eq_true_eq, not_forall, not_not]
      exact ⟨r, hr, rfl⟩
    · simp [written, hopt]
  · obtain ⟨p, hp, hentry⟩ := List.mem_map.1 hmem
    obtain ⟨f, e, hkey⟩ := hv.delegatorPaymentsSeq p hp
    have hk : k' = .forgerRewards f e := by rw [← hkey]; exact (congrArg Prod.fst hentry).symm
    subst hk
    simp only [written, ne_eq, Option.map_eq_none_iff, List.find?_eq_none, decide_eq_true_eq, not_forall, not_not]
    exact ⟨p, hp, hkey⟩

/-- the storage after a commit, key by key -/
theorem saved_data (hv : Built v) (hroot : v.accountStateRootOpt = some root) (h : saveToStorage s v version g = .ok s')
    (k : Key) : s'.data k = if k ∈ removeList s v then none else (written s v root g k).or (s.data k) := by
  simp only [saveToStorage, hroot, update] at h
  split_ifs at h with hbatch hremove hversion
  injection h with h
  rw [← h]
  show removeAll (putAll s.data _) (removeList s v) k = _
  split
  case isTrue hk => exact removeAll_of_mem _ _ hk
  case isFalse hk =>
    rw [removeAll_of_not_mem _ _ _ hk]
    cases hwritten : written s v root g k with
    | some x => exact putAll_of_mem _ _ hbatch (mem_of_written hwritten)
    | none => exact putAll_of_not_mem _ _ _ fun hmem => written_of_mem hv hmem hwritten

/-- the same for the keys that are never cleaned up -/
theorem saved_kept (hv : Built v) (hroot : v.accountStateRootOpt = some root) (h : saveToStorage s v version g = .ok s')
    {k : Key} (hkept : ¬ (k.place = 1 ∨ k.place = 4 ∨ k.place = 5)) :
    s'.data k = (written s v root g k).or (s.data k) := by
  rw [saved_data hv hroot h, if_neg fun hk => hkept (removeList_place s v k hk)]

/-- a payment goes to the reward that is stored for its forger and epoch -/
theorem saved_payment (hv : Built v) (hroot : v.accountStateRootOpt = some root)
    (h : saveToStorage s v version g = .ok s') {p : Key × ℤ} (hp : p ∈ v.delegatorPaymentsSeq) :
    getForgerReward s' p.1 = getForgerReward s p.1 + p.2 := by
  have hmem : (p.1, Value.bigInteger (getForgerReward s p.1 + p.2)) ∈ updateList s v root g ++ rewardUpdates s v :=
    List.mem_append_right _ (List.mem_map.2 ⟨p, hp, rfl⟩)
  obtain ⟨f, e, hkey⟩ := hv.delegatorPaymentsSeq p hp
  have hnot : p.1 ∉ removeList s v := by
    intro hk
    have hplace := removeList_place s v _ hk
    simp [hkey, Key.place] at hplace
  simp only [saveToStorage, hroot, update] at h
  split_ifs at h with hbatch hremove hversion
  injection h with h
  have hdata : s'.data p.1 = some (.bigInteger (getForgerReward s p.1 + p.2)) := by
    rw [← h]
    show removeAll (putAll s.data _) (removeList s v) p.1 = _
    rw [removeAll_of_not_mem _ _ _ hnot]
    exact putAll_of_mem _ _ hbatch hmem
  rw [getForgerReward, hdata]

end Commit

/-! ## Storages that commits have made -/

/-- no getter throws -/
structure Readable (s : Storage) : Prop where
  feePayments : ∀ withdrawalEpochNumber, ∃ infos, getFeePayments s {} withdrawalEpochNumber = .ok infos
  transactionReceipt : ∀ txHash, ∃ receipt, getTransactionReceipt s {} txHash = .ok receipt
  nextBaseFee : ∃ baseFee, getNextBaseFee s {} = .ok baseFee
  height : ∃ height, readHeight s = .ok height

/-- the records of an epoch are those up to its counter -/
structure WellFormed (s : Storage) : Prop where
  counters : ∀ w, -1 ≤ getBlockFeeInfoCounter s w
  records : ∀ w, ∀ c ∈ rangeTo (getBlockFeeInfoCounter s w), ∃ info,
    s.data (.blockFeeInfo w c) = some (.blockFeeInfo info)
  receipts : ∀ txHash x, s.data (.receipt txHash) = some x → ∃ receipt, x = .bytes receipt
  baseFee : ∀ x, s.data .baseFee = some x → ∃ baseFee, x = .bigInteger baseFee
  height : ∀ x, s.data .height = some x → ∃ height, x = .int height

theorem mem_rangeTo {n c : ℤ} : c ∈ rangeTo n ↔ 0 ≤ c ∧ c ≤ n := by
  simp only [rangeTo, List.mem_map, List.mem_range]
  constructor
  · rintro ⟨i, hi, rfl⟩
    omega
  · rintro ⟨h0, hn⟩
    exact ⟨c.toNat, by omega, by omega⟩

theorem rangeTo_succ {n : ℤ} (h : -1 ≤ n) : rangeTo (n + 1) = rangeTo n ++ [n + 1] := by
  have hlength : (n + 1 + 1).toNat = (n + 1).toNat + 1 := by omega
  rw [rangeTo, rangeTo, hlength, List.range_succ, List.map_append, List.map_singleton]
  congr 2
  omega

theorem blockFees_congr {s s' : Storage} {w : ℤ} {counters : List ℤ}
    (h : ∀ c ∈ counters, s'.data (.blockFeeInfo w c) = s.data (.blockFeeInfo w c)) :
    counters.mapM (getBlockFeeInfo s' w) = counters.mapM (getBlockFeeInfo s w) := by
  refine Fallible.mapM_congr fun c hc => ?_
  rw [getBlockFeeInfo, getBlockFeeInfo, h c hc]

/-- the fees of the epoch before are cleaned up with their counter, no others -/
theorem removeList_fees {s : Storage} {v : View} {key : Key} (h : key ∈ removeList s v) :
    (∃ e, key = .topQualityCertificate e) ∨
      Key.blockFeeInfoCounter ((getWithdrawalEpochInfo s v).epoch - 1) ∈ removeList s v ∧
        ((∃ c, key = .blockFeeInfo ((getWithdrawalEpochInfo s v).epoch - 1) c) ∨
          key = .blockFeeInfoCounter ((getWithdrawalEpochInfo s v).epoch - 1)) := by
  unfold removeList at h ⊢
  split at h
  · rename_i epochInfo stored hinfo hstored
    have hepoch : (getWithdrawalEpochInfo s v).epoch = epochInfo.epoch := by simp [getWithdrawalEpochInfo, hinfo]
    simp only [hepoch]
    split_ifs at h ⊢ with hswitch hcert
    · simp only [List.mem_append, List.mem_singleton, List.mem_map] at h
      rcases h with (rfl | ⟨c, -, rfl⟩) | rfl
      · exact .inl ⟨_, rfl⟩
      · exact .inr ⟨by simp, .inl ⟨c, rfl⟩⟩
      · exact .inr ⟨by simp, .inr rfl⟩
    · simp only [List.nil_append, List.mem_append, List.mem_singleton, List.mem_map] at h
      rcases h with ⟨c, -, rfl⟩ | rfl
      · exact .inr ⟨by simp, .inl ⟨c, rfl⟩⟩
      · exact .inr ⟨by simp, .inr rfl⟩
    · cases h
  · cases h

section Fees

variable {s s' : Storage} {v : View} {root : Octets} {version : Hash} {g : Bool} (hv : Built v)
  (hroot : v.accountStateRootOpt = some root) (h : saveToStorage s v version g = .ok s')

include hv hroot h

/-- the fees of an epoch after a commit: gone with their counter, one more, or as they were -/
theorem saved_fees (w : ℤ) :
    getBlockFeeInfoCounter s' w = -1 ∧ (getWithdrawalEpochInfo s v).epoch ≠ w ∨
    (∃ info, v.blockFeeInfoOpt = some info ∧ (getWithdrawalEpochInfo s v).epoch = w ∧
      getBlockFeeInfoCounter s' w = getBlockFeeInfoCounter s w + 1 ∧
      s'.data (.blockFeeInfo w (getBlockFeeInfoCounter s w + 1)) = some (.blockFeeInfo info) ∧
      ∀ c ∈ rangeTo (getBlockFeeInfoCounter s w), s'.data (.blockFeeInfo w c) = s.data (.blockFeeInfo w c)) ∨
    ((getWithdrawalEpochInfo s v).epoch = w → v.blockFeeInfoOpt = none) ∧
      getBlockFeeInfoCounter s' w = getBlockFeeInfoCounter s w ∧
      ∀ c ∈ rangeTo (getBlockFeeInfoCounter s w), s'.data (.blockFeeInfo w c) = s.data (.blockFeeInfo w c) := by
  by_cases hgone : Key.blockFeeInfoCounter w ∈ removeList s v
  · refine .inl ⟨?_, ?_⟩
    · rw [getBlockFeeInfoCounter, saved_data hv hroot h, if_pos hgone]
    · rcases removeList_fees hgone with ⟨e, he⟩ | ⟨-, ⟨c, hc⟩ | he⟩
      · cases he
      · cases hc
      · injection he with he
        omega
  · have hrecord : ∀ c, Key.blockFeeInfo w c ∉ removeList s v := by
      intro c hc
      rcases removeList_fees hc with ⟨e, he⟩ | ⟨hcounter, ⟨c', hc'⟩ | he⟩
      · cases he
      · injection hc' with hw
        exact hgone (hw ▸ hcounter)
      · cases he
    have hcounter : s'.data (.blockFeeInfoCounter w) =
        (written s v root g (.blockFeeInfoCounter w)).or (s.data (.blockFeeInfoCounter w)) := by
      rw [saved_data hv hroot h, if_neg hgone]
    have hold : ∀ c ∈ rangeTo (getBlockFeeInfoCounter s w), s'.data (.blockFeeInfo w c) = s.data (.blockFeeInfo w c) := by
      intro c hc
      have hne : ¬ ((getWithdrawalEpochInfo s v).epoch = w ∧ c = getBlockFeeInfoCounter s w + 1) := by
        have := mem_rangeTo.1 hc
        omega
      rw [saved_data hv hroot h, if_neg (hrecord c), written, if_neg hne, Option.none_or]
    by_cases hw : (getWithdrawalEpochInfo s v).epoch = w
    · cases hinfo : v.blockFeeInfoOpt with
      | some info =>
        refine .inr (.inl ⟨info, rfl, hw, ?_, ?_, hold⟩)
        · rw [written, if_pos hw, hinfo] at hcounter
          rw [getBlockFeeInfoCounter, hcounter]
          rfl
        · rw [saved_data hv hroot h, if_neg (hrecord _), written, if_pos ⟨hw, rfl⟩, hinfo]
          rfl
      | none =>
        rw [written, if_pos hw, hinfo] at hcounter
        refine .inr (.inr ⟨fun _ => rfl, ?_, hold⟩)
        rw [getBlockFeeInfoCounter, hcounter]
        rfl
    · rw [written, if_neg hw, Option.none_or] at hcounter
      refine .inr (.inr ⟨fun heq => absurd heq hw, ?_, hold⟩)
      rw [getBlockFeeInfoCounter, hcounter]
      rfl

theorem WellFormed.saved (hs : WellFormed s) : WellFormed s' := by
  refine ⟨?_, ?_, ?_, ?_, ?_⟩
  · intro w
    have hcounter := hs.counters w
    rcases saved_fees hv hroot h w with ⟨hgone, -⟩ | ⟨-, -, -, hnext, -⟩ | ⟨-, hsame, -⟩
    · omega
    · omega
    · omega
  · intro w c hc
    rcases saved_fees hv hroot h w with ⟨hgone, -⟩ | ⟨info, -, -, hnext, hrecord, hold⟩ | ⟨-, hsame, hold⟩
    · have := mem_rangeTo.1 hc
      omega
    · by_cases hlast : c = getBlockFeeInfoCounter s w + 1
      · exact ⟨info, hlast ▸ hrecord⟩
      · have hmem : c ∈ rangeTo (getBlockFeeInfoCounter s w) := by
          have := mem_rangeTo.1 hc
          exact mem_rangeTo.2 (by omega)
        rw [hold c hmem]
        exact hs.records w c hmem
    · rw [hsame] at hc
      rw [hold c hc]
      exact hs.records w c hc
  · intro txHash x hx
    rw [saved_kept hv hroot h (by simp [Key.place]), Option.or_eq_some_iff] at hx
    rcases hx with hx | ⟨-, hx⟩
    · obtain ⟨r, -, rfl⟩ := Option.map_eq_some_iff.1 hx
      exact ⟨_, rfl⟩
    · exact hs.receipts txHash x hx
  · intro x hx
    rw [saved_kept hv hroot h (by simp [Key.place]), Option.or_eq_some_iff] at hx
    rcases hx with hx | ⟨-, hx⟩
    · obtain ⟨baseFee, -, rfl⟩ := Option.map_eq_some_iff.1 hx
      exact ⟨_, rfl⟩
    · exact hs.baseFee x hx
  · intro x hx
    rw [saved_kept hv hroot h (by simp [Key.place]), Option.or_eq_some_iff] at hx
    rcases hx with hx | ⟨-, hx⟩
    · rw [written] at hx
      split_ifs at hx
      injection hx with hx
      exact ⟨_, hx.symm⟩
    · exact hs.height x hx

/-- what a view shows of the fees of its epoch is what is recorded of them -/
theorem feePayments_kept (hs : WellFormed s) :
    getFeePayments s v (getWithdrawalEpochInfo s v).epoch = getFeePayments s' {} (getWithdrawalEpochInfo s v).epoch := by
  rcases saved_fees hv hroot h (getWithdrawalEpochInfo s v).epoch with ⟨-, hne⟩ |
    ⟨info, hinfo, -, hnext, hrecord, hold⟩ | ⟨hnone, hsame, hold⟩
  · exact absurd rfl hne
  · have hcounter := hs.counters (getWithdrawalEpochInfo s v).epoch
    have hrange := rangeTo_succ hcounter
    have hlast : [getBlockFeeInfoCounter s (getWithdrawalEpochInfo s v).epoch + 1].mapM
        (getBlockFeeInfo s' (getWithdrawalEpochInfo s v).epoch) = .ok [info] := by
      refine Fallible.mapM_ok (g := fun _ => info) fun c hc => ?_
      rw [List.mem_singleton.1 hc, getBlockFeeInfo, hrecord]
    have hempty : ({} : View).blockFeeInfoOpt.toList = [] := rfl
    simp only [getFeePayments, hnext, hrange, List.mapM_append, blockFees_congr hold, hlast, if_true, hinfo, hempty,
      List.append_nil,
      ite_self]
    cases (rangeTo (getBlockFeeInfoCounter s (getWithdrawalEpochInfo s v).epoch)).mapM
      (getBlockFeeInfo s (getWithdrawalEpochInfo s v).epoch) with
    | error e => rfl
    | ok older => rfl
  · have hempty : ({} : View).blockFeeInfoOpt.toList = [] := rfl
    simp only [getFeePayments, hsame, blockFees_congr hold, hnone rfl, hempty, List.append_nil, ite_self]

end Fees

theorem wellFormed_empty : WellFormed emptyStorage := by
  refine ⟨fun w => le_refl _, fun w c hc => ?_, ?_, ?_, ?_⟩
  · have hc := mem_rangeTo.1 hc
    simp only [getBlockFeeInfoCounter, emptyStorage] at hc
    omega
  · simp [emptyStorage]
  · simp [emptyStorage]
  · simp [emptyStorage]

theorem Persisted.wellFormed {s : Storage} (hs : Persisted s) : WellFormed s := by
  induction hs with
  | empty => exact wellFormed_empty
  | @commit s s' us version g _ h ih =>
    cases hroot : (view s us).accountStateRootOpt with
    | none =>
      rw [saveToStorage, hroot] at h
      cases h
    | some root => exact ih.saved (built_view s us) hroot h

theorem WellFormed.readable {s : Storage} (hs : WellFormed s) : Readable s := by
  refine ⟨?_, ?_, ?_, ?_⟩
  · intro w
    have hrecord : ∀ c ∈ rangeTo (getBlockFeeInfoCounter s w), ∃ info, getBlockFeeInfo s w c = .ok info ∧ True ∧
        () = () := by
      intro c hc
      obtain ⟨info, hinfo⟩ := hs.records w c hc
      exact ⟨info, by rw [getBlockFeeInfo, hinfo], trivial, rfl⟩
    obtain ⟨infos, hinfos, -, -⟩ := Fallible.mapM_described hrecord
    refine ⟨infos, ?_⟩
    simp [getFeePayments, hinfos]
  · intro txHash
    cases hstored : s.data (.receipt txHash) with
    | none => exact ⟨none, by simp [getTransactionReceipt, getTransactionReceiptFromStorage, hstored]⟩
    | some x =>
      obtain ⟨receipt, rfl⟩ := hs.receipts txHash x hstored
      exact ⟨some receipt, by simp [getTransactionReceipt, getTransactionReceiptFromStorage, hstored]⟩
  · cases hstored : s.data .baseFee with
    | none => exact ⟨FeeUtils.INITIAL_BASE_FEE, by simp [getNextBaseFee, getNextBaseFeeFromStorage, hstored, Except.map]⟩
    | some x =>
      obtain ⟨baseFee, rfl⟩ := hs.baseFee x hstored
      exact ⟨baseFee, by simp [getNextBaseFee, getNextBaseFeeFromStorage, hstored, Except.map]⟩
  · cases hstored : s.data .height with
    | none => exact ⟨0, by simp [readHeight, hstored]⟩
    | some x =>
      obtain ⟨height, rfl⟩ := hs.height x hstored
      exact ⟨height, by simp [readHeight, hstored]⟩

/-! ## Before and after -/

/-- every getter of the view returns what it returns on the storage of the commit; certificates that are cleaned up are not
compared -/
structure Agrees (s : Storage) (v : View) (s' : Storage) : Prop where
  withdrawalEpochInfo : getWithdrawalEpochInfo s v = getWithdrawalEpochInfo s' {}
  feePayments : getFeePayments s v (getWithdrawalEpochInfo s v).epoch =
    getFeePayments s' {} (getWithdrawalEpochInfo s v).epoch
  topQualityCertificate : ∀ epoch, Key.topQualityCertificate epoch ∉ removeList s v →
    getTopQualityCertificate s v epoch = getTopQualityCertificate s' {} epoch
  lastCertificateReferencedEpoch : lastCertificateReferencedEpoch s v = lastCertificateReferencedEpoch s' {}
  lastCertificateSidechainBlockId : lastCertificateSidechainBlockId s v = lastCertificateSidechainBlockId s' {}
  consensusEpochNumber : getConsensusEpochNumber s v = getConsensusEpochNumber s' {}
  hasCeased : viewHasCeased s v = viewHasCeased s' {}
  accountStateRoot : getAccountStateRoot s v = getAccountStateRoot s' {}
  forgerBlockCounters : getForgerBlockCounters s v = getForgerBlockCounters s' {}
  mcForgerPoolRewards : getMcForgerPoolRewards s v = getMcForgerPoolRewards s' {}
  transactionReceipt : ∀ txHash, getTransactionReceipt s v txHash = getTransactionReceipt s' {} txHash
  nextBaseFee : getNextBaseFee s v = getNextBaseFee s' {}
  forgerRewards : ∀ f consensusEpochStart maxNumOfEpochs,
    getForgerRewards s f consensusEpochStart maxNumOfEpochs = getForgerRewards s' f consensusEpochStart maxNumOfEpochs

/-- the view hides no receipt of the storage, has no payment to make, and does not start at consensus epoch 0 -/
structure Consistent (s : Storage) (v : View) : Prop where
  receipts : ∀ receipts, v.receiptsOpt = some receipts → ∀ txHash receipt,
    getTransactionReceiptFromStorage s txHash = .ok (some receipt) → txHash ∈ receipts.map Prod.fst
  payments : ∀ p ∈ v.delegatorPaymentsSeq, p.2 = 0
  consensusEpoch : v.consensusEpochOpt = some 0 → getConsensusEpochNumberFromStorage s ≠ none

section Getters

variable {s s' : Storage} {v : View} {root : Octets} {version : Hash} {g : Bool} (hv : Built v)
  (hroot : v.accountStateRootOpt = some root) (h : saveToStorage s v version g = .ok s')

include hv hroot h

/-- the getters that look on the view first and find there what is written -/
theorem cached_kept : getWithdrawalEpochInfo s v = getWithdrawalEpochInfo s' {} ∧
    lastCertificateReferencedEpoch s v = lastCertificateReferencedEpoch s' {} ∧
    lastCertificateSidechainBlockId s v = lastCertificateSidechainBlockId s' {} ∧
    viewHasCeased s v = viewHasCeased s' {} ∧
    getAccountStateRoot s v = getAccountStateRoot s' {} ∧
    getForgerBlockCounters s v = getForgerBlockCounters s' {} ∧
    getMcForgerPoolRewards s v = getMcForgerPoolRewards s' {} ∧
    getNextBaseFee s v = getNextBaseFee s' {} := by
  have hdata : ∀ k : Key, ¬ (k.place = 1 ∨ k.place = 4 ∨ k.place = 5) →
      s'.data k = (written s v root g k).or (s.data k) := fun k hk => saved_kept hv hroot h hk
  refine ⟨?_, ?_, ?_, ?_, ?_, ?_, ?_, ?_⟩
  · have hkey := hdata .withdrawalEpochInformation (by decide)
    cases hopt : v.withdrawalEpochInfoOpt <;>
      simp [getWithdrawalEpochInfo, getWithdrawalEpochInfoFromStorage, hkey, written, hopt]
  · have hkey := hdata .lastCertificateEpochNumber (by decide)
    cases hopt : v.lastCertificateReferencedEpochOpt <;>
      simp [lastCertificateReferencedEpoch, lastCertificateReferencedEpochFromStorage, hkey, written, hopt]
  · have hkey := hdata .lastCertificateSidechainBlockId (by decide)
    cases hopt : v.lastCertificateSidechainBlockIdOpt <;>
      simp [lastCertificateSidechainBlockId, lastCertificateSidechainBlockIdFromStorage, hkey, written, hopt]
  · have hkey := hdata .ceasingState (by decide)
    rcases hv.hasCeasedOpt with hopt | hopt <;> simp [viewHasCeased, hasCeased, hkey, written, hopt]
  · have hkey := hdata .accountStateRoot (by decide)
    simp [getAccountStateRoot, getAccountStateRootFromStorage, hkey, written, hroot]
  · have hkey := hdata .forgerBlockCounters (by decide)
    cases hopt : v.forgerBlockCountersOpt <;>
      simp [getForgerBlockCounters, getForgerBlockCountersFromStorage, hkey, written, hopt]
  · have hkey := hdata .mcForgerPoolRewards (by decide)
    cases hopt : v.mcForgerPoolRewardsOpt <;>
      simp [getMcForgerPoolRewards, getMcForgerPoolRewardsFromStorage, hkey, written, hopt]
  · have hkey := hdata .baseFee (by decide)
    cases hopt : v.nextBaseFeeOpt <;>
      simp [getNextBaseFee, getNextBaseFeeFromStorage, hkey, written, hopt, Except.map]

theorem topQualityCertificate_kept {epoch : ℤ} (hnot : Key.topQualityCertificate epoch ∉ removeList s v) :
    getTopQualityCertificate s v epoch = getTopQualityCertificate s' {} epoch := by
  have hkey := saved_data hv hroot h (.topQualityCertificate epoch)
  rw [if_neg hnot] at hkey
  cases hopt : v.topQualityCertificateOpt with
  | none => simp [getTopQualityCertificate, getTopQualityCertificateFromStorage, hkey, written, hopt]
  | some cert =>
    by_cases hepoch : cert.1 = epoch <;>
      simp [getTopQualityCertificate, getTopQualityCertificateFromStorage, hkey, written, hopt, hepoch]

theorem consensusEpochNumber_kept_iff : getConsensusEpochNumber s v = getConsensusEpochNumber s' {} ↔
    (v.consensusEpochOpt = some 0 → getConsensusEpochNumberFromStorage s ≠ none) := by
  have hkey := saved_kept hv hroot h (k := .consensusEpoch) (by decide)
  cases hopt : v.consensusEpochOpt with
  | none =>
    rw [written, hopt, Option.bind_none, Option.none_or] at hkey
    simp [getConsensusEpochNumber, getConsensusEpochNumberFromStorage, hkey, hopt]
  | some epoch =>
    rw [written, hopt, Option.bind_some] at hkey
    by_cases hsame : (getConsensusEpochNumberFromStorage s).getD 0 = epoch
    · -- nothing is written, so the storage must have the epoch already
      rw [if_neg (not_not.2 hsame), Option.none_or] at hkey
      have hstored : getConsensusEpochNumberFromStorage s' = getConsensusEpochNumberFromStorage s := by
        rw [getConsensusEpochNumberFromStorage, hkey, getConsensusEpochNumberFromStorage]
      cases hepoch : getConsensusEpochNumberFromStorage s with
      | none =>
        have hzero : epoch = 0 := by rw [← hsame, hepoch]; rfl
        simp [getConsensusEpochNumber, hopt, hstored, hepoch, hzero]
      | some stored =>
        have heq : stored = epoch := by rw [← hsame, hepoch]; rfl
        simp [getConsensusEpochNumber, hopt, hstored, hepoch, heq]
    · rw [if_pos hsame, Option.some_or] at hkey
      have hstored : getConsensusEpochNumberFromStorage s' = some epoch := by
        rw [getConsensusEpochNumberFromStorage, hkey]
      have hzero : epoch = 0 → getConsensusEpochNumberFromStorage s ≠ none := by
        rintro rfl hnone
        exact hsame (by rw [hnone]; rfl)
      simpa [getConsensusEpochNumber, hopt, hstored] using hzero

theorem transactionReceipt_kept_iff (hs : WellFormed s) :
    (∀ txHash, getTransactionReceipt s v txHash = getTransactionReceipt s' {} txHash) ↔
      ∀ receipts, v.receiptsOpt = some receipts → ∀ txHash receipt,
        getTransactionReceiptFromStorage s txHash = .ok (some receipt) → txHash ∈ receipts.map Prod.fst := by
  have hkey := fun txHash => saved_kept hv hroot h (k := .receipt txHash) (by simp [Key.place])
  cases hopt : v.receiptsOpt with
  | none =>
    have hsame : ∀ txHash, getTransactionReceipt s v txHash = getTransactionReceipt s' {} txHash := by
      intro txHash
      simp [getTransactionReceipt, getTransactionReceiptFromStorage, hkey, written, hopt]
    simp [hsame]
  | some receipts =>
    have hstored : ∀ txHash, getTransactionReceipt s' {} txHash =
        (receipts.find? fun r => r.1 = txHash).elim (getTransactionReceiptFromStorage s txHash) fun r => .ok (some r.2) := by
      intro txHash
      simp only [getTransactionReceipt, getTransactionReceiptFromStorage, hkey, written, hopt, Option.getD_some]
      cases receipts.find? fun r => r.1 = txHash <;> rfl
    have hview : ∀ txHash, getTransactionReceipt s v txHash =
        .ok ((receipts.find? fun r => r.1 = txHash).map Prod.snd) := by
      intro txHash
      rw [getTransactionReceipt, hopt]
    constructor
    · intro hsame receipts' heq txHash receipt hreceipt
      injection heq with heq
      subst heq
      by_contra hnot
      have hnone : receipts.find? (fun r => r.1 = txHash) = none := by
        refine List.find?_eq_none.2 fun r hr hrkey => hnot ?_
        exact List.mem_map.2 ⟨r, hr, by simpa using hrkey⟩
      have hboth := hsame txHash
      rw [hview, hstored, hnone, hreceipt] at hboth
      cases hboth
    · intro hall txHash
      rw [hview, hstored]
      cases hfind : receipts.find? fun r => r.1 = txHash with
      | some r => rfl
      | none =>
        have hnot : txHash ∉ receipts.map Prod.fst := by
          intro hmem
          obtain ⟨r, hr, hrkey⟩ := List.mem_map.1 hmem
          exact List.find?_eq_none.1 hfind r hr (by simpa using hrkey)
        obtain ⟨receipt, hreceipt⟩ := hs.readable.transactionReceipt txHash
        have hread : getTransactionReceiptFromStorage s txHash = .ok receipt := hreceipt
        cases receipt with
        | none => exact hread.symm
        | some receipt => exact absurd (hall receipts rfl txHash receipt hread) hnot

theorem forgerRewards_kept_iff :
    (∀ f consensusEpochStart maxNumOfEpochs, getForgerRewards s f consensusEpochStart maxNumOfEpochs =
        getForgerRewards s' f consensusEpochStart maxNumOfEpochs) ↔ ∀ p ∈ v.delegatorPaymentsSeq, p.2 = 0 := by
  constructor
  · intro hsame p hp
    obtain ⟨f, e, hkey⟩ := hv.delegatorPaymentsSeq p hp
    have hpaid := saved_payment hv hroot h hp
    have hone := hsame f e 1
    simp only [getForgerRewards, List.range_one, List.map_cons, List.map_nil, Nat.cast_zero, add_zero, ← hkey, hpaid,
      List.cons.injEq, and_true] at hone
    omega
  · intro hzero f consensusEpochStart maxNumOfEpochs
    refine List.map_congr_left fun epoch _ => ?_
    by_cases hpayment : ∃ p ∈ v.delegatorPaymentsSeq, p.1 = .forgerRewards f (consensusEpochStart + (epoch : ℕ))
    · obtain ⟨p, hp, hkey⟩ := hpayment
      rw [← hkey, saved_payment hv hroot h hp, hzero p hp, add_zero]
    · have hnone : v.delegatorPaymentsSeq.find?
          (fun p => p.1 = .forgerRewards f (consensusEpochStart + (epoch : ℕ))) = none := by
        refine List.find?_eq_none.2 fun p hp hkey => hpayment ?_
        exact ⟨p, hp, by simpa using hkey⟩
      have hdata := saved_kept hv hroot h (k := .forgerRewards f (consensusEpochStart + (epoch : ℕ)))
        (by simp [Key.place])
      rw [written, hnone, Option.map_none, Option.none_or] at hdata
      rw [getForgerReward, getForgerReward, hdata]

end Getters

theorem agrees_iff {s s' : Storage} {v : View} {version : Hash} {g : Bool} (hs : WellFormed s) (hv : Built v)
    (h : saveToStorage s v version g = .ok s') : Agrees s v s' ↔ Consistent s v := by
  cases hroot : v.accountStateRootOpt with
  | none =>
    rw [saveToStorage, hroot] at h
    cases h
  | some root =>
    constructor
    · intro hsame
      exact ⟨(transactionReceipt_kept_iff hv hroot h hs).1 hsame.transactionReceipt,
        (forgerRewards_kept_iff hv hroot h).1 hsame.forgerRewards,
        (consensusEpochNumber_kept_iff hv hroot h).1 hsame.consensusEpochNumber⟩
    · intro hconsistent
      obtain ⟨hinfo, hlastEpoch, hlastId, hceased, hstateRoot, hcounters, hrewards, hbaseFee⟩ := cached_kept hv hroot h
      exact ⟨hinfo, feePayments_kept hv hroot h hs, fun _ hnot => topQualityCertificate_kept hv hroot h hnot, hlastEpoch,
        hlastId, (consensusEpochNumber_kept_iff hv hroot h).2 hconsistent.consensusEpoch, hceased, hstateRoot, hcounters,
        hrewards, (transactionReceipt_kept_iff hv hroot h hs).2 hconsistent.receipts, hbaseFee,
        (forgerRewards_kept_iff hv hroot h).2 hconsistent.payments⟩

/-- **The view and its commit.** From every persisted storage, and after any updates of a block: every getter of the view
returns just before the commit what it returns just after it, and none of them throws, exactly if the receipts on the view
are those of every stored transaction, no payment to delegators is pending, and the view does not bring consensus epoch 0
to a storage that has no epoch. -/
theorem reads_own_writes_iff (s : Storage) (hs : Persisted s) (us : List Update) (version : Hash) (isGenesisParent : Bool)
    (s' : Storage) (h : saveToStorage s (view s us) version isGenesisParent = .ok s') :
    (Agrees s (view s us) s' ∧ Readable s') ↔ Consistent s (view s us) := by
  have hagrees := agrees_iff hs.wellFormed (built_view s us) h
  constructor
  · intro hboth
    exact hagrees.1 hboth.1
  · intro hconsistent
    exact ⟨hagrees.2 hconsistent, (hs.commit h).wellFormed.readable⟩

/-- the updates of a block in consensus epoch 40 with a receipt for each of the transactions -/
def sampleUpdates (index : ℤ) (receipts : List (Hash × Octets)) : List Update :=
  [.updateWithdrawalEpochInfo ⟨0, index⟩, .updateConsensusEpochNumber 40, .updateFeePaymentInfo ⟨100, 0, 9, none⟩,
    .updateForgerBlockCounter ⟨9, none⟩, .updateTransactionReceipts receipts, .updateNextBaseFee 100,
    .updateAccountStateRoot [1]]

/-- the storage that a commit of the updates leaves -/
def committed (s : Storage) (us : List Update) (version : Hash) : Storage :=
  ((saveToStorage s (view s us) version false).toOption).getD s

theorem reads_own_writes_first_block :
    Agrees emptyStorage (view emptyStorage (sampleUpdates 1 [(7, [5])]))
        (committed emptyStorage (sampleUpdates 1 [(7, [5])]) 1) ∧
      Readable (committed emptyStorage (sampleUpdates 1 [(7, [5])]) 1) := by
  have hconsistent : Consistent emptyStorage (view emptyStorage (sampleUpdates 1 [(7, [5])])) := by
    refine ⟨?_, ?_, ?_⟩
    · intro receipts _ txHash receipt hreceipt
      cases hreceipt
    · intro p hp
      cases hp
    · intro hzero
      cases hzero
  exact (reads_own_writes_iff emptyStorage .empty (sampleUpdates 1 [(7, [5])]) 1 false
    (committed emptyStorage (sampleUpdates 1 [(7, [5])]) 1) rfl).2 hconsistent

/-- The second block of a chain. Its view has a receipt for its own transaction and does not find that of the first block,
which is in the storage all the time and is found again after the commit. -/
theorem reads_own_writes_hides_earlier_receipts :
    ∃ s us version s', Persisted s ∧ saveToStorage s (view s us) version false = .ok s' ∧
      getTransactionReceipt s (view s us) 7 = .ok none ∧ getTransactionReceipt s' {} 7 = .ok (some [5]) ∧
      ¬ Agrees s (view s us) s' := by
  have hfirst : Persisted (committed emptyStorage (sampleUpdates 1 [(7, [5])]) 1) :=
    @Persisted.commit _ _ (sampleUpdates 1 [(7, [5])]) 1 false .empty rfl
  have hbefore : getTransactionReceipt (committed emptyStorage (sampleUpdates 1 [(7, [5])]) 1)
      (view (committed emptyStorage (sampleUpdates 1 [(7, [5])]) 1) (sampleUpdates 2 [(8, [6])])) 7 = .ok none := by
    decide +kernel
  have hafter : getTransactionReceipt (committed (committed emptyStorage (sampleUpdates 1 [(7, [5])]) 1)
      (sampleUpdates 2 [(8, [6])]) 2) {} 7 = .ok (some [5]) := by
    decide +kernel
  refine ⟨_, sampleUpdates 2 [(8, [6])], 2, _, hfirst, rfl, hbefore, hafter, ?_⟩
  intro hagrees
  have hsame := hagrees.transactionReceipt 7
  rw [hbefore] at hsame
  cases hsame.trans hafter

end SidechainsSdk.Account.MetadataView
