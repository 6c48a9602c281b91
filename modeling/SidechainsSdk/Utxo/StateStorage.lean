/-
The state storage of the UTXO sidechain (`utxo/storage/SidechainStateStorage.scala`): keys and values of one database, and
the batch that an update writes.

Keys are hashes of distinct texts and are taken as distinct; values are those before serialization. Withdrawal requests and
block fees are counted families of records, one family for each withdrawal epoch; the counters are `Int`s that stay far
below their range. A batch with a repeated key is refused, and then the storage stays as it was.

- `Reads`: the storage holds the requests, fees, epoch and last certificate of some contents (`StateContents`).
- `Reads.update`: an update of the storage is the update of these contents.
- `Reads.getWithdrawalRequests_eq`, `Reads.getFeePayments_eq`: the getters find all records.
-/
import Mathlib.Tactic
import SidechainsSdk.Core.CountedRecords
import SidechainsSdk.Core.Fallible
import SidechainsSdk.Core.WriteBatch
import SidechainsSdk.Utxo.Ledger

namespace SidechainsSdk.Utxo.StateStorage

open Ledger Fallible CountedRecords WriteOp
open Withdrawals (WithdrawalEpochInfo)
open StateContents (Update)

inductive Key where
  | box (id : BoxId)
  | withdrawalEpochInformation
  | consensusEpoch
  | ceasingState
  | forgerListIndex
  | withdrawalEpochCounter (withdrawalEpoch : ℤ)
  | withdrawalRequests (withdrawalEpoch counter : ℤ)
  | certifiersStorage (withdrawalEpoch : ℤ)
  | keyRotationProof (withdrawalEpoch indexOfSigner keyType : ℤ)
  | topQualityCertificate (referencedWithdrawalEpoch : ℤ)
  | lastCertificateEpochNumber
  | lastCertificateSidechainBlockId
  | blockFeeInfoCounter (withdrawalEpochNumber : ℤ)
  | blockFeeInfo (withdrawalEpochNumber counter : ℤ)
  | utxoMerkleTreeRoot (withdrawalEpochNumber : ℤ)
  deriving DecidableEq

inductive Value where
  | box (b : Box)
  | withdrawalEpochInfo (info : WithdrawalEpochInfo)
  | int (n : ℤ)
  | withdrawalRequests (boxes : List Box)
  | certifiersKeys (keys : CertifiersKeys)
  | keyRotationProof (proof : KeyRotationProof)
  | certificate (certificate : WithdrawalEpochCertificate)
  | blockId (id : ModifierId)
  | blockFeeInfo (info : BlockFeeInfo)
  | root (root : Hash)
  | forgerList (forgerIndexes : List ℕ)
  | emptyArray

structure Storage where
  data : Key → Option Value
  versions : List ModifierId

def Storage.empty : Storage := ⟨fun _ => none, []⟩

/-- `VersionedLevelDbStorageAdapter.update` -/
def Storage.update (s : Storage) (version : ModifierId) (toUpdate : List (Key × Value)) (toRemove : List Key) :
    Except String Storage := do
  failIf (¬ (toUpdate.map Prod.fst).Nodup) "duplicate key in `toUpdate`"
  failIf (¬ toRemove.Nodup) "duplicate key in `toRemove`"
  failIf (version ∈ s.versions) "Version is already exist in storage"
  return ⟨fun k => updateAt toUpdate toRemove k (s.data k), version :: s.versions⟩

/-! ## Getters -/

section Getters

variable (s : Storage)

def getWithdrawalEpochInfo : Option WithdrawalEpochInfo :=
  match s.data .withdrawalEpochInformation with
  | some (.withdrawalEpochInfo info) => some info
  | _ => none

def getWithdrawalEpochCounter (epoch : ℤ) : ℤ :=
  match s.data (.withdrawalEpochCounter epoch) with
  | some (.int n) => n
  | _ => -1

def getBlockFeeInfoCounter (withdrawalEpochNumber : ℤ) : ℤ :=
  match s.data (.blockFeeInfoCounter withdrawalEpochNumber) with
  | some (.int n) => n
  | _ => -1

def getBlockFeeInfo (withdrawalEpochNumber counter : ℤ) : Except String BlockFeeInfo :=
  match s.data (.blockFeeInfo withdrawalEpochNumber counter) with
  | some (.blockFeeInfo info) => .ok info
  | some _ => .error "Error while fee payment parsing."
  | none => .error "Error while fee payments retrieving: record expected to exist."

def getFeePayments (withdrawalEpochNumber : ℤ) : Except String (List BlockFeeInfo) :=
  (rangeTo (getBlockFeeInfoCounter s withdrawalEpochNumber)).mapM (getBlockFeeInfo s withdrawalEpochNumber)

def getWithdrawalRequestsRecord (withdrawalEpoch counter : ℤ) : Except String (List Box) :=
  match s.data (.withdrawalRequests withdrawalEpoch counter) with
  | some (.withdrawalRequests boxes) => .ok boxes
  | some _ => .error "Error while withdrawal requests parsing."
  | none => .error "Error while withdrawal requests retrieving: record expected to exist."

def getWithdrawalRequests (withdrawalEpoch : ℤ) : Except String (List Box) := do
  let records ← (rangeTo (getWithdrawalEpochCounter s withdrawalEpoch)).mapM (getWithdrawalRequestsRecord s withdrawalEpoch)
  return records.flatten

def getLastCertificateReferencedEpoch : Option ℤ :=
  match s.data .lastCertificateEpochNumber with
  | some (.int n) => some n
  | _ => none

def getConsensusEpochNumber : Option ℤ :=
  match s.data .consensusEpoch with
  | some (.int n) => some n
  | _ => none

def getForgerList : Option (List ℕ) :=
  match s.data .forgerListIndex with
  | some (.forgerList forgerIndexes) => some forgerIndexes
  | _ => none

end Getters

/-! ## Update -/

section UpdateLists

variable (params : NetworkParams) (s : Storage) (u : Update)

/-- `KeyRotationProofTypes` -/
def keyTypeId : KeyRotationProofType → ℤ
  | .signing => 0
  | .master => 1

def forgerListUpdate : Except String (List (Key × Value)) :=
  match getForgerList s with
  | some forgerList =>
    if u.forgerListIndexes = [] then .ok []
    else if u.forgerListIndexes.all fun i => 0 ≤ i ∧ i < forgerList.length then
      .ok [(.forgerListIndex, .forgerList (StateContents.updateIndexes forgerList u.forgerListIndexes))]
    else .error "Forger index to update is out of bound!"
  | none => .ok [(.forgerListIndex, .forgerList (List.replicate params.allowedForgersList.length 0))]

/-- the entries before those of the forger list -/
def updateList : List (Key × Value) :=
  let epoch := u.withdrawalEpochInfo.epoch
  u.boxUpdateList.map (fun b => (Key.box b.id, Value.box b)) ++
  [(.withdrawalEpochInformation, .withdrawalEpochInfo u.withdrawalEpochInfo)] ++
  (if u.withdrawalRequestAppendSeq ≠ [] then
    let nextWithdrawalEpochCounter := getWithdrawalEpochCounter s epoch + 1
    [(Key.withdrawalEpochCounter epoch, Value.int nextWithdrawalEpochCounter),
      (.withdrawalRequests epoch nextWithdrawalEpochCounter, .withdrawalRequests u.withdrawalRequestAppendSeq)]
  else []) ++
  u.certifiersKeysOption.toList.map (fun keys => (Key.certifiersStorage epoch, Value.certifiersKeys keys)) ++
  u.keyRotationProofs.map (fun proof =>
    (Key.keyRotationProof epoch proof.index (keyTypeId proof.keyType), Value.keyRotationProof proof)) ++
  u.utxoMerkleTreeRootOpt.toList.map (fun root => (Key.utxoMerkleTreeRoot epoch, Value.root root)) ++
  (if params.isNonCeasing then
    u.topQualityCertificateOpt.toList.map fun _ => (Key.lastCertificateSidechainBlockId, Value.blockId u.version)
  else []) ++
  u.topQualityCertificateOpt.toList.flatMap (fun certificate =>
    [(Key.lastCertificateEpochNumber, Value.int certificate.epochNumber),
      (.topQualityCertificate certificate.epochNumber, .certificate certificate)]) ++
  (let nextBlockFeeInfoCounter := getBlockFeeInfoCounter s epoch + 1
  [(Key.blockFeeInfoCounter epoch, Value.int nextBlockFeeInfoCounter),
    (.blockFeeInfo epoch nextBlockFeeInfoCounter, .blockFeeInfo u.blockFeeInfo)]) ++
  (if (getConsensusEpochNumber s).getD 0 ≠ u.consensusEpoch then [(Key.consensusEpoch, Value.int u.consensusEpoch)]
  else []) ++
  (if u.scHasCeased then [(Key.ceasingState, Value.emptyArray)] else [])

def isWithdrawalEpochSwitched : Bool :=
  match getWithdrawalEpochInfo s with
  | some storedEpochInfo => storedEpochInfo.epoch ≠ u.withdrawalEpochInfo.epoch
  | none => false

/-- the requests of an epoch and their counter -/
def requestKeys (epoch : ℤ) : List Key :=
  (rangeTo (getWithdrawalEpochCounter s epoch)).map (.withdrawalRequests epoch) ++ [.withdrawalEpochCounter epoch]

/-- the fees of an epoch and their counter -/
def blockFeeInfoKeys (epoch : ℤ) : List Key :=
  (rangeTo (getBlockFeeInfoCounter s epoch)).map (.blockFeeInfo epoch) ++ [.blockFeeInfoCounter epoch]

/-- the proofs of every signer for every type of key -/
def keyRotationProofKeys (epoch : ℤ) : List Key :=
  (List.range params.signersPublicKeys.length).flatMap fun indexOfSigner : ℕ =>
    [.keyRotationProof epoch indexOfSigner 0, .keyRotationProof epoch indexOfSigner 1]

/-- `from until to` -/
def rangeUntil (first last : ℤ) : List ℤ := (List.range (last - first).toNat).map fun i : ℕ => first + i

def removedAtSwitch : List Key :=
  let epoch := u.withdrawalEpochInfo.epoch
  if isWithdrawalEpochSwitched s u then
    (if ¬ params.isNonCeasing then
      requestKeys s (epoch - 2) ++
        [.topQualityCertificate (epoch - 4), .utxoMerkleTreeRoot (epoch - 4), .certifiersStorage (epoch - 4)] ++
        keyRotationProofKeys params (epoch - 4)
    else []) ++ blockFeeInfoKeys s (epoch - 1)
  else []

def removedByCertificate : List Key :=
  if params.isNonCeasing then
    u.topQualityCertificateOpt.toList.flatMap fun certificate =>
      let prevCertReferencedEpoch := (getLastCertificateReferencedEpoch s).getD (-1)
      (rangeUntil (prevCertReferencedEpoch + 1) certificate.epochNumber).flatMap fun outdatedEpochNumber =>
        requestKeys s outdatedEpochNumber ++
          [.topQualityCertificate outdatedEpochNumber, .certifiersStorage outdatedEpochNumber] ++
          keyRotationProofKeys params outdatedEpochNumber
  else []

def removeList : List Key :=
  u.boxIdsRemoveSet.map .box ++ removedAtSwitch params s u ++ removedByCertificate params s u

def update : Except String Storage := do
  let forgerList ← forgerListUpdate params s u
  s.update u.version (updateList params s u ++ forgerList) (removeList params s u)

end UpdateLists

/-! ## What a batch does to each family -/

/-- the families of records, the two entries an update depends on, and the rest -/
inductive Group where
  | requests (epoch : ℤ)
  | fees (epoch : ℤ)
  | epochInfo
  | lastCertificate
  | other
  deriving DecidableEq

def Key.group : Key → Group
  | .withdrawalEpochCounter epoch | .withdrawalRequests epoch _ => .requests epoch
  | .blockFeeInfoCounter epoch | .blockFeeInfo epoch _ => .fees epoch
  | .withdrawalEpochInformation => .epochInfo
  | .lastCertificateEpochNumber => .lastCertificate
  | _ => .other

section Batch

variable {params : NetworkParams} {s : Storage} {u : Update}

theorem mem_rangeUntil {first last e : ℤ} : e ∈ rangeUntil first last ↔ first ≤ e ∧ e < last := by
  simp only [rangeUntil, List.mem_map, List.mem_range]
  constructor
  · rintro ⟨i, hi, rfl⟩
    omega
  · rintro ⟨hlow, hhigh⟩
    exact ⟨(e - first).toNat, by omega, by omega⟩

theorem group_requestKeys {e : ℤ} : ∀ k ∈ requestKeys s e, k.group = .requests e := by
  intro k hk
  rcases List.mem_append.1 hk with hk | hk
  · obtain ⟨c, -, rfl⟩ := List.mem_map.1 hk
    rfl
  · rw [List.mem_singleton.1 hk]
    rfl

theorem group_blockFeeInfoKeys {e : ℤ} : ∀ k ∈ blockFeeInfoKeys s e, k.group = .fees e := by
  intro k hk
  rcases List.mem_append.1 hk with hk | hk
  · obtain ⟨c, -, rfl⟩ := List.mem_map.1 hk
    rfl
  · rw [List.mem_singleton.1 hk]
    rfl

theorem group_keyRotationProofKeys {e : ℤ} : ∀ k ∈ keyRotationProofKeys params e, k.group = .other := by
  intro k hk
  obtain ⟨i, -, hk⟩ := List.mem_flatMap.1 hk
  rcases List.mem_pair.1 hk with rfl | rfl <;> rfl

/-- the epochs whose requests are removed -/
def Outdated (params : NetworkParams) (s : Storage) (u : Update) (e : ℤ) : Prop :=
  (params.isNonCeasing = false ∧ isWithdrawalEpochSwitched s u = true ∧ e = u.withdrawalEpochInfo.epoch - 2) ∨
  (params.isNonCeasing = true ∧ ∃ certificate ∈ u.topQualityCertificateOpt,
    (getLastCertificateReferencedEpoch s).getD (-1) + 1 ≤ e ∧ e < certificate.epochNumber)

theorem group_removeList {k : Key} (h : k ∈ removeList params s u) :
    k.group = .other ∨ (∃ e, k.group = .requests e ∧ Outdated params s u e) ∨
      (k.group = .fees (u.withdrawalEpochInfo.epoch - 1) ∧ isWithdrawalEpochSwitched s u = true) := by
  rcases List.mem_append.1 h with h | h
  · rcases List.mem_append.1 h with h | h
    · obtain ⟨id, -, rfl⟩ := List.mem_map.1 h
      exact .inl rfl
    · unfold removedAtSwitch at h
      split_ifs at h with hswitched hnonCeasing
      · exact .inr (.inr ⟨group_blockFeeInfoKeys k h, hswitched⟩)
      · rcases List.mem_append.1 h with h | h
        · rcases List.mem_append.1 h with h | h
          · rcases List.mem_append.1 h with h | h
            · exact .inr (.inl ⟨_, group_requestKeys k h, .inl ⟨by simpa using hnonCeasing, hswitched, rfl⟩⟩)
            · simp only [List.mem_cons, List.not_mem_nil, or_false] at h
              rcases h with rfl | rfl | rfl <;> exact .inl rfl
          · exact .inl (group_keyRotationProofKeys k h)
        · exact .inr (.inr ⟨group_blockFeeInfoKeys k h, hswitched⟩)
      · cases h
  · unfold removedByCertificate at h
    split_ifs at h with hnonCeasing
    · obtain ⟨certificate, hcertificate, h⟩ := List.mem_flatMap.1 h
      obtain ⟨e, he, h⟩ := List.mem_flatMap.1 h
      rcases List.mem_append.1 h with h | h
      · rcases List.mem_append.1 h with h | h
        · exact .inr (.inl ⟨e, group_requestKeys k h, .inr ⟨hnonCeasing, certificate,
            Option.mem_toList.1 hcertificate, mem_rangeUntil.1 he⟩⟩)
        · rcases List.mem_pair.1 h with rfl | rfl <;> exact .inl rfl
      · exact .inl (group_keyRotationProofKeys k h)
    · cases h

theorem counter_mem_removeList {e : ℤ} (h : Outdated params s u e) :
    Key.withdrawalEpochCounter e ∈ removeList params s u := by
  have hcounter : Key.withdrawalEpochCounter e ∈ requestKeys s e := List.mem_append_right _ (List.mem_singleton.2 rfl)
  rcases h with ⟨hceasing, hswitched, rfl⟩ | ⟨hnonCeasing, certificate, hcertificate, he⟩
  · refine List.mem_append_left _ (List.mem_append_right _ ?_)
    rw [removedAtSwitch, if_pos hswitched, if_pos (by simp [hceasing])]
    simp only [List.mem_append]
    exact .inl (.inl (.inl hcounter))
  · refine List.mem_append_right _ ?_
    rw [removedByCertificate, if_pos hnonCeasing]
    refine List.mem_flatMap.2 ⟨certificate, Option.mem_toList.2 hcertificate, ?_⟩
    refine List.mem_flatMap.2 ⟨e, mem_rangeUntil.2 he, ?_⟩
    simp only [List.mem_append]
    exact .inl (.inl hcounter)

theorem feeCounter_mem_removeList (h : isWithdrawalEpochSwitched s u = true) :
    Key.blockFeeInfoCounter (u.withdrawalEpochInfo.epoch - 1) ∈ removeList params s u := by
  refine List.mem_append_left _ (List.mem_append_right _ ?_)
  rw [removedAtSwitch, if_pos h]
  exact List.mem_append_right _ (List.mem_append_right _ (List.mem_singleton.2 rfl))

/-- the entries of the families; all others belong to other groups -/
theorem group_updateList {entry : Key × Value} (h : entry ∈ updateList params s u) :
    entry.1.group = .other ∨ entry = (.withdrawalEpochInformation, .withdrawalEpochInfo u.withdrawalEpochInfo) ∨
    (u.withdrawalRequestAppendSeq ≠ [] ∧
      (entry = (.withdrawalEpochCounter u.withdrawalEpochInfo.epoch,
        .int (getWithdrawalEpochCounter s u.withdrawalEpochInfo.epoch + 1)) ∨
      entry = (.withdrawalRequests u.withdrawalEpochInfo.epoch
          (getWithdrawalEpochCounter s u.withdrawalEpochInfo.epoch + 1),
        .withdrawalRequests u.withdrawalRequestAppendSeq))) ∨
    (∃ certificate ∈ u.topQualityCertificateOpt,
      entry = (.lastCertificateEpochNumber, .int certificate.epochNumber)) ∨
    entry = (.blockFeeInfoCounter u.withdrawalEpochInfo.epoch,
      .int (getBlockFeeInfoCounter s u.withdrawalEpochInfo.epoch + 1)) ∨
    entry = (.blockFeeInfo u.withdrawalEpochInfo.epoch (getBlockFeeInfoCounter s u.withdrawalEpochInfo.epoch + 1),
      .blockFeeInfo u.blockFeeInfo) := by
  simp only [updateList, List.mem_append, or_assoc] at h
  rcases h with h | h | h | h | h | h | h | h | h | h | h
  · obtain ⟨b, -, rfl⟩ := List.mem_map.1 h
    exact .inl rfl
  · exact .inr (.inl (List.mem_singleton.1 h))
  · split_ifs at h with happend
    · exact .inr (.inr (.inl ⟨happend, List.mem_pair.1 h⟩))
    · cases h
  · obtain ⟨keys, -, rfl⟩ := List.mem_map.1 h
    exact .inl rfl
  · obtain ⟨proof, -, rfl⟩ := List.mem_map.1 h
    exact .inl rfl
  · obtain ⟨root, -, rfl⟩ := List.mem_map.1 h
    exact .inl rfl
  · split_ifs at h
    · obtain ⟨certificate, -, rfl⟩ := List.mem_map.1 h
      exact .inl rfl
    · cases h
  · obtain ⟨certificate, hcertificate, h⟩ := List.mem_flatMap.1 h
    rcases List.mem_pair.1 h with rfl | rfl
    · exact .inr (.inr (.inr (.inl ⟨certificate, Option.mem_toList.1 hcertificate, rfl⟩)))
    · exact .inl rfl
  · exact .inr (.inr (.inr (.inr (List.mem_pair.1 h))))
  · split_ifs at h
    · rw [List.mem_singleton.1 h]
      exact .inl rfl
    · cases h
  · split_ifs at h
    · rw [List.mem_singleton.1 h]
      exact .inl rfl
    · cases h

theorem group_forgerListUpdate {l : List (Key × Value)} (h : forgerListUpdate params s u = .ok l) :
    ∀ entry ∈ l, entry.1.group = .other := by
  unfold forgerListUpdate at h
  intro entry hentry
  split at h
  · split_ifs at h
    · cases h
      cases hentry
    · cases h
      rw [List.mem_singleton.1 hentry]
      rfl
  · cases h
    rw [List.mem_singleton.1 hentry]
    rfl

end Batch

/-! ## The contents of a storage -/

def requestsFamily (epoch : ℤ) : Family Key Value (List Box) where
  counterKey := .withdrawalEpochCounter epoch
  recordKey := .withdrawalRequests epoch
  counter := .int
  record := .withdrawalRequests

def feesFamily (epoch : ℤ) : Family Key Value BlockFeeInfo where
  counterKey := .blockFeeInfoCounter epoch
  recordKey := .blockFeeInfo epoch
  counter := .int
  record := .blockFeeInfo

/-- the storage holds the requests, the fees, the epoch and the last certificate of the contents; the requests of an epoch
are in one record for each block that has some -/
structure Reads (s : Storage) (c : StateContents) : Prop where
  epochInfo : s.data .withdrawalEpochInformation = c.withdrawalEpochInfo.map .withdrawalEpochInfo
  lastCertificate : s.data .lastCertificateEpochNumber = c.lastCertificateReferencedEpoch.map .int
  requests : ∀ e, ∃ records, Holds (requestsFamily e) s.data records ∧ records.flatten = c.withdrawalRequests e
  fees : ∀ e, Holds (feesFamily e) s.data (c.blockFeeInfos e)

theorem reads_empty : Reads .empty .empty where
  epochInfo := rfl
  lastCertificate := rfl
  requests := fun _ => ⟨[], .of_no_counter rfl, rfl⟩
  fees := fun _ => .of_no_counter rfl

theorem counter_of_requests {s : Storage} {e : ℤ} {records : List (List Box)}
    (h : Holds (requestsFamily e) s.data records) : getWithdrawalEpochCounter s e = records.length - 1 := by
  have hcounter : s.data (.withdrawalEpochCounter e) = _ := h.counter
  rw [getWithdrawalEpochCounter, hcounter]
  split_ifs with hnil
  · rw [hnil]
    rfl
  · rfl

theorem counter_of_fees {s : Storage} {e : ℤ} {infos : List BlockFeeInfo} (h : Holds (feesFamily e) s.data infos) :
    getBlockFeeInfoCounter s e = infos.length - 1 := by
  have hcounter : s.data (.blockFeeInfoCounter e) = _ := h.counter
  rw [getBlockFeeInfoCounter, hcounter]
  split_ifs with hnil
  · rw [hnil]
    rfl
  · rfl

namespace Reads

variable {params : NetworkParams} {s s' : Storage} {c : StateContents} {u : Update}

/-- no record is missing -/
theorem getWithdrawalRequests_eq (h : Reads s c) (e : ℤ) : getWithdrawalRequests s e = .ok (c.withdrawalRequests e) := by
  obtain ⟨records, hrecords, hflatten⟩ := h.requests e
  have hread : (rangeTo ((records.length : ℤ) - 1)).mapM (getWithdrawalRequestsRecord s e) = .ok records := by
    refine hrecords.read fun n boxes hboxes => ?_
    have hdata : s.data (.withdrawalRequests e n) = some (.withdrawalRequests boxes) := hboxes
    rw [getWithdrawalRequestsRecord, hdata]
  rw [getWithdrawalRequests, counter_of_requests hrecords, hread, ← hflatten]
  rfl

theorem getFeePayments_eq (h : Reads s c) (e : ℤ) : getFeePayments s e = .ok (c.blockFeeInfos e) := by
  have hread : (rangeTo (((c.blockFeeInfos e).length : ℤ) - 1)).mapM (getBlockFeeInfo s e) = .ok (c.blockFeeInfos e) := by
    refine (h.fees e).read fun n info hinfo => ?_
    have hdata : s.data (.blockFeeInfo e n) = some (.blockFeeInfo info) := hinfo
    rw [getBlockFeeInfo, hdata]
  rw [getFeePayments, counter_of_fees (h.fees e), hread]

theorem getWithdrawalEpochInfo_eq (h : Reads s c) : getWithdrawalEpochInfo s = c.withdrawalEpochInfo := by
  rw [getWithdrawalEpochInfo, h.epochInfo]
  cases c.withdrawalEpochInfo <;> rfl

theorem getLastCertificateReferencedEpoch_eq (h : Reads s c) :
    getLastCertificateReferencedEpoch s = c.lastCertificateReferencedEpoch := by
  rw [getLastCertificateReferencedEpoch, h.lastCertificate]
  cases c.lastCertificateReferencedEpoch <;> rfl

theorem switched_eq (h : Reads s c) : StateStorage.isWithdrawalEpochSwitched s u = c.isWithdrawalEpochSwitched u := by
  unfold StateStorage.isWithdrawalEpochSwitched StateContents.isWithdrawalEpochSwitched
  generalize hinfo : getWithdrawalEpochInfo s = info
  obtain rfl := hinfo.symm.trans h.getWithdrawalEpochInfo_eq
  cases c.withdrawalEpochInfo <;> rfl

theorem outdated_iff (h : Reads s c) (e : ℤ) :
    Outdated params s u e ↔ c.outdatedByEpoch params u 2 e = true ∨ c.outdatedByCertificate params u e = true := by
  unfold Outdated StateContents.outdatedByEpoch StateContents.outdatedByCertificate
  rw [h.switched_eq, h.getLastCertificateReferencedEpoch_eq]
  cases params.isNonCeasing <;> cases u.topQualityCertificateOpt <;> simp

end Reads

/-! ## One update -/

section Updates

variable {params : NetworkParams} {s s' : Storage} {c : StateContents} {u : Update}

/-- the batch that is written -/
structure Written (params : NetworkParams) (u : Update) (s s' : Storage) (toUpdate : List (Key × Value)) : Prop where
  nodup : (toUpdate.map Prod.fst).Nodup
  entries : ∀ entry ∈ updateList params s u, entry ∈ toUpdate
  only : ∀ entry ∈ toUpdate, entry ∈ updateList params s u ∨ entry.1.group = .other
  data : ∀ k, s'.data k = updateAt toUpdate (removeList params s u) k (s.data k)

theorem written_of_update (h : update params s u = .ok s') : ∃ toUpdate, Written params u s s' toUpdate := by
  obtain ⟨forgerList, hforgerList, h⟩ := bind_ok h
  simp only [Storage.update, failIf_bind_ok] at h
  obtain ⟨hnodup, -, -, h⟩ := h
  generalize htoUpdate : updateList params s u ++ forgerList = toUpdate at h hnodup
  obtain rfl := Except.ok.inj h
  refine ⟨toUpdate, not_not.1 hnodup, ?_, ?_, fun k => rfl⟩
  · intro entry hentry
    rw [← htoUpdate]
    exact List.mem_append_left _ hentry
  · intro entry hentry
    rw [← htoUpdate] at hentry
    rcases List.mem_append.1 hentry with hentry | hentry
    · exact .inl hentry
    · exact .inr (group_forgerListUpdate hforgerList entry hentry)

theorem mem_removeList_requests {e : ℤ} {k : Key} (hk : k.group = .requests e) (h : k ∈ removeList params s u) :
    Outdated params s u e := by
  rcases group_removeList h with hgroup | ⟨e', hgroup, houtdated⟩ | ⟨hgroup, -⟩
  · rw [hk] at hgroup
    cases hgroup
  · rw [hk] at hgroup
    cases hgroup
    exact houtdated
  · rw [hk] at hgroup
    cases hgroup

theorem mem_removeList_fees {e : ℤ} {k : Key} (hk : k.group = .fees e) (h : k ∈ removeList params s u) :
    isWithdrawalEpochSwitched s u = true ∧ e = u.withdrawalEpochInfo.epoch - 1 := by
  rcases group_removeList h with hgroup | ⟨e', hgroup, -⟩ | ⟨hgroup, hswitched⟩
  · rw [hk] at hgroup
    cases hgroup
  · rw [hk] at hgroup
    cases hgroup
  · rw [hk] at hgroup
    cases hgroup
    exact ⟨hswitched, rfl⟩

/-- the two entries besides the families are never removed -/
theorem not_removed {k : Key} (hk : k.group = .epochInfo ∨ k.group = .lastCertificate) : k ∉ removeList params s u := by
  intro hremoved
  rcases group_removeList hremoved with hgroup | ⟨e, hgroup, -⟩ | ⟨hgroup, -⟩ <;> rw [hgroup] at hk <;>
    rcases hk with hk | hk <;> cases hk

namespace Written

variable {toUpdate : List (Key × Value)}

theorem put (h : Written params u s s' toUpdate) {k : Key} {v : Value} (hput : (k, v) ∈ updateList params s u)
    (hkept : k ∉ removeList params s u) : s'.data k = some v := by
  rw [h.data k]
  exact updateAt_put h.nodup (h.entries _ hput) hkept _

theorem untouched (h : Written params u s s' toUpdate) {k : Key} (hgroup : k.group ≠ .other)
    (hput : ∀ entry ∈ updateList params s u, entry.1 ≠ k) (hkept : k ∉ removeList params s u) :
    s'.data k = s.data k := by
  rw [h.data k]
  refine updateAt_other ?_ hkept _
  intro hmem
  obtain ⟨entry, hentry, hkey⟩ := List.mem_map.1 hmem
  rcases h.only entry hentry with hin | hother
  · exact hput entry hin hkey
  · exact hgroup (hkey ▸ hother)

theorem removed (h : Written params u s s' toUpdate) {k : Key} (hkey : k ∈ removeList params s u) : s'.data k = none := by
  rw [h.data k]
  exact updateAt_removed hkey _

/-- a family that the batch does not name -/
theorem requests_untouched (h : Written params u s s' toUpdate) {e : ℤ} (hkept : ¬ Outdated params s u e)
    (hnone : u.withdrawalRequestAppendSeq = [] ∨ e ≠ u.withdrawalEpochInfo.epoch) {k : Key}
    (hk : k.group = .requests e) : s'.data k = s.data k := by
  refine h.untouched (by simp [hk]) ?_ ?_
  · rintro entry hentry rfl
    rcases group_updateList hentry with hother | rfl | ⟨happend, rfl | rfl⟩ | ⟨certificate, -, rfl⟩ | rfl | rfl
    · rw [hk] at hother
      cases hother
    · cases hk
    · rcases hnone with hnone | hnone
      · exact happend hnone
      · cases hk
        exact hnone rfl
    · rcases hnone with hnone | hnone
      · exact happend hnone
      · cases hk
        exact hnone rfl
    · cases hk
    · cases hk
    · cases hk
  · intro hremoved
    exact hkept (mem_removeList_requests hk hremoved)

/-- the fees of an epoch that is neither the current one nor just over -/
theorem fees_untouched (h : Written params u s s' toUpdate) {e : ℤ} (hne : e ≠ u.withdrawalEpochInfo.epoch)
    (hkept : isWithdrawalEpochSwitched s u = true → e ≠ u.withdrawalEpochInfo.epoch - 1) {k : Key}
    (hk : k.group = .fees e) : s'.data k = s.data k := by
  refine h.untouched (by simp [hk]) ?_ ?_
  · rintro entry hentry rfl
    rcases group_updateList hentry with hother | rfl | ⟨-, rfl | rfl⟩ | ⟨certificate, -, rfl⟩ | rfl | rfl
    · rw [hk] at hother
      cases hother
    · cases hk
    · cases hk
    · cases hk
    · cases hk
    · cases hk
      exact hne rfl
    · cases hk
      exact hne rfl
  · intro hremoved
    obtain ⟨hswitched, hlast⟩ := mem_removeList_fees hk hremoved
    exact hkept hswitched hlast

end Written

/-- the entries of an update that every family depends on -/
theorem epochInfo_mem_updateList :
    (Key.withdrawalEpochInformation, Value.withdrawalEpochInfo u.withdrawalEpochInfo) ∈ updateList params s u := by
  simp [updateList]

theorem lastCertificate_mem_updateList {certificate : WithdrawalEpochCertificate}
    (h : u.topQualityCertificateOpt = some certificate) :
    (Key.lastCertificateEpochNumber, Value.int certificate.epochNumber) ∈ updateList params s u := by
  simp [updateList, h]

theorem requests_mem_updateList (params : NetworkParams) (s : Storage) (h : u.withdrawalRequestAppendSeq ≠ []) :
    (Key.withdrawalEpochCounter u.withdrawalEpochInfo.epoch,
      Value.int (getWithdrawalEpochCounter s u.withdrawalEpochInfo.epoch + 1)) ∈ updateList params s u ∧
    (Key.withdrawalRequests u.withdrawalEpochInfo.epoch (getWithdrawalEpochCounter s u.withdrawalEpochInfo.epoch + 1),
      Value.withdrawalRequests u.withdrawalRequestAppendSeq) ∈ updateList params s u := by
  simp [updateList, h]

theorem fees_mem_updateList (params : NetworkParams) (s : Storage) (u : Update) :
    (Key.blockFeeInfoCounter u.withdrawalEpochInfo.epoch,
      Value.int (getBlockFeeInfoCounter s u.withdrawalEpochInfo.epoch + 1)) ∈ updateList params s u ∧
    (Key.blockFeeInfo u.withdrawalEpochInfo.epoch (getBlockFeeInfoCounter s u.withdrawalEpochInfo.epoch + 1),
      Value.blockFeeInfo u.blockFeeInfo) ∈ updateList params s u := by
  simp [updateList]

namespace Written

variable {toUpdate : List (Key × Value)}

/-- the records of an epoch before the new one are not written -/
theorem requests_kept (h : Written params u s s' toUpdate) {e n : ℤ} (hkept : ¬ Outdated params s u e)
    (hn : n ≠ getWithdrawalEpochCounter s e + 1) :
    s'.data (.withdrawalRequests e n) = s.data (.withdrawalRequests e n) := by
  refine h.untouched (by simp [Key.group]) ?_ ?_
  · rintro entry hentry hkey
    rcases group_updateList hentry with hother | rfl | ⟨-, rfl | rfl⟩ | ⟨certificate, -, rfl⟩ | rfl | rfl
    · rw [hkey] at hother
      cases hother
    all_goals cases hkey
    exact hn rfl
  · intro hremoved
    exact hkept (mem_removeList_requests rfl hremoved)

theorem fees_kept (h : Written params u s s' toUpdate) {e n : ℤ}
    (hkept : isWithdrawalEpochSwitched s u = true → e ≠ u.withdrawalEpochInfo.epoch - 1)
    (hn : n ≠ getBlockFeeInfoCounter s e + 1) : s'.data (.blockFeeInfo e n) = s.data (.blockFeeInfo e n) := by
  refine h.untouched (by simp [Key.group]) ?_ ?_
  · rintro entry hentry hkey
    rcases group_updateList hentry with hother | rfl | ⟨-, rfl | rfl⟩ | ⟨certificate, -, rfl⟩ | rfl | rfl
    · rw [hkey] at hother
      cases hother
    all_goals cases hkey
    exact hn rfl
  · intro hremoved
    obtain ⟨hswitched, hlast⟩ := mem_removeList_fees rfl hremoved
    exact hkept hswitched hlast

/-- requests of an epoch: none after it is outdated, one more record in the current epoch of a block that has requests -/
theorem requests (h : Written params u s s' toUpdate) (hreads : Reads s c) (e : ℤ) :
    ∃ records, Holds (requestsFamily e) s'.data records ∧ records.flatten = (c.update params u).withdrawalRequests e := by
  obtain ⟨records, hrecords, hflatten⟩ := hreads.requests e
  have hdef : (c.update params u).withdrawalRequests e =
      if c.outdatedByEpoch params u 2 e ∨ c.outdatedByCertificate params u e then []
      else if e = u.withdrawalEpochInfo.epoch then c.withdrawalRequests e ++ u.withdrawalRequestAppendSeq
      else c.withdrawalRequests e := rfl
  by_cases houtdated : Outdated params s u e
  · refine ⟨[], .of_no_counter (h.removed (counter_mem_removeList houtdated)), ?_⟩
    rw [hdef, if_pos ((hreads.outdated_iff e).1 houtdated)]
    rfl
  · rw [hdef, if_neg (fun hc => houtdated ((hreads.outdated_iff e).2 hc))]
    by_cases hnone : u.withdrawalRequestAppendSeq = [] ∨ e ≠ u.withdrawalEpochInfo.epoch
    · refine ⟨records, hrecords.congr (h.requests_untouched houtdated hnone rfl)
        (fun n => h.requests_untouched houtdated hnone rfl), ?_⟩
      rcases hnone with hnil | hne
      · rw [hnil, List.append_nil, ite_self, hflatten]
      · rw [if_neg hne, hflatten]
    · obtain ⟨happend, hepoch⟩ : u.withdrawalRequestAppendSeq ≠ [] ∧ e = u.withdrawalEpochInfo.epoch := by
        simpa [not_or] using hnone
      have hcounter : getWithdrawalEpochCounter s e + 1 = records.length := by
        rw [counter_of_requests hrecords]
        ring
      obtain ⟨hputCounter, hputRecord⟩ := requests_mem_updateList params s happend
      rw [← hepoch, hcounter] at hputCounter hputRecord
      refine ⟨records ++ [u.withdrawalRequestAppendSeq], hrecords.append ?_ ?_ ?_, ?_⟩
      · exact h.put hputCounter fun hmem => houtdated (mem_removeList_requests rfl hmem)
      · exact h.put hputRecord fun hmem => houtdated (mem_removeList_requests rfl hmem)
      · intro i hi
        refine h.requests_kept houtdated ?_
        rw [hcounter]
        exact_mod_cast hi.ne
      · rw [if_pos hepoch, List.flatten_append, List.flatten_singleton, hflatten]

/-- fees of an epoch: none after it, one more record in the current epoch for each block -/
theorem fees (h : Written params u s s' toUpdate) (hreads : Reads s c) (e : ℤ) :
    Holds (feesFamily e) s'.data ((c.update params u).blockFeeInfos e) := by
  have hinfos := hreads.fees e
  have hdef : (c.update params u).blockFeeInfos e =
      if c.isWithdrawalEpochSwitched u ∧ e = u.withdrawalEpochInfo.epoch - 1 then []
      else if e = u.withdrawalEpochInfo.epoch then c.blockFeeInfos e ++ [u.blockFeeInfo]
      else c.blockFeeInfos e := rfl
  rw [hdef, ← hreads.switched_eq]
  by_cases hlast : isWithdrawalEpochSwitched s u = true ∧ e = u.withdrawalEpochInfo.epoch - 1
  · rw [if_pos hlast]
    obtain ⟨hswitched, rfl⟩ := hlast
    exact .of_no_counter (h.removed (feeCounter_mem_removeList hswitched))
  · have hkept : isWithdrawalEpochSwitched s u = true → e ≠ u.withdrawalEpochInfo.epoch - 1 :=
      fun hswitched he => hlast ⟨hswitched, he⟩
    rw [if_neg hlast]
    by_cases hepoch : e = u.withdrawalEpochInfo.epoch
    · have hcounter : getBlockFeeInfoCounter s e + 1 = (c.blockFeeInfos e).length := by
        rw [counter_of_fees hinfos]
        ring
      obtain ⟨hputCounter, hputRecord⟩ := fees_mem_updateList params s u
      rw [← hepoch, hcounter] at hputCounter hputRecord
      have hpresent : ∀ {k : Key}, k.group = .fees e → k ∉ removeList params s u := by
        intro k hk hmem
        obtain ⟨-, he⟩ := mem_removeList_fees hk hmem
        omega
      rw [if_pos hepoch]
      refine hinfos.append (h.put hputCounter (hpresent rfl)) (h.put hputRecord (hpresent rfl)) ?_
      intro i hi
      refine h.fees_kept hkept ?_
      rw [hcounter]
      exact_mod_cast hi.ne
    · rw [if_neg hepoch]
      exact hinfos.congr (h.fees_untouched hepoch hkept rfl) fun n => h.fees_untouched hepoch hkept rfl

theorem lastCertificate (h : Written params u s s' toUpdate) (hreads : Reads s c) :
    s'.data .lastCertificateEpochNumber = (c.update params u).lastCertificateReferencedEpoch.map .int := by
  have hdef : (c.update params u).lastCertificateReferencedEpoch =
      (u.topQualityCertificateOpt.map WithdrawalEpochCertificate.epochNumber).or c.lastCertificateReferencedEpoch := rfl
  have hkept : .lastCertificateEpochNumber ∉ removeList params s u := not_removed (.inr rfl)
  cases hcertificate : u.topQualityCertificateOpt with
  | some certificate =>
    rw [hdef, hcertificate]
    exact h.put (lastCertificate_mem_updateList hcertificate) hkept
  | none =>
    rw [hdef, hcertificate, Option.map_none, Option.none_or, ← hreads.lastCertificate]
    refine h.untouched (by simp [Key.group]) ?_ hkept
    intro entry hentry hkey
    rcases group_updateList hentry with hother | rfl | ⟨-, rfl | rfl⟩ | ⟨certificate, hmem, -⟩ | rfl | rfl
    · rw [hkey] at hother
      cases hother
    · cases hkey
    · cases hkey
    · cases hkey
    · rw [hcertificate] at hmem
      cases hmem
    · cases hkey
    · cases hkey

end Written

/-- the storage follows the contents -/
theorem Reads.update (hreads : Reads s c) (h : StateStorage.update params s u = .ok s') :
    Reads s' (c.update params u) := by
  obtain ⟨toUpdate, hwritten⟩ := written_of_update h
  refine ⟨?_, hwritten.lastCertificate hreads, hwritten.requests hreads, hwritten.fees hreads⟩
  exact hwritten.put epochInfo_mem_updateList (not_removed (.inl rfl))

end Updates

end SidechainsSdk.Utxo.StateStorage
