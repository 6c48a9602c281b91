/-
Which withdrawal requests and fees the UTXO state storage keeps, over a run of blocks.

Model: `Run`, the updates of a chain of blocks from an empty storage. The withdrawal epochs of the blocks grow by at most one
from block to block; in a sidechain that does not cease the certificates are for ended epochs, in increasing order, and the
last one of a block is passed on (`Follows`). An update that fails is no step of a run.

- `Kept`: what is left of the recorded requests and fees; `Kept.update` is the step, `kept_of_run` the run.
- `retained_iff`: a sidechain that can cease keeps the requests of the current and the previous epoch, and each sidechain
  the fees of the current epoch. A sidechain that does not cease should keep the requests from the last certified epoch on;
  it does exactly if no requests were recorded for an epoch with an earlier certificate. The removed range starts behind the
  epoch of the previous certificate, so the requests of that epoch stay for good.
- `requests_of_certified_epoch_stay`: a run of three blocks in which they do.
-/
import Mathlib.Tactic
import SidechainsSdk.Utxo.StateStorage

namespace SidechainsSdk.Utxo.Retention

open Ledger StateStorage
open StateContents (Update)

/-! ## Runs -/

section Records

variable (us : List Update)

def currentEpoch : ℤ := (us.getLast?.map fun u => u.withdrawalEpochInfo.epoch).getD 0

def blocksOf (e : ℤ) : List Update := us.filter fun u => u.withdrawalEpochInfo.epoch = e

def recordedRequests (e : ℤ) : List Box := (blocksOf us e).flatMap Update.withdrawalRequestAppendSeq

def recordedFees (e : ℤ) : List BlockFeeInfo := (blocksOf us e).map Update.blockFeeInfo

def certificateEpochs : List ℤ := us.filterMap fun u => u.topQualityCertificateOpt.map WithdrawalEpochCertificate.epochNumber

/-- there was a certificate for a later epoch -/
def Certified (e : ℤ) : Prop := ∃ c ∈ (certificateEpochs us).getLast?, e < c

instance (e : ℤ) : Decidable (Certified us e) := by
  unfold Certified
  infer_instance

end Records

/-- the next block of a run -/
structure Follows (params : NetworkParams) (us : List Update) (u : Update) : Prop where
  nonneg : 0 ≤ u.withdrawalEpochInfo.epoch
  epoch : us ≠ [] → u.withdrawalEpochInfo.epoch = currentEpoch us ∨ u.withdrawalEpochInfo.epoch = currentEpoch us + 1
  certificate : params.isNonCeasing = true → ∀ certificate ∈ u.topQualityCertificateOpt,
    0 ≤ certificate.epochNumber ∧ certificate.epochNumber ≤ u.withdrawalEpochInfo.epoch ∧
    ∀ c ∈ (certificateEpochs us).getLast?, c < certificate.epochNumber

inductive Run (params : NetworkParams) : List Update → Storage → Prop where
  | start : Run params [] .empty
  | applied {us : List Update} {s s' : Storage} {u : Update} (h : Run params us s) (hfollows : Follows params us u)
      (hupdate : StateStorage.update params s u = .ok s') : Run params (us ++ [u]) s'

/-- what should be readable after these blocks -/
structure Retained (params : NetworkParams) (us : List Update) (s : Storage) : Prop where
  ceasing : params.isNonCeasing = false → ∀ e, getWithdrawalRequests s e =
    .ok (if e = currentEpoch us ∨ e = currentEpoch us - 1 then recordedRequests us e else [])
  nonCeasing : params.isNonCeasing = true → ∀ e, getWithdrawalRequests s e =
    .ok (if Certified us e then [] else recordedRequests us e)
  fees : ∀ e, getFeePayments s e = .ok (if e = currentEpoch us then recordedFees us e else [])

/-! ## The records of a longer run -/

section Snoc

variable {params : NetworkParams} (us : List Update) (u : Update)

@[simp] theorem currentEpoch_snoc : currentEpoch (us ++ [u]) = u.withdrawalEpochInfo.epoch := by
  simp [currentEpoch]

theorem blocksOf_snoc (e : ℤ) :
    blocksOf (us ++ [u]) e = blocksOf us e ++ if e = u.withdrawalEpochInfo.epoch then [u] else [] := by
  rw [blocksOf, List.filter_append, ← blocksOf]
  by_cases he : e = u.withdrawalEpochInfo.epoch
  · simp [he]
  · simp [he, Ne.symm he]

theorem recordedRequests_snoc (e : ℤ) : recordedRequests (us ++ [u]) e =
    recordedRequests us e ++ if e = u.withdrawalEpochInfo.epoch then u.withdrawalRequestAppendSeq else [] := by
  rw [recordedRequests, blocksOf_snoc, List.flatMap_append, ← recordedRequests]
  split_ifs <;> simp

theorem recordedFees_snoc (e : ℤ) : recordedFees (us ++ [u]) e =
    recordedFees us e ++ if e = u.withdrawalEpochInfo.epoch then [u.blockFeeInfo] else [] := by
  rw [recordedFees, blocksOf_snoc, List.map_append, ← recordedFees]
  split_ifs <;> simp

theorem certificateEpochs_snoc : certificateEpochs (us ++ [u]) =
    certificateEpochs us ++ (u.topQualityCertificateOpt.map WithdrawalEpochCertificate.epochNumber).toList := by
  rw [certificateEpochs, List.filterMap_append, ← certificateEpochs]
  cases h : u.topQualityCertificateOpt <;> simp [h]

theorem certificateEpochs_getLast?_snoc : (certificateEpochs (us ++ [u])).getLast? =
    (u.topQualityCertificateOpt.map WithdrawalEpochCertificate.epochNumber).or (certificateEpochs us).getLast? := by
  rw [certificateEpochs_snoc]
  cases u.topQualityCertificateOpt <;> simp

end Snoc

/-- the epochs of the blocks and of the certificates are in order -/
structure Ordered (params : NetworkParams) (us : List Update) : Prop where
  epochs : ∀ u ∈ us, 0 ≤ u.withdrawalEpochInfo.epoch ∧ u.withdrawalEpochInfo.epoch ≤ currentEpoch us
  increasing : params.isNonCeasing = true → (certificateEpochs us).Pairwise (· < ·)
  certificates : params.isNonCeasing = true → ∀ c ∈ certificateEpochs us, 0 ≤ c ∧ c ≤ currentEpoch us

namespace Ordered

variable {params : NetworkParams} {us : List Update} {u : Update}

theorem start : Ordered params [] := ⟨by simp, by simp [certificateEpochs], by simp [certificateEpochs]⟩

theorem currentEpoch_le (hfollows : Follows params us u) (hne : us ≠ []) :
    currentEpoch us ≤ u.withdrawalEpochInfo.epoch := by
  have hepoch := hfollows.epoch hne
  omega

theorem ne_nil_of_mem {c : ℤ} (h : c ∈ certificateEpochs us) : us ≠ [] := by
  rintro rfl
  cases h

theorem le_getLast (h : Ordered params us) (hnonCeasing : params.isNonCeasing = true) {c l : ℤ}
    (hl : l ∈ (certificateEpochs us).getLast?) (hc : c ∈ certificateEpochs us) : c ≤ l := by
  obtain ⟨init, hinit⟩ := List.getLast?_eq_some_iff.1 hl
  have hpairwise := h.increasing hnonCeasing
  rw [hinit, List.pairwise_append] at hpairwise
  rw [hinit, List.mem_append, List.mem_singleton] at hc
  rcases hc with hc | rfl
  · exact (hpairwise.2.2 c hc l (List.mem_singleton.2 rfl)).le
  · exact le_rfl

theorem snoc (h : Ordered params us) (hfollows : Follows params us u) : Ordered params (us ++ [u]) where
  epochs := by
    intro v hv
    rw [currentEpoch_snoc]
    rcases List.mem_append.1 hv with hv | hv
    · obtain ⟨hnonneg, hle⟩ := h.epochs v hv
      exact ⟨hnonneg, hle.trans (currentEpoch_le hfollows (List.ne_nil_of_mem hv))⟩
    · rw [List.mem_singleton.1 hv]
      exact ⟨hfollows.nonneg, le_rfl⟩
  increasing := by
    intro hnonCeasing
    rw [certificateEpochs_snoc, List.pairwise_append]
    refine ⟨h.increasing hnonCeasing, ?_, ?_⟩
    · cases u.topQualityCertificateOpt <;> simp
    · intro c hc c' hc'
      obtain ⟨certificate, hcertificate, rfl⟩ := Option.mem_map.1 (Option.mem_toList.1 hc')
      obtain ⟨l, hl⟩ := Option.isSome_iff_exists.1 (List.getLast?_isSome.2 (List.ne_nil_of_mem hc))
      calc c ≤ l := h.le_getLast hnonCeasing hl hc
        _ < certificate.epochNumber := (hfollows.certificate hnonCeasing certificate hcertificate).2.2 l hl
  certificates := by
    intro hnonCeasing c hc
    rw [currentEpoch_snoc]
    rw [certificateEpochs_snoc, List.mem_append] at hc
    rcases hc with hc | hc
    · obtain ⟨hnonneg, hle⟩ := h.certificates hnonCeasing c hc
      exact ⟨hnonneg, hle.trans (currentEpoch_le hfollows (ne_nil_of_mem hc))⟩
    · obtain ⟨certificate, hcertificate, rfl⟩ := Option.mem_map.1 (Option.mem_toList.1 hc)
      obtain ⟨hnonneg, hle, -⟩ := hfollows.certificate hnonCeasing certificate hcertificate
      exact ⟨hnonneg, hle⟩

/-- nothing was recorded for an epoch that has not begun -/
theorem blocksOf_eq_nil (h : Ordered params us) {e : ℤ} (he : e < 0 ∨ currentEpoch us < e) : blocksOf us e = [] := by
  refine List.filter_eq_nil_iff.2 fun u hu => ?_
  have hbounds := h.epochs u hu
  simp only [decide_eq_true_eq]
  omega

theorem recordedRequests_eq_nil (h : Ordered params us) {e : ℤ} (he : e < 0 ∨ currentEpoch us < e) :
    recordedRequests us e = [] := by
  rw [recordedRequests, h.blocksOf_eq_nil he, List.flatMap_nil]

theorem recordedFees_eq_nil (h : Ordered params us) {e : ℤ} (he : e < 0 ∨ currentEpoch us < e) :
    recordedFees us e = [] := by
  rw [recordedFees, h.blocksOf_eq_nil he, List.map_nil]

end Ordered

/-! ## What the storage keeps -/

/-- the contents after these blocks -/
structure Kept (params : NetworkParams) (us : List Update) (c : StateContents) : Prop where
  epochInfo : c.withdrawalEpochInfo = us.getLast?.map Update.withdrawalEpochInfo
  lastCertificate : c.lastCertificateReferencedEpoch = (certificateEpochs us).getLast?
  ceasing : params.isNonCeasing = false → ∀ e, c.withdrawalRequests e =
    if e = currentEpoch us ∨ e = currentEpoch us - 1 then recordedRequests us e else []
  -- an epoch that has a certificate of its own is left out when the requests are removed
  nonCeasing : params.isNonCeasing = true → ∀ e, c.withdrawalRequests e =
    if Certified us e ∧ e ∉ certificateEpochs us then [] else recordedRequests us e
  fees : ∀ e, c.blockFeeInfos e = if e = currentEpoch us then recordedFees us e else []

namespace Kept

variable {params : NetworkParams} {us : List Update} {u : Update} {c : StateContents}

theorem start : Kept params [] .empty where
  epochInfo := rfl
  lastCertificate := rfl
  ceasing := fun _ e => by simp [StateContents.empty, recordedRequests, blocksOf]
  nonCeasing := fun _ e => by simp [StateContents.empty, recordedRequests, blocksOf]
  fees := fun e => by simp [StateContents.empty, recordedFees, blocksOf]

theorem switched_iff (h : Kept params us c) :
    c.isWithdrawalEpochSwitched u = true ↔ us ≠ [] ∧ currentEpoch us ≠ u.withdrawalEpochInfo.epoch := by
  rw [StateContents.isWithdrawalEpochSwitched, h.epochInfo, currentEpoch]
  rcases List.eq_nil_or_concat us with rfl | ⟨init, last, rfl⟩ <;> simp

/-- the first block, a block of the same epoch, or a block of the next one -/
theorem advance (h : Kept params us c) (hfollows : Follows params us u) :
    (us = [] ∧ c.isWithdrawalEpochSwitched u = false) ∨
    (c.isWithdrawalEpochSwitched u = false ∧ u.withdrawalEpochInfo.epoch = currentEpoch us) ∨
    (c.isWithdrawalEpochSwitched u = true ∧ u.withdrawalEpochInfo.epoch = currentEpoch us + 1) := by
  have hswitched := h.switched_iff (u := u)
  by_cases hnil : us = []
  · refine .inl ⟨hnil, ?_⟩
    rw [← Bool.not_eq_true, hswitched]
    exact fun hne => hne.1 hnil
  · rcases hfollows.epoch hnil with hsame | hnext
    · refine .inr (.inl ⟨?_, hsame⟩)
      rw [← Bool.not_eq_true, hswitched, hsame]
      exact fun hne => hne.2 rfl
    · exact .inr (.inr ⟨hswitched.2 ⟨hnil, by omega⟩, hnext⟩)

theorem update_fees (h : Kept params us c) (hordered : Ordered params us) (hfollows : Follows params us u) (e : ℤ) :
    (c.update params u).blockFeeInfos e =
      if e = u.withdrawalEpochInfo.epoch then recordedFees us e ++ [u.blockFeeInfo] else [] := by
  have hdef : (c.update params u).blockFeeInfos e =
      if c.isWithdrawalEpochSwitched u ∧ e = u.withdrawalEpochInfo.epoch - 1 then []
      else if e = u.withdrawalEpochInfo.epoch then c.blockFeeInfos e ++ [u.blockFeeInfo]
      else c.blockFeeInfos e := rfl
  rw [hdef, h.fees e]
  rcases h.advance hfollows with ⟨rfl, hkept⟩ | ⟨hkept, hsame⟩ | ⟨hswitched, hnext⟩
  · simp [hkept, recordedFees, blocksOf]
  · simp only [hkept, hsame]
    split_ifs <;> simp_all
  · have hnone : recordedFees us (currentEpoch us + 1) = [] := hordered.recordedFees_eq_nil (.inr (by omega))
    simp only [hswitched, hnext, true_and]
    split_ifs <;> first | rfl | omega | simp_all

theorem update_ceasing (h : Kept params us c) (hordered : Ordered params us) (hfollows : Follows params us u)
    (hceasing : params.isNonCeasing = false) (e : ℤ) :
    (c.update params u).withdrawalRequests e =
      if e = u.withdrawalEpochInfo.epoch ∨ e = u.withdrawalEpochInfo.epoch - 1 then
        recordedRequests us e ++ if e = u.withdrawalEpochInfo.epoch then u.withdrawalRequestAppendSeq else []
      else [] := by
  have hcertificate : c.outdatedByCertificate params u e = false := by
    unfold StateContents.outdatedByCertificate
    cases u.topQualityCertificateOpt <;> simp [hceasing]
  have hdef : (c.update params u).withdrawalRequests e =
      if c.isWithdrawalEpochSwitched u ∧ e = u.withdrawalEpochInfo.epoch - 2 then []
      else if e = u.withdrawalEpochInfo.epoch then c.withdrawalRequests e ++ u.withdrawalRequestAppendSeq
      else c.withdrawalRequests e := by
    simp [StateContents.update, StateContents.outdatedByEpoch, hcertificate, hceasing]
  rw [hdef, h.ceasing hceasing e]
  rcases h.advance hfollows with ⟨rfl, hkept⟩ | ⟨hkept, hsame⟩ | ⟨hswitched, hnext⟩
  · simp only [hkept, recordedRequests, blocksOf]
    split_ifs <;> simp_all
  · simp only [hkept, hsame]
    split_ifs <;> simp_all
  · have hnone : recordedRequests us (currentEpoch us + 1) = [] := hordered.recordedRequests_eq_nil (.inr (by omega))
    simp only [hswitched, hnext, true_and]
    split_ifs <;> first | rfl | omega | simp_all

/-- the epochs that are left out: those of before, and those between the last two certificates -/
theorem certified_snoc_iff (h : Kept params us c) (hordered : Ordered params us) (hfollows : Follows params us u)
    (hnonCeasing : params.isNonCeasing = true) {e : ℤ} (he : 0 ≤ e) :
    (Certified (us ++ [u]) e ∧ e ∉ certificateEpochs (us ++ [u])) ↔
      c.outdatedByCertificate params u e = true ∨ (Certified us e ∧ e ∉ certificateEpochs us) := by
  unfold Certified StateContents.outdatedByCertificate
  rw [certificateEpochs_getLast?_snoc, certificateEpochs_snoc, h.lastCertificate]
  cases hcertificate : u.topQualityCertificateOpt with
  | none => simp
  | some certificate =>
    obtain ⟨-, -, hlater⟩ := hfollows.certificate hnonCeasing certificate hcertificate
    cases hlast : (certificateEpochs us).getLast? with
    | none =>
      have hnil : certificateEpochs us = [] := List.getLast?_eq_none_iff.1 hlast
      simp only [hnil, Option.map_some, Option.some_or, Option.mem_some_iff, exists_eq_left', Option.toList_some,
        List.nil_append, List.mem_singleton, Option.getD_none, hnonCeasing, true_and, decide_eq_true_eq]
      simp only [Option.mem_def, reduceCtorEq, false_and, exists_false, or_false]
      omega
    | some l =>
      have hlt : l < certificate.epochNumber := hlater l hlast
      have hmem : l ∈ certificateEpochs us := List.mem_of_getLast? hlast
      have hle : e ∈ certificateEpochs us → e ≤ l := hordered.le_getLast hnonCeasing hlast
      simp only [Option.map_some, Option.some_or, Option.mem_some_iff, exists_eq_left', Option.toList_some,
        List.mem_append, List.mem_singleton, Option.getD_some, hnonCeasing, true_and, decide_eq_true_eq, not_or]
      constructor
      · rintro ⟨hbefore, hnot, -⟩
        rcases lt_trichotomy e l with hlow | rfl | hhigh
        · exact .inr ⟨hlow, hnot⟩
        · exact absurd hmem hnot
        · exact .inl ⟨hhigh, hbefore⟩
      · rintro (⟨hhigh, hbefore⟩ | ⟨hlow, hnot⟩)
        · refine ⟨hbefore, fun hin => ?_, hbefore.ne⟩
          have hel := hle hin
          omega
        · have hbefore := hlow.trans hlt
          exact ⟨hbefore, hnot, hbefore.ne⟩

theorem update_nonCeasing (h : Kept params us c) (hordered : Ordered params us) (hfollows : Follows params us u)
    (hnonCeasing : params.isNonCeasing = true) (e : ℤ) :
    (c.update params u).withdrawalRequests e =
      if Certified (us ++ [u]) e ∧ e ∉ certificateEpochs (us ++ [u]) then []
      else recordedRequests us e ++ if e = u.withdrawalEpochInfo.epoch then u.withdrawalRequestAppendSeq else [] := by
  have hdef : (c.update params u).withdrawalRequests e =
      if c.outdatedByCertificate params u e then []
      else if e = u.withdrawalEpochInfo.epoch then c.withdrawalRequests e ++ u.withdrawalRequestAppendSeq
      else c.withdrawalRequests e := by
    simp [StateContents.update, StateContents.outdatedByEpoch, hnonCeasing]
  rw [hdef, h.nonCeasing hnonCeasing e]
  rcases lt_or_ge e 0 with hneg | hnonneg
  · have hnone : recordedRequests us e = [] := hordered.recordedRequests_eq_nil (.inl hneg)
    have hepoch : e ≠ u.withdrawalEpochInfo.epoch := (hneg.trans_le hfollows.nonneg).ne
    simp [hnone, hepoch]
  · rw [ite_congr (propext (h.certified_snoc_iff hordered hfollows hnonCeasing hnonneg)) (fun _ => rfl) fun _ => rfl]
    by_cases houtdated : c.outdatedByCertificate params u e = true
    · rw [if_pos houtdated, if_pos (.inl houtdated)]
    · rw [if_neg houtdated]
      by_cases hepoch : e = u.withdrawalEpochInfo.epoch
      · have hopen : ¬ Certified us e := by
          rintro ⟨l, hl, hlt⟩
          have hmem : l ∈ certificateEpochs us := List.mem_of_getLast? hl
          have hbounds := hordered.certificates hnonCeasing l hmem
          have hepochs := Ordered.currentEpoch_le hfollows (Ordered.ne_nil_of_mem hmem)
          omega
        have hkept : ¬ (Certified us e ∧ e ∉ certificateEpochs us) := fun hc => hopen hc.1
        rw [if_pos hepoch, if_pos hepoch, if_neg hkept, if_neg (not_or.2 ⟨houtdated, hkept⟩)]
      · simp only [hepoch, houtdated, if_false, false_or, List.append_nil, Bool.false_eq_true]

theorem update (h : Kept params us c) (hordered : Ordered params us) (hfollows : Follows params us u) :
    Kept params (us ++ [u]) (c.update params u) where
  epochInfo := by
    rw [List.getLast?_concat]
    rfl
  lastCertificate := by
    rw [certificateEpochs_getLast?_snoc, ← h.lastCertificate]
    rfl
  ceasing := by
    intro hceasing e
    rw [currentEpoch_snoc, recordedRequests_snoc]
    exact h.update_ceasing hordered hfollows hceasing e
  nonCeasing := by
    intro hnonCeasing e
    rw [recordedRequests_snoc]
    exact h.update_nonCeasing hordered hfollows hnonCeasing e
  fees := by
    intro e
    rw [currentEpoch_snoc, recordedFees_snoc, h.update_fees hordered hfollows e]
    split_ifs <;> rfl

end Kept

/-! ## Whole runs -/

section Runs

variable {params : NetworkParams} {us : List Update} {s : Storage}

theorem ordered_of_run (h : Run params us s) : Ordered params us := by
  induction h with
  | start => exact .start
  | applied h hfollows hupdate ih => exact ih.snoc hfollows

/-- the storage has the contents of the run, and these are the records that are left -/
theorem kept_of_run (h : Run params us s) : ∃ c, Reads s c ∧ Kept params us c := by
  induction h with
  | start => exact ⟨.empty, reads_empty, .start⟩
  | @applied us s s' u h hfollows hupdate ih =>
    obtain ⟨c, hreads, hkept⟩ := ih
    exact ⟨c.update params u, hreads.update hupdate, hkept.update (ordered_of_run h) hfollows⟩

/-- the epochs with a certificate before the last one -/
theorem mem_dropLast_certificateEpochs (h : Run params us s) (hnonCeasing : params.isNonCeasing = true) {e : ℤ} :
    e ∈ (certificateEpochs us).dropLast ↔ Certified us e ∧ e ∈ certificateEpochs us := by
  have hincreasing := (ordered_of_run h).increasing hnonCeasing
  unfold Certified
  rcases List.eq_nil_or_concat (certificateEpochs us) with hnil | ⟨init, last, hlast⟩
  · simp [hnil]
  · rw [List.concat_eq_append] at hlast
    rw [hlast, List.pairwise_append] at hincreasing
    rw [hlast]
    simp only [List.dropLast_concat, List.getLast?_concat, Option.mem_some_iff, exists_eq_left', List.mem_append,
      List.mem_singleton]
    constructor
    · intro he
      exact ⟨hincreasing.2.2 e he last (List.mem_singleton.2 rfl), .inl he⟩
    · rintro ⟨hlt, he | rfl⟩
      · exact he
      · exact absurd hlt (lt_irrefl e)

theorem retained_iff (h : Run params us s) : Retained params us s ↔
    (params.isNonCeasing = true → ∀ e ∈ (certificateEpochs us).dropLast, recordedRequests us e = []) := by
  obtain ⟨c, hreads, hkept⟩ := kept_of_run h
  constructor
  · intro hretained hnonCeasing e he
    obtain ⟨hcertified, hmem⟩ := (mem_dropLast_certificateEpochs h hnonCeasing).1 he
    have hread : .ok (c.withdrawalRequests e) = Except.ok (ε := String) _ :=
      (hreads.getWithdrawalRequests_eq e).symm.trans (hretained.nonCeasing hnonCeasing e)
    rw [hkept.nonCeasing hnonCeasing e, if_neg (fun hc => hc.2 hmem), if_pos hcertified] at hread
    exact Except.ok.inj hread
  · intro hempty
    refine ⟨?_, ?_, ?_⟩
    · intro hceasing e
      rw [hreads.getWithdrawalRequests_eq, hkept.ceasing hceasing]
    · intro hnonCeasing e
      rw [hreads.getWithdrawalRequests_eq, hkept.nonCeasing hnonCeasing]
      by_cases hcertified : Certified us e
      · by_cases hmem : e ∈ certificateEpochs us
        · rw [if_neg (fun hc => hc.2 hmem), if_pos hcertified,
            hempty hnonCeasing e ((mem_dropLast_certificateEpochs h hnonCeasing).2 ⟨hcertified, hmem⟩)]
        · rw [if_pos ⟨hcertified, hmem⟩, if_pos hcertified]
      · rw [if_neg (fun hc => hcertified hc.1), if_neg hcertified]
    · intro e
      rw [hreads.getFeePayments_eq, hkept.fees]

end Runs

/-! ## A sidechain that does not cease -/

section Samples

def sampleParams : NetworkParams where
  withdrawalEpochLength := 10
  isNonCeasing := true
  isCSWEnabled := false
  circuitType := .naiveThresholdSignatureCircuit
  signersPublicKeys := [1]
  mastersPublicKeys := []
  restrictForgers := false
  allowedForgersList := []
  maxWBsAllowed := 3999

def sampleBlock (version : ModifierId) (epoch : ℤ) (requests : List Box)
    (certificateOpt : Option WithdrawalEpochCertificate) : Update where
  version := version
  withdrawalEpochInfo := ⟨epoch, 0⟩
  boxUpdateList := []
  boxIdsRemoveSet := []
  withdrawalRequestAppendSeq := requests
  consensusEpoch := 1
  topQualityCertificateOpt := certificateOpt
  blockFeeInfo := ⟨0, 7⟩
  utxoMerkleTreeRootOpt := none
  scHasCeased := false
  forgerListIndexes := []
  keyRotationProofs := []
  certifiersKeysOption := none

/-- a request in epoch 0 -/
def sampleRequests : List Update := [sampleBlock 1 0 [⟨5, 0, 8, 100, .withdrawalRequest⟩] none]

/-- the certificates of epochs 0 and 1 in a block of epoch 2 -/
def sampleTogether : List Update := sampleRequests ++ [sampleBlock 2 1 [] none] ++ [sampleBlock 3 2 [] (some ⟨1, [], []⟩)]

/-- the certificates of epochs 0 and 1 in blocks of epochs 1 and 2 -/
def sampleApart : List Update :=
  sampleRequests ++ [sampleBlock 2 1 [] (some ⟨0, [], []⟩)] ++ [sampleBlock 3 2 [] (some ⟨1, [], []⟩)]

/-- the storage after these blocks, as far as they are accepted -/
def sampleStorage (us : List Update) : Storage :=
  us.foldl (fun s u => ((StateStorage.update sampleParams s u).toOption).getD s) .empty

theorem sampleRun_snoc {us : List Update} {u : Update} (h : Run sampleParams us (sampleStorage us))
    (hfollows : Follows sampleParams us u) (hok : (StateStorage.update sampleParams (sampleStorage us) u).isOk = true) :
    Run sampleParams (us ++ [u]) (sampleStorage (us ++ [u])) := by
  have hstorage : sampleStorage (us ++ [u]) =
      ((StateStorage.update sampleParams (sampleStorage us) u).toOption).getD (sampleStorage us) := by
    rw [sampleStorage, List.foldl_append, List.foldl_cons, List.foldl_nil, ← sampleStorage]
  cases hupdate : StateStorage.update sampleParams (sampleStorage us) u with
  | ok s' =>
    rw [hstorage, hupdate]
    exact .applied h hfollows hupdate
  | error e =>
    rw [hupdate] at hok
    cases hok

theorem sampleRequests_run : Run sampleParams sampleRequests (sampleStorage sampleRequests) :=
  sampleRun_snoc .start ⟨by decide, by decide, by decide⟩ (by decide +kernel)

theorem sampleTogether_run : Run sampleParams sampleTogether (sampleStorage sampleTogether) := by
  have hwithout := sampleRun_snoc (u := sampleBlock 2 1 [] none) sampleRequests_run
    ⟨by decide, by decide, by decide⟩ (by decide +kernel)
  exact sampleRun_snoc hwithout ⟨by decide, by decide, by decide⟩ (by decide +kernel)

theorem sampleApart_run : Run sampleParams sampleApart (sampleStorage sampleApart) := by
  have hfirst := sampleRun_snoc (u := sampleBlock 2 1 [] (some ⟨0, [], []⟩)) sampleRequests_run
    ⟨by decide, by decide, by decide⟩ (by decide +kernel)
  exact sampleRun_snoc hfirst ⟨by decide, by decide, by decide⟩ (by decide +kernel)

/-- in one block, the second certificate removes the requests of both epochs -/
theorem requests_removed_together : Run sampleParams sampleTogether (sampleStorage sampleTogether) ∧
    Retained sampleParams sampleTogether (sampleStorage sampleTogether) :=
  ⟨sampleTogether_run, (retained_iff sampleTogether_run).2 (by decide)⟩

/-- in two blocks, neither removes the requests of the first epoch -/
theorem requests_of_certified_epoch_stay : Run sampleParams sampleApart (sampleStorage sampleApart) ∧
    Certified sampleApart 0 ∧
    getWithdrawalRequests (sampleStorage sampleApart) 0 = .ok [⟨5, 0, 8, 100, .withdrawalRequest⟩] ∧
    ¬ Retained sampleParams sampleApart (sampleStorage sampleApart) := by
  have hcertified : Certified sampleApart 0 := by decide
  have hread : getWithdrawalRequests (sampleStorage sampleApart) 0 = .ok [⟨5, 0, 8, 100, .withdrawalRequest⟩] := rfl
  refine ⟨sampleApart_run, hcertified, hread, ?_⟩
  intro hretained
  have hgone := hretained.nonCeasing rfl 0
  rw [hread, if_pos hcertified] at hgone
  cases hgone

end Samples

end SidechainsSdk.Utxo.Retention
