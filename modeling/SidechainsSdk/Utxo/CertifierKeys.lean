/-
The keys of the certifiers in the UTXO model, with the key rotation circuit. A rotation is stored under its epoch, key type and
index when its block is applied; the last block of an epoch reads the rotations of the epoch back, before its own are written, and
stores the keys of the epoch.

- `rotate`: a rotation on the keys; `actualCertifiersKeys_eq`: reading the last one for each key back is making them in order.
- `KeysInv`: what the state holds in an epoch; `step_keysInv`: an accepted block keeps it, unless it ends an epoch and rotates.
- `keys_follow_rotations`: the keys of a finished epoch in any run without such blocks.
- `rotation_of_full_epoch_lost`: a block that is a whole epoch, and whose rotation is never used.

The circuit has a master key for each signing key.
-/
import Mathlib.Tactic
import SidechainsSdk.Utxo.SidechainState

namespace SidechainsSdk.Utxo

open Fallible Ledger SidechainState Withdrawals.WithdrawalEpochUtils
open Withdrawals (WithdrawalEpochInfo)

namespace CertifierKeys

/-! ## Rotations -/

/-- the keys of a type after a rotation -/
def rotated (keyType : KeyRotationProofType) (keys : List ℕ) (p : KeyRotationProof) : List ℕ :=
  if p.keyType = keyType then keys.mapIdx fun i key => if (i : ℤ) = p.index then p.newKey else key else keys

def rotate (keys : CertifiersKeys) (p : KeyRotationProof) : CertifiersKeys :=
  ⟨rotated .signing keys.signingKeys p, rotated .master keys.masterKeys p⟩

/-- the rotation that is for a key -/
def Rotates (i : ℤ) (keyType : KeyRotationProofType) (p : KeyRotationProof) : Prop := p.index = i ∧ p.keyType = keyType

instance (i : ℤ) (keyType : KeyRotationProofType) (p : KeyRotationProof) : Decidable (Rotates i keyType p) :=
  inferInstanceAs (Decidable (_ ∧ _))

def lastRotation (rotations : List KeyRotationProof) (i : ℤ) (keyType : KeyRotationProofType) : Option KeyRotationProof :=
  rotations.reverse.find? fun p => Rotates i keyType p

theorem lastRotation_append (l l' : List KeyRotationProof) (i : ℤ) (keyType : KeyRotationProofType) :
    lastRotation (l ++ l') i keyType = (lastRotation l' i keyType).or (lastRotation l i keyType) := by
  unfold lastRotation
  rw [List.reverse_append, List.find?_append]

theorem lastRotation_concat (l : List KeyRotationProof) (p : KeyRotationProof) (i : ℤ) (keyType : KeyRotationProofType) :
    lastRotation (l ++ [p]) i keyType = if Rotates i keyType p then some p else lastRotation l i keyType := by
  rw [lastRotation_append]
  unfold lastRotation
  split_ifs with hp
  · simp [hp]
  · simp [hp]

/-- the key that the last rotation gives -/
def keyAfter (rotations : List KeyRotationProof) (keyType : KeyRotationProofType) (i : ℕ) (key : ℕ) : ℕ :=
  (lastRotation rotations i keyType).elim key KeyRotationProof.newKey

/-- by induction on the rotations from the last one back -/
theorem foldl_rotated (keyType : KeyRotationProofType) (keys : List ℕ) (rotations : List KeyRotationProof) :
    rotations.foldl (rotated keyType) keys = keys.mapIdx (keyAfter rotations keyType) := by
  induction rotations using List.reverseRecOn with
  | nil =>
    refine List.ext_getElem (by simp) ?_
    intro i hi hi'
    rw [List.getElem_mapIdx]
    rfl
  | append_singleton rotations p ih =>
    rw [List.foldl_append, ih, List.foldl_cons, List.foldl_nil]
    unfold rotated
    refine List.ext_getElem (by split_ifs <;> simp) ?_
    intro i hi hi'
    rw [List.getElem_mapIdx, keyAfter, lastRotation_concat]
    by_cases htype : p.keyType = keyType
    · rw [List.getElem_of_eq (if_pos htype), List.getElem_mapIdx, List.getElem_mapIdx]
      by_cases hindex : (i : ℤ) = p.index
      · rw [if_pos hindex, if_pos ⟨hindex.symm, htype⟩]
        rfl
      · rw [if_neg hindex, if_neg fun hp : Rotates i keyType p => hindex hp.1.symm]
        rfl
    · rw [List.getElem_of_eq (if_neg htype), List.getElem_mapIdx, if_neg fun hp : Rotates i keyType p => htype hp.2]
      rfl

theorem foldl_rotate (keys : CertifiersKeys) (rotations : List KeyRotationProof) :
    rotations.foldl rotate keys =
      ⟨keys.signingKeys.mapIdx (keyAfter rotations .signing), keys.masterKeys.mapIdx (keyAfter rotations .master)⟩ := by
  rw [← foldl_rotated, ← foldl_rotated]
  induction rotations generalizing keys with
  | nil => rfl
  | cons p rotations ih => exact ih (rotate keys p)

/-- each key is rotated at most once in a block, so that the first rotation found is the last one -/
theorem find_eq_lastRotation {rotations : List KeyRotationProof} (hnodup : (rotations.map fun p => (p.keyType, p.index)).Nodup)
    (i : ℤ) (keyType : KeyRotationProofType) :
    (rotations.find? fun p => p.index = i ∧ p.keyType = keyType) = lastRotation rotations i keyType := by
  cases hlast : lastRotation rotations i keyType with
  | none =>
    refine List.find?_eq_none.2 ?_
    intro p hp
    exact List.find?_eq_none.1 hlast p (List.mem_reverse.2 hp)
  | some p =>
    have hp : p ∈ rotations := List.mem_reverse.1 (List.mem_of_find?_eq_some hlast)
    have hrotates : Rotates i keyType p := by simpa using List.find?_some hlast
    cases hfirst : rotations.find? fun p => p.index = i ∧ p.keyType = keyType with
    | none => exact absurd (decide_eq_true hrotates) (List.find?_eq_none.1 hfirst p hp)
    | some q =>
      have hq : Rotates i keyType q := by simpa [Rotates] using List.find?_some hfirst
      have hsame : (q.keyType, q.index) = (p.keyType, p.index) := by rw [hq.1, hq.2, hrotates.1, hrotates.2]
      rw [List.inj_on_of_nodup_map hnodup (List.mem_of_find?_eq_some hfirst) hp hsame]

/-! ## Reading the rotations back -/

section State

variable {σ τ : Type} {s : SidechainState σ τ} {epoch : ℤ} {rotations : List KeyRotationProof}

theorem mapM_actualKey {keyType : KeyRotationProofType} (h : ∀ i : ℕ, s.contents.keyRotationProofs epoch i keyType =
      lastRotation rotations i keyType) (keys : List ℕ) :
    (List.range keys.length).mapM (s.actualKey epoch keyType keys) = .ok (keys.mapIdx (keyAfter rotations keyType)) := by
  have hkey : ∀ i ∈ List.range keys.length,
      s.actualKey epoch keyType keys i = .ok (keyAfter rotations keyType i (keys.getD i 0)) := by
    intro i hi
    have hi' : i < keys.length := List.mem_range.1 hi
    rw [actualKey, h, keyAfter]
    cases lastRotation rotations i keyType with
    | some p => rfl
    | none =>
      dsimp only
      rw [List.getElem?_eq_getElem hi', List.getD_eq_getElem?_getD, List.getElem?_eq_getElem hi', Option.getD_some]
      rfl
  rw [mapM_ok hkey, Except.ok.injEq]
  refine List.ext_getElem (by simp) ?_
  intro i hi hi'
  rw [List.length_mapIdx] at hi'
  rw [List.getElem_map, List.getElem_range, List.getElem_mapIdx, List.getD_eq_getElem?_getD, List.getElem?_eq_getElem hi',
    Option.getD_some]

/-- the keys that the last block of an epoch stores -/
theorem actualCertifiersKeys_eq (h : ∀ (i : ℕ) keyType, s.contents.keyRotationProofs epoch i keyType = lastRotation rotations
    i keyType)
    {keys : CertifiersKeys} (hlength : keys.masterKeys.length = keys.signingKeys.length) :
    s.actualCertifiersKeys epoch keys = .ok (rotations.foldl rotate keys) := by
  have hmaster := mapM_actualKey (fun i => h i .master) keys.masterKeys
  rw [hlength] at hmaster
  rw [actualCertifiersKeys, mapM_actualKey (fun i => h i .signing), hmaster, foldl_rotate]
  rfl

end State

/-! ## Keys of epochs -/

section Runs

variable {σ τ : Type} {params : NetworkParams} {env : Externals σ τ} {s : SidechainState σ τ} {ts : List (Transition σ τ)}
  {t : Transition σ τ} {n : ℕ}

/-- the rotations in the blocks of an epoch -/
def rotationsOf (epoch : ℤ) (ts : List (Transition σ τ)) : List KeyRotationProof :=
  (ts.filter fun t => t.after.getWithdrawalEpochInfo.epoch = epoch).flatMap fun t =>
    keyRotationProofs t.block.sidechainTransactions

/-- the keys before an epoch: those of the configuration, and then each epoch makes its rotations -/
def keysBefore (params : NetworkParams) (ts : List (Transition σ τ)) : ℕ → CertifiersKeys
  | 0 => ⟨params.signersPublicKeys, params.mastersPublicKeys⟩
  | n + 1 => (rotationsOf n ts).foldl rotate (keysBefore params ts n)

theorem rotationsOf_concat (epoch : ℤ) (ts : List (Transition σ τ)) (t : Transition σ τ) :
    rotationsOf epoch (ts ++ [t]) = rotationsOf epoch ts ++
      if t.after.getWithdrawalEpochInfo.epoch = epoch then keyRotationProofs t.block.sidechainTransactions else [] := by
  unfold rotationsOf
  rw [List.filter_append, List.flatMap_append]
  split_ifs with heq
  · simp [heq]
  · simp [heq]

/-- rotations of a later epoch do not change the keys before -/
theorem keysBefore_concat (hn : (n : ℤ) ≤ t.after.getWithdrawalEpochInfo.epoch) :
    keysBefore params (ts ++ [t]) n = keysBefore params ts n := by
  induction n with
  | zero => rfl
  | succ n ih =>
    push_cast at hn
    rw [keysBefore, keysBefore, ih (by omega), rotationsOf_concat, if_neg (by omega), List.append_nil]

theorem keysBefore_length (hparams : params.mastersPublicKeys.length = params.signersPublicKeys.length) (n : ℕ) :
    (keysBefore params ts n).masterKeys.length = (keysBefore params ts n).signingKeys.length := by
  induction n with
  | zero => exact hparams
  | succ n ih => rw [keysBefore, foldl_rotate, List.length_mapIdx, List.length_mapIdx, ih]

/-- what the state holds in epoch `n`, after blocks with these rotations -/
structure KeysInv (params : NetworkParams) (ts : List (Transition σ τ)) (s : SidechainState σ τ) (n : ℕ) : Prop where
  epoch : s.getWithdrawalEpochInfo.epoch = n
  previous : s.certifiersKeys params (n - 1) = some (keysBefore params ts n)
  finished : isEpochLastIndex s.getWithdrawalEpochInfo params.withdrawalEpochLength →
    s.certifiersKeys params n = some (keysBefore params ts (n + 1))
  proofs : ∀ (i : ℕ) keyType, s.contents.keyRotationProofs n i keyType = lastRotation (rotationsOf n ts) i keyType
  later : ∀ e > (n : ℤ), ∀ i keyType, s.contents.keyRotationProofs e i keyType = none
  rotations_later : ∀ e > (n : ℤ), rotationsOf e ts = []

/-- a block that does not both end an epoch and rotate keys -/
def RotatesInTime (params : NetworkParams) (t : Transition σ τ) : Prop :=
  isEpochLastIndex t.after.getWithdrawalEpochInfo params.withdrawalEpochLength →
    keyRotationProofs t.block.sidechainTransactions = []

/-- the mainchain takes certificates of epochs that are over; it matters where they make keys outdated -/
def CertificatesInTime (params : NetworkParams) (t : Transition σ τ) : Prop :=
  params.isNonCeasing → ∀ certificate, t.block.topQualityCertificateOpt = some certificate →
    certificate.epochNumber < t.after.getWithdrawalEpochInfo.epoch

/-- neither the epoch of a block nor the one before is outdated by it -/
theorem not_outdated {c : StateContents} {u : StateContents.Update} {e : ℤ} (he : u.withdrawalEpochInfo.epoch - 1 ≤ e)
    (hcertificate : params.isNonCeasing → ∀ certificate, u.topQualityCertificateOpt = some certificate →
      certificate.epochNumber < u.withdrawalEpochInfo.epoch) :
    ¬ (c.outdatedByEpoch params u 4 e ∨ c.outdatedByCertificate params u e) := by
  rintro (hepoch | hcert)
  · unfold StateContents.outdatedByEpoch at hepoch
    simp only [decide_eq_true_eq] at hepoch
    omega
  · unfold StateContents.outdatedByCertificate at hcert
    cases hopt : u.topQualityCertificateOpt with
    | none => rw [hopt] at hcert; cases hcert
    | some certificate =>
      rw [hopt] at hcert
      obtain ⟨hnonCeasing, -, hafter⟩ := of_decide_eq_true hcert
      have hless := hcertificate hnonCeasing certificate hopt
      omega

/-- with each key rotated at most once in the block -/
theorem rotations_nodup {s' : SidechainState σ τ} {mod : SidechainBlock} {info : WithdrawalEpochInfo} {consensusEpoch : ℕ}
    (h : Applied params env s mod s' info consensusEpoch)
    (hcircuit : params.circuitType = .naiveThresholdSignatureCircuitWithKeyRotation) :
    ((keyRotationProofs mod.sidechainTransactions).map fun p => (p.keyType, p.index)).Nodup := by
  have hmutuality := (validate_ok h.epoch_eq h.info_eq h.validated).mutuality
  simp only [validateBlockTransactionsMutuality, bind_ok_iff, failIf_ok, h.epoch_eq, Except.ok.injEq, exists_eq_left']
    at hmutuality
  obtain ⟨⟨⟩, -, ⟨⟩, -, ⟨⟩, -, ⟨⟩, hrotations, -⟩ := hmutuality
  by_contra hdouble
  exact hrotations ⟨hcircuit, hdouble⟩

/-- what a state holds for the epoch of the next block -/
structure Prepared (params : NetworkParams) (ts : List (Transition σ τ)) (s : SidechainState σ τ) (n : ℕ) : Prop where
  previous : s.certifiersKeys params (n - 1) = some (keysBefore params ts n)
  proofs : ∀ (i : ℕ) keyType, s.contents.keyRotationProofs n i keyType = lastRotation (rotationsOf n ts) i keyType
  later : ∀ e > (n : ℤ), ∀ i keyType, s.contents.keyRotationProofs e i keyType = none
  rotations_later : ∀ e > (n : ℤ), rotationsOf e ts = []

theorem KeysInv.prepared (h : KeysInv params ts s n) {refs : ℕ} {info : WithdrawalEpochInfo}
    (hcases : EpochCases params.withdrawalEpochLength s.getWithdrawalEpochInfo refs info) :
    ∃ m : ℕ, info.epoch = m ∧ Prepared params ts s m := by
  rcases hcases with ⟨hparent, -, hinfo⟩ | ⟨-, -, hinfo⟩
  · refine ⟨n + 1, by rw [hinfo, h.epoch]; push_cast; rfl, ?_, ?_, ?_, ?_⟩
    · rw [Nat.cast_succ, add_sub_cancel_right]
      exact h.finished (decide_eq_true hparent)
    · intro i keyType
      rw [h.later _ (by push_cast; omega), h.rotations_later _ (by push_cast; omega)]
      rfl
    · intro e he
      exact h.later e (by push_cast at he; omega)
    · intro e he
      exact h.rotations_later e (by push_cast at he; omega)
  · exact ⟨n, by rw [hinfo, h.epoch], h.previous, h.proofs, h.later, h.rotations_later⟩

/-- **Step.** An accepted block keeps what the state holds. -/
theorem step_keysInv (hL : 0 < params.withdrawalEpochLength)
    (hcircuit : params.circuitType = .naiveThresholdSignatureCircuitWithKeyRotation)
    (hparams : params.mastersPublicKeys.length = params.signersPublicKeys.length) (ht : t.Accepted params env)
    (hrotates : RotatesInTime params t) (hcertificates : CertificatesInTime params t) (h : KeysInv params ts t.before n) :
    ∃ m, KeysInv params (ts ++ [t]) t.after m := by
  obtain ⟨info, consensusEpoch, happlied, root, keys, hkeys, hcontents⟩ := applyModifier_stored ht.byState
  have hinfo := happlied.getWithdrawalEpochInfo_eq
  obtain ⟨m, hm, hprepared⟩ := h.prepared (epoch_cases hL ht.byHistory happlied.info_eq)
  have hepoch : t.after.getWithdrawalEpochInfo.epoch = m := by rw [hinfo, hm]
  set u := t.before.stateUpdate params env (changes t.block) (blockData params t.block info consensusEpoch) root keys with hu
  have hu_epoch : u.withdrawalEpochInfo.epoch = m := hm
  have hkept : ∀ e : ℤ, m - 1 ≤ e →
      ¬ (t.before.contents.outdatedByEpoch params u 4 e ∨ t.before.contents.outdatedByCertificate params u e) := by
    intro e he
    refine not_outdated (by omega) ?_
    intro hnonCeasing certificate hcertificate
    rw [hu_epoch, ← hepoch]
    exact hcertificates hnonCeasing certificate hcertificate
  have hrotations : u.keyRotationProofs = keyRotationProofs t.block.sidechainTransactions := by
    show getKeyRotationProofsToAdd params _ = _
    rw [getKeyRotationProofsToAdd, hcircuit]
  have hprevious : t.after.certifiersKeys params (m - 1) = t.before.certifiersKeys params (m - 1) := by
    have hstored : t.after.contents.certifiersKeys (m - 1) = t.before.contents.certifiersKeys (m - 1) := by
      rw [hcontents]
      simp only [StateContents.update]
      rw [if_neg (hkept _ le_rfl), if_neg (show ¬ (m : ℤ) - 1 = u.withdrawalEpochInfo.epoch by omega)]
    rw [SidechainState.certifiersKeys, SidechainState.certifiersKeys, hstored]
  refine ⟨m, hepoch, ?_, ?_, ?_, ?_, ?_⟩
  · rw [hprevious, hprepared.previous, keysBefore_concat hepoch.ge]
  · intro hlast
    have hstored : keys = some ((rotationsOf m ts).foldl rotate (keysBefore params ts m)) := by
      have hm' : (blockData params t.block info consensusEpoch).withdrawalEpochInfo.epoch = m := hm
      have hlast' : isEpochLastIndex (blockData params t.block info consensusEpoch).withdrawalEpochInfo
          params.withdrawalEpochLength := by
        rw [hinfo] at hlast
        exact hlast
      unfold certifiersKeysToStore at hkeys
      rw [if_pos (And.intro hlast' hcircuit)] at hkeys
      rw [hm', hprepared.previous] at hkeys
      dsimp only at hkeys
      rw [actualCertifiersKeys_eq hprepared.proofs (keysBefore_length hparams m)] at hkeys
      exact (Except.ok.inj hkeys).symm
    have hnone := hrotates hlast
    rw [keysBefore, rotationsOf_concat, hnone, ite_self, List.append_nil, keysBefore_concat hepoch.ge]
    rw [SidechainState.certifiersKeys, if_neg (show ¬ (m : ℤ) = -1 by omega), hcontents]
    simp only [StateContents.update]
    rw [if_neg (hkept _ (by omega)), if_pos hu_epoch.symm]
    show keys.or _ = _
    rw [hstored]
    rfl
  · intro i keyType
    rw [hcontents, rotationsOf_concat, if_pos hepoch, lastRotation_append]
    simp only [StateContents.update]
    rw [if_neg fun hboth => hkept _ (by omega) hboth.1, if_pos hu_epoch.symm, hrotations,
      find_eq_lastRotation (rotations_nodup happlied hcircuit), hprepared.proofs]
  · intro e he i keyType
    rw [hcontents]
    simp only [StateContents.update]
    rw [if_neg (show ¬ e = u.withdrawalEpochInfo.epoch by omega), hprepared.later e he, ite_self]
  · intro e he
    rw [rotationsOf_concat, hprepared.rotations_later e he, if_neg (by omega)]
    rfl

theorem keysInv_restored (hL : 0 < params.withdrawalEpochLength) {boxes : Boxes} (hstart : s.contents = .restored boxes) :
    KeysInv params ([] : List (Transition σ τ)) s 0 := by
  have hinfo : s.getWithdrawalEpochInfo = ⟨0, 0⟩ := by
    rw [SidechainState.getWithdrawalEpochInfo, hstart]
    rfl
  refine ⟨by rw [hinfo]; rfl, rfl, ?_, ?_, ?_, fun e _ => rfl⟩
  · intro hlast
    rw [hinfo] at hlast
    have hzero : 0 = params.withdrawalEpochLength := of_decide_eq_true hlast
    omega
  · intro i keyType
    rw [hstart]
    rfl
  · intro e _ i keyType
    rw [hstart]
    rfl

/-- by induction on the run, with the blocks before it -/
theorem run_keysInv (hL : 0 < params.withdrawalEpochLength)
    (hcircuit : params.circuitType = .naiveThresholdSignatureCircuitWithKeyRotation)
    (hparams : params.mastersPublicKeys.length = params.signersPublicKeys.length) {pre : List (Transition σ τ)}
    (hrun : Run params env s ts) (hrotates : ∀ t ∈ ts, RotatesInTime params t)
    (hcertificates : ∀ t ∈ ts, CertificatesInTime params t)
    (h : KeysInv params pre s n) {ts₁ ts₂ : List (Transition σ τ)} (hts : ts = ts₁ ++ t :: ts₂) :
    ∃ m, KeysInv params (pre ++ ts₁ ++ [t]) t.after m := by
  induction ts₁ generalizing pre s ts n with
  | nil =>
    rw [hts, List.nil_append] at hrun hrotates hcertificates
    obtain ⟨rfl, haccepted, -⟩ := hrun
    rw [List.append_nil]
    exact step_keysInv hL hcircuit hparams haccepted (hrotates t List.mem_cons_self) (hcertificates t List.mem_cons_self) h
  | cons t' ts₁ ih =>
    rw [hts, List.cons_append] at hrun hrotates hcertificates
    obtain ⟨rfl, haccepted, hrest⟩ := hrun
    obtain ⟨m, hnext⟩ := step_keysInv hL hcircuit hparams haccepted (hrotates t' List.mem_cons_self)
      (hcertificates t' List.mem_cons_self) h
    have hlast := ih hrest (fun t ht => hrotates t (List.mem_cons_of_mem _ ht))
      (fun t ht => hcertificates t (List.mem_cons_of_mem _ ht)) hnext rfl
    rw [List.append_assoc pre [t'], List.singleton_append] at hlast
    exact hlast

/-- the keys of an epoch that this block ends are those of the epoch before with the rotations of the epoch made -/
def Follows (params : NetworkParams) (ts : List (Transition σ τ)) (t : Transition σ τ) : Prop :=
  ∃ n : ℕ, t.after.getWithdrawalEpochInfo.epoch = n ∧
    t.after.certifiersKeys params (n - 1) = some (keysBefore params (ts ++ [t]) n) ∧
    t.after.certifiersKeys params n = some ((rotationsOf n (ts ++ [t])).foldl rotate (keysBefore params (ts ++ [t]) n))

/-- **Keys of the certifiers.** In every run from a state without records, with any boxes, in which no block both ends an epoch
and rotates a key: when an epoch is over, its stored keys are those of the epoch before, which are those of the configuration for
the first one, with every rotation of its blocks made in order. -/
theorem keys_follow_rotations (hL : 0 < params.withdrawalEpochLength)
    (hcircuit : params.circuitType = .naiveThresholdSignatureCircuitWithKeyRotation)
    (hparams : params.mastersPublicKeys.length = params.signersPublicKeys.length) {boxes : Boxes}
    (hstart : s.contents = .restored boxes) (hrun : Run params env s ts)
    (hcertificates : ∀ t ∈ ts, CertificatesInTime params t) (hrotates : ∀ t ∈ ts, RotatesInTime params t)
    (ts₁ ts₂ : List (Transition σ τ)) (t : Transition σ τ) (hts : ts = ts₁ ++ t :: ts₂)
    (hlast : isEpochLastIndex t.after.getWithdrawalEpochInfo params.withdrawalEpochLength) : Follows params ts₁ t := by
  obtain ⟨n, hinv⟩ := run_keysInv hL hcircuit hparams hrun hrotates hcertificates (keysInv_restored hL hstart) hts
  rw [List.nil_append] at hinv
  exact ⟨n, hinv.epoch, hinv.previous, hinv.finished hlast⟩

end Runs

/-! ## Rotations in time and not -/

/-- epochs of three mainchain blocks, and one signer -/
def rotationParams : NetworkParams :=
  { sampleParams with
    isNonCeasing := true
    circuitType := .naiveThresholdSignatureCircuitWithKeyRotation
    signersPublicKeys := [11]
    mastersPublicKeys := [21] }

/-- a rotation of the signing key, paid for with a box -/
def rotationTo (id newKey : ℕ) (closed : BoxUnlocker) (newBox : Box) : SidechainTransaction :=
  ⟨id, .keyRotation ⟨.signing, 0, newKey, 0, 0⟩ 0, 100, [closed], [newBox], 0⟩

/-- a coin comes in, and the third block rotates the signing key to 15 before the fourth one ends epoch 0 -/
def rotationBlocks : List SidechainBlock :=
  [sampleGenesis,
    ⟨2, 1, 1, 7, [sampleReference 2 [.forwardTransfer 2 0 7 100]], [], 0⟩,
    ⟨3, 2, 2, 7, [], [rotationTo 9 15 ⟨2, 7⟩ ⟨5, 0, 8, 100, .zen⟩], 0⟩,
    ⟨4, 3, 3, 7, [sampleReference 3 []], [], 0⟩]

/-- it is all of epoch 1 and rotates the key to 16 -/
def fullEpochBlock : SidechainBlock :=
  ⟨5, 4, 4, 7, [sampleReference 4 [], sampleReference 5 [], sampleReference 6 []],
    [rotationTo 10 16 ⟨5, 8⟩ ⟨6, 0, 9, 100, .zen⟩], 0⟩

/-- blocks applied one after the other, from a state -/
def transitions (params : NetworkParams) : SidechainState Unit Unit → List SidechainBlock → List (Transition Unit Unit)
  | _, [] => []
  | s, block :: blocks =>
    let after := (exec (applyModifier params sampleExternals block) s).2
    ⟨s, block, after⟩ :: transitions params after blocks

theorem transitions_run {params : NetworkParams} {s : SidechainState Unit Unit} {blocks : List SidechainBlock}
    (h : ∀ t ∈ transitions params s blocks, AcceptedByHistory params t.before.getWithdrawalEpochInfo t.block ∧
      (exec (applyModifier params sampleExternals t.block) t.before).1 = .ok ()) :
    Run params sampleExternals s (transitions params s blocks) := by
  induction blocks generalizing s with
  | nil => trivial
  | cons block blocks ih =>
    obtain ⟨⟨hhistory, hstate⟩, hrest⟩ := List.forall_mem_cons.1 h
    exact ⟨rfl, ⟨hhistory, Prod.ext hstate rfl⟩, ih hrest⟩

/-- the steps of epoch 0, and those of epochs 0 and 1 -/
def rotationSteps : List (Transition Unit Unit) := transitions rotationParams sampleState rotationBlocks

def epochZeroStep : Transition Unit Unit := rotationSteps.getLastD ⟨sampleState, sampleGenesis, sampleState⟩

def fullEpochSteps : List (Transition Unit Unit) := transitions rotationParams sampleState (rotationBlocks ++ [fullEpochBlock])

def fullEpochStep : Transition Unit Unit := fullEpochSteps.getLastD ⟨sampleState, sampleGenesis, sampleState⟩

theorem rotationSteps_run : Run rotationParams sampleExternals sampleState rotationSteps := by
  apply transitions_run
  simp only [rotationBlocks, transitions, List.forall_mem_cons, List.not_mem_nil, false_implies, implies_true, and_true]
  exact ⟨⟨.inr ⟨rfl, rfl⟩, rfl⟩, ⟨.inl rfl, rfl⟩, ⟨.inl rfl, rfl⟩,
    ⟨.inl (by decide +kernel), by decide +kernel⟩⟩

/-- the key that has been rotated to 15 -/
theorem key_rotated_in_epoch_zero : Follows rotationParams (rotationSteps.take 3) epochZeroStep := by
  refine keys_follow_rotations (by decide) rfl rfl rfl rotationSteps_run ?_ ?_ _ [] _ rfl (by decide +kernel)
  · simp only [rotationSteps, rotationBlocks, transitions, List.forall_mem_cons, List.not_mem_nil, false_implies, implies_true,
      and_true]
    exact ⟨fun _ => nofun, fun _ => nofun, fun _ => nofun, fun _ => nofun⟩
  · simp only [rotationSteps, rotationBlocks, transitions, List.forall_mem_cons, List.not_mem_nil, false_implies, implies_true,
      and_true]
    exact ⟨fun _ => rfl, fun _ => rfl, fun hlast => absurd hlast (by decide +kernel), fun _ => rfl⟩

theorem fullEpochSteps_run : Run rotationParams sampleExternals sampleState fullEpochSteps := by
  apply transitions_run
  simp only [rotationBlocks, fullEpochBlock, transitions, List.cons_append, List.nil_append, List.forall_mem_cons,
    List.not_mem_nil,
    false_implies, implies_true, and_true]
  exact ⟨⟨.inr ⟨rfl, rfl⟩, rfl⟩, ⟨.inl rfl, rfl⟩, ⟨.inl rfl, rfl⟩,
    ⟨.inl (by decide +kernel), by decide +kernel⟩,
    ⟨.inl (by decide +kernel), by decide +kernel⟩⟩

/-- the block is accepted after epoch 0, and the keys of epoch 1 are those of epoch 0 -/
theorem rotation_of_full_epoch_lost :
    Run rotationParams sampleExternals sampleState fullEpochSteps ∧
      (∀ t ∈ fullEpochSteps, CertificatesInTime rotationParams t) ∧
      fullEpochSteps = fullEpochSteps.take 4 ++ [fullEpochStep] ∧
      isEpochLastIndex fullEpochStep.after.getWithdrawalEpochInfo rotationParams.withdrawalEpochLength ∧
      ¬ Follows rotationParams (fullEpochSteps.take 4) fullEpochStep := by
  refine ⟨fullEpochSteps_run, ?_, rfl, by decide +kernel, ?_⟩
  · simp only [fullEpochSteps, rotationBlocks, fullEpochBlock, transitions, List.cons_append, List.nil_append,
      List.forall_mem_cons,
      List.not_mem_nil, false_implies, implies_true, and_true]
    exact ⟨fun _ => nofun, fun _ => nofun, fun _ => nofun, fun _ => nofun, fun _ => nofun⟩
  · rintro ⟨n, hn, -, hkeys⟩
    have hepoch : fullEpochStep.after.getWithdrawalEpochInfo.epoch = (1 : ℕ) := by decide +kernel
    obtain rfl : n = 1 := by
      rw [hepoch] at hn
      exact_mod_cast hn.symm
    have hstored : fullEpochStep.after.certifiersKeys rotationParams (1 : ℕ) = some ⟨[15], [21]⟩ := by decide +kernel
    have hrotated : (rotationsOf (1 : ℕ) (fullEpochSteps.take 4 ++ [fullEpochStep])).foldl rotate
        (keysBefore rotationParams (fullEpochSteps.take 4 ++ [fullEpochStep]) 1) = ⟨[16], [21]⟩ := by decide +kernel
    rw [hstored, hrotated] at hkeys
    exact absurd hkeys (by decide)

end CertifierKeys

end SidechainsSdk.Utxo
