/-
The signatures that the certificate submitter collects. Signatures of peers are checked before they are taken; the ones the
submitter has made itself come back as messages that name neither epoch nor message, and are taken as they are.

- `Collected`: different indexes of signers, and valid signatures of the status's message.
- `collected_step`: one step keeps this exactly if it does not take a local signature that is not one for the status.
- `known_signatures_iff`: over runs.
- `sound_of_kept`: local signatures are ones for the status while no new status is opened before they are handled.
- `quality_eq`: the number of collected signatures is the quality of the certificate made of them.
-/
import Mathlib.Tactic
import SidechainsSdk.Certificates.CertificateSubmitter

namespace SidechainsSdk.Certificates

namespace Submitter

variable {κ σ ν : Type} {schnorr : Schnorr κ σ ν} {settings : Settings}

/-! ## Collected signatures -/

/-- a valid signature of the message under the key of its index -/
def Authentic (schnorr : Schnorr κ σ ν) (messageToSign : Bytes) (signersPublicKeys : List κ)
    (info : CertificateSignatureInfo ν) : Prop :=
  0 ≤ info.pubKeyIndex ∧ ∃ key, signersPublicKeys[info.pubKeyIndex.toNat]? = some key ∧
    schnorr.isValid info.signature key messageToSign = true

structure Collected (schnorr : Schnorr κ σ ν) (status : SignaturesStatus κ ν) : Prop where
  distinct : (status.knownSigs.map CertificateSignatureInfo.pubKeyIndex).Nodup
  authentic : ∀ info ∈ status.knownSigs, Authentic schnorr status.messageToSign status.signersPublicKeys info

/-- a status is defined only with collected signatures -/
def AllCollected (schnorr : Schnorr κ σ ν) (s : Submitter κ ν) : Prop :=
  ∀ status, s.signaturesStatus = some status → Collected schnorr status

/-- a local signature that is taken into the status is one for it -/
def Sound (schnorr : Schnorr κ σ ν) (s : Submitter κ ν) : Label κ σ ν → Prop
  | .receives _ => ∀ info mailbox status, s.mailbox = .locallyGeneratedSignature info :: mailbox →
      s.signaturesStatus = some status → (∀ item ∈ status.knownSigs, item.pubKeyIndex ≠ info.pubKeyIndex) →
      Authentic schnorr status.messageToSign status.signersPublicKeys info
  | _ => True

variable {s s' : Submitter κ ν}

theorem allCollected_initial : AllCollected schnorr (initial settings) := nofun

theorem AllCollected.of_same (h : AllCollected schnorr s) (hsame : s'.signaturesStatus = s.signaturesStatus) :
    AllCollected schnorr s' := fun status hstatus => h status (hsame ▸ hstatus)

theorem AllCollected.of_none (hnone : s'.signaturesStatus = none) : AllCollected schnorr s' := by
  intro status hstatus
  rw [hnone] at hstatus
  cases hstatus

theorem any_index_iff {status : SignaturesStatus κ ν} {index : ℤ} :
    (status.knownSigs.any fun item => item.pubKeyIndex = index) = true ↔ ∃ item ∈ status.knownSigs,
      item.pubKeyIndex = index := by
  rw [List.any_eq_true]
  simp only [decide_eq_true_eq]

/-- one more signature -/
theorem collected_append_iff {status : SignaturesStatus κ ν} (h : Collected schnorr status) {info : CertificateSignatureInfo ν}
    (hnew : ∀ item ∈ status.knownSigs, item.pubKeyIndex ≠ info.pubKeyIndex) :
    Collected schnorr { status with knownSigs := status.knownSigs ++ [info] } ↔
      Authentic schnorr status.messageToSign status.signersPublicKeys info := by
  constructor
  · intro hcollected
    exact hcollected.authentic info (List.mem_append_right _ List.mem_cons_self)
  · intro hinfo
    refine ⟨?_, ?_⟩
    · simp only [List.map_append, List.map_cons, List.map_nil]
      refine List.nodup_append'.2 ⟨h.distinct, List.nodup_singleton _, ?_⟩
      intro index hindex hlast
      obtain ⟨item, hitem, rfl⟩ := List.mem_map.1 hindex
      exact hnew item hitem (List.mem_singleton.1 hlast)
    · intro item hitem
      rcases List.mem_append.1 hitem with hold | hlast
      · exact h.authentic item hold
      · rw [List.mem_singleton.1 hlast]
        exact hinfo

theorem AllCollected.append_iff {status : SignaturesStatus κ ν} (h : Collected schnorr status)
    {info : CertificateSignatureInfo ν} (hnew : ∀ item ∈ status.knownSigs, item.pubKeyIndex ≠ info.pubKeyIndex) :
    AllCollected schnorr (append status info s) ↔ Authentic schnorr status.messageToSign status.signersPublicKeys info := by
  rw [← collected_append_iff h hnew]
  constructor
  · intro hall
    exact hall _ rfl
  · intro hcollected status' hstatus'
    obtain rfl := Option.some.inj hstatus'
    exact hcollected

/-! ## One step -/

theorem AllCollected.newBlockArrived (h : AllCollected schnorr s) (r : Replies κ σ ν) :
    AllCollected schnorr (newBlockArrived schnorr r s) := by
  unfold Submitter.newBlockArrived
  split
  · exact h
  · split
    · split
      · exact h
      · unfold startStatus
        split
        · exact .of_none rfl
        · have hstarted : ∀ s' : Submitter κ ν, ∀ epoch message keys,
              s'.signaturesStatus = some ⟨epoch, message, [], keys⟩ → AllCollected schnorr s' := by
            intro s' epoch message keys hstatus status hs
            obtain rfl := Option.some.inj (hstatus.symm.trans hs)
            exact ⟨List.nodup_nil, nofun⟩
          split_ifs
          · split
            · exact .of_none rfl
            · exact hstarted _ _ _ _ rfl
          · exact hstarted _ _ _ _ rfl
    · split
      · exact .of_none rfl
      · exact .of_none rfl

theorem AllCollected.signatureFromRemote (h : AllCollected schnorr s) (info : CertificateSignatureFromRemoteInfo ν) :
    AllCollected schnorr (signatureFromRemote schnorr info s) := by
  unfold Submitter.signatureFromRemote
  split
  · exact h
  · next status hstatus =>
    split
    · exact h
    · next hmessage =>
      split
      · exact h
      · next hindex =>
        split
        · exact h
        · next key hkey =>
          by_cases hvalid : schnorr.isValid info.signature key info.messageToSign = true
          · rw [if_neg (by simpa using hvalid)]
            by_cases hknown : (status.knownSigs.any fun item => item.pubKeyIndex = info.pubKeyIndex) = true
            · rw [if_pos hknown]
              exact h
            · rw [if_neg hknown]
              have hnew : ∀ item ∈ status.knownSigs, item.pubKeyIndex ≠ info.pubKeyIndex :=
                fun item hitem heq => hknown (any_index_iff.2 ⟨item, hitem, heq⟩)
              refine (AllCollected.append_iff (h status hstatus) hnew).2 ⟨not_lt.1 hindex, key, hkey, ?_⟩
              rw [not_not.1 hmessage]
              exact hvalid
          · rw [if_pos (by simpa using hvalid)]
            exact h

theorem tryToSchedule_status (r : Replies κ σ ν) :
    (tryToScheduleCertificateGeneration settings r s).signaturesStatus = s.signaturesStatus ∨
      (tryToScheduleCertificateGeneration settings r s).signaturesStatus = none := by
  unfold tryToScheduleCertificateGeneration
  split
  · exact .inl rfl
  · split
    · exact .inl rfl
    · split
      · exact .inr rfl
      · exact .inl rfl
      · exact .inl rfl

theorem tryToGenerate_status (r : Replies κ σ ν) (timer : ℕ) :
    (tryToGenerateCertificate settings r timer s).signaturesStatus = s.signaturesStatus := by
  unfold tryToGenerateCertificate
  split
  · split
    · rfl
    · split
      · split_ifs <;> rfl
      · rfl
  · rfl

theorem collected_step (h : AllCollected schnorr s) (l : Label κ σ ν) :
    AllCollected schnorr (step schnorr settings s l) ↔ Sound schnorr s l := by
  cases l with
  | arrives message => exact iff_of_true (h.of_same rfl) trivial
  | timerExpires =>
    refine iff_of_true ?_ trivial
    rw [step]
    split
    · exact h.of_same rfl
    · exact h
  | thread index outcome =>
    refine iff_of_true ?_ trivial
    rw [step]
    split
    · exact h
    · split <;> exact h.of_same rfl
  | receives r =>
    rw [step]
    cases hmailbox : s.mailbox with
    | nil =>
      refine iff_of_true h ?_
      intro info mailbox status hsplit
      rw [hmailbox] at hsplit
      cases hsplit
    | cons m mailbox =>
      have hrest : AllCollected schnorr { s with mailbox := mailbox } := h.of_same rfl
      have hsound : (∀ info, m ≠ .locallyGeneratedSignature info) → Sound schnorr s (.receives r) := by
        intro hother info mailbox' status hsplit
        exact absurd (List.cons.inj (hmailbox.symm.trans hsplit)).1 (hother info)
      cases m with
      | certificateSubmissionStarted => exact iff_of_true (h.of_same rfl) (hsound nofun)
      | certificateSubmissionStopped => exact iff_of_true (h.of_same rfl) (hsound nofun)
      | tryToScheduleCertificateGeneration =>
        refine iff_of_true ?_ (hsound nofun)
        rcases tryToSchedule_status (s := { s with mailbox := mailbox }) r with hsame | hnone
        · exact hrest.of_same hsame
        · exact .of_none hnone
      | tryToGenerateCertificate timer => exact iff_of_true (hrest.of_same (tryToGenerate_status r timer)) (hsound nofun)
      | external message =>
        refine iff_of_true ?_ (hsound nofun)
        cases message with
        | semanticallySuccessfulModifier => exact hrest.newBlockArrived r
        | signatureFromRemote info => exact hrest.signatureFromRemote info
        | enableSubmitter =>
          change AllCollected schnorr (enableSubmitter _)
          unfold enableSubmitter
          split
          · exact h.of_same rfl
          · exact h.of_same rfl
        | disableSubmitter => exact h.of_same rfl
        | enableCertificateSigner => exact h.of_same rfl
        | disableCertificateSigner => exact h.of_same rfl
      | locallyGeneratedSignature info =>
        change AllCollected schnorr (locallyGeneratedSignature info _) ↔ _
        unfold locallyGeneratedSignature
        split
        · next hnone =>
          refine iff_of_true hrest ?_
          intro _ _ status _ hstatus
          rw [show s.signaturesStatus = none from hnone] at hstatus
          cases hstatus
        · next status hstatus =>
          have hstatus : s.signaturesStatus = some status := hstatus
          by_cases hknown : (status.knownSigs.any fun item => item.pubKeyIndex = info.pubKeyIndex) = true
          · rw [if_pos hknown]
            refine iff_of_true hrest ?_
            intro info' mailbox' status' hsplit hstatus' hnew
            obtain rfl := Option.some.inj (hstatus.symm.trans hstatus')
            obtain rfl := Message.locallyGeneratedSignature.inj (List.cons.inj (hmailbox.symm.trans hsplit)).1
            obtain ⟨item, hitem, heq⟩ := any_index_iff.1 hknown
            exact absurd heq (hnew item hitem)
          · have hnew : ∀ item ∈ status.knownSigs, item.pubKeyIndex ≠ info.pubKeyIndex :=
              fun item hitem heq => hknown (any_index_iff.2 ⟨item, hitem, heq⟩)
            rw [if_neg hknown, AllCollected.append_iff (h status hstatus) hnew]
            constructor
            · intro hauthentic info' mailbox' status' hsplit hstatus' _
              obtain rfl := Option.some.inj (hstatus.symm.trans hstatus')
              obtain rfl := Message.locallyGeneratedSignature.inj (List.cons.inj (hmailbox.symm.trans hsplit)).1
              exact hauthentic
            · intro hsound'
              exact hsound' info mailbox status hmailbox hstatus hnew

/-! ## Runs -/

/-- in every state of the run -/
def EachState (schnorr : Schnorr κ σ ν) (settings : Settings) (P : Submitter κ ν → Prop) :
    Submitter κ ν → List (Label κ σ ν) → Prop
  | s, [] => P s
  | s, l :: ls => P s ∧ EachState schnorr settings P (step schnorr settings s l) ls

/-- in every step of the run, of the state before it -/
def EachStep (schnorr : Schnorr κ σ ν) (settings : Settings) (P : Submitter κ ν → Label κ σ ν → Prop) :
    Submitter κ ν → List (Label κ σ ν) → Prop
  | _, [] => True
  | s, l :: ls => P s l ∧ EachStep schnorr settings P (step schnorr settings s l) ls

theorem eachState_iff (h : AllCollected schnorr s) (ls : List (Label κ σ ν)) :
    EachState schnorr settings (AllCollected schnorr) s ls ↔ EachStep schnorr settings (Sound schnorr) s ls := by
  induction ls generalizing s with
  | nil => exact iff_of_true h trivial
  | cons l ls ih =>
    rw [EachState, EachStep, and_iff_right h]
    have hstep : AllCollected schnorr (step schnorr settings s l) ↔ Sound schnorr s l := collected_step h l
    constructor
    · intro hstates
      have hnext : AllCollected schnorr (step schnorr settings s l) := by
        cases ls with
        | nil => exact hstates
        | cons l' ls => exact hstates.1
      exact ⟨hstep.1 hnext, (ih hnext).1 hstates⟩
    · rintro ⟨hsound, hsteps⟩
      exact (ih (hstep.2 hsound)).2 hsteps

/-! ## The quality of the certificate -/

/-- `buildCertificateData` of the strategy without key rotation: the keys of the signers in the status, each with the signature
that is known for it. The strategy with key rotation reads the same keys again from the state. -/
def schnorrKeyPairs (status : SignaturesStatus κ ν) : List (κ × Option ν) :=
  status.signersPublicKeys.zipIdx.map fun p =>
    (p.1, (status.knownSigs.find? fun info => info.pubKeyIndex = (p.2 : ℤ)).map CertificateSignatureInfo.signature)

/-- the valid signatures that a proof counts -/
def quality (schnorr : Schnorr κ σ ν) (status : SignaturesStatus κ ν) : ℕ :=
  (schnorrKeyPairs status).countP fun p => p.2.any fun signature => schnorr.isValid signature p.1 status.messageToSign

theorem Collected.pair_valid_iff {status : SignaturesStatus κ ν} (h : Collected schnorr status) {p : κ × ℕ}
    (hp : p ∈ status.signersPublicKeys.zipIdx) :
    (((status.knownSigs.find? fun info => info.pubKeyIndex = (p.2 : ℤ)).map CertificateSignatureInfo.signature).any
      fun signature =>
      schnorr.isValid signature p.1 status.messageToSign) = true ↔
      p.2 ∈ status.knownSigs.map fun info => info.pubKeyIndex.toNat := by
  rw [List.mem_map]
  cases hfind : status.knownSigs.find? fun info => info.pubKeyIndex = (p.2 : ℤ) with
  | none =>
    refine iff_of_false (by simp) ?_
    rintro ⟨info, hinfo, hindex⟩
    have hnonneg := (h.authentic info hinfo).1
    have hnot := List.find?_eq_none.1 hfind info hinfo
    simp only [decide_eq_true_eq] at hnot
    omega
  | some info =>
    have hinfo := List.mem_of_find?_eq_some hfind
    have hindex : info.pubKeyIndex = p.2 := by simpa using List.find?_some hfind
    obtain ⟨-, key, hkey, hvalid⟩ := h.authentic info hinfo
    have hp1 : status.signersPublicKeys[p.2]? = some p.1 := List.mk_mem_zipIdx_iff_getElem?.1 hp
    rw [hindex, Int.toNat_natCast, hp1] at hkey
    obtain rfl := Option.some.inj hkey
    refine iff_of_true (by simpa using hvalid) ⟨info, hinfo, ?_⟩
    rw [hindex, Int.toNat_natCast]

theorem Collected.quality_eq {status : SignaturesStatus κ ν} (h : Collected schnorr status) :
    quality schnorr status = status.knownSigs.length := by
  have hindexes : (status.knownSigs.map fun info => info.pubKeyIndex.toNat).Nodup := by
    refine (List.nodup_map_iff_inj_on (h.distinct.of_map _)).2 ?_
    intro info hinfo info' hinfo' heq
    have hnonneg := (h.authentic info hinfo).1
    have hnonneg' := (h.authentic info' hinfo').1
    exact List.inj_on_of_nodup_map h.distinct hinfo hinfo' (by omega)
  have hperm : ((List.range status.signersPublicKeys.length).filter fun i =>
      i ∈ status.knownSigs.map fun info => info.pubKeyIndex.toNat).Perm
      (status.knownSigs.map fun info => info.pubKeyIndex.toNat) := by
    refine (List.perm_ext_iff_of_nodup (List.nodup_range.filter _) hindexes).2 ?_
    intro i
    rw [List.mem_filter, List.mem_range, decide_eq_true_eq, and_iff_right_iff_imp, List.mem_map]
    rintro ⟨info, hinfo, rfl⟩
    obtain ⟨-, key, hkey, -⟩ := h.authentic info hinfo
    exact (List.getElem?_eq_some_iff.1 hkey).1
  calc quality schnorr status
      = status.signersPublicKeys.zipIdx.countP fun p =>
          p.2 ∈ status.knownSigs.map fun info => info.pubKeyIndex.toNat := by
        rw [quality, schnorrKeyPairs, List.countP_map]
        refine List.countP_congr ?_
        intro p hp
        rw [decide_eq_true_eq]
        exact h.pair_valid_iff hp
    _ = (List.range status.signersPublicKeys.length).countP fun i =>
          i ∈ status.knownSigs.map fun info => info.pubKeyIndex.toNat := by
        rw [List.range_eq_range', ← List.zipIdx_map_snd 0, List.countP_map]
        rfl
    _ = status.knownSigs.length := by
        rw [List.countP_eq_length_filter, hperm.length_eq, List.length_map]

/-! ## Why a local signature is not one for the status -/

/-- secrets of the wallet belong to their keys, and the enclave signs with the keys it is asked for -/
structure Honest (schnorr : Schnorr κ σ ν) (r : Replies κ σ ν) : Prop where
  wallet : ∀ secret, r.secret = some secret → ∀ key sk, secret key = some sk →
    ∀ message, schnorr.isValid (schnorr.sign sk message) key message = true
  enclave : ∀ message keys, ∀ info ∈ r.signaturesFromEnclave message keys,
    ∃ p ∈ keys, info.pubKeyIndex = (p.2 : ℤ) ∧ schnorr.isValid info.signature p.1 message = true

theorem Honest.calculateSignatures {r : Replies κ σ ν} (h : Honest schnorr r) {message : Bytes} {keys : List κ}
    {infos : List (CertificateSignatureInfo ν)} (hinfos : calculateSignatures schnorr r message keys = some infos) :
    ∀ info ∈ infos, Authentic schnorr message keys info := by
  obtain ⟨secret, hsecret, rfl⟩ := Option.map_eq_some_iff.1 hinfos
  intro info hinfo
  rcases List.mem_append.1 hinfo with henclave | hwallet
  · obtain ⟨p, hp, hindex, hvalid⟩ := h.enclave _ _ info henclave
    have hkey := List.mk_mem_zipIdx_iff_getElem?.1 (List.mem_filter.1 hp).1
    refine ⟨by omega, p.1, ?_, hvalid⟩
    rw [hindex, Int.toNat_natCast]
    exact hkey
  · obtain ⟨p, hp, rfl⟩ := List.mem_map.1 hwallet
    obtain ⟨q, hq, hsk⟩ := List.mem_filterMap.1 hp
    obtain ⟨sk, hsecretOf, rfl⟩ := Option.map_eq_some_iff.1 hsk
    have hkey := List.mk_mem_zipIdx_iff_getElem?.1 hq
    refine ⟨Int.natCast_nonneg _, q.1, ?_, h.wallet secret hsecret q.1 sk hsecretOf message⟩
    rw [Int.toNat_natCast]
    exact hkey

/-- the local signatures that wait are ones for the status -/
def LocalAuthentic (schnorr : Schnorr κ σ ν) (s : Submitter κ ν) : Prop :=
  ∀ status, s.signaturesStatus = some status → ∀ info, .locallyGeneratedSignature info ∈ s.mailbox →
    Authentic schnorr status.messageToSign status.signersPublicKeys info

/-- answers are honest, and a block that opens a new status finds no local signature waiting -/
def Kept (schnorr : Schnorr κ σ ν) (s : Submitter κ ν) : Label κ σ ν → Prop
  | .receives r => Honest schnorr r ∧
      ∀ mailbox, s.mailbox = .external .semanticallySuccessfulModifier :: mailbox →
        (newBlockArrived schnorr r { s with mailbox := mailbox }).signaturesStatus = s.signaturesStatus ∨
          ∀ info, .locallyGeneratedSignature info ∉ mailbox
  | _ => True

/-- the status, if it is still there, has its message and keys, and no local signature has come -/
structure Follows (s s' : Submitter κ ν) : Prop where
  status : ∀ status', s'.signaturesStatus = some status' → ∃ status, s.signaturesStatus = some status ∧
    status.messageToSign = status'.messageToSign ∧ status.signersPublicKeys = status'.signersPublicKeys
  mailbox : ∀ info, .locallyGeneratedSignature info ∈ s'.mailbox → .locallyGeneratedSignature info ∈ s.mailbox

theorem LocalAuthentic.follows (h : LocalAuthentic schnorr s) (hfollows : Follows s s') : LocalAuthentic schnorr s' := by
  intro status' hstatus' info hinfo
  obtain ⟨status, hstatus, hmessage, hkeys⟩ := hfollows.status status' hstatus'
  rw [← hmessage, ← hkeys]
  exact h status hstatus info (hfollows.mailbox info hinfo)

theorem Follows.of_status (hsame : s'.signaturesStatus = s.signaturesStatus ∨ s'.signaturesStatus = none)
    (hmailbox : ∀ info, .locallyGeneratedSignature info ∈ s'.mailbox → .locallyGeneratedSignature info ∈ s.mailbox) :
    Follows s s' := by
  refine ⟨?_, hmailbox⟩
  intro status' hstatus'
  rcases hsame with hsame | hnone
  · exact ⟨status', hsame ▸ hstatus', rfl, rfl⟩
  · rw [hnone] at hstatus'
    cases hstatus'

theorem Follows.refl (s : Submitter κ ν) : Follows s s := .of_status (.inl rfl) fun _ h => h

theorem Follows.trans {s'' : Submitter κ ν} (h : Follows s s') (h' : Follows s' s'') : Follows s s'' := by
  refine ⟨?_, fun info hinfo => h.mailbox info (h'.mailbox info hinfo)⟩
  intro status'' hstatus''
  obtain ⟨status', hstatus', hmessage', hkeys'⟩ := h'.status status'' hstatus''
  obtain ⟨status, hstatus, hmessage, hkeys⟩ := h.status status' hstatus'
  exact ⟨status, hstatus, hmessage.trans hmessage', hkeys.trans hkeys'⟩

theorem Follows.send (m : Message ν) (hm : ∀ info, m ≠ .locallyGeneratedSignature info) (s : Submitter κ ν) :
    Follows s (send m s) := by
  refine .of_status (.inl rfl) ?_
  intro info hinfo
  rcases List.mem_append.1 hinfo with hold | hnew
  · exact hold
  · exact absurd (List.mem_singleton.1 hnew).symm (hm info)

theorem Follows.append {status : SignaturesStatus κ ν} (hstatus : s.signaturesStatus = some status)
    (info : CertificateSignatureInfo ν) : Follows s (append status info s) := by
  have htaken : Follows s { s with signaturesStatus := some { status with knownSigs := status.knownSigs ++ [info] } } := by
    refine ⟨?_, fun _ h => h⟩
    intro status' hstatus'
    obtain rfl := Option.some.inj hstatus'
    exact ⟨status, hstatus, rfl, rfl⟩
  exact htaken.trans (.send .tryToScheduleCertificateGeneration nofun _)

theorem follows_locallyGeneratedSignature (info : CertificateSignatureInfo ν) (s : Submitter κ ν) :
    Follows s (locallyGeneratedSignature info s) := by
  unfold locallyGeneratedSignature
  split
  · exact .refl s
  · split
    · exact .refl s
    · exact .append ‹_› info

theorem follows_signatureFromRemote (info : CertificateSignatureFromRemoteInfo ν) (s : Submitter κ ν) :
    Follows s (signatureFromRemote schnorr info s) := by
  unfold signatureFromRemote
  split
  · exact .refl s
  · split
    · exact .refl s
    · split
      · exact .refl s
      · split
        · exact .refl s
        · split
          · exact .refl s
          · split
            · exact .refl s
            · exact .append ‹_› _

theorem follows_tryToSchedule (r : Replies κ σ ν) (s : Submitter κ ν) :
    Follows s (tryToScheduleCertificateGeneration settings r s) := by
  refine .of_status (tryToSchedule_status r) ?_
  unfold tryToScheduleCertificateGeneration
  split
  · exact fun _ h => h
  · split
    · exact fun _ h => h
    · split
      · exact fun _ h => h
      · exact fun _ h => h
      · exact (Follows.send .certificateSubmissionStarted nofun _).mailbox

theorem follows_tryToGenerate (r : Replies κ σ ν) (timer : ℕ) (s : Submitter κ ν) :
    Follows s (tryToGenerateCertificate settings r timer s) := by
  have hcancelled : Follows s { s with timer := none } := .of_status (.inl rfl) fun _ h => h
  have hstopped := hcancelled.trans (.send .certificateSubmissionStopped nofun _)
  unfold tryToGenerateCertificate
  split
  · split
    · exact hstopped
    · split
      · split_ifs
        · exact .of_status (.inl rfl) fun _ h => h
        · exact hstopped
      · exact hstopped
  · exact .refl s

/-- a status that a block opens comes with the signatures made for it -/
theorem LocalAuthentic.newBlockArrived {r : Replies κ σ ν} (h : LocalAuthentic schnorr s) (hhonest : Honest schnorr r)
    (hkept : (newBlockArrived schnorr r s).signaturesStatus = s.signaturesStatus ∨
      ∀ info, .locallyGeneratedSignature info ∉ s.mailbox) : LocalAuthentic schnorr (newBlockArrived schnorr r s) := by
  have hnone : ∀ s' : Submitter κ ν, s'.signaturesStatus = none → LocalAuthentic schnorr s' := by
    intro s' hs' status hstatus
    rw [hs'] at hstatus
    cases hstatus
  -- the signatures that waited before, and the new ones
  have hopened : ∀ (s' : Submitter κ ν) epoch message keys (infos : List (CertificateSignatureInfo ν)),
      s'.signaturesStatus = some ⟨epoch, message, [], keys⟩ →
      s'.mailbox = s.mailbox ++ infos.map Message.locallyGeneratedSignature →
      (∀ info ∈ infos, Authentic schnorr message keys info) →
      (s'.signaturesStatus = s.signaturesStatus ∨ ∀ info, .locallyGeneratedSignature info ∉ s.mailbox) →
      LocalAuthentic schnorr s' := by
    intro s' epoch message keys infos hs' hmailbox hinfos hkept status hstatus info hinfo
    rw [hmailbox] at hinfo
    rcases List.mem_append.1 hinfo with hold | hnew
    · rcases hkept with hsame | hempty
      · exact h status (hsame ▸ hstatus) info hold
      · exact absurd hold (hempty info)
    · obtain ⟨info', hinfo', heq⟩ := List.mem_map.1 hnew
      obtain rfl := Message.locallyGeneratedSignature.inj heq
      obtain rfl := Option.some.inj (hs'.symm.trans hstatus)
      exact hinfos info' hinfo'
  generalize hnext : Submitter.newBlockArrived schnorr r s = s' at hkept ⊢
  unfold Submitter.newBlockArrived at hnext
  split at hnext
  · subst hnext
    exact h
  · split at hnext
    · split at hnext
      · subst hnext
        exact h
      · unfold startStatus at hnext
        split at hnext
        · subst hnext
          exact hnone _ rfl
        · next message keys _ =>
          simp only at hnext
          split at hnext
          · split at hnext
            · subst hnext
              exact hnone _ rfl
            · next infos hinfos =>
              subst hnext
              exact hopened _ _ message keys infos rfl rfl (hhonest.calculateSignatures hinfos) hkept
          · subst hnext
            exact hopened _ _ message keys [] rfl (by simp) nofun hkept
    · split at hnext
      · subst hnext
        exact hnone _ rfl
      · subst hnext
        exact hnone _ rfl

theorem LocalAuthentic.step {l : Label κ σ ν} (h : LocalAuthentic schnorr s) (hkept : Kept schnorr s l) :
    LocalAuthentic schnorr (step schnorr settings s l) := by
  cases l with
  | arrives message => exact h.follows (.send (.external message) nofun s)
  | timerExpires =>
    rw [Submitter.step]
    split
    · next number htimer =>
      have hexpired : Follows s { s with timer := some ⟨number, true⟩ } := .of_status (.inl rfl) fun _ h => h
      exact h.follows (hexpired.trans (.send (.tryToGenerateCertificate number) nofun _))
    · exact h
  | thread index outcome =>
    rw [Submitter.step]
    split
    · exact h
    · split
      · exact h.follows (.of_status (.inl rfl) fun _ h => h)
      · have hended : Follows s { s with threads := s.threads.eraseIdx index } := .of_status (.inl rfl) fun _ h => h
        exact h.follows (hended.trans (.send .certificateSubmissionStopped nofun _))
      · exact h.follows (.of_status (.inl rfl) fun _ h => h)
  | receives r =>
    obtain ⟨hhonest, hkept⟩ := hkept
    rw [Submitter.step]
    cases hmailbox : s.mailbox with
    | nil => exact h
    | cons m mailbox =>
      have htaken : Follows s { s with mailbox := mailbox } := by
        refine .of_status (.inl rfl) ?_
        intro info hinfo
        rw [hmailbox]
        exact List.mem_cons_of_mem _ hinfo
      have hrest := h.follows htaken
      have hsame : ∀ s' : Submitter κ ν, s'.signaturesStatus = s.signaturesStatus → s'.mailbox = mailbox →
          LocalAuthentic schnorr s' := by
        intro s' hstatus hs'
        exact hrest.follows (.of_status (.inl hstatus) fun info hinfo => hs' ▸ hinfo)
      cases m with
      | certificateSubmissionStarted => exact hsame _ rfl rfl
      | certificateSubmissionStopped => exact hsame _ rfl rfl
      | locallyGeneratedSignature info => exact hrest.follows (follows_locallyGeneratedSignature info _)
      | tryToScheduleCertificateGeneration => exact hrest.follows (follows_tryToSchedule r _)
      | tryToGenerateCertificate timer => exact hrest.follows (follows_tryToGenerate r timer _)
      | external message =>
        cases message with
        | semanticallySuccessfulModifier => exact hrest.newBlockArrived hhonest (hkept mailbox hmailbox)
        | signatureFromRemote info => exact hrest.follows (follows_signatureFromRemote info _)
        | enableSubmitter =>
          change LocalAuthentic schnorr (enableSubmitter _)
          unfold enableSubmitter
          split
          · exact hsame _ rfl rfl
          · refine hrest.follows (.of_status (.inl rfl) ?_)
            exact (Follows.send .tryToScheduleCertificateGeneration nofun { s with mailbox := mailbox }).mailbox
        | disableSubmitter => exact hsame _ rfl rfl
        | enableCertificateSigner => exact hsame _ rfl rfl
        | disableCertificateSigner => exact hsame _ rfl rfl

theorem LocalAuthentic.sound (h : LocalAuthentic schnorr s) (l : Label κ σ ν) : Sound schnorr s l := by
  cases l with
  | receives r =>
    intro info mailbox status hmailbox hstatus _
    exact h status hstatus info (hmailbox ▸ List.mem_cons_self)
  | arrives message => trivial
  | timerExpires => trivial
  | thread index outcome => trivial

/-- local signatures are only wrong if they wait while a new status is opened -/
theorem sound_of_kept (h : LocalAuthentic schnorr s) {ls : List (Label κ σ ν)}
    (hkept : EachStep schnorr settings (Kept schnorr) s ls) : EachStep schnorr settings (Sound schnorr) s ls := by
  induction ls generalizing s with
  | nil => trivial
  | cons l ls ih => exact ⟨h.sound l, ih (h.step hkept.1) hkept.2⟩

theorem localAuthentic_initial : LocalAuthentic schnorr (initial settings) := nofun

/-- **Known signatures.** In every state of a run the status has different valid signatures if and only if every local
signature that is taken is one for the status it is taken into. It is so if answers are honest and no status is opened
while a local signature waits. The number of such signatures is the quality of the certificate. -/
theorem known_signatures_iff (schnorr : Schnorr κ σ ν) (settings : Settings) (ls : List (Label κ σ ν)) :
    (EachState schnorr settings (AllCollected schnorr) (initial settings) ls ↔
      EachStep schnorr settings (Sound schnorr) (initial settings) ls) ∧
    (EachStep schnorr settings (Kept schnorr) (initial settings) ls →
      EachStep schnorr settings (Sound schnorr) (initial settings) ls) ∧
    ∀ status, Collected schnorr status → quality schnorr status = status.knownSigs.length :=
  ⟨eachState_iff allCollected_initial ls, sound_of_kept localAuthentic_initial, fun _ h => h.quality_eq⟩

/-- the node answers for a block of the window of an epoch -/
def windowOf (epoch : ℤ) (message : Bytes) : Replies ℕ ℕ (ℕ × Bytes) where
  submissionWindowStatus := some ⟨epoch, true⟩
  messageToSignAndPublicKeys := some (message, [7])
  secret := some some
  signaturesFromEnclave _ _ := []
  topQualityCertificates := .failure .other
  buildsCertificateData := true

/-- the wallet's secrets are the keys themselves -/
theorem windowOf_honest (epoch : ℤ) (message : Bytes) : Honest plainSchnorr (windowOf epoch message) where
  wallet secret hsecret key sk hsk message := by
    obtain rfl := Option.some.inj hsecret
    obtain rfl := Option.some.inj hsk
    exact decide_eq_true rfl
  enclave _ _ info hinfo := by cases hinfo

/-- a block of the window of epoch 3, and the local signature for it before the block of epoch 4 -/
def blocksInTurn : List (Label ℕ ℕ (ℕ × Bytes)) :=
  [.arrives .semanticallySuccessfulModifier, .receives (windowOf 3 [3]), .receives (windowOf 3 [3]),
    .arrives .semanticallySuccessfulModifier]

theorem signature_collected_in_turn :
    EachState plainSchnorr onlyOne (AllCollected plainSchnorr) (initial onlyOne) blocksInTurn ∧
      (run plainSchnorr onlyOne (initial onlyOne) blocksInTurn).signaturesStatus = some ⟨3, [3], [⟨0, (7, [3])⟩], [7]⟩ ∧
      quality plainSchnorr ⟨3, [3], [⟨0, (7, [3])⟩], [7]⟩ = 1 := by
  obtain ⟨hiff, hkept, -⟩ := known_signatures_iff plainSchnorr onlyOne blocksInTurn
  refine ⟨hiff.2 (hkept ⟨trivial, ⟨windowOf_honest 3 [3], ?_⟩, ⟨windowOf_honest 3 [3], ?_⟩, trivial, trivial⟩), rfl,
    rfl⟩
  · intro mailbox hmailbox
    obtain rfl := (List.cons.inj hmailbox).2
    exact .inr fun _ => List.not_mem_nil
  · intro mailbox hmailbox
    cases (List.cons.inj hmailbox).1

def outsideWindow : Replies ℕ ℕ (ℕ × Bytes) := { windowOf 4 [4] with submissionWindowStatus := some ⟨4, false⟩ }

/-- a block of the window of epoch 3, one after it, and one of the window of epoch 4 wait together -/
def waitingBlocks : List (Label ℕ ℕ (ℕ × Bytes)) :=
  [.arrives .semanticallySuccessfulModifier, .arrives .semanticallySuccessfulModifier,
    .arrives .semanticallySuccessfulModifier, .receives (windowOf 3 [3]), .receives outsideWindow,
    .receives (windowOf 4 [4]), .receives (windowOf 4 [4])]

/-- the signature of epoch 3 is taken into the status of epoch 4 -/
theorem stale_signature_known :
    (run plainSchnorr onlyOne (initial onlyOne) waitingBlocks).signaturesStatus = some ⟨4, [4], [⟨0, (7, [3])⟩], [7]⟩ ∧
      ¬ AllCollected plainSchnorr (run plainSchnorr onlyOne (initial onlyOne) waitingBlocks) := by
  have hstatus : (run plainSchnorr onlyOne (initial onlyOne) waitingBlocks).signaturesStatus =
      some ⟨4, [4], [⟨0, (7, [3])⟩], [7]⟩ := rfl
  refine ⟨hstatus, ?_⟩
  intro hall
  obtain ⟨-, key, hkey, hvalid⟩ := (hall _ hstatus).authentic _ List.mem_cons_self
  obtain rfl := Option.some.inj hkey
  exact absurd hvalid (by decide)

end Submitter

end SidechainsSdk.Certificates
