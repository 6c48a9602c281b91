/-
The flag of the certificate submitter (`certGenerationState`). A generation starts with its timer and ends with a stop
event; the flag follows the events, which wait in the mailbox.

- `delivered`: the flag when all events of the mailbox are delivered.
- `GenerationInv`: at most one of an active timer, a background thread and a thread that died without its stop event, and
  the delivered flag says whether there is one.
- `generation_flag`: over any run, generations do not overlap, and a submitter at rest has its flag set exactly if a thread
  has died.
-/
import Mathlib.Tactic
import SidechainsSdk.Certificates.CertificateSubmitter

namespace SidechainsSdk.Certificates

namespace Message

variable {ν : Type}

/-- the event of the message for the flag -/
def event : Message ν → Option Bool
  | .certificateSubmissionStarted => some true
  | .certificateSubmissionStopped => some false
  | _ => none

end Message

namespace Submitter

variable {κ σ ν : Type}

/-! ## Events that wait -/

/-- the flag when the messages are handled -/
def delivered (flag : Bool) : List (Message ν) → Bool
  | [] => flag
  | message :: mailbox => delivered (message.event.getD flag) mailbox

@[simp] theorem delivered_append (flag : Bool) (ms ms' : List (Message ν)) :
    delivered flag (ms ++ ms') = delivered (delivered flag ms) ms' := by
  induction ms generalizing flag with
  | nil => rfl
  | cons m ms ih => exact ih _

theorem delivered_of_quiet {flag : Bool} {ms : List (Message ν)} (h : ∀ m ∈ ms, m.event = none) :
    delivered flag ms = flag := by
  induction ms generalizing flag with
  | nil => rfl
  | cons m ms ih =>
    obtain ⟨hm, hms⟩ := List.forall_mem_cons.1 h
    rw [delivered, hm, ih hms, Option.getD_none]

/-- no event waits behind the message of the timer -/
def QuietBehind (number : ℕ) (mailbox : List (Message ν)) : Prop :=
  ∀ front back, mailbox = front ++ .tryToGenerateCertificate number :: back → ∀ m ∈ back, m.event = none

theorem QuietBehind.append {number : ℕ} {mailbox ms : List (Message ν)} (h : QuietBehind number mailbox)
    (hquiet : ∀ m ∈ ms, m.event = none) : QuietBehind number (mailbox ++ ms) := by
  intro front back hsplit m hm
  rcases List.append_eq_append_iff.1 hsplit with ⟨new, -, hms⟩ | ⟨rest, hold, hback⟩
  · refine hquiet m ?_
    rw [hms]
    exact List.mem_append_right _ (List.mem_cons_of_mem _ hm)
  · cases rest with
    | nil =>
      refine hquiet m ?_
      rw [List.nil_append] at hback
      rw [← hback]
      exact List.mem_cons_of_mem _ hm
    | cons first rest =>
      rw [List.cons_append] at hback
      obtain ⟨hfirst, hrest⟩ := List.cons.inj hback
      rw [hrest] at hm
      rcases List.mem_append.1 hm with hin | hnew
      · exact h front rest (by rw [hold, ← hfirst]) m hin
      · exact hquiet m hnew

theorem QuietBehind.of_not_mem {number : ℕ} {mailbox : List (Message ν)}
    (h : Message.tryToGenerateCertificate number ∉ mailbox) : QuietBehind number mailbox := by
  intro front back hsplit
  refine absurd ?_ h
  rw [hsplit]
  exact List.mem_append_right _ List.mem_cons_self

/-! ## The invariant -/

/-- `died`: a background thread has ended without its stop event -/
structure GenerationInv (died : Bool) (s : Submitter κ ν) : Prop where
  one : s.timer.toList.length + s.threads.length + died.toNat ≤ 1
  flag : delivered s.certGenerationState s.mailbox = (s.timer.isSome || !s.threads.isEmpty || died)
  /-- the start event of a thread has been delivered -/
  settled : s.threads ≠ [] ∨ died = true → ∀ m ∈ s.mailbox, m.event = none
  behind : ∀ t, s.timer = some t → QuietBehind t.number s.mailbox
  fresh : (∀ t, s.timer = some t → t.number < s.nextTimer) ∧
    ∀ number, .tryToGenerateCertificate number ∈ s.mailbox → number < s.nextTimer

theorem generationInv_initial (settings : Settings) : GenerationInv false (initial settings : Submitter κ ν) where
  one := by simp [initial]
  flag := rfl
  settled := by simp [initial]
  behind := by simp [initial]
  fresh := by simp [initial]

variable {died : Bool} {s s' : Submitter κ ν}

/-- nothing is scheduled or running -/
theorem GenerationInv.idle (h : GenerationInv died s) (hflag : s.certGenerationState = false) (htimer : s.timer = none) :
    s.threads = [] ∧ died = false := by
  by_contra hbusy
  have hsome : s.threads ≠ [] ∨ died = true := by
    by_cases hthreads : s.threads = []
    · exact .inr (by simpa using fun hdied => hbusy ⟨hthreads, hdied⟩)
    · exact .inl hthreads
  have hdelivered := h.flag
  rw [delivered_of_quiet (h.settled hsome), hflag, htimer] at hdelivered
  rcases hsome with hthreads | rfl
  · simp [hthreads] at hdelivered
  · simp at hdelivered

theorem GenerationInv.timer_alone (h : GenerationInv died s) {t : GenerationTimer} (htimer : s.timer = some t) :
    s.threads = [] ∧ died = false := by
  have hone := h.one
  rw [htimer] at hone
  simp only [Option.toList_some, List.length_singleton] at hone
  constructor
  · exact List.eq_nil_of_length_eq_zero (by omega)
  · cases died with
    | false => rfl
    | true =>
      simp only [Bool.toNat_true] at hone
      omega

/-- more messages without events, and changes that have nothing to do with generations -/
theorem GenerationInv.of_more (h : GenerationInv died s) (ms : List (Message ν)) (hmailbox : s'.mailbox = s.mailbox ++ ms)
    (hquiet : ∀ m ∈ ms, m.event = none ∧ ∀ number, m ≠ .tryToGenerateCertificate number)
    (hflag : s'.certGenerationState = s.certGenerationState) (htimer : s'.timer = s.timer)
    (hnext : s'.nextTimer = s.nextTimer) (hthreads : s'.threads = s.threads) : GenerationInv died s' where
  one := by
    rw [htimer, hthreads]
    exact h.one
  flag := by
    rw [hmailbox, delivered_append, delivered_of_quiet fun m hm => (hquiet m hm).1, hflag, htimer, hthreads, h.flag]
  settled := by
    intro hbusy m hm
    rw [hthreads] at hbusy
    rw [hmailbox] at hm
    rcases List.mem_append.1 hm with hold | hnew
    · exact h.settled hbusy m hold
    · exact (hquiet m hnew).1
  behind := by
    intro t ht
    rw [hmailbox]
    exact (h.behind t (htimer ▸ ht)).append fun m hm => (hquiet m hm).1
  fresh := by
    rw [htimer, hnext]
    refine ⟨h.fresh.1, ?_⟩
    intro number hm
    rw [hmailbox] at hm
    rcases List.mem_append.1 hm with hold | hnew
    · exact h.fresh.2 number hold
    · exact absurd rfl ((hquiet _ hnew).2 number)

/-- the first message is taken from the mailbox, and the flag follows it -/
theorem GenerationInv.taken (h : GenerationInv died s) {m : Message ν} {mailbox : List (Message ν)}
    (hmailbox : s.mailbox = m :: mailbox) :
    GenerationInv died { s with mailbox := mailbox, certGenerationState := m.event.getD s.certGenerationState } where
  one := h.one
  flag := by
    have hdelivered := h.flag
    rw [hmailbox, delivered] at hdelivered
    exact hdelivered
  settled := by
    intro hbusy m' hm'
    exact h.settled hbusy m' (hmailbox ▸ List.mem_cons_of_mem _ hm')
  behind := by
    intro t ht front back hsplit
    refine h.behind t ht (m :: front) back ?_
    rw [hmailbox, show mailbox = front ++ .tryToGenerateCertificate t.number :: back from hsplit]
    rfl
  fresh := ⟨h.fresh.1, fun number hm => h.fresh.2 number (hmailbox ▸ List.mem_cons_of_mem _ hm)⟩

/-- a generation has started -/
theorem GenerationInv.started (h : GenerationInv died s) (hthreads : s.threads = []) :
    GenerationInv false (send .certificateSubmissionStarted
      { s with timer := some ⟨s.nextTimer, false⟩, nextTimer := s.nextTimer + 1 }) where
  one := by simp [send, hthreads]
  flag := by simp [send, delivered, Message.event]
  settled := by simp [send, hthreads]
  behind := by
    intro t ht
    obtain rfl := Option.some.inj ht
    refine .of_not_mem ?_
    intro hmem
    rcases List.mem_append.1 hmem with hold | hnew
    · exact lt_irrefl _ (h.fresh.2 _ hold)
    · exact absurd (List.mem_singleton.1 hnew) (by simp)
  fresh := by
    constructor
    · intro t ht
      obtain rfl := Option.some.inj ht
      exact Nat.lt_succ_self _
    · intro number hm
      rcases List.mem_append.1 hm with hold | hnew
      · exact Nat.lt_succ_of_lt (h.fresh.2 number hold)
      · exact absurd (List.mem_singleton.1 hnew) (by simp)

/-- the generation has ended with its stop event -/
theorem GenerationInv.stopped (h : GenerationInv died s) (hmailbox : s'.mailbox = s.mailbox ++ [.certificateSubmissionStopped])
    (htimer : s'.timer = none) (hthreads : s'.threads = []) (hnext : s'.nextTimer = s.nextTimer) : GenerationInv false s' where
  one := by simp [htimer, hthreads]
  flag := by simp [hmailbox, htimer, hthreads, delivered, Message.event]
  settled := by simp [hthreads]
  behind := by simp [htimer]
  fresh := by
    rw [htimer, hnext, hmailbox]
    refine ⟨by simp, ?_⟩
    intro number hm
    rcases List.mem_append.1 hm with hold | hnew
    · exact h.fresh.2 number hold
    · exact absurd (List.mem_singleton.1 hnew) (by simp)

/-- the message of the active timer has been taken from the mailbox, and the thread starts -/
theorem GenerationInv.generating (h : GenerationInv died s) {t : GenerationTimer} (htimer : s.timer = some t)
    (hquiet : ∀ m ∈ s.mailbox, m.event = none) :
    GenerationInv false { s with timer := none, threads := s.threads ++ [.generateProof] } where
  one := by simp [(h.timer_alone htimer).1]
  flag := by
    have hdelivered := h.flag
    rw [htimer] at hdelivered
    simpa [(h.timer_alone htimer).1] using hdelivered
  settled := fun _ => hquiet
  behind := by simp
  fresh := ⟨by simp, h.fresh.2⟩

theorem GenerationInv.expired (h : GenerationInv died s) {number : ℕ} (htimer : s.timer = some ⟨number, false⟩) :
    GenerationInv died (send (.tryToGenerateCertificate number) { s with timer := some ⟨number, true⟩ }) where
  one := by
    have hone := h.one
    rw [htimer] at hone
    exact hone
  flag := by
    have hdelivered := h.flag
    rw [htimer] at hdelivered
    simpa [send, delivered, Message.event] using hdelivered
  settled := by
    obtain ⟨hthreads, hdied⟩ := h.timer_alone htimer
    simp [send, hthreads, hdied]
  behind := by
    intro t ht
    obtain rfl := Option.some.inj ht
    refine (h.behind _ htimer).append ?_
    intro m hm
    rw [List.mem_singleton.1 hm]
    rfl
  fresh := by
    constructor
    · intro t ht
      obtain rfl := Option.some.inj ht
      exact h.fresh.1 ⟨number, false⟩ htimer
    · intro number' hm
      rcases List.mem_append.1 hm with hold | hnew
      · exact h.fresh.2 number' hold
      · obtain rfl := Message.tryToGenerateCertificate.inj (List.mem_singleton.1 hnew)
        exact h.fresh.1 _ htimer

/-! ## Steps -/

variable {schnorr : Schnorr κ σ ν} {settings : Settings}

/-- a change that leaves everything about generations as it is -/
theorem GenerationInv.of_same (h : GenerationInv died s) (hmailbox : s'.mailbox = s.mailbox)
    (hflag : s'.certGenerationState = s.certGenerationState) (htimer : s'.timer = s.timer)
    (hnext : s'.nextTimer = s.nextTimer) (hthreads : s'.threads = s.threads) : GenerationInv died s' :=
  h.of_more [] (by rw [hmailbox, List.append_nil]) (fun _ hm => absurd hm List.not_mem_nil) hflag htimer hnext hthreads

theorem GenerationInv.append (h : GenerationInv died s) (status : SignaturesStatus κ ν) (info : CertificateSignatureInfo ν) :
    GenerationInv died (append status info s) := by
  refine h.of_more [.tryToScheduleCertificateGeneration] rfl ?_ rfl rfl rfl rfl
  intro m hm
  rw [List.mem_singleton.1 hm]
  exact ⟨rfl, nofun⟩

theorem GenerationInv.startStatus (h : GenerationInv died s) (r : Replies κ σ ν) (referencedEpoch : ℤ) :
    GenerationInv died (startStatus schnorr r referencedEpoch s) := by
  unfold Submitter.startStatus
  cases r.messageToSignAndPublicKeys with
  | none => exact h.of_same rfl rfl rfl rfl rfl
  | some p =>
    simp only
    split_ifs with hsigning
    · cases calculateSignatures schnorr r p.1 p.2 with
      | none => exact h.of_same rfl rfl rfl rfl rfl
      | some infos =>
        refine h.of_more (infos.map .locallyGeneratedSignature) rfl ?_ rfl rfl rfl rfl
        intro m hm
        obtain ⟨info, -, rfl⟩ := List.mem_map.1 hm
        exact ⟨rfl, nofun⟩
    · exact h.of_same rfl rfl rfl rfl rfl

theorem GenerationInv.newBlockArrived (h : GenerationInv died s) (r : Replies κ σ ν) :
    GenerationInv died (newBlockArrived schnorr r s) := by
  unfold Submitter.newBlockArrived
  cases r.submissionWindowStatus with
  | none => exact h
  | some window =>
    simp only
    split_ifs with hwindow hepoch htimer
    · exact h
    · exact h.startStatus r _
    · -- the scheduled generation is cancelled
      obtain ⟨t, ht⟩ := Option.isSome_iff_exists.1 htimer
      obtain ⟨hthreads, rfl⟩ := h.timer_alone ht
      exact h.stopped rfl rfl hthreads rfl
    · exact h.of_same rfl rfl rfl rfl rfl

theorem GenerationInv.signatureFromRemote (h : GenerationInv died s) (info : CertificateSignatureFromRemoteInfo ν) :
    GenerationInv died (signatureFromRemote schnorr info s) := by
  unfold Submitter.signatureFromRemote
  split
  · exact h
  · split
    · exact h
    · split
      · exact h
      · split
        · exact h
        · split_ifs
          · exact h
          · exact h
          · exact h.append _ _

theorem GenerationInv.locallyGeneratedSignature (h : GenerationInv died s) (info : CertificateSignatureInfo ν) :
    GenerationInv died (locallyGeneratedSignature info s) := by
  unfold Submitter.locallyGeneratedSignature
  cases s.signaturesStatus with
  | none => exact h
  | some status =>
    simp only
    split_ifs with hknown
    · exact h
    · exact h.append _ _

theorem GenerationInv.tryToSchedule (h : GenerationInv died s) (r : Replies κ σ ν) :
    GenerationInv died (tryToScheduleCertificateGeneration settings r s) := by
  unfold tryToScheduleCertificateGeneration
  by_cases hguard : (!s.submitterEnabled || s.certGenerationState || s.timer.isSome) = true
  · rw [if_pos hguard]
    exact h
  · rw [if_neg hguard]
    simp only [Bool.or_eq_true, not_or, Bool.not_eq_true, Option.isSome_eq_false_iff, Option.isNone_iff_eq_none] at hguard
    obtain ⟨⟨-, hflag⟩, htimer⟩ := hguard
    obtain ⟨hthreads, rfl⟩ := h.idle hflag htimer
    split
    · exact h
    · split
      · exact h.of_same rfl hflag.symm htimer.symm rfl rfl
      · exact h
      · exact h.started hthreads

theorem GenerationInv.tryToGenerate (h : GenerationInv died s) (r : Replies κ σ ν) {number : ℕ}
    (hquiet : ∀ t, s.timer = some t → t.number = number → ∀ m ∈ s.mailbox, m.event = none) :
    GenerationInv died (tryToGenerateCertificate settings r number s) := by
  unfold tryToGenerateCertificate
  by_cases hactive : (s.timer.any fun t => t.number = number) = true
  · rw [if_pos hactive]
    obtain ⟨t, htimer, hnumber⟩ := (Option.any_eq_true _ _).1 hactive
    obtain ⟨hthreads, rfl⟩ := h.timer_alone htimer
    split
    · exact h.stopped rfl rfl hthreads rfl
    · split
      · split_ifs with hdata
        · exact h.generating htimer (hquiet t htimer (of_decide_eq_true hnumber))
        · exact h.stopped rfl rfl hthreads rfl
      · exact h.stopped rfl rfl hthreads rfl
  · rw [if_neg hactive]
    exact h

theorem GenerationInv.receive (h : GenerationInv died s) (r : Replies κ σ ν) {m : Message ν} {mailbox : List (Message ν)}
    (hmailbox : s.mailbox = m :: mailbox) :
    GenerationInv died (receive schnorr settings r m { s with mailbox := mailbox }) := by
  have htaken := h.taken hmailbox
  cases m with
  | certificateSubmissionStarted => exact htaken
  | certificateSubmissionStopped => exact htaken
  | locallyGeneratedSignature info => exact htaken.locallyGeneratedSignature info
  | tryToScheduleCertificateGeneration => exact htaken.tryToSchedule r
  | tryToGenerateCertificate number =>
    refine htaken.tryToGenerate r ?_
    rintro t htimer rfl
    exact h.behind t htimer [] mailbox hmailbox
  | external message =>
    cases message with
    | semanticallySuccessfulModifier => exact htaken.newBlockArrived r
    | signatureFromRemote info => exact htaken.signatureFromRemote info
    | enableSubmitter =>
      change GenerationInv died (enableSubmitter _)
      unfold enableSubmitter
      split_ifs with henabled
      · exact htaken.of_same rfl rfl rfl rfl rfl
      · refine htaken.of_more [.tryToScheduleCertificateGeneration] rfl ?_ rfl rfl rfl rfl
        intro m hm
        rw [List.mem_singleton.1 hm]
        exact ⟨rfl, nofun⟩
    | disableSubmitter => exact htaken.of_same rfl rfl rfl rfl rfl
    | enableCertificateSigner => exact htaken.of_same rfl rfl rfl rfl rfl
    | disableCertificateSigner => exact htaken.of_same rfl rfl rfl rfl rfl

/-- the step ends a background thread by what it does not catch -/
def dies (s : Submitter κ ν) : Label κ σ ν → Bool
  | .thread index outcome => s.threads[index]?.any fun point => runGeneration point outcome = .dies
  | _ => false

theorem GenerationInv.step (h : GenerationInv died s) (l : Label κ σ ν) :
    GenerationInv (died || dies s l) (step schnorr settings s l) := by
  cases l with
  | arrives message =>
    rw [show dies s (.arrives message : Label κ σ ν) = false from rfl, Bool.or_false]
    refine h.of_more [.external message] rfl ?_ rfl rfl rfl rfl
    intro m hm
    rw [List.mem_singleton.1 hm]
    exact ⟨rfl, nofun⟩
  | receives r =>
    rw [show dies s (.receives r) = false from rfl, Bool.or_false, Submitter.step]
    split
    · exact h
    · exact h.receive r ‹_›
  | timerExpires =>
    rw [show dies s (.timerExpires : Label κ σ ν) = false from rfl, Bool.or_false, Submitter.step]
    split
    · exact h.expired ‹_›
    · exact h
  | thread index outcome =>
    rw [Submitter.step, dies]
    cases hpoint : s.threads[index]? with
    | none => simpa using h
    | some point =>
      -- it is the only thread, and no timer is active
      have hone := h.one
      have hlt := (List.getElem?_eq_some_iff.1 hpoint).1
      have htimer : s.timer = none := by
        cases ht : s.timer with
        | none => rfl
        | some t =>
          rw [(h.timer_alone ht).1] at hlt
          exact absurd hlt (Nat.not_lt_zero _)
      have hdied : died = false := by
        cases died with
        | false => rfl
        | true =>
          simp only [Bool.toNat_true] at hone
          omega
      have hrest : s.threads.eraseIdx index = [] := by
        refine List.eq_nil_of_length_eq_zero ?_
        rw [List.length_eraseIdx_of_lt hlt]
        omega
      have hbusy : s.threads ≠ [] := List.ne_nil_of_length_pos (by omega)
      subst hdied
      cases hnext : runGeneration point outcome with
      | goesOn next =>
        have hset : s.threads.set index next ≠ [] := by simpa using hbusy
        simp only [hnext, Option.any_some, reduceCtorEq, decide_false, Bool.or_false]
        refine ⟨?_, ?_, fun _ => h.settled (.inl hbusy), h.behind, h.fresh⟩
        · rw [List.length_set]
          exact hone
        · have hdelivered := h.flag
          simp only [List.isEmpty_eq_false_iff.2 hbusy] at hdelivered
          simpa [List.isEmpty_eq_false_iff.2 hset] using hdelivered
      | stops =>
        simp only [hnext, Option.any_some, reduceCtorEq, decide_false, Bool.or_false]
        exact h.stopped rfl htimer hrest rfl
      | dies =>
        simp only [hnext, Option.any_some, decide_true, Bool.or_true]
        refine ⟨?_, ?_, fun _ => h.settled (.inl hbusy), h.behind, h.fresh⟩
        · rw [htimer, hrest]
          simp
        · have hdelivered := h.flag
          simp only [List.isEmpty_eq_false_iff.2 hbusy] at hdelivered
          simpa using hdelivered

/-! ## Runs -/

variable (schnorr settings)

/-- a background thread of the run has died -/
def threadDied : Submitter κ ν → List (Label κ σ ν) → Bool
  | _, [] => false
  | s, l :: ls => dies s l || threadDied (step schnorr settings s l) ls

variable {schnorr settings}

theorem GenerationInv.run (h : GenerationInv died s) (ls : List (Label κ σ ν)) :
    GenerationInv (died || threadDied schnorr settings s ls) (run schnorr settings s ls) := by
  induction ls generalizing died s with
  | nil =>
    rw [threadDied, Bool.or_false]
    exact h
  | cons l ls ih =>
    rw [threadDied, ← Bool.or_assoc]
    exact ih (h.step l)

/-- generations scheduled or running -/
def generations (s : Submitter κ ν) : ℕ := s.timer.toList.length + s.threads.length

/-- no timer, no message of a timer, no thread, and no event that waits -/
structure AtRest (s : Submitter κ ν) : Prop where
  timer : s.timer = none
  threads : s.threads = []
  message : ∀ number, .tryToGenerateCertificate number ∉ s.mailbox
  events : ∀ m ∈ s.mailbox, m.event = none

/-- **The flag.** In any run at most one generation is scheduled or running, and a submitter at rest has its flag set
exactly if a background thread of the run has died. After that no generation starts any more. -/
theorem generation_flag (schnorr : Schnorr κ σ ν) (settings : Settings) (ls : List (Label κ σ ν)) :
    generations (run schnorr settings (initial settings) ls) ≤ 1 ∧
      (AtRest (run schnorr settings (initial settings) ls) →
        (run schnorr settings (initial settings) ls).certGenerationState = threadDied schnorr settings (initial settings) ls) ∧
      (threadDied schnorr settings (initial settings) ls = true →
        generations (run schnorr settings (initial settings) ls) = 0) := by
  have hinv : GenerationInv (false || threadDied schnorr settings (initial settings) ls)
      (run schnorr settings (initial settings) ls) := (generationInv_initial settings).run ls
  rw [Bool.false_or] at hinv
  have hone := hinv.one
  refine ⟨?_, ?_, ?_⟩
  · unfold generations
    omega
  · intro hrest
    have hdelivered := hinv.flag
    rw [delivered_of_quiet hrest.events, hrest.timer, hrest.threads] at hdelivered
    simpa using hdelivered
  · intro hdied
    rw [hdied, Bool.toNat_true] at hone
    unfold generations
    omega

/-! A fixed run -/

/-- epoch 3 is in its window; the wallet has the secret of the only signer -/
def windowReplies : Replies ℕ ℕ (ℕ × Bytes) where
  submissionWindowStatus := some ⟨3, true⟩
  messageToSignAndPublicKeys := some ([3], [7])
  secret := some some
  signaturesFromEnclave _ _ := []
  topQualityCertificates := .failure .other
  buildsCertificateData := true

/-- a block of the window, its signature, a generation that comes to its end, and its event -/
def completedRun : List (Label ℕ ℕ (ℕ × Bytes)) :=
  [.arrives .semanticallySuccessfulModifier, .receives windowReplies, .receives windowReplies, .receives windowReplies,
    .receives windowReplies, .timerExpires, .receives windowReplies, .thread 0 (.returns true), .thread 0 (.returns true),
    .thread 0 (.returns true), .thread 0 (.returns true), .receives windowReplies]

theorem flag_cleared :
    AtRest (run plainSchnorr onlyOne (initial onlyOne) completedRun) ∧
      (run plainSchnorr onlyOne (initial onlyOne) completedRun).certGenerationState = false := by
  have hmailbox : (run plainSchnorr onlyOne (initial onlyOne) completedRun).mailbox = [] := rfl
  have hrest : AtRest (run plainSchnorr onlyOne (initial onlyOne) completedRun) := by
    refine ⟨rfl, rfl, ?_, ?_⟩
    · intro number
      rw [hmailbox]
      exact List.not_mem_nil
    · intro m hm
      rw [hmailbox] at hm
      cases hm
  exact ⟨hrest, ((generation_flag plainSchnorr onlyOne completedRun).2.1 hrest).trans rfl⟩

/-- a block of the window, its signature, a generation whose request cannot be created -/
def dyingRun : List (Label ℕ ℕ (ℕ × Bytes)) :=
  [.arrives .semanticallySuccessfulModifier, .receives windowReplies, .receives windowReplies, .receives windowReplies,
    .receives windowReplies, .timerExpires, .receives windowReplies, .thread 0 (.returns true), .thread 0 .throwsException]

/-- the request throws, and the flag stays set in a submitter at rest -/
theorem flag_stuck :
    AtRest (run plainSchnorr onlyOne (initial onlyOne) dyingRun) ∧
      (run plainSchnorr onlyOne (initial onlyOne) dyingRun).certGenerationState = true := by
  have hmailbox : (run plainSchnorr onlyOne (initial onlyOne) dyingRun).mailbox = [] := rfl
  refine ⟨⟨rfl, rfl, ?_, ?_⟩, rfl⟩
  · intro number
    rw [hmailbox]
    exact List.not_mem_nil
  · intro m hm
    rw [hmailbox] at hm
    cases hm

end Submitter

end SidechainsSdk.Certificates
