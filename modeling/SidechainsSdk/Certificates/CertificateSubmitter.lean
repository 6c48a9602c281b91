/-
The certificate submitter (`certificatesubmitter/AbstractCertificateSubmitter.scala`): an actor that collects signatures of
the next certificate in the submission window, and a background thread that makes and sends the certificate.

The actor handles one message of its mailbox after the other. What it sends to itself, what it publishes for itself and what
arrives from outside is appended to the mailbox; the messages of a timer come by the mailbox too, and a cancelled timer's
message is dropped. A step is an arrival, the handling of the first message, the expiry of the timer, or a step of a
background thread, in any order (`step`, `run`).

Blocks, views and mainchain nodes answer in any way (`Replies`). Answers to senders and signatures broadcast to peers have no
effect here. Remote signatures arrive with any content, as from `CertificateSignaturesManager.certificateSignatures`.
-/
import Mathlib.Tactic
import SidechainsSdk.Core.Codec

namespace SidechainsSdk.Certificates

/-! ## Data -/

/-- signatures of the library: `κ` are propositions, `σ` secrets, `ν` proofs -/
structure Schnorr (κ σ ν : Type) where
  sign : σ → Bytes → ν
  isValid : ν → κ → Bytes → Bool

structure CertificateSignatureInfo (ν : Type) where
  pubKeyIndex : ℤ
  signature : ν
deriving DecidableEq, Repr

structure CertificateSignatureFromRemoteInfo (ν : Type) where
  pubKeyIndex : ℤ
  messageToSign : Bytes
  signature : ν
deriving DecidableEq, Repr

structure SignaturesStatus (κ ν : Type) where
  referencedEpoch : ℤ
  messageToSign : Bytes
  knownSigs : List (CertificateSignatureInfo ν)
  signersPublicKeys : List κ
deriving DecidableEq, Repr

structure SubmissionWindowStatus where
  referencedWithdrawalEpochNumber : ℤ
  isInWindow : Bool

/-! ## Quality -/

structure CertificateInfo where
  epoch : ℤ
  quality : ℤ
  certHash : Option Bytes

structure TopQualityCertificates where
  mempoolCertInfo : Option CertificateInfo
  chainCertInfo : Option CertificateInfo

inductive MainchainFailure where
  | websocketErrorResponse
  | websocketInvalidErrorMessage
  | other

/-- the answer to `getTopQualityCertificates`, which may also throw -/
inductive TopQualityReply where
  | success (topQualityCertificates : TopQualityCertificates)
  | failure (e : MainchainFailure)
  | throws

namespace CeasingSidechain

/-- `none` stands for an `ObsoleteWithdrawalEpochException` -/
def getCertificateTopQuality (epoch : ℤ) (certs : TopQualityCertificates) : Option ℤ :=
  match certs.mempoolCertInfo.filter (·.epoch ≥ epoch), certs.chainCertInfo.filter (·.epoch ≥ epoch) with
  | some mempoolInfo, _ => if mempoolInfo.epoch = epoch then some mempoolInfo.quality else none
  | none, some chainInfo => if chainInfo.epoch = epoch then some chainInfo.quality else none
  | none, none => some 0

/-- `none` if the mainchain node is asked and its channel throws -/
def checkQuality {κ ν : Type} (signersThreshold : ℤ) (reply : TopQualityReply) (status : SignaturesStatus κ ν) :
    Option Bool :=
  if status.knownSigs.length ≥ signersThreshold then
    match reply with
    | .success certs =>
      match getCertificateTopQuality status.referencedEpoch certs with
      | some currentCertificateTopQuality => some (status.knownSigs.length > currentCertificateTopQuality)
      | none => some false
    | .failure .websocketErrorResponse => some true
    | .failure .websocketInvalidErrorMessage => some true
    | .failure .other => some false
    | .throws => none
  else some false

end CeasingSidechain

namespace NonCeasingSidechain

/-- a certificate of the epoch or of a later one that has a hash -/
def isPresent (epoch : ℤ) (info : Option CertificateInfo) : Bool :=
  match info with
  | some info => info.epoch ≥ epoch ∧ info.certHash.isSome
  | none => false

def checkQuality {κ ν : Type} (signersThreshold : ℤ) (reply : TopQualityReply) (status : SignaturesStatus κ ν) :
    Option Bool :=
  if status.knownSigs.length ≥ signersThreshold then
    match reply with
    | .success certs =>
      some !(isPresent status.referencedEpoch certs.mempoolCertInfo || isPresent status.referencedEpoch certs.chainCertInfo)
    | .failure _ => some true
    | .throws => none
  else some false

end NonCeasingSidechain

inductive CertificateSubmissionStrategy where
  | ceasingSidechain
  | nonCeasingSidechain

/-! ## The actor -/

/-- settings and parameters -/
structure Settings where
  submitterIsEnabled : Bool
  certificateSigningIsEnabled : Bool
  submissionStrategy : CertificateSubmissionStrategy
  signersThreshold : ℤ

def Settings.checkQuality {κ ν : Type} (settings : Settings) (reply : TopQualityReply) (status : SignaturesStatus κ ν) :
    Option Bool :=
  match settings.submissionStrategy with
  | .ceasingSidechain => CeasingSidechain.checkQuality settings.signersThreshold reply status
  | .nonCeasingSidechain => NonCeasingSidechain.checkQuality settings.signersThreshold reply status

/-- what arrives from outside -/
inductive External (ν : Type) where
  | semanticallySuccessfulModifier
  | signatureFromRemote (remoteSigInfo : CertificateSignatureFromRemoteInfo ν)
  | enableSubmitter
  | disableSubmitter
  | enableCertificateSigner
  | disableCertificateSigner

/-- messages; the one of a timer has the number of the timer -/
inductive Message (ν : Type) where
  | external (message : External ν)
  | locallyGeneratedSignature (info : CertificateSignatureInfo ν)
  | tryToScheduleCertificateGeneration
  | tryToGenerateCertificate (timer : ℕ)
  | certificateSubmissionStarted
  | certificateSubmissionStopped

/-- `CertificateGenerationTimer`: active until it is cancelled or its message is handled -/
structure GenerationTimer where
  number : ℕ
  expired : Bool

/-- where a background thread stands -/
inductive GenerationPoint where
  | generateProof
  | createRequest
  | checkQuality
  | sendCertificate
deriving DecidableEq, Repr

structure Submitter (κ ν : Type) where
  submitterEnabled : Bool
  certificateSigningEnabled : Bool
  signaturesStatus : Option (SignaturesStatus κ ν)
  certGenerationState : Bool
  timer : Option GenerationTimer
  /-- the number of the next timer -/
  nextTimer : ℕ
  mailbox : List (Message ν)
  threads : List GenerationPoint

/-- how others answer while a message is handled; `none` is a failure or a timeout -/
structure Replies (κ σ ν : Type) where
  submissionWindowStatus : Option SubmissionWindowStatus
  messageToSignAndPublicKeys : Option (Bytes × List κ)
  /-- the secrets of the wallet -/
  secret : Option (κ → Option σ)
  signaturesFromEnclave : Bytes → List (κ × ℕ) → List (CertificateSignatureInfo ν)
  topQualityCertificates : TopQualityReply
  buildsCertificateData : Bool

section Actor

variable {κ σ ν : Type}

namespace Submitter

def initial (settings : Settings) : Submitter κ ν where
  submitterEnabled := settings.submitterIsEnabled
  certificateSigningEnabled := settings.certificateSigningIsEnabled
  signaturesStatus := none
  certGenerationState := false
  timer := none
  nextTimer := 0
  mailbox := []
  threads := []

/-- `self !`, and `publish` of an event that the actor has subscribed to -/
def send (message : Message ν) (s : Submitter κ ν) : Submitter κ ν := { s with mailbox := s.mailbox ++ [message] }

/-- a new instance with the old mailbox; its timers are cancelled -/
def restart (settings : Settings) (s : Submitter κ ν) : Submitter κ ν :=
  { initial settings with nextTimer := s.nextTimer, mailbox := s.mailbox, threads := s.threads }

variable (schnorr : Schnorr κ σ ν) (settings : Settings)

/-- signatures with the secrets of the wallet, and with those of the enclave for the other keys -/
def calculateSignatures (r : Replies κ σ ν) (messageToSign : Bytes) (signersPublicKeys : List κ) :
    Option (List (CertificateSignatureInfo ν)) :=
  r.secret.map fun secret =>
    let privateKeysWithIndexes := signersPublicKeys.zipIdx.filterMap fun p => (secret p.1).map fun sk => (sk, p.2)
    let remainingKeys := signersPublicKeys.zipIdx.filter fun p => p.2 ∉ privateKeysWithIndexes.map Prod.snd
    r.signaturesFromEnclave messageToSign remainingKeys ++
      privateKeysWithIndexes.map fun p => ⟨p.2, schnorr.sign p.1 messageToSign⟩

/-- the status of a new epoch -/
def startStatus (r : Replies κ σ ν) (referencedEpoch : ℤ) (s : Submitter κ ν) : Submitter κ ν :=
  match r.messageToSignAndPublicKeys with
  | none => { s with signaturesStatus := none }
  | some (messageToSign, signersPublicKeys) =>
    let started := { s with signaturesStatus := some ⟨referencedEpoch, messageToSign, [], signersPublicKeys⟩ }
    if s.certificateSigningEnabled then
      match calculateSignatures schnorr r messageToSign signersPublicKeys with
      | none => { s with signaturesStatus := none }
      | some infos => { started with mailbox := s.mailbox ++ infos.map .locallyGeneratedSignature }
    else started

def newBlockArrived (r : Replies κ σ ν) (s : Submitter κ ν) : Submitter κ ν :=
  match r.submissionWindowStatus with
  | none => s
  | some window =>
    if window.isInWindow then
      if s.signaturesStatus.any fun status => status.referencedEpoch = window.referencedWithdrawalEpochNumber then s
      else startStatus schnorr r window.referencedWithdrawalEpochNumber s
    else if s.timer.isSome then
      send .certificateSubmissionStopped { s with timer := none, signaturesStatus := none }
    else { s with signaturesStatus := none }

/-- the signature is appended to those of the status -/
def append (status : SignaturesStatus κ ν) (info : CertificateSignatureInfo ν) (s : Submitter κ ν) : Submitter κ ν :=
  send .tryToScheduleCertificateGeneration
    { s with signaturesStatus := some { status with knownSigs := status.knownSigs ++ [info] } }

def locallyGeneratedSignature (info : CertificateSignatureInfo ν) (s : Submitter κ ν) : Submitter κ ν :=
  match s.signaturesStatus with
  | none => s
  | some status =>
    if status.knownSigs.any fun item => item.pubKeyIndex = info.pubKeyIndex then s
    else append status info s

def signatureFromRemote (info : CertificateSignatureFromRemoteInfo ν) (s : Submitter κ ν) : Submitter κ ν :=
  match s.signaturesStatus with
  | none => s
  | some status =>
    if status.messageToSign ≠ info.messageToSign then s
    else if info.pubKeyIndex < 0 then s
    else
      match status.signersPublicKeys[info.pubKeyIndex.toNat]? with
      | none => s
      | some signerPublicKey =>
        if !schnorr.isValid info.signature signerPublicKey info.messageToSign then s
        else if status.knownSigs.any fun item => item.pubKeyIndex = info.pubKeyIndex then s
        else append status ⟨info.pubKeyIndex, info.signature⟩ s

/-- an exception of the quality check restarts the actor -/
def tryToScheduleCertificateGeneration (r : Replies κ σ ν) (s : Submitter κ ν) : Submitter κ ν :=
  if !s.submitterEnabled || s.certGenerationState || s.timer.isSome then s
  else
    match s.signaturesStatus with
    | none => s
    | some status =>
      match settings.checkQuality r.topQualityCertificates status with
      | none => restart settings s
      | some false => s
      | some true => send .certificateSubmissionStarted
          { s with timer := some ⟨s.nextTimer, false⟩, nextTimer := s.nextTimer + 1 }

/-- the message of a timer that is not active any more is dropped; an exception publishes the stop event -/
def tryToGenerateCertificate (r : Replies κ σ ν) (timer : ℕ) (s : Submitter κ ν) : Submitter κ ν :=
  if s.timer.any fun t => t.number = timer then
    match s.signaturesStatus with
    | none => send .certificateSubmissionStopped { s with timer := none }
    | some status =>
      match settings.checkQuality r.topQualityCertificates status with
      | some true =>
        if r.buildsCertificateData then { s with timer := none, threads := s.threads ++ [.generateProof] }
        else send .certificateSubmissionStopped { s with timer := none }
      | _ => send .certificateSubmissionStopped { s with timer := none }
  else s

def enableSubmitter (s : Submitter κ ν) : Submitter κ ν :=
  { (if s.submitterEnabled then s else send .tryToScheduleCertificateGeneration s) with submitterEnabled := true }

/-- `workingCycle` -/
def receive (r : Replies κ σ ν) (message : Message ν) (s : Submitter κ ν) : Submitter κ ν :=
  match message with
  | .certificateSubmissionStarted => { s with certGenerationState := true }
  | .certificateSubmissionStopped => { s with certGenerationState := false }
  | .external .semanticallySuccessfulModifier => newBlockArrived schnorr r s
  | .locallyGeneratedSignature info => locallyGeneratedSignature info s
  | .external (.signatureFromRemote info) => signatureFromRemote schnorr info s
  | .tryToScheduleCertificateGeneration => tryToScheduleCertificateGeneration settings r s
  | .tryToGenerateCertificate timer => tryToGenerateCertificate settings r timer s
  | .external .enableSubmitter => enableSubmitter s
  | .external .disableSubmitter => { s with submitterEnabled := false }
  | .external .enableCertificateSigner => { s with certificateSigningEnabled := true }
  | .external .disableCertificateSigner => { s with certificateSigningEnabled := false }

end Submitter

/-! ## The background thread -/

/-- a call of the thread: its result, an `Exception`, or another `Throwable` -/
inductive CallOutcome where
  | returns (result : Bool)
  | throwsException
  | throwsError

inductive ThreadNext where
  | goesOn (point : GenerationPoint)
  /-- the stop event is published -/
  | stops
  /-- the thread ends by what it does not catch -/
  | dies
deriving DecidableEq

/-- only the exceptions of the proof generation are caught -/
def runGeneration : GenerationPoint → CallOutcome → ThreadNext
  | .generateProof, .returns _ => .goesOn .createRequest
  | .generateProof, .throwsException => .stops
  | .createRequest, .returns _ => .goesOn .checkQuality
  | .checkQuality, .returns true => .goesOn .sendCertificate
  | .checkQuality, .returns false => .stops
  | .sendCertificate, .returns _ => .stops
  | _, _ => .dies

/-! ## Runs -/

inductive Label (κ σ ν : Type) where
  | arrives (message : External ν)
  | receives (replies : Replies κ σ ν)
  | timerExpires
  | thread (index : ℕ) (outcome : CallOutcome)

namespace Submitter

variable (schnorr : Schnorr κ σ ν) (settings : Settings)

/-- what cannot happen changes nothing -/
def step (s : Submitter κ ν) : Label κ σ ν → Submitter κ ν
  | .arrives message => send (.external message) s
  | .receives r =>
    match s.mailbox with
    | [] => s
    | message :: mailbox => receive schnorr settings r message { s with mailbox := mailbox }
  | .timerExpires =>
    match s.timer with
    | some ⟨number, false⟩ => send (.tryToGenerateCertificate number) { s with timer := some ⟨number, true⟩ }
    | _ => s
  | .thread index outcome =>
    match s.threads[index]? with
    | none => s
    | some point =>
      match runGeneration point outcome with
      | .goesOn next => { s with threads := s.threads.set index next }
      | .stops => send .certificateSubmissionStopped { s with threads := s.threads.eraseIdx index }
      | .dies => { s with threads := s.threads.eraseIdx index }

def run (s : Submitter κ ν) (labels : List (Label κ σ ν)) : Submitter κ ν := labels.foldl (step schnorr settings) s

/-! A sample. A signature is its secret and its message, a secret is a key. -/

def plainSchnorr : Schnorr ℕ ℕ (ℕ × Bytes) where
  sign sk message := (sk, message)
  isValid signature key message := signature = (key, message)

/-- one signature is enough -/
def onlyOne : Settings := ⟨true, true, .nonCeasingSidechain, 1⟩

end Submitter

end Actor

end SidechainsSdk.Certificates
