/-
The ommers of a block (`OmmersContainer.verifyOmmersSeqData`, `Ommer.verifyData`, `SidechainBlockBase.semanticValidity`,
`MainchainHeader.semanticValidity`).

The ommers of a block are sidechain blocks that followed another mainchain branch. They are checked against the block that
contains them, and their own ommers against them in the same way, without the history.

- `verifyOmmersSeqData`, `verifyData`: the code, by recursion over ommers of ommers.
- `Everywhere`: what holds of a block and of all ommers below it; `ValidSequence`: what the check says about each of them.
- `ommers_counted`: the score in the header counts all ommers below, and what a block can contain is bounded by its own mainchain
  headers, at any depth.
- `ommers_diverge`: the mainchain headers of the ommers are a strictly shorter branch next to those of the container, and
  never meet it again.
- `block_as_ommer`: a valid block is valid as an ommer.

Scores (`Long`) are natural numbers. The clock is a parameter, and so are the methods that a class of blocks overrides.
-/
import Mathlib.Tactic
import SidechainsSdk.Blocks.Equihash
import SidechainsSdk.Blocks.ProofOfWork
import SidechainsSdk.Consensus.SlotTimes

namespace SidechainsSdk.Blocks.OmmersContainer

open Fallible (failIf failIf_ok bind_ok_iff)
open Consensus.TimeToEpochUtils (ConsensusParams timeStampToAbsoluteSlotNumber)
open ProofOfWork (PowParams checkProofOfWork)
open Utils (reverseBytes)

/-! ## Parameters -/

structure NetworkParams where
  pow : PowParams
  equihash : Equihash
  EquihashCompactSizeLength : ℕ
  EquihashSolutionLength : ℕ
  consensus : ConsensusParams
  sidechainGenesisBlockTimestamp : ℤ

/-- what a block uses of its header; `semanticValidity` with the message of its exception -/
structure ContainerFormat (H : Type) extends HeaderFormat H where
  parentId : H → Bytes
  timestamp : H → ℤ
  ommersCumulativeScore : H → ℤ
  semanticValidity : H → Except String Unit

/-- the header of a UTXO block. Its fields have the lengths that are checked, and its version is the one of these blocks. -/
def sidechainContainer (lib : CryptoLib) (vlq : VLQ) (isValid : Bytes → Bytes → Bytes → Bool) :
    ContainerFormat (SidechainBlockHeader lib) where
  toHeaderFormat := sidechainFormat lib vlq
  parentId := fun header => header.parentId.toBytes
  timestamp := fun header => header.timestamp.toInt
  ommersCumulativeScore := fun header => header.ommersCumulativeScore.toInt
  semanticValidity := fun header => do
    failIf (header.ommersCumulativeScore.toInt < 0 ∨ header.timestamp.toInt ≤ 0) "contains out of bound fields."
    failIf (¬ isValid header.signature.toBytes header.forgingStakeInfo.blockSignPublicKey.toBytes (header.messageToSign vlq))
      "signature is invalid."

/-- the header of an account block, with the gas limit at a timestamp. The byte `stateRoot` and others have their lengths, and
gas is not negative. -/
def accountContainer (lib : CryptoLib) (vlq : VLQ) (isValid : Bytes → Bytes → Bytes → Bool)
    (blockGasLimit : ℤ → Except String ℕ) :
    ContainerFormat (AccountBlockHeader lib) where
  toHeaderFormat := accountFormat lib vlq
  parentId := fun header => header.parentId.toBytes
  timestamp := fun header => header.timestamp.toInt
  ommersCumulativeScore := fun header => header.ommersCumulativeScore.toInt
  semanticValidity := fun header => do
    failIf (header.ommersCumulativeScore.toInt < 0 ∨ header.timestamp.toInt ≤ 0) "contains out of bound fields."
    failIf (¬ isValid header.signature.toBytes header.forgingStakeInfo.blockSignPublicKey.toBytes (header.messageToSign vlq))
      "signature is invalid."
    failIf (2 ^ 63 ≤ header.gasLimit.toNat) "gasLimit size overflows."
    failIf (2 ^ 63 ≤ header.gasUsed.toNat) "gasUsed size overflows."
    failIf (header.baseFee.toNat < 1) "baseFee is non positive and therefore invalid."
    let limit ← blockGasLimit header.timestamp.toInt
    failIf (header.gasLimit.toNat ≠ limit) "gasLimit is invalid."
    failIf (header.gasLimit.toNat < header.gasUsed.toNat) "gasUsed is greater than gasLimit and therefore invalid."

/-! ## The code -/

inductive MainchainHeaderException where
  /-- `MainchainHeader <hash> <problem>` -/
  | invalidMainchainHeader (hash : Bytes) (problem : String)
  | timestampInFuture (hash : Bytes) (time : ℤ)
  | assertion

inductive OmmerException where
  | invalidOmmerData (message : String)
  /-- `Ommer <id> data is invalid: <problem>` -/
  | invalidHeader (id : Bytes) (problem : String)
  | invalidMainchainHeader (id : Bytes) (e : MainchainHeaderException)
  /-- `Ommer <id> MainchainHeader <hash> is not a parent of MainchainHeader <hash>` -/
  | notParent (id parent child : Bytes)
  | illegalArgument (message : String)
  | noSuchElement

inductive BlockException where
  /-- `<name of the class> <id> <problem>` -/
  | invalidSidechainBlockData (simpleName : String) (id : Bytes) (problem : String)
  | invalidHeader (problem : String)
  | consistency (e : ConsistencyException)
  | transactions (e : String)
  | mainchainHeader (e : MainchainHeaderException)
  | ommers (e : OmmerException)

section Code

variable (doubleSHA256 : Bytes → Bytes) (blake2b : ℕ → Bytes → Bytes → Bytes) (params : NetworkParams) (now : ℤ)

def semanticValidity (header : MainchainHeader) : Except MainchainHeaderException Unit := do
  let hash := header.hash doubleSHA256
  failIf (header.hashPrevBlock.length ≠ 32 ∨ header.hashMerkleRoot.length ≠ 32 ∨
    header.hashScTxsCommitment.length ≠ 32 ∨
    header.nonce.length ≠ 32 ∨ header.solution.length ≠ params.EquihashSolutionLength ∨ header.time ≤ 0)
    (.invalidMainchainHeader hash "contains null or out of bound fields.")
  failIf (¬ checkProofOfWork doubleSHA256 params.pow header) (.invalidMainchainHeader hash "PoW is invalid.")
  let length := header.mainchainHeaderBytes.length - params.EquihashCompactSizeLength - params.EquihashSolutionLength
  match params.equihash.checkEquihashSolution blake2b (slice header.mainchainHeaderBytes 0 length) header.solution with
  | none => throw .assertion
  | some isSolution =>
    failIf (¬ isSolution) (.invalidMainchainHeader hash "Equihash solution is invalid.")
    -- Check if timestamp is not too far in the future
    failIf (now + 2 * 60 * 60 < header.time) (.timestampInFuture hash header.time)

def isParentOf (parent header : MainchainHeader) : Bool := header.hashPrevBlock = parent.hash doubleSHA256

/-- the first header that is not the parent of the next one -/
def verifyOrder {ε : Type} (notParent : Bytes → Bytes → ε) : List MainchainHeader → Except ε Unit
  | header :: next :: rest => do
    failIf (¬ isParentOf doubleSHA256 header next) (notParent (header.hash doubleSHA256) (next.hash doubleSHA256))
    verifyOrder notParent (next :: rest)
  | _ => pure ()

variable {H : Type} (format : ContainerFormat H)

mutual

/-- `score` -/
def score : Ommer H → ℕ
  | ⟨_, _, _, ommers⟩ => 1 + ommersScore ommers

def ommersScore : List (Ommer H) → ℕ
  | [] => 0
  | ommer :: ommers => score ommer + ommersScore ommers

end

/-- the fold over the ids of parents -/
def verifyParents : Bytes → List (Ommer H) → Except OmmerException Unit
  | _, [] => pure ()
  | parentId, ommer :: ommers => do
    failIf (parentId ≠ format.parentId ommer.header)
      (.invalidOmmerData "OmmerContainer Ommers contain not consistent SidechainBlockHeaders chain.")
    verifyParents (format.id ommer.header) ommers

/-- the loop over neighbouring slots -/
def verifySlots : List ℤ → Except OmmerException Unit
  | slot :: next :: rest => do
    failIf (next ≤ slot) (.invalidOmmerData "OmmerContainer Ommers slots are not consistent.")
    verifySlots (next :: rest)
  | _ => pure ()

/-- the fold over the hashes of parents -/
def verifyMainchain : Bytes → List MainchainHeader → Except OmmerException Unit
  | _, [] => pure ()
  | hashPrevBlock, header :: headers => do
    failIf (header.hashPrevBlock ≠ hashPrevBlock)
      (.invalidOmmerData "OmmerContainer Ommers contains not consistent MainchainHeader chain.")
    verifyMainchain (header.hash doubleSHA256) headers

/-- `equals` of two lists of headers -/
def equalHeaders (headers headers' : List MainchainHeader) : Bool :=
  headers.map (·.hash doubleSHA256) = headers'.map (·.hash doubleSHA256)

def absoluteSlot (header : H) : Except String ℤ :=
  timeStampToAbsoluteSlotNumber params.consensus params.sidechainGenesisBlockTimestamp (format.timestamp header)

/-- `verifyOmmersSeqData` before the data of each ommer -/
def verifySequence (header : H) (mainchainHeaders : List MainchainHeader) (ommers : List (Ommer H)) :
    Except OmmerException Unit := do
  failIf ((ommersScore ommers : ℤ) ≠ format.ommersCumulativeScore header)
    (.invalidOmmerData "SidechainBlockHeader ommers cumulative score is different to the actual Ommers score.")
  match ommers with
  | [] => pure ()
  | first :: rest =>
    -- First Ommer must have the same parent as current SidechainBlock.
    verifyParents format (format.parentId header) (first :: rest)
    let absoluteSlots ← (((first :: rest).map Ommer.header ++ [header]).mapM (absoluteSlot params format)).mapError
      OmmerException.illegalArgument
    verifySlots absoluteSlots
    -- the headers of the first ommer are not the first ones of the container
    failIf (mainchainHeaders.length < first.mainchainHeaders.length)
      (.invalidOmmerData "OmmerContainer first ommer contains more MainchainHeaders than container.")
    failIf (first.mainchainHeaders.isEmpty ∨
      equalHeaders doubleSHA256 first.mainchainHeaders (mainchainHeaders.take first.mainchainHeaders.length))
      (.invalidOmmerData "OmmerContainer Ommers don't lead to the orphaned MainchainHeader chain.")
    let ommersMainchainHeaders := (first :: rest).flatMap Ommer.mainchainHeaders
    match mainchainHeaders with
    | [] => throw .noSuchElement
    | head :: _ =>
      -- Ommers MC chain must follow the same MC parent as Block MC chain does
      verifyMainchain doubleSHA256 head.hashPrevBlock ommersMainchainHeaders
      failIf (mainchainHeaders.length ≤ ommersMainchainHeaders.length)
        (.invalidOmmerData "OmmerContainer contains less MainchainHeader than in Ommers.")

mutual

def verifyData : Ommer H → Except OmmerException Unit
  | ⟨header, _, mainchainHeaders, ommers⟩ => do
    (format.semanticValidity header).mapError (.invalidHeader (format.id header))
    mainchainHeaders.forM fun mainchainHeader =>
      (semanticValidity doubleSHA256 blake2b params now mainchainHeader).mapError (.invalidMainchainHeader (format.id header))
    verifyOrder doubleSHA256 (OmmerException.notParent (format.id header)) mainchainHeaders
    verifySequence doubleSHA256 params format header mainchainHeaders ommers
    verifyEach ommers

/-- Verify that each Ommer contains valid data. -/
def verifyEach : List (Ommer H) → Except OmmerException Unit
  | [] => pure ()
  | ommer :: ommers => do
    verifyData ommer
    verifyEach ommers

end

def verifyOmmersSeqData (header : H) (mainchainHeaders : List MainchainHeader) (ommers : List (Ommer H)) :
    Except OmmerException Unit := do
  verifySequence doubleSHA256 params format header mainchainHeaders ommers
  verifyEach doubleSHA256 blake2b params now format ommers

/-- what a class of blocks overrides -/
structure Overrides (H : Type) where
  versionIsValid : SidechainBlockBase H → Bool
  transactionsListExceedsSizeLimit : SidechainBlockBase H → Bool
  bytes : SidechainBlockBase H → Bytes
  blockTxSize : SidechainBlockBase H → ℕ
  blockExceedsSizeLimit : ℕ → Bool
  blockExceedsOverheadSizeLimit : ℤ → Bool
  checkTxSemanticValidity : SidechainBlockBase H → Except String Unit

/-- `SidechainBlockBase.semanticValidity` -/
def blockSemanticValidity (overrides : Overrides H) (block : SidechainBlockBase H) : Except BlockException Unit := do
  let exception := BlockException.invalidSidechainBlockData block.simpleName (format.id block.header)
  failIf (¬ overrides.versionIsValid block) (exception "version is invalid.")
  (format.semanticValidity block.header).mapError .invalidHeader
  -- Check that body is consistent to header.
  (block.verifyDataConsistency doubleSHA256 format.toHeaderFormat).mapError .consistency
  failIf (overrides.transactionsListExceedsSizeLimit block) (exception "sidechain transactions amount exceeds the limit.")
  let blockSize := (overrides.bytes block).length
  failIf (overrides.blockExceedsSizeLimit blockSize) (exception "size exceeds the limit.")
  verifyOrder doubleSHA256 (fun _ _ => exception "MainchainHeader is not a parent of MainchainHeader.") block.mainchainHeaders
  (overrides.checkTxSemanticValidity block).mapError .transactions
  failIf (overrides.blockExceedsOverheadSizeLimit ((blockSize : ℤ) - overrides.blockTxSize block))
    (exception "block overhead size exceeds the limit.")
  block.mainchainHeaders.forM fun mainchainHeader =>
    (semanticValidity doubleSHA256 blake2b params now mainchainHeader).mapError .mainchainHeader
  (verifyOmmersSeqData doubleSHA256 blake2b params now format block.header block.mainchainHeaders block.ommers).mapError .ommers

end Code

/-! ## What is below a container -/

section Below

variable {H : Type}

@[elab_as_elim]
theorem ommerInduction {motive : Ommer H → Prop} (container : ∀ header root mainchainHeaders ommers,
    (∀ ommer ∈ ommers, motive ommer) → motive ⟨header, root, mainchainHeaders, ommers⟩) (ommer :
      Ommer H) : motive ommer := by
  cases ommer with
  | mk header root mainchainHeaders ommers =>
    exact container header root mainchainHeaders ommers fun ommer _ => ommerInduction container ommer

mutual

/-- all ommers below, those of ommers too -/
def below : Ommer H → List (Ommer H)
  | ⟨_, _, _, ommers⟩ => belowEach ommers

def belowEach : List (Ommer H) → List (Ommer H)
  | [] => []
  | ommer :: ommers => ommer :: below ommer ++ belowEach ommers

end

mutual

/-- how deep ommers are nested -/
def depth : Ommer H → ℕ
  | ⟨_, _, _, ommers⟩ => depthEach ommers

def depthEach : List (Ommer H) → ℕ
  | [] => 0
  | ommer :: ommers => max (depth ommer + 1) (depthEach ommers)

end

/-- what holds of a container and of all ommers below it -/
def Everywhere (P : Ommer H → Prop) (container : Ommer H) : Prop := P container ∧ ∀ ommer ∈ below container, P ommer

theorem mem_belowEach {ommers : List (Ommer H)} {ommer : Ommer H} :
    ommer ∈ belowEach ommers ↔ ∃ top ∈ ommers, ommer = top ∨ ommer ∈ below top := by
  induction ommers with
  | nil => simp [belowEach]
  | cons top ommers ih => simp [belowEach, ih, or_assoc]

theorem everywhere_mk {P : Ommer H → Prop} {header : H} {root : Option Bytes} {mainchainHeaders : List MainchainHeader}
    {ommers : List (Ommer H)} : Everywhere P ⟨header, root, mainchainHeaders, ommers⟩ ↔
      P ⟨header, root, mainchainHeaders, ommers⟩ ∧ ∀ ommer ∈ ommers, Everywhere P ommer := by
  unfold Everywhere
  rw [below]
  refine and_congr_right fun _ => ?_
  constructor
  · intro h ommer hommer
    exact ⟨h ommer (mem_belowEach.2 ⟨ommer, hommer, .inl rfl⟩),
      fun o ho => h o (mem_belowEach.2 ⟨ommer, hommer, .inr ho⟩)⟩
  · intro h ommer hommer
    obtain ⟨top, htop, rfl | hbelow⟩ := mem_belowEach.1 hommer
    · exact (h ommer htop).1
    · exact (h top htop).2 ommer hbelow

theorem Everywhere.imp {P Q : Ommer H → Prop} {container : Ommer H} (h : Everywhere P container) (himp : ∀ c, P c → Q c) :
    Everywhere Q container := ⟨himp _ h.1, fun ommer hommer => himp _ (h.2 ommer hommer)⟩

/-- the score counts the ommers below -/
theorem score_eq (ommer : Ommer H) : score ommer = 1 + (below ommer).length := by
  induction ommer using ommerInduction with
  | container header root mainchainHeaders ommers ih =>
    rw [score, below]
    congr 1
    induction ommers with
    | nil => rfl
    | cons ommer ommers ih' =>
      rw [ommersScore, belowEach, ih ommer (by simp), ih' fun o ho => ih o (List.mem_cons_of_mem _ ho), List.length_append,
        List.length_cons]
      omega

theorem ommersScore_eq (container : Ommer H) : ommersScore container.ommers = (below container).length := by
  obtain ⟨header, root, mainchainHeaders, ommers⟩ := container
  have h := score_eq (⟨header, root, mainchainHeaders, ommers⟩ : Ommer H)
  rw [score] at h
  exact Nat.add_left_cancel h

theorem mem_below {container ommer : Ommer H} :
    ommer ∈ below container ↔ ∃ top ∈ container.ommers, ommer = top ∨ ommer ∈ below top := by
  obtain ⟨header, root, mainchainHeaders, ommers⟩ := container
  rw [below]
  exact mem_belowEach

end Below

/-! ## What the check says -/

section Valid

variable {doubleSHA256 : Bytes → Bytes} {blake2b : ℕ → Bytes → Bytes → Bytes} {params : NetworkParams} {now : ℤ}
    {H : Type}
  {format : ContainerFormat H}

/-- each ommer on the one before -/
def ParentsFrom (format : ContainerFormat H) : Bytes → List (Ommer H) → Prop
  | _, [] => True
  | parentId, ommer :: ommers => format.parentId ommer.header = parentId ∧ ParentsFrom format (format.id ommer.header) ommers

/-- each header on the one before -/
def LinkedFrom (doubleSHA256 : Bytes → Bytes) : Bytes → List MainchainHeader → Prop
  | _, [] => True
  | hashPrevBlock, header :: headers =>
    header.hashPrevBlock = hashPrevBlock ∧ LinkedFrom doubleSHA256 (header.hash doubleSHA256) headers

def branch (container : Ommer H) : List MainchainHeader := container.ommers.flatMap Ommer.mainchainHeaders

/-- a container and its ommers, where there are some: one chain on the parent of the container, in earlier slots; their mainchain
headers are a strictly shorter chain on the parent of its headers, which it does not begin with -/
structure ValidSequence (doubleSHA256 : Bytes → Bytes) (params : NetworkParams) (format : ContainerFormat H)
    (container : Ommer H) :
    Prop where
  counted : (ommersScore container.ommers : ℤ) = format.ommersCumulativeScore container.header
  parents : ParentsFrom format (format.parentId container.header) container.ommers
  slots : container.ommers ≠ [] → ∃ slots, (container.ommers.map Ommer.header ++ [container.header]).mapM
    (absoluteSlot params format) =
    .ok slots ∧ slots.Pairwise (· < ·)
  orphaned : ∀ first ∈ container.ommers.head?, 0 < first.mainchainHeaders.length ∧
    first.mainchainHeaders.map (·.hash doubleSHA256) ≠
      (container.mainchainHeaders.take first.mainchainHeaders.length).map (·.hash doubleSHA256)
  linked : ∀ head ∈ container.mainchainHeaders.head?,
    LinkedFrom doubleSHA256 head.hashPrevBlock container.mainchainHeaders ∧
    LinkedFrom doubleSHA256 head.hashPrevBlock (branch container)
  fewer : container.ommers ≠ [] → (branch container).length < container.mainchainHeaders.length

theorem mapError_ok {ε ε' α : Type} {x : Except ε α} {f : ε → ε'} {a : α} : x.mapError f = .ok a ↔ x = .ok a := by
  cases x with
  | error e => simp [Except.mapError]
  | ok b => simp [Except.mapError]

theorem verifyOrder_ok {ε : Type} {notParent : Bytes → Bytes → ε} {headers : List MainchainHeader}
    (h : verifyOrder doubleSHA256 notParent headers = .ok ()) :
    ∀ head ∈ headers.head?, LinkedFrom doubleSHA256 head.hashPrevBlock headers := by
  induction headers with
  | nil => simp
  | cons header rest ih =>
    rintro _ ⟨⟩
    refine ⟨rfl, ?_⟩
    obtain _ | ⟨next, rest⟩ := rest
    · trivial
    · rw [verifyOrder, bind_ok_iff] at h
      obtain ⟨_, hparent, hrest⟩ := h
      rw [failIf_ok, not_not, isParentOf, decide_eq_true_eq] at hparent
      rw [← hparent]
      exact ih hrest next rfl

theorem verifyParents_ok {parentId : Bytes} {ommers : List (Ommer H)} (h : verifyParents format parentId ommers = .ok ()) :
    ParentsFrom format parentId ommers := by
  induction ommers generalizing parentId with
  | nil => trivial
  | cons ommer ommers ih =>
    rw [verifyParents, bind_ok_iff] at h
    obtain ⟨_, hparent, hrest⟩ := h
    rw [failIf_ok, not_not] at hparent
    exact ⟨hparent.symm, ih hrest⟩

theorem verifySlots_ok {slots : List ℤ} (h : verifySlots slots = .ok ()) : slots.Pairwise (· < ·) := by
  apply List.isChain_iff_pairwise.1
  induction slots with
  | nil => exact List.IsChain.nil
  | cons slot rest ih =>
    obtain _ | ⟨next, rest⟩ := rest
    · exact List.IsChain.singleton slot
    · rw [verifySlots, bind_ok_iff] at h
      obtain ⟨_, hlt, hrest⟩ := h
      rw [failIf_ok, not_le] at hlt
      exact List.IsChain.cons_cons hlt (ih hrest)

theorem verifyMainchain_ok {hashPrevBlock : Bytes} {headers : List MainchainHeader}
    (h : verifyMainchain doubleSHA256 hashPrevBlock headers = .ok ()) : LinkedFrom doubleSHA256 hashPrevBlock headers := by
  induction headers generalizing hashPrevBlock with
  | nil => trivial
  | cons header headers ih =>
    rw [verifyMainchain, bind_ok_iff] at h
    obtain ⟨_, hprev, hrest⟩ := h
    rw [failIf_ok, not_not] at hprev
    exact ⟨hprev, ih hrest⟩

/-- **One level.** What passes before the data of each ommer. -/
theorem verifySequence_ok {header : H} {root : Option Bytes} {mainchainHeaders : List MainchainHeader} {ommers : List (Ommer H)}
    (hlinked : ∀ head ∈ mainchainHeaders.head?, LinkedFrom doubleSHA256 head.hashPrevBlock mainchainHeaders)
    (h : verifySequence doubleSHA256 params format header mainchainHeaders ommers = .ok ()) :
    ValidSequence doubleSHA256 params format ⟨header, root, mainchainHeaders, ommers⟩ := by
  unfold verifySequence at h
  rw [bind_ok_iff] at h
  obtain ⟨_, hscore, h⟩ := h
  rw [failIf_ok, not_not] at hscore
  obtain _ | ⟨first, rest⟩ := ommers
  · exact ⟨hscore, trivial, by simp, by simp, fun head hhead => ⟨hlinked head hhead, trivial⟩, by simp⟩
  · simp only [bind_ok_iff, failIf_ok, mapError_ok] at h
    obtain ⟨_, hparents, slots, hslots, _, hincreasing, _, hshort, _, horphaned, h⟩ := h
    obtain _ | ⟨head, tail⟩ := mainchainHeaders
    · cases h
    · simp only [bind_ok_iff, failIf_ok] at h
      obtain ⟨_, hbranch, hfewer⟩ := h
      rw [not_or] at horphaned
      refine ⟨hscore, verifyParents_ok hparents, fun _ => ⟨slots, hslots, verifySlots_ok hincreasing⟩, ?_, ?_,
        fun _ => not_le.1 hfewer⟩
      · rintro _ ⟨⟩
        refine ⟨List.length_pos_iff.2 (by simpa using horphaned.1), ?_⟩
        simpa [equalHeaders] using horphaned.2
      · rintro _ ⟨⟩
        exact ⟨hlinked head rfl, verifyMainchain_ok hbranch⟩

theorem verifyEach_ok {ommers : List (Ommer H)} :
    verifyEach doubleSHA256 blake2b params now format ommers = .ok () ↔
      ∀ ommer ∈ ommers, verifyData doubleSHA256 blake2b params now format ommer = .ok () := by
  induction ommers with
  | nil => simp [verifyEach, pure, Except.pure]
  | cons ommer ommers ih => rw [verifyEach, bind_unit_ok, ih, List.forall_mem_cons]

/-- **All levels**, by induction on the nesting. -/
theorem verifyData_ok {ommer : Ommer H} (h : verifyData doubleSHA256 blake2b params now format ommer = .ok ()) :
    Everywhere (ValidSequence doubleSHA256 params format) ommer := by
  induction ommer using ommerInduction with
  | container header root mainchainHeaders ommers ih =>
    rw [verifyData, bind_ok_iff] at h
    obtain ⟨_, -, h⟩ := h
    rw [bind_unit_ok, bind_unit_ok, bind_unit_ok] at h
    obtain ⟨-, horder, hsequence, heach⟩ := h
    rw [everywhere_mk]
    exact ⟨verifySequence_ok (verifyOrder_ok horder) hsequence, fun ommer hommer => ih ommer hommer
      (verifyEach_ok.1 heach ommer hommer)⟩

/-- the block as the container of its ommers -/
abbrev container (block : SidechainBlockBase H) : Ommer H := ProofOfWork.container block

variable {overrides : Overrides H}

theorem blockSemanticValidity_ok {block : SidechainBlockBase H}
    (h : blockSemanticValidity doubleSHA256 blake2b params now format overrides block = .ok ()) :
    format.semanticValidity block.header = .ok () ∧ block.verifyDataConsistency doubleSHA256 format.toHeaderFormat = .ok () ∧
      (∃ notParent : Bytes → Bytes → BlockException, verifyOrder doubleSHA256 notParent block.mainchainHeaders = .ok ()) ∧
      (∀ header ∈ block.mainchainHeaders, semanticValidity doubleSHA256 blake2b params now header = .ok ()) ∧
      verifySequence doubleSHA256 params format block.header block.mainchainHeaders block.ommers = .ok () ∧
      ∀ ommer ∈ block.ommers, verifyData doubleSHA256 blake2b params now format ommer = .ok () := by
  unfold blockSemanticValidity at h
  simp only [bind_unit_ok, mapError_ok, Fallible.forM_ok, verifyOmmersSeqData, verifyEach_ok] at h
  obtain ⟨-, hheader, hconsistency, -, -, horder, -, -, hheaders, hsequence, heach⟩ := h
  exact ⟨hheader, hconsistency, ⟨_, horder⟩, hheaders, hsequence, heach⟩

/-- a valid block, and all ommers below it -/
theorem block_everywhere {block : SidechainBlockBase H}
    (h : blockSemanticValidity doubleSHA256 blake2b params now format overrides block = .ok ()) :
    Everywhere (ValidSequence doubleSHA256 params format) (container block) := by
  obtain ⟨-, -, ⟨_, horder⟩, -, hsequence, heach⟩ := blockSemanticValidity_ok h
  rw [container, ProofOfWork.container, everywhere_mk]
  exact ⟨verifySequence_ok (verifyOrder_ok horder) hsequence, fun ommer hommer => verifyData_ok (heach ommer hommer)⟩

end Valid

/-! ## Counting -/

section Counting

variable {doubleSHA256 : Bytes → Bytes} {blake2b : ℕ → Bytes → Bytes → Bytes} {params : NetworkParams} {now : ℤ}
    {H : Type}
  {format : ContainerFormat H} {overrides : Overrides H}

/-- the mainchain headers of all ommers below -/
def headersBelow (container : Ommer H) : ℕ := ((below container).map fun ommer => ommer.mainchainHeaders.length).sum

theorem length_mainchainHeaders_le {container ommer : Ommer H} (hommer : ommer ∈ container.ommers) :
    ommer.mainchainHeaders.length ≤ (branch container).length := by
  unfold branch
  rw [List.length_flatMap]
  exact List.le_sum_of_mem (List.mem_map_of_mem hommer)

/-- the first ommer has headers -/
theorem ValidSequence.branch_pos {container : Ommer H} (h : ValidSequence doubleSHA256 params format container)
    (hommers : container.ommers ≠ []) : 0 < (branch container).length := by
  obtain ⟨first, hfirst⟩ := List.ne_nil_iff_exists_cons.1 hommers
  obtain ⟨rest, hfirst⟩ := hfirst
  have hhead : first ∈ container.ommers.head? := by rw [hfirst]; rfl
  have hmem : first ∈ container.ommers := by rw [hfirst]; simp
  exact (h.orphaned first hhead).1.trans_le (length_mainchainHeaders_le hmem)

theorem depthEach_le {ommers : List (Ommer H)} {n : ℕ} (h : ∀ ommer ∈ ommers, depth ommer + 1 ≤ n) :
    depthEach ommers ≤ n := by
  induction ommers with
  | nil => exact Nat.zero_le n
  | cons ommer ommers ih =>
    rw [depthEach]
    exact max_le (h ommer (by simp)) (ih fun o ho => h o (List.mem_cons_of_mem _ ho))

/-- every level needs a mainchain header more than the next one -/
theorem depth_le {container : Ommer H} (h : Everywhere (ValidSequence doubleSHA256 params format) container) :
    depth container ≤ container.mainchainHeaders.length - 1 := by
  induction container using ommerInduction with
  | container header root mainchainHeaders ommers ih =>
    obtain ⟨hvalid, hommers⟩ := everywhere_mk.1 h
    rw [depth]
    apply depthEach_le
    intro ommer hommer
    have hne : ommers ≠ [] := List.ne_nil_of_mem hommer
    have hfewer : (branch ⟨header, root, mainchainHeaders, ommers⟩).length < mainchainHeaders.length := hvalid.fewer hne
    have hpos := hvalid.branch_pos hne
    have hle : ommer.mainchainHeaders.length ≤ (branch ⟨header, root, mainchainHeaders, ommers⟩).length :=
      length_mainchainHeaders_le hommer
    have hdepth := ih ommer hommer (hommers ommer hommer)
    dsimp only
    omega

theorem headersBelow_each {ommers : List (Ommer H)}
    (h : ∀ ommer ∈ ommers, 2 * headersBelow ommer ≤ ommer.mainchainHeaders.length * (ommer.mainchainHeaders.length - 1)) :
    2 * ((belowEach ommers).map fun ommer => ommer.mainchainHeaders.length).sum ≤
      (ommers.flatMap Ommer.mainchainHeaders).length * ((ommers.flatMap Ommer.mainchainHeaders).length + 1) := by
  induction ommers with
  | nil => simp [belowEach]
  | cons ommer ommers ih =>
    have hfirst := h ommer (by simp)
    have hrest := ih fun o ho => h o (List.mem_cons_of_mem _ ho)
    rw [belowEach, List.map_append, List.map_cons, List.sum_append, List.sum_cons, List.flatMap_cons, List.length_append]
    rw [headersBelow] at hfirst
    generalize ((below ommer).map fun o => o.mainchainHeaders.length).sum = t at *
    generalize ((belowEach ommers).map fun o => o.mainchainHeaders.length).sum = t' at *
    generalize ommer.mainchainHeaders.length = m at *
    generalize (ommers.flatMap Ommer.mainchainHeaders).length = m' at *
    obtain _ | m := m
    · rw [Nat.zero_mul] at hfirst
      simp only [Nat.zero_add]
      omega
    · rw [Nat.add_sub_cancel] at hfirst
      nlinarith

/-- at most one for every pair of its own headers -/
theorem headersBelow_le {container : Ommer H} (h : Everywhere (ValidSequence doubleSHA256 params format) container) :
    2 * headersBelow container ≤ container.mainchainHeaders.length * (container.mainchainHeaders.length - 1) := by
  induction container using ommerInduction with
  | container header root mainchainHeaders ommers ih =>
    obtain ⟨hvalid, hommers⟩ := everywhere_mk.1 h
    have heach := headersBelow_each fun ommer hommer => ih ommer hommer (hommers ommer hommer)
    rw [headersBelow, below]
    by_cases hne : ommers = []
    · subst hne
      simp [belowEach]
    · have hfewer : (ommers.flatMap Ommer.mainchainHeaders).length < mainchainHeaders.length := hvalid.fewer hne
      refine heach.trans ?_
      rw [Nat.mul_comm]
      exact Nat.mul_le_mul hfewer (by dsimp only; omega)

theorem mapM_mem {ε α β : Type} {f : α → Except ε β} {l : List α} {bs : List β} (h : l.mapM f = .ok bs) :
    ∀ a ∈ l, ∃ b ∈ bs, f a = .ok b := by
  induction l generalizing bs with
  | nil => simp
  | cons a l ih =>
    rw [List.mapM_cons, bind_ok_iff] at h
    obtain ⟨b, hb, h⟩ := h
    rw [bind_ok_iff] at h
    obtain ⟨bs, hbs, hcons⟩ := h
    obtain rfl := Except.ok.inj hcons
    refine List.forall_mem_cons.2 ⟨⟨b, by simp, hb⟩, fun a' ha' => ?_⟩
    obtain ⟨b', hmem, hb'⟩ := ih hbs a' ha'
    exact ⟨b', List.mem_cons_of_mem _ hmem, hb'⟩

/-- in an earlier slot -/
def Before (params : NetworkParams) (format : ContainerFormat H) (header header' : H) : Prop :=
  ∃ slot slot', absoluteSlot params format header = .ok slot ∧ absoluteSlot params format header' = .ok slot' ∧ slot < slot'

theorem Before.trans {header header' header'' : H} (h : Before params format header header')
    (h' : Before params format header' header'') : Before params format header header'' := by
  obtain ⟨slot, slot', hslot, hslot', hlt⟩ := h
  obtain ⟨mid, slot'', hmid, hslot'', hlt'⟩ := h'
  rw [hslot'] at hmid
  obtain rfl := Except.ok.inj hmid
  exact ⟨slot, slot'', hslot, hslot'', hlt.trans hlt'⟩

theorem ValidSequence.before {container : Ommer H} (h : ValidSequence doubleSHA256 params format container) :
    ∀ ommer ∈ container.ommers, Before params format ommer.header container.header := by
  intro ommer hommer
  obtain ⟨slots, hslots, hincreasing⟩ := h.slots (List.ne_nil_of_mem hommer)
  rw [List.mapM_append, bind_ok_iff] at hslots
  obtain ⟨front, hfront, hslots⟩ := hslots
  rw [bind_ok_iff] at hslots
  obtain ⟨last, hlast, hslots⟩ := hslots
  obtain rfl := Except.ok.inj hslots
  obtain ⟨slot, hmem, hslot⟩ := mapM_mem hfront ommer.header (List.mem_map_of_mem hommer)
  obtain ⟨slot', hmem', hslot'⟩ := mapM_mem hlast container.header (by simp)
  exact ⟨slot, slot', hslot, hslot', (List.pairwise_append.1 hincreasing).2.2 slot hmem slot' hmem'⟩

theorem before_below {container : Ommer H} (h : Everywhere (ValidSequence doubleSHA256 params format) container) :
    ∀ ommer ∈ below container, Before params format ommer.header container.header := by
  induction container using ommerInduction with
  | container header root mainchainHeaders ommers ih =>
    obtain ⟨hvalid, hommers⟩ := everywhere_mk.1 h
    intro ommer hommer
    obtain ⟨top, htop, rfl | hbelow⟩ := mem_below.1 hommer
    · exact hvalid.before ommer htop
    · exact (ih top htop (hommers top htop) ommer hbelow).trans (hvalid.before top htop)

/-- **Counting.** For every valid block, whatever ommers it has, at any depth: the score in its header, and in the header of every
ommer below, is the number of ommers below it. Ommers are nested less deep than the block has mainchain headers, and
have together at most one header for every pair of the block's; all of them are of earlier slots than the block. -/
theorem ommers_counted {block : SidechainBlockBase H}
    (h : blockSemanticValidity doubleSHA256 blake2b params now format overrides block = .ok ()) :
    Everywhere (fun c => format.ommersCumulativeScore c.header = (below c).length) (container block) ∧
      (block.ommers ≠ [] → depth (container block) < block.mainchainHeaders.length) ∧
      2 * headersBelow (container block) ≤ block.mainchainHeaders.length * (block.mainchainHeaders.length - 1) ∧
      ∀ ommer ∈ below (container block), Before params format ommer.header block.header := by
  have hvalid := block_everywhere h
  refine ⟨hvalid.imp fun c hc => ?_, fun hommers => ?_, headersBelow_le hvalid, before_below hvalid⟩
  · rw [← hc.counted, ommersScore_eq]
  · have hdepth := depth_le hvalid
    have hfewer : (branch (container block)).length < block.mainchainHeaders.length := hvalid.1.fewer hommers
    have hle : depth (container block) ≤ block.mainchainHeaders.length - 1 := hdepth
    omega

end Counting

/-! ## Two branches -/

section Branches

variable {doubleSHA256 : Bytes → Bytes} {blake2b : ℕ → Bytes → Bytes → Bytes} {params : NetworkParams} {now : ℤ}
    {H : Type}
  {format : ContainerFormat H} {overrides : Overrides H}

/-- no two of these headers have the same hash -/
def Distinguished (doubleSHA256 : Bytes → Bytes) (headers : List MainchainHeader) : Prop :=
  ∀ header ∈ headers, ∀ header' ∈ headers, header.hash doubleSHA256 = header'.hash doubleSHA256 → header = header'

theorem LinkedFrom.next {hashPrevBlock : Bytes} {headers : List MainchainHeader}
    (h : LinkedFrom doubleSHA256 hashPrevBlock headers)
    {i : ℕ} {header : MainchainHeader} (hheader : headers[i + 1]? = some header) :
    ∃ parent, headers[i]? = some parent ∧ header.hashPrevBlock = parent.hash doubleSHA256 := by
  induction headers generalizing hashPrevBlock i with
  | nil => simp at hheader
  | cons first headers ih =>
    obtain ⟨-, hrest⟩ := h
    obtain _ | i := i
    · obtain _ | ⟨second, headers⟩ := headers
      · simp at hheader
      · obtain rfl : second = header := by simpa using hheader
        exact ⟨first, rfl, hrest.1⟩
    · exact ih hrest hheader

/-- two chains that agree at a place agree at the one before -/
theorem agree_before {hash hash' : Bytes} {headers headers' : List MainchainHeader} (h : LinkedFrom doubleSHA256 hash headers)
    (h' : LinkedFrom doubleSHA256 hash' headers') (hdistinguished : Distinguished doubleSHA256 (headers ++ headers')) {i : ℕ}
    {header : MainchainHeader} (hheader : headers[i + 1]? = some header) (hheader' : headers'[i + 1]? = some header) :
    headers[i]? = headers'[i]? := by
  obtain ⟨parent, hparent, hprev⟩ := h.next hheader
  obtain ⟨parent', hparent', hprev'⟩ := h'.next hheader'
  have heq : parent = parent' := hdistinguished parent (List.mem_append_left _ (List.mem_of_getElem? hparent)) parent'
    (List.mem_append_right _ (List.mem_of_getElem? hparent')) (hprev.symm.trans hprev')
  rw [hparent, hparent', heq]

/-- the branch of the ommers agrees with the headers of the container up to a place before its end, and nowhere from there on -/
structure Diverges (container : Ommer H) : Prop where
  shorter : (branch container).length < container.mainchainHeaders.length
  parent : (branch container).head?.map (·.hashPrevBlock) = container.mainchainHeaders.head?.map (·.hashPrevBlock)
  apart : ∃ k < (branch container).length, (branch container).take k = container.mainchainHeaders.take k ∧
    ∀ i, k ≤ i → i < (branch container).length → (branch container)[i]? ≠ container.mainchainHeaders[i]?

theorem ValidSequence.diverges {container : Ommer H} (h : ValidSequence doubleSHA256 params format container)
    (hommers : container.ommers ≠ [])
    (hdistinguished : Distinguished doubleSHA256 (branch container ++ container.mainchainHeaders)) : Diverges container := by
  have hfewer := h.fewer hommers
  obtain ⟨head, tail, hheaders⟩ : ∃ head tail, container.mainchainHeaders = head :: tail :=
    List.ne_nil_iff_exists_cons.1 (List.ne_nil_of_length_pos (Nat.zero_lt_of_lt hfewer))
  have hhead : head ∈ container.mainchainHeaders.head? := by rw [hheaders]; rfl
  obtain ⟨hlinked, hbranch⟩ := h.linked head hhead
  obtain ⟨first, rest, hfirst⟩ := List.ne_nil_iff_exists_cons.1 hommers
  obtain ⟨hpos, hdifferent⟩ := h.orphaned first (by rw [hfirst]; rfl)
  have hfront : branch container = first.mainchainHeaders ++ rest.flatMap Ommer.mainchainHeaders := by
    rw [branch, hfirst, List.flatMap_cons]
  have hfirst_le : first.mainchainHeaders.length ≤ (branch container).length := by
    rw [hfront, List.length_append]
    omega
  -- the first place where the two differ
  have hsome : ∃ k, k < (branch container).length ∧ (branch container)[k]? ≠ container.mainchainHeaders[k]? := by
    by_contra hnone
    simp only [not_exists, not_and, not_not] at hnone
    have htake : (branch container).take first.mainchainHeaders.length = first.mainchainHeaders := by
      rw [hfront, List.take_left' rfl]
    have hagree : (branch container).take first.mainchainHeaders.length =
        container.mainchainHeaders.take first.mainchainHeaders.length := by
      apply List.ext_getElem?
      intro i
      rw [List.getElem?_take, List.getElem?_take]
      by_cases hi : i < first.mainchainHeaders.length
      · rw [if_pos hi, if_pos hi, hnone i (hi.trans_le hfirst_le)]
      · rw [if_neg hi, if_neg hi]
    apply hdifferent
    rw [← hagree, htake]
  classical
  refine ⟨hfewer, ?_, Nat.find hsome, (Nat.find_spec hsome).1, ?_, ?_⟩
  · have hbranch_pos := hpos.trans_le hfirst_le
    obtain ⟨head', tail', hbranch'⟩ := List.ne_nil_iff_exists_cons.1 (List.ne_nil_of_length_pos hbranch_pos)
    rw [hbranch'] at hbranch ⊢
    rw [hheaders]
    exact congrArg some hbranch.1
  · apply List.ext_getElem?
    intro i
    rw [List.getElem?_take, List.getElem?_take]
    by_cases hi : i < Nat.find hsome
    · have hmin := Nat.find_min hsome hi
      have hlt := (Nat.find_spec hsome).1
      rw [not_and, not_not] at hmin
      rw [if_pos hi, if_pos hi, hmin (hi.trans hlt)]
    · rw [if_neg hi, if_neg hi]
  · intro i hi
    induction i, hi using Nat.le_induction with
    | base => exact fun _ => (Nat.find_spec hsome).2
    | succ i hi ih =>
      intro hlt heq
      obtain ⟨header, hheader⟩ : ∃ header, (branch container)[i + 1]? = some header := ⟨_, List.getElem?_eq_getElem hlt⟩
      rw [hheader] at heq
      exact ih (by omega) (agree_before hbranch hlinked hdistinguished hheader heq.symm)

theorem mem_allHeadersOf {ommers : List (Ommer H)} {header : MainchainHeader} :
    header ∈ ProofOfWork.allHeadersOf ommers ↔ ∃ ommer ∈ ommers, header ∈ ProofOfWork.allHeaders ommer := by
  induction ommers with
  | nil => simp [ProofOfWork.allHeadersOf]
  | cons ommer ommers ih => simp [ProofOfWork.allHeadersOf, ih]

/-- all headers of an ommer below are among those of the container -/
theorem allHeaders_below {container ommer : Ommer H} (hommer : ommer ∈ below container) :
    ∀ header ∈ ProofOfWork.allHeaders ommer, header ∈ ProofOfWork.allHeaders container := by
  induction container using ommerInduction with
  | container h root mainchainHeaders ommers ih =>
    intro header hheader
    rw [ProofOfWork.allHeaders]
    apply List.mem_append_right
    obtain ⟨top, htop, rfl | hbelow⟩ := mem_below.1 hommer
    · exact mem_allHeadersOf.2 ⟨ommer, htop, hheader⟩
    · exact mem_allHeadersOf.2 ⟨top, htop, ih top htop hbelow header hheader⟩

theorem own_headers (container : Ommer H) :
    ∀ header ∈ branch container ++ container.mainchainHeaders, header ∈ ProofOfWork.allHeaders container := by
  obtain ⟨h, root, mainchainHeaders, ommers⟩ := container
  intro header hheader
  rw [ProofOfWork.allHeaders]
  rcases List.mem_append.1 hheader with hbranch | hown
  · obtain ⟨ommer, hommer, hmem⟩ := List.mem_flatMap.1 hbranch
    exact List.mem_append_right _ (mem_allHeadersOf.2 ⟨ommer, hommer, ProofOfWork.mainchainHeaders_subset ommer header hmem⟩)
  · exact List.mem_append_left _ hown

/-- **Two branches.** For every valid block whose mainchain headers, with those of all ommers below, have different hashes: the
headers of its ommers are a strictly shorter branch than its own, on the same parent, that leaves its own before its end and
never meets it again. The same is true of every ommer below that has ommers. -/
theorem ommers_diverge {block : SidechainBlockBase H}
    (h : blockSemanticValidity doubleSHA256 blake2b params now format overrides block = .ok ())
    (hdistinguished : Distinguished doubleSHA256 (ProofOfWork.allHeaders (container block))) :
    Everywhere (fun c => c.ommers ≠ [] → Diverges c) (container block) := by
  have hvalid := block_everywhere h
  constructor
  · intro hommers
    exact hvalid.1.diverges hommers fun header hheader header' hheader' =>
      hdistinguished header (own_headers _ header hheader) header' (own_headers _ header' hheader')
  · intro ommer hommer hommers
    exact (hvalid.2 ommer hommer).diverges hommers fun header hheader header' hheader' =>
      hdistinguished header (allHeaders_below hommer header (own_headers _ header hheader)) header'
        (allHeaders_below hommer header' (own_headers _ header' hheader'))

end Branches

/-! ## A block as an ommer -/

section AsOmmer

variable {doubleSHA256 : Bytes → Bytes} {blake2b : ℕ → Bytes → Bytes → Bytes} {params : NetworkParams} {now now' : ℤ}
    {H : Type}
  {format : ContainerFormat H} {overrides : Overrides H}

/-- a header is not in the future later either -/
theorem semanticValidity_later (hnow : now ≤ now') {header : MainchainHeader}
    (h : semanticValidity doubleSHA256 blake2b params now header = .ok ()) :
    semanticValidity doubleSHA256 blake2b params now' header = .ok () := by
  unfold semanticValidity at h ⊢
  dsimp only at h ⊢
  rw [bind_unit_ok, bind_unit_ok] at h ⊢
  obtain ⟨hfields, hwork, h⟩ := h
  refine ⟨hfields, hwork, ?_⟩
  split at h
  · cases h
  · rw [bind_unit_ok] at h ⊢
    refine ⟨h.1, ?_⟩
    have htime := h.2
    rw [failIf_ok, not_lt] at htime ⊢
    omega

theorem verifyData_later (hnow : now ≤ now') {ommer : Ommer H}
    (h : verifyData doubleSHA256 blake2b params now format ommer = .ok ()) :
    verifyData doubleSHA256 blake2b params now' format ommer = .ok () := by
  induction ommer using ommerInduction with
  | container header root mainchainHeaders ommers ih =>
    rw [verifyData] at h ⊢
    simp only [bind_unit_ok, mapError_ok, Fallible.forM_ok, verifyEach_ok] at h ⊢
    obtain ⟨hheader, hheaders, horder, hsequence, heach⟩ := h
    exact ⟨hheader, fun x hx => semanticValidity_later hnow (hheaders x hx), horder, hsequence,
      fun ommer hommer => ih ommer hommer (heach ommer hommer)⟩

/-- whether the order is right does not depend on what is thrown -/
theorem verifyOrder_congr {ε ε' : Type} {notParent : Bytes → Bytes → ε} (notParent' : Bytes → Bytes → ε')
    {headers : List MainchainHeader} (h : verifyOrder doubleSHA256 notParent headers = .ok ()) :
    verifyOrder doubleSHA256 notParent' headers = .ok () := by
  induction headers with
  | nil => rfl
  | cons header rest ih =>
    obtain _ | ⟨next, rest⟩ := rest
    · rfl
    · rw [verifyOrder, bind_unit_ok, failIf_ok] at h ⊢
      exact ⟨h.1, ih h.2⟩

/-- **A block as an ommer.** Every block that is valid at some time is valid as an ommer then and later, with all its own
ommers. -/
theorem block_as_ommer {block : SidechainBlockBase H}
    (h : blockSemanticValidity doubleSHA256 blake2b params now format overrides block = .ok ()) (hnow : now ≤ now') :
    ∃ ommer, block.toOmmer doubleSHA256 = .ok ommer ∧ verifyData doubleSHA256 blake2b params now' format ommer = .ok () ∧
      ommer.verifyDataConsistency doubleSHA256 format.toHeaderFormat = .ok () := by
  obtain ⟨hheader, hconsistency, ⟨_, horder⟩, hheaders, hsequence, heach⟩ := blockSemanticValidity_ok h
  have hommer := @toOmmer_eq doubleSHA256 _ block
  refine ⟨_, hommer, ?_, SidechainBlockBase.ommer_ok hommer hconsistency⟩
  rw [verifyData]
  simp only [bind_unit_ok, mapError_ok, Fallible.forM_ok, verifyEach_ok]
  exact ⟨hheader, fun x hx => semanticValidity_later hnow (hheaders x hx), verifyOrder_congr _ horder, hsequence,
    fun ommer hommer => verifyData_later hnow (heach ommer hommer)⟩

end AsOmmer

/-! ## A block with an ommer -/

section Sample

/-- a number as the bytes of a hash -/
def bytes32 (n : ℕ) : Bytes := BigEndian.fixed 32 n

/-- a mainchain header without its solution -/
def headerMessage (hashPrevBlock time nonce : Bytes) : Bytes :=
  [1, 0, 0, 0] ++ hashPrevBlock ++ List.replicate 64 0 ++ time ++ [0x0f, 0x0f, 0x0f, 0x20] ++ nonce ++ List.replicate 28 0

def firstHash : Bytes := bytes32 0xb9bf34cd30e5b01fd147d11cc00e68245ae17d9be10520abd42b58cdb5d7f303

def firstHeaderMessage : Bytes := headerMessage (List.replicate 32 0) [232, 3, 0, 0] [98, 0, 0, 0]

def firstHeader : MainchainHeader where
  mainchainHeaderBytes := firstHeaderMessage ++ [9] ++ [1, 229, 8, 182, 52, 46, 94, 213, 150]
  version := 1
  hashPrevBlock := reverseBytes (List.replicate 32 0)
  hashMerkleRoot := List.replicate 32 0
  hashScTxsCommitment := List.replicate 32 0
  time := 1000
  bits := 0x200f0f0f
  nonce := List.replicate 28 0 ++ [0, 0, 0, 98]
  solution := [1, 229, 8, 182, 52, 46, 94, 213, 150]
  created := by decide +kernel

def secondHeaderMessage : Bytes := headerMessage firstHash [126, 4, 0, 0] [123, 3, 0, 0]

def secondHeader : MainchainHeader where
  mainchainHeaderBytes := secondHeaderMessage ++ [9] ++ [14, 214, 133, 245, 1, 101, 134, 71, 44]
  version := 1
  hashPrevBlock := reverseBytes firstHash
  hashMerkleRoot := List.replicate 32 0
  hashScTxsCommitment := List.replicate 32 0
  time := 1150
  bits := 0x200f0f0f
  nonce := List.replicate 28 0 ++ [0, 0, 3, 123]
  solution := [14, 214, 133, 245, 1, 101, 134, 71, 44]
  created := by decide +kernel

def orphanedHeaderMessage : Bytes := headerMessage (List.replicate 32 0) [242, 3, 0, 0] [54, 1, 0, 0]

def orphanedHeader : MainchainHeader where
  mainchainHeaderBytes := orphanedHeaderMessage ++ [9] ++ [18, 19, 133, 76, 84, 7, 249, 4, 202]
  version := 1
  hashPrevBlock := reverseBytes (List.replicate 32 0)
  hashMerkleRoot := List.replicate 32 0
  hashScTxsCommitment := List.replicate 32 0
  time := 1010
  bits := 0x200f0f0f
  nonce := List.replicate 28 0 ++ [0, 0, 1, 54]
  solution := [18, 19, 133, 76, 84, 7, 249, 4, 202]
  created := by decide +kernel

/-- the hashes that the solutions use, personalized for eight indices, by the nonce of the header and the number of the hash -/
def solutionHashes : List (Bytes × ℕ) :=
  [([98, 0, 0],
      0xe5e24e3ad70c1f52599b110008deffdd00c9374a7b581d889014771fa1f9dad4 * 2 ^ 256 +
        0x1adebc11a59616a3bef10e4799ecb60d80df14a7423a38a4c33b73d796f6b8b4),
    ([98, 0, 4],
      0x8f1e4ef57b416c2e6f7dec14c3c5c8e7f29f238ab0a18cab436fa448bc2d7b8b * 2 ^ 256 +
        0x0ce76395b98d245837b0ba64bc3803190f44892991ef6ad28edb8c8e89cb658f),
    ([98, 0, 8],
      0xd463ff7b13b8c52e6417049333821c8b1bde9c214872b9280d58fb40bca32b4a * 2 ^ 256 +
        0x2f8bc569c651f46289f30555eff71e38b76cb58485d9c7933cf5a835644b73ab),
    ([98, 0, 22],
      0xa763b0ae3e34e99877ab42d2b0f57a4ec13990c49771a1edc49909887769b1f1 * 2 ^ 256 +
        0x2dd74228a0e848b868a0befad40ed664811044334a7cb6aae85e4a4a22b0f520),
    ([98, 0, 25],
      0xf935ee6267ed153ea4dda8b23a2da9a7088a8c4d61381a7e682170b848f3f21f * 2 ^ 256 +
        0x7b589607575f50865da6699c62715f15604676a7ff5eef611cfefd105dc24e00),
    ([123, 3, 1],
      0x2fbe0ea525dab73e8443bdbbb5edd987b815926a85c4b04151e7e761788ec567 * 2 ^ 256 +
        0x2bf26ebff34a9cdc2d093e4317756cca5ee82132420e7af926b522a241879a8e),
    ([123, 3, 2],
      0xa22946f7c247acc692dfb9159d0afcf89fbd751619d7525f0e09565aff5c0ba7 * 2 ^ 256 +
        0xa3780ecfb2cdb3ae9652848c6ce6e70bac708ad98884a43a22a55d3e2378c6a6),
    ([123, 3, 18],
      0xb650db42b5ea7f958efaa1bf8ee8a2aadd5b0f49b2b02b91cab81d562e91cd8b * 2 ^ 256 +
        0x43fc98eb9ece34380fa2ed4355e7fec48e7e40be13cd77ed2f82bac66a07321f),
    ([123, 3, 21],
      0x23b49b7038fefb078e2d6a3e40fbf6ed53c1f745b6294467331c397896d23943 * 2 ^ 256 +
        0xd842c18b7fcc4c6742c2553acbfec63a59f7bea7d579285c2b2d7ce95a363b70),
    ([123, 3, 22],
      0xfdd20d6face61ad87d98747922b116763db7b83ce9a479cc6e170b0a5ec4fa77 * 2 ^ 256 +
        0x7a1c7d4e4d6d2dbacb70f6e0dc719ae1208453eb3067e8401623295a847f9bea),
    ([54, 1, 2],
      0xf6c4310570a47e8295008579b50049a41505c9a87c4bd7f89f58def18ae66775 * 2 ^ 256 +
        0x796eb7f574540f2fb99fb02ed395a199e272bc88c3c6d944ca963b265119c711),
    ([54, 1, 4],
      0x196add6fad4114dceb5f194a715958f8f42c60390d8b573bf14f0dad8396e9bf * 2 ^ 256 +
        0xa9e826cf3f7760e0c97933631e9f2d598681ca9c8603292715a2fba296848369),
    ([54, 1, 8],
      0x7b338e489596ecb29f2bcd03af17f087d77813cbd0b5da2b9b0dccf1a5a27b96 * 2 ^ 256 +
        0x0143ba1279d7a39ea00192c94557383a6c260c1f09aaf03baa22407fe7412066),
    ([54, 1, 12],
      0xada8f7c758d5b76bfa847bd3a7468806f5836764b938ebbde5734842a86e6a9b * 2 ^ 256 +
        0xc2a57447967375339f7a02974f56e54dedd71869ff0fd97e28c959aac22b5c89),
    ([54, 1, 31],
      0xe9c0349ca01b2f45a19bb50a3e6752c279272fb485c7d1f355fac905ad68c520 * 2 ^ 256 +
        0x98f95aad525d222295f25ad47fb1d5b19d7d94e0ad0fe8b57b622845c6b66c69)]

def sampleBlake2b (length : ℕ) (_ : Bytes) (message : Bytes) : Bytes :=
  BigEndian.fixed length ((solutionHashes.lookup [message.getD 108 0, message.getD 109 0, message.getD 140 0]).getD 0)

def forgerKey : Bytes := bytes32 0x8a88e3dd7409f195fd52db2d3cba5d72ca6709bf1d94121bf3748801b40f6f5c

def secondHash : Bytes := bytes32 0xaad3558ad8f6f8d580989cd1822c0398fd6862c04b984e06d45d2d00d845d40c

def orphanedHash : Bytes := bytes32 0x7fc52c5349e7d37b490ce218b47514bf198d01d7960ff878f7a80118a2ef3505

def stakeHash : Bytes := bytes32 0x28c71d3b3529c6817b116821a3f1fbc5da2d4e0ff7e2d2f7d4705a9e2e1f6c5a

def headersRoot : Bytes := bytes32 0x31edc49f503044d363c4388bb09b6866c1d1880538e6efd6edfe51a0d7c2ac12

def blockRoot : Bytes := bytes32 0xaf3fe9acb0f9677ffe231661e9a62421dec8fc16294d8867e6252327bbc8e9eb

def ommerRoot : Bytes := bytes32 0xa876966c502e57f846fd3aad205ec4cace8fc7ca23c04bc1569b210a5c754d93

def doubleHashes : List (Bytes × Bytes) :=
  [(firstHeader.mainchainHeaderBytes, firstHash), (secondHeader.mainchainHeaderBytes, secondHash),
   (orphanedHeader.mainchainHeaderBytes, orphanedHash),
   (forgerKey ++ List.replicate 40 0 ++ [10], stakeHash),
   (firstHash ++ secondHash, headersRoot), (ZEROS_HASH ++ headersRoot, reverseBytes blockRoot),
   (ZEROS_HASH ++ orphanedHash, reverseBytes ommerRoot)]

def sampleSHA256 (bytes : Bytes) : Bytes := (doubleHashes.lookup bytes).getD []

/-- what is signed for a header without transactions, on the block with the id zero -/
def sampleMessage (timestamp : ℕ) (mainchainRoot ommersRoot : Bytes) (score : ℕ) : Bytes :=
  [1] ++ bytes32 0 ++ BigEndian.fixed 8 timestamp ++ stakeHash ++ List.replicate 97 0 ++ [0] ++ bytes32 0 ++ mainchainRoot ++
    ommersRoot ++ BigEndian.fixed 8 score ++ bytes32 0

def ommerSignature : Bytes :=
  BigEndian.fixed 64
    (0xad0c48759e51eef0fc8109dbb8b4b30409d527c19241fb7641bd30ef7ec1a2ac * 2 ^ 256 +
      0x939e871abaae23bc02bf7e96336f4e18bac84eaea751e9cbb23ec3e558065f0a)

def blockSignature : Bytes :=
  BigEndian.fixed 64
    (0x1d79d8610d47a6e370966c0c3d81e9c520420059fd8af8a0db9d344421011d9d * 2 ^ 256 +
      0x5d9851215966d426a0e3c328f9cff9e4226af0bd12a2edc53864ca1ed5b0c50f)

def ommerId : Bytes := bytes32 0x8c7047b950d7a48e7103891792e0976990062237a869dae8c8aa6b30dc66bec0

def blockId : Bytes := bytes32 0xdc670eb81a62348c807c35e2d4597d38429aab0ff8e8a20da411fa943780ce62

def ommerMessage : Bytes := sampleMessage 160 ommerRoot (bytes32 0) 0

def blockMessage : Bytes := sampleMessage 184 blockRoot ommerId 1

def lib : CryptoLib where
  publicKeyLength := 32
  vrfPublicKeyLength := 33
  vrfProofLength := 97
  vrfOutputLength := 32
  signatureLength := 64
  doubleSHA256 := sampleSHA256
  blake2b256 := fun bytes =>
    ([(ommerMessage ++ ommerSignature, ommerId), (blockMessage ++ blockSignature, blockId)].lookup bytes).getD []

def sampleIsValid (signature publicKey message : Bytes) : Bool :=
  publicKey = forgerKey ∧ (message = ommerMessage ∧ signature = ommerSignature ∨ message = blockMessage ∧
    signature = blockSignature)

theorem length_bytes32 (n : ℕ) : (bytes32 n).length = hashLength := BigEndian.length_fixed 32 n

def zeros32 : FixedBytes hashLength := ⟨bytes32 0, length_bytes32 _⟩

theorem sampleAmount_nonneg : (0 : Int64) ≤ 10 := by decide

theorem sampleVersion_eq : (1 : UInt8) = SidechainBlock.BLOCK_VERSION := rfl

theorem samplePath_lengths : ∀ pair ∈ ([] : List (UInt8 × Bytes)), pair.2.length = Utils.SHA256_LENGTH :=
  List.forall_mem_nil _

def sampleHeader (timestamp score : Int64) (mainchainRoot ommersRoot : FixedBytes hashLength) (signature : FixedBytes 64) :
    SidechainBlockHeader lib where
  version := 1
  parentId := zeros32
  timestamp := timestamp
  forgingStakeInfo := ⟨⟨forgerKey, length_bytes32 _⟩, zeros 33, 10, sampleAmount_nonneg⟩
  forgingStakeMerklePath := ⟨[], samplePath_lengths⟩
  vrfProof := zeros 97
  sidechainTransactionsMerkleRootHash := zeros32
  mainchainMerkleRootHash := mainchainRoot
  ommersMerkleRootHash := ommersRoot
  ommersCumulativeScore := score
  feePaymentsHash := zeros32
  signature := signature
  version_eq := sampleVersion_eq

def sampleFormat : ContainerFormat (SidechainBlockHeader lib) := sidechainContainer lib sampleVLQ sampleIsValid

/-- an ommer with one mainchain header, on another branch than the block's two -/
def sampleOmmer : Ommer (SidechainBlockHeader lib) :=
  ⟨sampleHeader 160 0 ⟨ommerRoot, length_bytes32 _⟩ zeros32 ⟨ommerSignature, BigEndian.length_fixed _ _⟩, none,
    [orphanedHeader], []⟩

def sampleBlock : SidechainBlockBase (SidechainBlockHeader lib) where
  simpleName := "SidechainBlock"
  header := sampleHeader 184 1 ⟨blockRoot, length_bytes32 _⟩ ⟨ommerId, length_bytes32 _⟩
    ⟨blockSignature, BigEndian.length_fixed _ _⟩
  headerHashes := []
  mainchainHeaders := [firstHeader, secondHeader]
  ommers := [sampleOmmer]
  verifyTransactionsDataConsistency := .ok ()

/-- a UTXO block without transactions; its header stands for its bytes -/
def sampleOverrides : Overrides (SidechainBlockHeader lib) where
  versionIsValid := fun block => block.header.version = SidechainBlock.BLOCK_VERSION
  transactionsListExceedsSizeLimit := fun _ => false
  bytes := fun block => block.header.serialize sampleVLQ
  blockTxSize := fun _ => 1
  blockExceedsSizeLimit := fun blockSize => 5000000 < blockSize
  blockExceedsOverheadSizeLimit := fun _ => false
  checkTxSemanticValidity := fun _ => .ok ()

def sampleParams : NetworkParams where
  pow := ProofOfWork.regTestParams
  equihash := Equihash.eightIndices
  EquihashCompactSizeLength := 1
  EquihashSolutionLength := 9
  consensus := Consensus.SlotTimes.defaultParams
  sidechainGenesisBlockTimestamp := 100

theorem ok_of_toBool {ε : Type} {x : Except ε Unit} (h : x.toBool = true) : x = .ok () := by
  cases x with
  | error e => cases h
  | ok u => rfl

theorem sampleBlock_valid :
    blockSemanticValidity sampleSHA256 sampleBlake2b sampleParams 2000 sampleFormat sampleOverrides sampleBlock = .ok () :=
  ok_of_toBool (by decide +kernel)

theorem ommers_counted_sample :
    Everywhere (fun c => sampleFormat.ommersCumulativeScore c.header = (below c).length) (container sampleBlock) ∧
      headersBelow (container sampleBlock) ≤ 1 := by
  obtain ⟨hcounted, -, hheaders, -⟩ := ommers_counted sampleBlock_valid
  refine ⟨hcounted, ?_⟩
  have hlength : sampleBlock.mainchainHeaders.length = 2 := rfl
  rw [hlength] at hheaders
  omega

theorem distinguished_sampleBlock : Distinguished sampleSHA256 (ProofOfWork.allHeaders (container sampleBlock)) := by
  have hheaders : ProofOfWork.allHeaders (container sampleBlock) = [firstHeader, secondHeader, orphanedHeader] := rfl
  have hnodup : ([firstHeader, secondHeader, orphanedHeader].map fun header =>
      header.hash sampleSHA256).Nodup := by decide +kernel
  rw [hheaders]
  intro header hheader header' hheader' heq
  exact List.inj_on_of_nodup_map hnodup hheader hheader' heq

/-- the orphaned header differs from the first header of the block -/
theorem ommers_diverge_sample : Diverges (container sampleBlock) :=
  (ommers_diverge sampleBlock_valid distinguished_sampleBlock).1 (List.cons_ne_nil _ _)

theorem block_as_ommer_sample : ∃ ommer, sampleBlock.toOmmer sampleSHA256 = .ok ommer ∧
    verifyData sampleSHA256 sampleBlake2b sampleParams 3000 sampleFormat ommer = .ok () ∧
    ommer.verifyDataConsistency sampleSHA256 sampleFormat.toHeaderFormat = .ok () :=
  block_as_ommer sampleBlock_valid (by norm_num)

end Sample

end SidechainsSdk.Blocks.OmmersContainer
