/-
Rotation of the keys of the certifiers (`CertificateKeyRotationMsgProcessor`). Each accepted message replaces one key in the
current withdrawal epoch. The contract stores the proof and the key under the epoch, and for each key type and index the
epochs in which it was rotated, newest first. A lookup takes the first of these epochs that is not after the one asked for.

- `execSubmitKeyRotation`, `getCertifiersKeys`, `getKeyRotationProof`: the code, with its guards in order.
- `submitKeyRotation_ok`: what an accepted message has stored.
- `Stored`: proofs, keys and epochs in terms of the rotations accepted so far; `Rotated.stored` keeps it while epochs do not
  decrease.
- `find_newest`: the first epoch of a decreasing list below a bound is the greatest one.
- `key_rotation_lookup`: the lookups return the newest rotations, for every epoch but the last one an `Int` can name.

The storage keys are hashes, taken to be without collisions. Signatures, messages to sign, the decoder of the ABI and the gas
are parameters. Values are stored whole, and there is none where no bytes are stored.
-/
import Mathlib.Tactic
import SidechainsSdk.Core.MachineInt
import SidechainsSdk.Account.WithdrawalRequests
import SidechainsSdk.Utxo.Ledger

namespace SidechainsSdk.Account.CertificateKeyRotation

open Fallible MachineInt
open SidechainsSdk.Account.StateTransition (StateDb Invocation Machine)
open NativeContract (Command Request Accepted accepted run step_cases run_induction)
open ForgerStakeV2 (METHOD_ID_LENGTH getArgumentsFromData)
open WithdrawalRequests (getFunctionSignature getFunctionSignature_ok getArgumentsFromData_ok ABI_PARAM_LENGTH)
open Utxo.Ledger (KeyRotationProofType)

/-! ## State -/

abbrev SchnorrProposition := BitVec 264
abbrev SchnorrProof := BitVec 512

structure KeyRotationProof where
  keyType : KeyRotationProofType
  index : ℤ
  newKey : SchnorrProposition
  signingKeySignature : SchnorrProof
  masterKeySignature : SchnorrProof
deriving DecidableEq

structure CertifiersKeys where
  signingKeys : List SchnorrProposition
  masterKeys : List SchnorrProposition
deriving DecidableEq

/-- `SubmitKeyRotation` -/
structure Event where
  keyType : KeyRotationProofType
  keyIndex : ℤ
  newKey : SchnorrProposition
  epochNumber : ℕ
deriving DecidableEq

/-- what the database holds besides the accounts. The keys are those of a type, an epoch and an index: the source has one
prefix for signing keys and one for master keys. -/
structure ContractDb (ρ : Type) where
  keyRotationProofs : KeyRotationProofType → ℤ → ℤ → Option KeyRotationProof
  keys : KeyRotationProofType → ℤ → ℤ → Option SchnorrProposition
  keyHistory : KeyRotationProofType → ℤ → List ℤ
  logs : List Event
  others : ρ

abbrev Db (ρ : Type) := StateDb (ContractDb ρ)

structure NetworkParams where
  signersPublicKeys : List SchnorrProposition
  mastersPublicKeys : List SchnorrProposition

/-- library code: the ABI, the signatures and the gas of a message -/
structure Externals (ρ : Type) where
  decodeSubmitKeyRotation : Octets → Except Exc (KeyRotationProof × SchnorrProof)
  encodeProof : KeyRotationProof → Octets
  getMsgToSignForKeyUpdate : KeyRotationProofType → SchnorrProposition → ℕ → Octets
  isValid : SchnorrProof → SchnorrProposition → Octets → Bool
  gasCost : Invocation → Db ρ → ℤ

/-- a message to the contract, in a block of this withdrawal epoch -/
structure Message where
  inv : Invocation
  withdrawalEpochNumber : ℕ

/-! ## Lookups -/

section Lookups

variable {ρ : Type} (params : NetworkParams) (rest : ContractDb ρ)

/-- the newest key of a type before an epoch -/
def getLatestKey (keyType : KeyRotationProofType) (configKey : SchnorrProposition) (requestedEpoch index : ℤ) :
    SchnorrProposition :=
  (((rest.keyHistory keyType index).find? fun epoch => epoch < requestedEpoch).bind fun epoch =>
    rest.keys keyType epoch index).getD configKey

def getLatestSigningKey (configKey : SchnorrProposition) (requestedEpoch index : ℤ) : SchnorrProposition :=
  getLatestKey rest .signing configKey requestedEpoch index

def getLatestMasterKey (configKey : SchnorrProposition) (requestedEpoch index : ℤ) : SchnorrProposition :=
  getLatestKey rest .master configKey requestedEpoch index

def getCertifiersKeys (epochNum : ℤ) : CertifiersKeys where
  signingKeys := params.signersPublicKeys.mapIdx fun index key => getLatestSigningKey rest key (intOf (epochNum + 1)) index
  masterKeys := params.mastersPublicKeys.mapIdx fun index key => getLatestMasterKey rest key (intOf (epochNum + 1)) index

def getKeyRotationProof (epochNum index : ℤ) (keyType : KeyRotationProofType) : Option KeyRotationProof :=
  rest.keyRotationProofs keyType epochNum index

end Lookups

/-! ## The command -/

/-- `submitKeyRotation(uint32,uint32,bytes32,bytes1,bytes32,bytes32,bytes32,bytes32,bytes32,bytes32)` -/
def SubmitKeyRotationReqCmdSig : Octets := [0x28, 0x8d, 0x61, 0xcc]

section Commands

variable {ρ : Type} (params : NetworkParams) (env : Externals ρ)

def checkKeyRotationProofValidity (keyRotationProof : KeyRotationProof) (newKeySignature : SchnorrProof) (currentEpochNum : ℕ)
    (rest : ContractDb ρ) : Except String Unit := do
  let index := keyRotationProof.index
  failIf (index < 0 ∨ params.signersPublicKeys.length ≤ index) s!"Key rotation proof - key index out for range: {index}"
  match params.signersPublicKeys[index.toNat]?, params.mastersPublicKeys[index.toNat]? with
  | some signingKeyFromConfig, some masterKeyFromConfig =>
    let newKeyAsMessage := env.getMsgToSignForKeyUpdate keyRotationProof.keyType keyRotationProof.newKey currentEpochNum
    failIf (¬ env.isValid keyRotationProof.signingKeySignature
        (getLatestSigningKey rest signingKeyFromConfig currentEpochNum index) newKeyAsMessage)
      s!"Key rotation proof - signing signature is invalid: {index}"
    failIf (¬ env.isValid keyRotationProof.masterKeySignature
        (getLatestMasterKey rest masterKeyFromConfig currentEpochNum index) newKeyAsMessage)
      s!"Key rotation proof - master signature is invalid: {index}"
    failIf (¬ env.isValid newKeySignature keyRotationProof.newKey newKeyAsMessage)
      s!"Key rotation proof - self signature is invalid: {index}"
  | _, _ => .error s!"{index}"

def putKeyRotationProof (epochNum : ℕ) (p : KeyRotationProof) : Command (ContractDb ρ) Unit :=
  modify fun db => { db with rest := { db.rest with
    keyRotationProofs := fun t e i =>
      if t = p.keyType ∧ e = epochNum ∧ i = p.index then some p else db.rest.keyRotationProofs t e i } }

def putNewKey (epochNum : ℕ) (p : KeyRotationProof) : Command (ContractDb ρ) Unit :=
  modify fun db => { db with rest := { db.rest with
    keys := fun t e i => if t = p.keyType ∧ e = epochNum ∧ i = p.index then some p.newKey else db.rest.keys t e i } }

def putKeyRotationHistory (keyType : KeyRotationProofType) (index : ℤ) (history : List ℤ) : Command (ContractDb ρ) Unit :=
  modify fun db => { db with rest := { db.rest with
    keyHistory := fun t i => if t = keyType ∧ i = index then history else db.rest.keyHistory t i } }

def updateHistory (epochNum : ℕ) (keyType : KeyRotationProofType) (index : ℤ) : Command (ContractDb ρ) Unit := do
  let db ← get
  let history := db.rest.keyHistory keyType index
  if history.head? ≠ some (epochNum : ℤ) then putKeyRotationHistory keyType index (epochNum :: history) else pure ()

def addLog (event : Event) : Command (ContractDb ρ) Unit :=
  modify fun db => { db with rest := { db.rest with logs := db.rest.logs ++ [event] } }

/-- the last part of `execSubmitKeyRotation` -/
def save (currentEpochNum : ℕ) (p : KeyRotationProof) : Command (ContractDb ρ) Octets := do
  putKeyRotationProof currentEpochNum p
  putNewKey currentEpochNum p
  updateHistory currentEpochNum p.keyType p.index
  addLog ⟨p.keyType, p.index, p.newKey, currentEpochNum⟩
  return env.encodeProof p

def execSubmitKeyRotation (inv : Invocation) (currentEpochNum : ℕ) : Command (ContractDb ρ) Octets := do
  throwIf (inv.input.length ≠ METHOD_ID_LENGTH + 10 * ABI_PARAM_LENGTH)
    (.executionReverted s!"Wrong invocation data field length: {inv.input.length}" [])
  throwIf (inv.value.sign ≠ 0) (.executionReverted "Value is non-zero: " [])
  let args ← orThrow (getArgumentsFromData inv.input)
  let inputData ← orThrow (env.decodeSubmitKeyRotation args)
  let db ← get
  orThrow (match checkKeyRotationProofValidity params env inputData.1 inputData.2 currentEpochNum db.rest with
    | .ok _ => .ok ()
    | .error message => .error (.executionReverted s!"Key Rotation Proof is invalid: {message}" []))
  save env currentEpochNum inputData.1

def process (msg : Message) : Command (ContractDb ρ) Octets := do
  let functionSig ← orThrow (getFunctionSignature msg.inv.input)
  if functionSig = SubmitKeyRotationReqCmdSig then execSubmitKeyRotation params env msg.inv msg.withdrawalEpochNumber
  else throw (.executionReverted "Requested function does not exist. Function signature: " [])

def toRequest (msg : Message) : Request (ContractDb ρ) := ⟨msg.inv, process params env msg, env.gasCost msg.inv⟩

end Commands

/-! ## What an accepted message stores -/

/-- an accepted rotation -/
structure Rotation where
  epoch : ℤ
  proof : KeyRotationProof
deriving DecidableEq

/-- the rotation that a message asks for -/
def rotationOf {ρ : Type} (env : Externals ρ) (msg : Message) : Option Rotation :=
  match env.decodeSubmitKeyRotation (msg.inv.input.drop METHOD_ID_LENGTH) with
  | .ok inputData => some ⟨msg.withdrawalEpochNumber, inputData.1⟩
  | .error _ => none

section Effects

variable {ρ : Type} {params : NetworkParams} {env : Externals ρ} {db db' : Db ρ} {out : Octets}

/-- the rotation is the one of this type, epoch and index -/
def Rotation.At (r : Rotation) (t : KeyRotationProofType) (e i : ℤ) : Prop :=
  t = r.proof.keyType ∧ e = r.epoch ∧ i = r.proof.index

instance (r : Rotation) (t : KeyRotationProofType) (e i : ℤ) : Decidable (r.At t e i) :=
  inferInstanceAs (Decidable (_ ∧ _ ∧ _))

/-- proof and key are stored under the epoch, and the epoch is the first one of the history -/
structure Rotated (db db' : Db ρ) (r : Rotation) : Prop where
  epoch_nonneg : 0 ≤ r.epoch
  proofs_eq : ∀ t e i, db'.rest.keyRotationProofs t e i = if r.At t e i then some r.proof else db.rest.keyRotationProofs t e i
  keys_eq : ∀ t e i, db'.rest.keys t e i = if r.At t e i then some r.proof.newKey else db.rest.keys t e i
  history_eq : ∀ t i, db'.rest.keyHistory t i =
    if t = r.proof.keyType ∧ i = r.proof.index ∧ (db.rest.keyHistory t i).head? ≠ some r.epoch then
      r.epoch :: db.rest.keyHistory t i
    else db.rest.keyHistory t i

theorem save_ok {epoch : ℕ} {p : KeyRotationProof} (h : exec (save env epoch p) db = (.ok out, db')) :
    Rotated db db' ⟨epoch, p⟩ := by
  simp only [save, putKeyRotationProof, putNewKey, updateHistory, addLog, bind_assoc, exec_modify_bind, exec_get_bind] at h
  split_ifs at h with hhead
  · simp only [putKeyRotationHistory, exec_modify_bind] at h
    obtain ⟨-, rfl⟩ := Prod.mk.inj h
    refine ⟨Int.natCast_nonneg _, fun _ _ _ => rfl, fun _ _ _ => rfl, ?_⟩
    intro t i
    by_cases hkey : t = p.keyType ∧ i = p.index
    · obtain ⟨rfl, rfl⟩ := hkey
      simp [hhead]
    · have hkey' : ¬ (t = p.keyType ∧ i = p.index ∧ (db.rest.keyHistory t i).head? ≠ some (epoch : ℤ)) :=
        fun h => hkey ⟨h.1, h.2.1⟩
      simp only [if_neg hkey, if_neg hkey']
  · simp only [pure_bind, exec_modify_bind] at h
    obtain ⟨-, rfl⟩ := Prod.mk.inj h
    refine ⟨Int.natCast_nonneg _, fun _ _ _ => rfl, fun _ _ _ => rfl, ?_⟩
    intro t i
    have hkey : ¬ (t = p.keyType ∧ i = p.index ∧ (db.rest.keyHistory t i).head? ≠ some (epoch : ℤ)) := by
      rintro ⟨rfl, rfl, hne⟩
      exact hhead hne
    simp only [if_neg hkey]

theorem process_ok {msg : Message} (h : exec (process params env msg) db = (.ok out, db')) :
    ∃ r, rotationOf env msg = some r ∧ r.epoch = msg.withdrawalEpochNumber ∧ Rotated db db' r := by
  simp only [process, exec_orThrow_bind_ok] at h
  obtain ⟨sig, -, h⟩ := h
  split_ifs at h with hsig
  · simp only [execSubmitKeyRotation, exec_throwIf_bind_ok, exec_orThrow_bind_ok, exec_get_bind] at h
    obtain ⟨-, -, args, hargs, inputData, hdecode, ⟨⟩, -, h⟩ := h
    rw [getArgumentsFromData_ok hargs] at hdecode
    refine ⟨⟨msg.withdrawalEpochNumber, inputData.1⟩, ?_, rfl, save_ok h⟩
    rw [rotationOf, hdecode]
  · simp at h

end Effects

/-! ## Rotations and what is stored of them -/

section Rotations

variable {ρ : Type} {params : NetworkParams} {env : Externals ρ}

/-- the last rotation of this type and index accepted in this epoch -/
def lastAt (done : List Rotation) (t : KeyRotationProofType) (e i : ℤ) : Option Rotation :=
  (done.filter fun r => r.At t e i).getLast?

theorem lastAt_append (done : List Rotation) (r : Rotation) (t : KeyRotationProofType) (e i : ℤ) :
    lastAt (done ++ [r]) t e i = if r.At t e i then some r else lastAt done t e i := by
  unfold lastAt
  rw [List.filter_append]
  split_ifs with hr <;> simp [hr]

/-- the storage after the rotations `done` -/
structure Stored (db : Db ρ) (done : List Rotation) : Prop where
  epochs_nonneg : ∀ r ∈ done, 0 ≤ r.epoch
  proofs : ∀ t e i, db.rest.keyRotationProofs t e i = (lastAt done t e i).map Rotation.proof
  keys : ∀ t e i, db.rest.keys t e i = (lastAt done t e i).map fun r => r.proof.newKey
  mem_history : ∀ t i e, e ∈ db.rest.keyHistory t i ↔ ∃ r ∈ done, r.At t e i
  decreasing : ∀ t i, (db.rest.keyHistory t i).Pairwise (· > ·)

/-- in a decreasing list with nothing above `c`, `c` can only be the first -/
theorem lt_of_head_ne {l : List ℤ} {c : ℤ} (hl : l.Pairwise (· > ·)) (hmax : ∀ x ∈ l, x ≤ c)
    (hhead : l.head? ≠ some c) :
    ∀ x ∈ l, x < c := by
  cases l with
  | nil => simp
  | cons a l =>
    obtain ⟨ha, hmax⟩ := List.forall_mem_cons.1 hmax
    have hlt : a < c := lt_of_le_of_ne ha fun h => hhead (by simp [h])
    rw [List.pairwise_cons] at hl
    exact List.forall_mem_cons.2 ⟨hlt, fun x hx => (hl.1 x hx).trans hlt⟩

theorem Rotated.stored {db db' : Db ρ} {done : List Rotation} {r : Rotation} (h : Rotated db db' r) (hdb : Stored db done)
    (hnewest : ∀ r' ∈ done, r'.epoch ≤ r.epoch) : Stored db' (done ++ [r]) where
  epochs_nonneg := by
    intro r' hr'
    rcases List.mem_append.1 hr' with hr' | hr'
    · exact hdb.epochs_nonneg r' hr'
    · rw [List.mem_singleton.1 hr']
      exact h.epoch_nonneg
  proofs t e i := by
    rw [h.proofs_eq, lastAt_append, hdb.proofs]
    split_ifs <;> rfl
  keys t e i := by
    rw [h.keys_eq, lastAt_append, hdb.keys]
    split_ifs <;> rfl
  mem_history t i e := by
    rw [h.history_eq]
    simp only [List.mem_append, List.mem_singleton, or_and_right, exists_or, exists_eq_left, ← hdb.mem_history t i e]
    unfold Rotation.At
    split_ifs with hnew
    · obtain ⟨ht, hi, -⟩ := hnew
      simp only [List.mem_cons, ht, hi, true_and, and_true, or_comm]
    · constructor
      · exact Or.inl
      · rintro (hmem | ⟨rfl, rfl, rfl⟩)
        · exact hmem
        · -- the epoch is the first one of the history already
          have hhead : (db.rest.keyHistory r.proof.keyType r.proof.index).head? = some r.epoch := by
            by_contra hne
            exact hnew ⟨rfl, rfl, hne⟩
          exact List.mem_of_mem_head? hhead
  decreasing t i := by
    rw [h.history_eq]
    split_ifs with hnew
    · rw [List.pairwise_cons]
      have hmax : ∀ e ∈ db.rest.keyHistory t i, e ≤ r.epoch := by
        intro e he
        obtain ⟨r', hr', hat⟩ := (hdb.mem_history t i e).1 he
        rw [hat.2.1]
        exact hnewest r' hr'
      exact ⟨lt_of_head_ne (hdb.decreasing t i) hmax hnew.2.2, hdb.decreasing t i⟩
    · exact hdb.decreasing t i

/-! ## Lookups of the newest rotation -/

/-- the first element of a decreasing list below a bound is the greatest one -/
theorem find_newest {l : List ℤ} (hl : l.Pairwise (· > ·)) {b x : ℤ} :
    l.find? (fun y => y < b) = some x ↔ (x ∈ l ∧ x < b) ∧ ∀ y ∈ l, y < b → y ≤ x := by
  induction l with
  | nil => simp
  | cons a l ih =>
    rw [List.pairwise_cons] at hl
    by_cases ha : a < b
    · rw [List.find?_cons_of_pos (by simpa using ha), Option.some.injEq]
      constructor
      · rintro rfl
        refine ⟨⟨List.mem_cons_self, ha⟩, ?_⟩
        exact List.forall_mem_cons.2 ⟨fun _ => le_rfl, fun y hy _ => (hl.1 y hy).le⟩
      · rintro ⟨⟨hx, -⟩, hmax⟩
        rcases List.mem_cons.1 hx with rfl | hx
        · rfl
        · exact absurd (hmax a List.mem_cons_self ha) (not_le.2 (hl.1 x hx))
    · rw [List.find?_cons_of_neg (by simpa using ha), ih hl.2]
      simp only [List.mem_cons, forall_eq_or_imp, ha, false_implies, true_and]
      constructor
      · rintro ⟨⟨hx, hb⟩, hmax⟩
        exact ⟨⟨.inr hx, hb⟩, hmax⟩
      · rintro ⟨⟨rfl | hx, hb⟩, hmax⟩
        · exact absurd hb ha
        · exact ⟨⟨hx, hb⟩, hmax⟩

/-- the epochs not after `e` in which the key of this type and index was rotated -/
def rotationEpochs (done : List Rotation) (t : KeyRotationProofType) (e i : ℤ) : List ℤ :=
  (done.filter fun r => t = r.proof.keyType ∧ i = r.proof.index ∧ r.epoch ≤ e).map Rotation.epoch

/-- the key of the last rotation in the greatest of these epochs, or the configured one -/
def newestKey (done : List Rotation) (t : KeyRotationProofType) (configKey : SchnorrProposition) (e i : ℤ) :
    SchnorrProposition :=
  (((rotationEpochs done t e i).max?.bind fun epoch => lastAt done t epoch i).map fun r => r.proof.newKey).getD configKey

def newestKeys (params : NetworkParams) (done : List Rotation) (e : ℤ) : CertifiersKeys where
  signingKeys := params.signersPublicKeys.mapIdx fun index key => newestKey done .signing key e index
  masterKeys := params.mastersPublicKeys.mapIdx fun index key => newestKey done .master key e index

theorem getLatestKey_eq {db : Db ρ} {done : List Rotation} (hdb : Stored db done) (t : KeyRotationProofType)
    (configKey : SchnorrProposition) (e i : ℤ) :
    getLatestKey db.rest t configKey (e + 1) i = newestKey done t configKey e i := by
  have hfind : (db.rest.keyHistory t i).find? (fun epoch => epoch < e + 1) = (rotationEpochs done t e i).max? := by
    apply Option.ext
    intro x
    have hmem : ∀ y, (y ∈ db.rest.keyHistory t i ∧ y < e + 1) ↔ y ∈ rotationEpochs done t e i := by
      intro y
      rw [hdb.mem_history]
      simp only [rotationEpochs, List.mem_map, List.mem_filter, decide_eq_true_eq, Rotation.At, Int.lt_add_one_iff]
      constructor
      · rintro ⟨⟨r, hr, ht, rfl, hi⟩, hle⟩
        exact ⟨r, ⟨hr, ht, hi, hle⟩, rfl⟩
      · rintro ⟨r, ⟨hr, ht, hi, hle⟩, rfl⟩
        exact ⟨⟨r, hr, ht, rfl, hi⟩, hle⟩
    rw [find_newest (hdb.decreasing t i), hmem, List.max?_eq_some_iff]
    refine and_congr_right fun _ => ?_
    exact forall_congr' fun y => by rw [← hmem y, and_imp]
  rw [getLatestKey, hfind, newestKey]
  congr 1
  simp only [hdb.keys, Option.map_bind, Function.comp_def]

/-- before the first epoch there are no rotations -/
theorem getLatestKey_of_neg {db : Db ρ} {done : List Rotation} (hdb : Stored db done) (t : KeyRotationProofType)
    (configKey : SchnorrProposition) {b : ℤ} (hb : b < 0) (i : ℤ) : getLatestKey db.rest t configKey b i = configKey := by
  have hfind : (db.rest.keyHistory t i).find? (fun epoch => epoch < b) = none := by
    rw [List.find?_eq_none]
    intro x hx
    obtain ⟨r, hr, hat⟩ := (hdb.mem_history t i x).1 hx
    have hnonneg := hdb.epochs_nonneg r hr
    rw [← hat.2.1] at hnonneg
    simp only [decide_eq_true_eq, not_lt]
    omega
  rw [getLatestKey, hfind]
  rfl

theorem getCertifiersKeys_eq {db : Db ρ} {done : List Rotation} (hdb : Stored db done) {e : ℤ} (he : IsInt e)
    (hlast : e < 2 ^ 31 - 1) : getCertifiersKeys params db.rest e = newestKeys params done e := by
  have hnext : intOf (e + 1) = e + 1 := intOf_eq ⟨by have := he.1; omega, by omega⟩
  simp only [getCertifiersKeys, newestKeys, hnext, getLatestSigningKey, getLatestMasterKey, getLatestKey_eq hdb]

/-- the number of the epoch after the last one is negative -/
theorem getCertifiersKeys_last {db : Db ρ} {done : List Rotation} (hdb : Stored db done) :
    getCertifiersKeys params db.rest (2 ^ 31 - 1) = ⟨params.signersPublicKeys, params.mastersPublicKeys⟩ := by
  have hnext : intOf (2 ^ 31 - 1 + 1) < 0 := by decide
  have hid : ∀ keys : List SchnorrProposition, keys.mapIdx (fun _ key => key) = keys := by
    intro keys
    rw [List.mapIdx_eq_zipIdx_map]
    exact List.zipIdx_map_fst 0 keys
  simp only [getCertifiersKeys, getLatestSigningKey, getLatestMasterKey, getLatestKey_of_neg hdb _ _ hnext, hid]

theorem process_stored {db db' : Db ρ} {done : List Message} {msg : Message} {out : Octets}
    (hdb : (done.map Message.withdrawalEpochNumber).Pairwise (· ≤ ·) → Stored db (done.filterMap (rotationOf env)))
    (h : exec (process params env msg) db = (.ok out, db'))
    (hepochs : ((done ++ [msg]).map Message.withdrawalEpochNumber).Pairwise (· ≤ ·)) :
    Stored db' ((done ++ [msg]).filterMap (rotationOf env)) := by
  obtain ⟨r, hr, hepoch, hrotated⟩ := process_ok h
  rw [List.map_append, List.pairwise_append] at hepochs
  obtain ⟨hbefore, -, hle⟩ := hepochs
  have hone : [msg].filterMap (rotationOf env) = [r] := by simp [hr]
  rw [List.filterMap_append, hone]
  apply hrotated.stored (hdb hbefore)
  intro r' hr'
  obtain ⟨msg', hmsg', hrotation⟩ := List.mem_filterMap.1 hr'
  have hepoch' : r'.epoch = msg'.withdrawalEpochNumber := by
    unfold rotationOf at hrotation
    split at hrotation
    · rw [← Option.some.inj hrotation]
    · cases hrotation
  rw [hepoch, hepoch']
  exact_mod_cast hle _ (List.mem_map_of_mem hmsg') msg.withdrawalEpochNumber (by simp)

/-- **Key rotations.** From a contract without rotations, after any messages in epochs that do not decrease: for every
epoch, the certifiers' keys looked up are those of the newest rotations up to that epoch, if and only if it is not the
last one that an `Int` can name or these keys are the configured ones; the proof looked up for an epoch is the last one
accepted in it; and the stored epochs of every type and index are strictly decreasing. -/
theorem key_rotation_lookup (params : NetworkParams) (env : Externals ρ) (m : Machine (ContractDb ρ))
    (hempty : Stored m.view.stateDb []) (msgs : List Message)
    (hepochs : (msgs.map Message.withdrawalEpochNumber).Pairwise (· ≤ ·)) :
    let done := (accepted (toRequest params env) m msgs).filterMap (rotationOf env)
    let rest := (run (toRequest params env) m msgs).view.stateDb.rest
    (∀ e, IsInt e → (getCertifiersKeys params rest e = newestKeys params done e ↔
        e < 2 ^ 31 - 1 ∨ newestKeys params done e = ⟨params.signersPublicKeys, params.mastersPublicKeys⟩)) ∧
      (∀ e i t, getKeyRotationProof rest e i t = (lastAt done t e i).map Rotation.proof) ∧
      ∀ t i, (rest.keyHistory t i).Pairwise (· > ·) := by
  intro done rest
  have hsorted : ((accepted (toRequest params env) m msgs).map Message.withdrawalEpochNumber).Pairwise (· ≤ ·) :=
    hepochs.sublist ((NativeContract.accepted_sublist m msgs).map _)
  have hrun : (([] ++ accepted (toRequest params env) m msgs).map Message.withdrawalEpochNumber).Pairwise (· ≤ ·) →
      Stored (run (toRequest params env) m msgs).view.stateDb
        (([] ++ accepted (toRequest params env) m msgs).filterMap (rotationOf env)) := by
    apply run_induction
      (P := fun db done => (done.map Message.withdrawalEpochNumber).Pairwise (· ≤ ·) →
        Stored db (done.filterMap (rotationOf env)))
    · intro db db' done msg out hdb hexec
      exact process_stored hdb hexec
    · intro _
      exact hempty
  have hstored : Stored (run (toRequest params env) m msgs).view.stateDb done := hrun hsorted
  refine ⟨?_, fun e i t => hstored.proofs t e i, hstored.decreasing⟩
  intro e he
  by_cases hlast : e < 2 ^ 31 - 1
  · simp only [hlast, true_or, iff_true]
    exact getCertifiersKeys_eq hstored he hlast
  · have hmax : e = 2 ^ 31 - 1 := by
      have := he.2
      omega
    simp only [hlast, false_or]
    rw [hmax, getCertifiersKeys_last hstored]
    exact eq_comm

end Rotations

/-! Two certifiers; the signing key of the first one is rotated in epoch 3. -/

section Sample

/-- a message is decoded to the rotation of the signing key 0 to the key in its first word, and every signature is valid -/
def sampleExternals : Externals Unit where
  decodeSubmitKeyRotation args := .ok (⟨.signing, 0, BitVec.ofNat 264 (ForgerStakeV2.wordOf args 0), 0, 0⟩, 0)
  encodeProof p := ForgerStakeV2.bytesOf p.newKey.toNat
  getMsgToSignForKeyUpdate _ _ _ := []
  isValid _ _ _ := true
  gasCost _ _ := 50000

def sampleParams : NetworkParams := ⟨[11, 12], [21, 22]⟩

def sampleMachine : Machine (ContractDb Unit) where
  view := ⟨⟨fun _ => 0, fun _ => 0, fun _ => true, 0, ⟨fun _ _ _ => none, fun _ _ _ => none, fun _ _ => [], [], ()⟩⟩,
    false⟩
  blockGasPool := GasPool.new 30000000
  invocationStack := []
  depth := 0
  gasTrace := []

theorem sampleMachine_stored : Stored sampleMachine.view.stateDb [] :=
  ⟨by simp, fun _ _ _ => rfl, fun _ _ _ => rfl, by simp [sampleMachine], by simp [sampleMachine]⟩

def sampleMessages : List Message :=
  [⟨⟨⟨2, some 0x44444444444444444444, 0,
    SubmitKeyRotationReqCmdSig ++ (List.replicate 10 (ForgerStakeV2.bytesOf 99)).flatten,
    false⟩, GasPool.new 100000⟩, 3⟩]

theorem key_rotated_in_epoch_three :
    getCertifiersKeys sampleParams (run (toRequest sampleParams sampleExternals) sampleMachine sampleMessages).view.stateDb.rest
      3 =
      ⟨[99, 12], [21, 22]⟩ := by
  have hlookup := (key_rotation_lookup sampleParams sampleExternals sampleMachine sampleMachine_stored sampleMessages
    (by simp [sampleMessages])).1 3 (by norm_num [IsInt])
  rw [hlookup.2 (.inl (by norm_num))]
  decide +kernel

/-- asked for the last epoch of an `Int`, the contract returns the configured keys -/
theorem configured_keys_in_last_epoch :
    getCertifiersKeys sampleParams (run (toRequest sampleParams sampleExternals) sampleMachine sampleMessages).view.stateDb.rest
        (2 ^ 31 - 1) = ⟨[11, 12], [21, 22]⟩ ∧
      newestKeys sampleParams ((accepted (toRequest sampleParams sampleExternals) sampleMachine sampleMessages).filterMap
        (rotationOf sampleExternals)) (2 ^ 31 - 1) = ⟨[99, 12], [21, 22]⟩ := by
  decide +kernel

end Sample

end SidechainsSdk.Account.CertificateKeyRotation
