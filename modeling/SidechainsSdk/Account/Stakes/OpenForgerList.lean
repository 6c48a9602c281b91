/-
Opening the list of forgers (`doOpenStakeForgerListCmd` of `ForgerStakeMsgProcessor`): where only some forgers are allowed at
first, each of them may vote with a signature to open the list to everyone. The votes are flags in the storage of the contract,
which are set up with the first vote.

- `doOpenStakeForgerListCmd`: the command, with its guards in order.
- `process`: its two method ids; the other commands of the contract do not touch the flags and are a parameter.
- `flags_length`: in every run the stored flags are as many as the allowed forgers.

Indexes are Java `Int`s. The sum of the flags is a `Byte`.
-/
import Mathlib.Data.BitVec
import Mathlib.Tactic
import SidechainsSdk.Core.MachineInt
import SidechainsSdk.Account.NativeContract
import SidechainsSdk.Account.Stakes.ForgerStakeV2
import SidechainsSdk.Account.WithdrawalRequests

namespace SidechainsSdk.Account.OpenForgerList

open Fallible MachineInt
open SidechainsSdk.Account.StateTransition (StateDb Invocation Machine)
open NativeContract (Request Handled handled_ok handled_reverted handled_throwIf_bind handled_orThrow_bind decodeInput
  handled_decodeInput run
  accepted run_induction)
open ForgerStakeV2 (METHOD_ID_LENGTH getArgumentsFromData)
open WithdrawalRequests (getFunctionSignature)

/-! ## State -/

/-- the flags, the logs of the votes, and anything else -/
structure ContractDb (ρ : Type) where
  /-- `RestrictedForgerFlagsList`; nothing before the first vote -/
  restrictForgerList : Option Octets
  logs : List (ℤ × Address × BitVec 256)
  others : ρ

abbrev Db (ρ : Type) := StateDb (ContractDb ρ)

abbrev Command (ρ : Type) := NativeContract.Command (ContractDb ρ)

/-- the block signer and VRF keys of the allowed forgers; the size of a `Seq` is an `Int` -/
structure NetworkParams where
  restrictForgers : Bool
  allowedForgersList : List (BitVec 256 × BitVec 264)
  size_int : allowedForgersList.length < 2 ^ 31

/-- the constructors require an index that is not negative, and a signature of 64 bytes -/
structure OpenStakeForgerListCmdInput where
  forgerIndex : ℤ
  signature : Octets
  index_nonneg : 0 ≤ forgerIndex
  index_int : forgerIndex < 2 ^ 31
  signature_length : signature.length = 64

/-- a message; in the context of RPC calls the nonce may be missing -/
structure Message where
  inv : Invocation
  nonce : Option ℤ
  consensusEpochNumber : ℕ

/-- libraries, the fork table, and the other commands of the contract, which work on the rest of the state -/
structure Externals (ρ : Type) where
  isForkV1_2Active : ℕ → Bool
  isForkV1_4Active : ℕ → Bool
  /-- `ForgerStakeStorage.isDisabled` -/
  isDisabled : ρ → Bool
  decodeOpenStakeForgerList : Octets → Except String OpenStakeForgerListCmdInput
  /-- `Ed25519.verify`, which returns false for an exception -/
  verify : Octets → Octets → BitVec 256 → Bool
  otherCommands : Message → Fallible Exc (StateDb ρ) Octets
  gasCost : Invocation → Db ρ → ℤ

/-! ## The command -/

section Code

/-- the lowest bytes of a number, the highest one first -/
def bigEndian (length : ℕ) (n : ℤ) : Octets := (List.range length).reverse.map fun i => BitVec.ofInt 8 (n / 256 ^ i)

/-- `BigInteger.toByteArray`: the shortest representation in two's complement -/
def toByteArray (n : ℤ) : Octets :=
  let bitLength := Nat.size (if 0 ≤ n then n.toNat else (-n - 1).toNat)
  bigEndian (bitLength / 8 + 1) n

def getOpenStakeForgerListCmdMessageToSign (forgerIndex : ℤ) (sender : Address) (nonce : Octets) : Except Exc Octets := do
  failIf (forgerIndex < 0) (.illegalArgument "requirement failed")
  return bigEndian 4 forgerIndex ++ bigEndian 20 sender.toNat ++ nonce

/-- `Seq.apply` and the access to an array, with an `Int` -/
def elementAt {α : Type} (items : List α) (index : ℤ) : Except Exc α :=
  if index < 0 then .error (.other "IndexOutOfBoundsException")
  else items[index.toNat]?.elim (.error (.other "IndexOutOfBoundsException")) .ok

variable {ρ : Type} (params : NetworkParams) (env : Externals ρ)

/-- set up lazily -/
def getAllowedForgersIndexList (db : Db ρ) : Except Exc Octets := do
  failIf (params.allowedForgersList = []) (.other "Illegal call when list of forger is empty")
  return db.rest.restrictForgerList.getD (List.replicate params.allowedForgersList.length 0)

/-- more than half of the flags are set; the sum is a `Byte` -/
def isForgerListOpenUnchecked (list : Octets) : Bool := (list.length / 2 : ℤ) < list.sum.toInt

def doOpenStakeForgerListCmd (msg : Message) : Command ρ Octets := do
  throwIf (params.restrictForgers = false) (.executionReverted "Illegal call when list of forger is not restricted" [])
  throwIf (params.allowedForgersList = []) (.executionReverted "Illegal call when list of forger is empty" [])
  throwIf (msg.inv.value.sign ≠ 0) (.executionReverted "Call value must be zero" [])
  let inputParams ← orThrow (getArgumentsFromData msg.inv.input)
  let cmdInput ← orThrow (decodeInput env.decodeOpenStakeForgerList inputParams)
  let forgerIndex := cmdInput.forgerIndex
  -- the index after the last `Int` is negative
  throwIf ((params.allowedForgersList.length : ℤ) < intOf (forgerIndex + 1))
    (.executionReverted s!"Invalid forgerIndex={forgerIndex}: allowedForgersList size={params.allowedForgersList.length}" [])
  let forger ← orThrow (elementAt params.allowedForgersList forgerIndex)
  let nonce ← getOrThrow msg.nonce .nullPointer
  let msgToSign ← orThrow (getOpenStakeForgerListCmdMessageToSign forgerIndex msg.inv.caller (toByteArray nonce))
  throwIf (env.verify cmdInput.signature msgToSign forger.1 = false)
    (.executionReverted "Invalid signature, could not validate against blockSignerProposition=" [])
  let restrictForgerList ← orThrow (getAllowedForgersIndexList params (← get))
  throwIf (isForgerListOpenUnchecked restrictForgerList) (.executionReverted "Forger list already open" [])
  let flag ← orThrow (elementAt restrictForgerList forgerIndex)
  throwIf (flag = 1) (.executionReverted "Forger index already processed" [])
  let restrictForgerList := restrictForgerList.set forgerIndex.toNat 1
  modify fun db => { db with rest := { db.rest with
    restrictForgerList := some restrictForgerList, logs := db.rest.logs ++ [(forgerIndex, msg.inv.caller, forger.1)] } }
  return restrictForgerList

/-- of the name without its closing bracket -/
def OpenStakeForgerListCmd : Octets := [0xb0, 0x5b, 0xf0, 0x6c]

/-- `openStakeForgerList(uint32,bytes32,bytes32)` -/
def OpenStakeForgerListCmdCorrect : Octets := [0x06, 0xf1, 0x20, 0x75]

/-- a command that does not touch the flags -/
def onOthers (x : Fallible Exc (StateDb ρ) Octets) : Command ρ Octets :=
  onPart (fun db => { db with rest := db.rest.others }) (fun db' db => { db' with rest := { db.rest with others := db'.rest } }) x

def process (msg : Message) : Command ρ Octets := do
  let disabled := env.isForkV1_4Active msg.consensusEpochNumber && env.isDisabled (← get).rest.others
  let functionSig ← orThrow (getFunctionSignature msg.inv.input)
  if functionSig = OpenStakeForgerListCmd then doOpenStakeForgerListCmd params env msg
  else if functionSig = OpenStakeForgerListCmdCorrect then
    if disabled || env.isForkV1_2Active msg.consensusEpochNumber then doOpenStakeForgerListCmd params env msg
    else throw (.executionReverted "op code not supported: 06f12075" [])
  else onOthers (env.otherCommands msg)

def toRequest (msg : Message) : Request (ContractDb ρ) := ⟨msg.inv, process params env msg, env.gasCost msg.inv⟩

end Code

/-! ## The flags -/

section Flags

variable {ρ : Type} {params : NetworkParams} {env : Externals ρ} {db db' : Db ρ} {msg : Message} {out : Octets}

/-- there is one flag for every allowed forger -/
def FlagsOk (params : NetworkParams) (db : Db ρ) : Prop :=
  ∀ flags, db.rest.restrictForgerList = some flags → flags.length = params.allowedForgersList.length

theorem getAllowedForgersIndexList_length (h : FlagsOk params db) {flags : Octets}
    (hflags : getAllowedForgersIndexList params db = .ok flags) : flags.length = params.allowedForgersList.length := by
  simp only [getAllowedForgersIndexList, failIf_bind_ok] at hflags
  obtain ⟨-, hflags⟩ := hflags
  rw [← Except.ok.inj hflags]
  cases hstored : db.rest.restrictForgerList with
  | none => simp
  | some stored => exact h stored hstored

theorem doOpenStakeForgerListCmd_flags (h : FlagsOk params db)
    (hexec : exec (doOpenStakeForgerListCmd params env msg) db = (.ok out, db')) : FlagsOk params db' := by
  simp only [doOpenStakeForgerListCmd, getOrThrow, exec_orThrow_bind_ok, exec_throwIf_bind_ok, exec_get_bind,
    exec_modify_bind, exec_pure, Prod.mk.injEq] at hexec
  obtain ⟨-, -, -, -, -, cmdInput, -, -, -, -, -, -, -, -, -, flags, hflags, -, -, -, -, -, rfl⟩ := hexec
  intro stored hstored
  obtain rfl := Option.some.inj hstored
  rw [List.length_set]
  exact getAllowedForgersIndexList_length h hflags

/-- a command of the contract -/
theorem process_flags (h : FlagsOk params db) (hexec : exec (process params env msg) db = (.ok out, db')) :
    FlagsOk params db' := by
  simp only [process, exec_get_bind, exec_orThrow_bind_ok] at hexec
  obtain ⟨functionSig, -, hexec⟩ := hexec
  split_ifs at hexec
  · exact doOpenStakeForgerListCmd_flags h hexec
  · exact doOpenStakeForgerListCmd_flags h hexec
  · cases hexec
  · obtain ⟨db₁, -, rfl⟩ := exec_onPart_ok.1 hexec
    exact h

/-- **Flags.** After any messages the stored flags are as many as the allowed forgers. -/
theorem flags_length (params : NetworkParams) (env : Externals ρ) {m : Machine (ContractDb ρ)}
    (hstart : FlagsOk params m.view.stateDb) (msgs : List Message) :
    FlagsOk params (run (toRequest params env) m msgs).view.stateDb := by
  have hstep : ∀ db db' (done : List Message) msg out, FlagsOk params db →
      exec (toRequest params env msg).command db = (.ok out, db') → FlagsOk params db' :=
    fun db db' _ msg out hdb hexec => process_flags hdb hexec
  exact @run_induction _ _ (toRequest params env) (fun db _ => FlagsOk params db) hstep m [] hstart msgs

end Flags

/-! ## Exceptions -/

section Exceptions

variable {ρ : Type} {params : NetworkParams} {env : Externals ρ} {db : Db ρ} {msg : Message}

/-- a message that gets to the command -/
def Reaches (env : Externals ρ) (db : Db ρ) (msg : Message) : Prop :=
  getFunctionSignature msg.inv.input = .ok OpenStakeForgerListCmd ∨
    getFunctionSignature msg.inv.input = .ok OpenStakeForgerListCmdCorrect ∧
      ((env.isForkV1_4Active msg.consensusEpochNumber && env.isDisabled db.rest.others) ||
        env.isForkV1_2Active msg.consensusEpochNumber) = true

/-- the index is not the last `Int`, and there is a nonce when the index is one of an allowed forger -/
def IndexOk (params : NetworkParams) (msg : Message) (cmdInput : OpenStakeForgerListCmdInput) : Prop :=
  cmdInput.forgerIndex ≠ 2 ^ 31 - 1 ∧ (cmdInput.forgerIndex < params.allowedForgersList.length → msg.nonce.isSome)

/-- the input of a message that passes the guards before the index is used -/
def InputOk (params : NetworkParams) (env : Externals ρ) (msg : Message) : Prop :=
  params.restrictForgers = true → params.allowedForgersList ≠ [] → msg.inv.value.sign = 0 →
    ∀ inputParams, getArgumentsFromData msg.inv.input = .ok inputParams →
      ∀ cmdInput, decodeInput env.decodeOpenStakeForgerList inputParams = .ok cmdInput → IndexOk params msg cmdInput

theorem elementAt_ok {α : Type} {items : List α} {index : ℤ} (h : 0 ≤ index) (hlt : index < items.length) :
    ∃ a, elementAt items index = .ok a := by
  have hnot : ¬ index < 0 := by omega
  have hget : index.toNat < items.length := by omega
  refine ⟨items[index.toNat], ?_⟩
  rw [elementAt, if_neg hnot, List.getElem?_eq_getElem hget]
  rfl

theorem elementAt_outside {α : Type} {items : List α} {index : ℤ} (h : 0 ≤ index) (hge : items.length ≤ index) :
    elementAt items index = .error (.other "IndexOutOfBoundsException") := by
  have hnot : ¬ index < 0 := by omega
  have hget : items.length ≤ index.toNat := by omega
  rw [elementAt, if_neg hnot, List.getElem?_eq_none hget]
  rfl

theorem handled_getArgumentsFromData (data : Octets) : Handled (getArgumentsFromData data) := by
  unfold getArgumentsFromData
  split_ifs
  · exact handled_reverted _ _
  · exact handled_ok _

theorem intOf_succ_le {index : ℤ} {size : ℕ} (hindex : 0 ≤ index) (hint : index < 2 ^ 31) (hsize : size < 2 ^ 31) :
    ¬ (size : ℤ) < intOf (index + 1) ↔ index = 2 ^ 31 - 1 ∨ index < size := by
  by_cases hlast : index = 2 ^ 31 - 1
  · have hwrap : intOf (index + 1) = -2 ^ 31 := by
      rw [hlast]
      decide
    rw [hwrap]
    omega
  · have hwrap : intOf (index + 1) = index + 1 := intOf_eq ⟨by omega, by omega⟩
    rw [hwrap]
    omega

/-- after the checks of the index and the nonce nothing else than an execution failure is thrown -/
theorem voting_handled (h : FlagsOk params db) (hne : params.allowedForgersList ≠ []) {index : ℤ} (hindex : 0 ≤ index)
    (hlt : index < params.allowedForgersList.length) :
    Handled (getAllowedForgersIndexList params db) ∧
      ∀ flags, getAllowedForgersIndexList params db = .ok flags → Handled (elementAt flags index) := by
  refine ⟨?_, ?_⟩
  · rw [getAllowedForgersIndexList, failIf, if_neg hne]
    exact handled_ok _
  · intro flags hflags
    obtain ⟨flag, hflag⟩ := elementAt_ok hindex (by rw [getAllowedForgersIndexList_length h hflags]; exact hlt)
    rw [hflag]
    exact handled_ok _

theorem doOpenStakeForgerListCmd_handled (h : FlagsOk params db) :
    Handled (exec (doOpenStakeForgerListCmd params env msg) db).1 ↔ InputOk params env msg := by
  unfold doOpenStakeForgerListCmd InputOk getOrThrow
  simp only [handled_throwIf_bind, handled_orThrow_bind, exec_get_bind, Bool.not_eq_false, not_not, handled_decodeInput,
    handled_getArgumentsFromData, true_and]
  refine imp_congr_right fun hrestrict => imp_congr_right fun hne => imp_congr_right fun hvalue => ?_
  refine forall_congr' fun inputParams => imp_congr_right fun hparams => ?_
  refine forall_congr' fun cmdInput => imp_congr_right fun hinput => ?_
  have hnonneg := cmdInput.index_nonneg
  rw [intOf_succ_le hnonneg cmdInput.index_int params.size_int]
  constructor
  · intro hhandled
    refine ⟨?_, ?_⟩
    · intro hlast
      have helement := (hhandled (.inl hlast)).1
      have hsize := params.size_int
      rw [elementAt_outside hnonneg (by omega)] at helement
      cases helement
    · intro hlt
      obtain ⟨forger, hforger⟩ := elementAt_ok hnonneg hlt
      have hnonce := ((hhandled (.inr hlt)).2 forger hforger).1
      cases hmsg : msg.nonce with
      | none =>
        rw [hmsg] at hnonce
        cases hnonce
      | some nonce => rfl
  · rintro ⟨hlast, hnonce⟩ (heq | hlt)
    · exact absurd heq hlast
    · obtain ⟨forger, hforger⟩ := elementAt_ok hnonneg hlt
      obtain ⟨nonce, hmsg⟩ := Option.isSome_iff_exists.1 (hnonce hlt)
      obtain ⟨hlist, hflag⟩ := voting_handled h hne hnonneg hlt
      have hsign : ∀ nonce, Handled (getOpenStakeForgerListCmdMessageToSign cmdInput.forgerIndex msg.inv.caller nonce) := by
        intro nonce
        rw [getOpenStakeForgerListCmdMessageToSign, failIf, if_neg (not_lt.2 hnonneg)]
        exact handled_ok _
      rw [hforger, hmsg]
      refine ⟨handled_ok _,
        fun _ _ => ⟨handled_ok _, fun _ _ => ⟨hsign _, fun _ _ _ => ⟨hlist, fun flags hflags _ => ?_⟩⟩⟩⟩
      exact ⟨hflag flags hflags, fun _ _ _ => handled_ok _⟩

/-- **Exceptions.** In a state with proper flags a message that gets to the command ends with a result or an execution
failure if and only if its input passes. -/
theorem process_handled (h : FlagsOk params db) (hreaches : Reaches env db msg) :
    Handled (exec (process params env msg) db).1 ↔ InputOk params env msg := by
  rw [← doOpenStakeForgerListCmd_handled h]
  unfold process
  rw [exec_get_bind]
  rcases hreaches with hsig | ⟨hsig, hactive⟩
  · rw [hsig, exec_orThrow_value_bind, if_pos rfl]
  · have hne : ¬ (OpenStakeForgerListCmdCorrect = OpenStakeForgerListCmd) := by decide
    rw [hsig, exec_orThrow_value_bind, if_neg hne, if_pos rfl, if_pos hactive]

/-- **Exceptions.** A message with one of the method ids of the command ends with a result or an execution failure if and
only if it does not get to the command or its input passes. -/
theorem openStakeForgerList_handled (h : FlagsOk params db)
    (hsig : getFunctionSignature msg.inv.input = .ok OpenStakeForgerListCmd ∨
      getFunctionSignature msg.inv.input = .ok OpenStakeForgerListCmdCorrect) :
    Handled (exec (process params env msg) db).1 ↔ (Reaches env db msg → InputOk params env msg) := by
  by_cases hreaches : Reaches env db msg
  · rw [process_handled h hreaches]
    exact ⟨fun hok _ => hok, fun hok => hok hreaches⟩
  · refine ⟨fun _ hcontra => absurd hcontra hreaches, fun _ => ?_⟩
    unfold Reaches at hreaches
    rcases hsig with hsig | hsig
    · exact absurd (.inl hsig) hreaches
    · have hne : ¬ (OpenStakeForgerListCmdCorrect = OpenStakeForgerListCmd) := by decide
      have hinactive := fun hactive => hreaches (.inr ⟨hsig, hactive⟩)
      unfold process
      rw [exec_get_bind, hsig, exec_orThrow_value_bind, if_neg hne, if_pos rfl, if_neg hinactive]
      exact handled_reverted _ _

end Exceptions

/-! One allowed forger. -/

section Sample

theorem sampleForgers_size : ([(7, 8)] : List (BitVec 256 × BitVec 264)).length < 2 ^ 31 := by norm_num

def sampleParams : NetworkParams := ⟨true, [(7, 8)], sampleForgers_size⟩

/-- the index and the signature of a message with three words -/
def decodeWords (args : Octets) : Except String OpenStakeForgerListCmdInput :=
  if h : (args.drop 32).length = 64 ∧ ForgerStakeV2.wordOf args 0 < 2 ^ 31 then
    .ok ⟨ForgerStakeV2.wordOf args 0, args.drop 32, Int.natCast_nonneg _, by exact_mod_cast h.2, h.1⟩
  else .error "wrong length or too large an index"

/-- every signature is valid, and there are no other commands -/
def sampleExternals : Externals Unit where
  isForkV1_2Active _ := true
  isForkV1_4Active _ := false
  isDisabled _ := false
  decodeOpenStakeForgerList := decodeWords
  verify _ _ _ := true
  otherCommands _ := throw (.executionReverted "not used" [])
  gasCost _ _ := 50000

def sampleMachine : Machine (ContractDb Unit) where
  view := ⟨⟨fun _ => 0, fun _ => 0, fun _ => true, 0, ⟨none, [], ()⟩⟩, false⟩
  blockGasPool := GasPool.new 30000000
  invocationStack := []
  depth := 0
  gasTrace := []

/-- a vote for an index -/
def sampleMessage (index : ℕ) : Message :=
  ⟨⟨⟨2, some 0x22222222222222222222, 0, OpenStakeForgerListCmdCorrect ++ ForgerStakeV2.bytesOf index ++ List.replicate 64 0,
    false⟩,
    GasPool.new 100000⟩, some 0, 70⟩

end Sample

end SidechainsSdk.Account.OpenForgerList
