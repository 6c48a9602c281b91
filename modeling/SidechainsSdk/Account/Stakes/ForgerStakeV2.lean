/-
The commands of the forger stake contract, version 2 (`ForgerStakeV2MsgProcessor`), that change its state: registering and
updating a forger, delegating, withdrawing.

Every command changes the stake histories and moves wei between the caller and the contract in separate steps. The
commands run as message processors under `StateTransition.invoke`, which reverts the database when one of them fails.

- `doRegisterForger`, `doUpdateForger`, `doDelegateCmd`, `doWithdrawCmd`: the code, with its guards in order.
- `registerForger_ok`, `updateForger_ok`, `delegate_ok`, `withdraw_ok`: what a successful command has checked and done.
- `Solvent`: the invariant; `process_solvent`, `run_solvent` keep it over all commands.
- `stakes_covered`: the balance of the contract minus the sum of all forgers' latest stakes never changes, a withdrawal
  is covered by the balance and by the caller's own stake, and a reverted command has no effect.

What comes from libraries is a parameter (`Externals`): ABI decoding, the two signature schemes, the fork table and the gas
that the accesses of a command cost; gas is taken off at once, since a command that runs out of it is reverted wherever
that happens. The write protection of read-only invocations is left out; it only makes more commands fail. Messages of
exceptions end where the source appends a printed key, address or signature.
-/
import Mathlib.Tactic
import SidechainsSdk.Core.Fallible
import SidechainsSdk.Account.StateTransition
import SidechainsSdk.Account.Stakes.StakeStorage

namespace SidechainsSdk.Account.ForgerStakeV2

open Fallible StakeStorage
open SidechainsSdk.Account.StateTransition
  (StateDb Invocation Prog MessageProcessor Machine Outcome Result View invoke runProg leave setDb
  onCallerGas_view invoke_cases)

/-! ## State -/

/-- the logs of the commands -/
inductive Event where
  | registerForger (sender : Address) (forger : ForgerPublicKeys) (value rewardShare : ℤ) (rewardAddress : Address)
  | updateForger (sender : Address) (forger : ForgerPublicKeys) (rewardShare : ℤ) (rewardAddress : Address)
  | delegateForgerStake (sender : Address) (forger : ForgerPublicKeys) (value : ℤ)
  | withdrawForgerStake (sender : Address) (forger : ForgerPublicKeys) (value : ℤ)
  | activateStakeV2
  | disableStakeV1
deriving DecidableEq

/-- what the database holds besides the accounts: the storage of this contract, logs, and anything else -/
structure ContractDb (ρ : Type) where
  stakes : StakeDb
  logs : List Event
  others : ρ

abbrev Db (ρ : Type) := StateDb (ContractDb ρ)

/-- commands and their parts -/
abbrev Command (ρ : Type) := Fallible Exc (Db ρ)

/-- `FORGER_STAKE_V2_SMART_CONTRACT_ADDRESS` -/
def contractAddress : Address := 0x0000000000000000000022222222222222222333

def MIN_REGISTER_FORGER_STAKED_AMOUNT_IN_WEI : ℤ := convertZenniesToWei (10 * COIN)

def MAX_REWARD_SHARE : ℤ := 1000

structure RegisterOrUpdateForgerCmdInput where
  forgerPublicKeys : ForgerPublicKeys
  rewardShare : ℤ
  rewardAddress : Address
  signature25519 : Octets
  signatureVrf : Octets

/-- library code that the commands call -/
structure Externals (ρ : Type) where
  isForkActive : ℕ → Bool
  decodeRegisterOrUpdateForgerCmdInput : Octets → Except Exc RegisterOrUpdateForgerCmdInput
  decodeSelectByForgerCmdInput : Octets → Except Exc ForgerPublicKeys
  decodeWithdrawCmdInput : Octets → Except Exc (ForgerPublicKeys × ℤ)
  isValidSignature25519 : RegisterOrUpdateForgerCmdInput → Bool
  isValidVrfProof : RegisterOrUpdateForgerCmdInput → Bool
  gasCost : Invocation → Db ρ → ℤ

/-! ## Commands -/

section Commands

variable {ρ : Type}

/-- a call on the storage of the contract -/
def onStakes {α : Type} (call : StakeStorage.Call α) : Command ρ α :=
  onPart (fun db => db.rest.stakes) (fun stakes db => { db with rest := { db.rest with stakes := stakes } }) call

def addBalance (address : Address) (amount : ℤ) : Command ρ Unit := do
  if amount.sign = 0 then pure ()
  else
    throwIf (amount.sign < 0) (.executionFailed "cannot add negative amount to balance")
    modify fun db => db.moveBalance address amount

def subBalance (address : Address) (amount : ℤ) : Command ρ Unit := do
  if amount.sign = 0 then pure ()
  else
    throwIf (amount.sign < 0) (.executionFailed "cannot subtract negative amount from balance")
    modify fun db => db.moveBalance address (-amount)

def addLog (event : Event) : Command ρ Unit :=
  modify fun db => { db with rest := { db.rest with logs := db.rest.logs ++ [event] } }

/-- `ABIUtil.METHOD_ID_LENGTH` -/
def METHOD_ID_LENGTH : ℕ := 4

/-- `ABIUtil.getArgumentsFromData` -/
def getArgumentsFromData (data : Octets) : Except Exc Octets :=
  if data.length < METHOD_ID_LENGTH then
    .error (.executionReverted s!"Data length {data.length} must be >= {METHOD_ID_LENGTH}" [])
  else .ok (data.drop METHOD_ID_LENGTH)

def requireIsNotPayable (invocation : Invocation) : Command ρ Unit :=
  throwIf (invocation.value.sign ≠ 0) (.executionReverted "Call value must be zero" [])

def checkForgerStakesV2IsActive : Command ρ Unit := do
  let db ← get
  throwIf (¬ db.rest.stakes.active) (.executionReverted "Forger stake V2 has not been activated yet" [])

def verifySignatures (env : Externals ρ) (cmdInput : RegisterOrUpdateForgerCmdInput) : Command ρ Unit := do
  throwIf (¬ env.isValidSignature25519 cmdInput)
    (.executionReverted "Invalid signature, could not validate against blockSignerProposition" [])
  throwIf (¬ env.isValidVrfProof cmdInput)
    (.executionReverted "Invalid signature, could not validate against vrfKey" [])

def doRegisterForger (env : Externals ρ) (invocation : Invocation) (epochNumber : ℕ) : Command ρ Octets := do
  checkForgerStakesV2IsActive
  let stakedAmount := invocation.value
  throwIf (¬ isValidZenAmount stakedAmount)
    (.executionReverted s!"Value is not a legal wei amount: {stakedAmount}, maximum 10 decimals accepted" [])
  throwIf (stakedAmount < MIN_REGISTER_FORGER_STAKED_AMOUNT_IN_WEI)
    (.executionReverted
      s!"Value {stakedAmount} is below the minimum stake amount threshold: {MIN_REGISTER_FORGER_STAKED_AMOUNT_IN_WEI} "
      [])
  let inputParams ← orThrow (getArgumentsFromData invocation.input)
  let cmdInput ← orThrow (env.decodeRegisterOrUpdateForgerCmdInput inputParams)
  let db ← get
  throwIf ((db.balance invocation.caller - stakedAmount).sign < 0) (.executionReverted "Not enough balance" [])
  throwIf (cmdInput.rewardShare < 0 ∨ cmdInput.rewardShare > MAX_REWARD_SHARE)
    (.executionReverted s!"Illegal reward share value: = {cmdInput.rewardShare}" [])
  throwIf (cmdInput.rewardShare = 0 ∧ cmdInput.rewardAddress ≠ 0)
    (.executionReverted "Reward share cannot be 0 if reward address is defined" [])
  throwIf (cmdInput.rewardShare ≠ 0 ∧ cmdInput.rewardAddress = 0)
    (.executionReverted "Reward share cannot be different from 0 if reward address is not defined" [])
  -- an early check, `addForger` does it as well
  throwIf ((db.rest.stakes.forgerInfo cmdInput.forgerPublicKeys).isSome)
    (.executionReverted "Can not register an already existing forger" [])
  verifySignatures env cmdInput
  onStakes (addForger cmdInput.forgerPublicKeys cmdInput.rewardShare cmdInput.rewardAddress epochNumber
    invocation.caller stakedAmount)
  subBalance invocation.caller stakedAmount
  addBalance contractAddress stakedAmount
  addLog (.registerForger invocation.caller cmdInput.forgerPublicKeys stakedAmount cmdInput.rewardShare
    cmdInput.rewardAddress)
  return []

def doUpdateForger (env : Externals ρ) (invocation : Invocation) : Command ρ Octets := do
  requireIsNotPayable invocation
  checkForgerStakesV2IsActive
  let inputParams ← orThrow (getArgumentsFromData invocation.input)
  let cmdInput ← orThrow (env.decodeRegisterOrUpdateForgerCmdInput inputParams)
  throwIf (cmdInput.rewardShare ≤ 0 ∨ cmdInput.rewardShare > MAX_REWARD_SHARE)
    (.executionReverted s!"Illegal reward share value: = {cmdInput.rewardShare}" [])
  throwIf (cmdInput.rewardAddress = 0) (.executionReverted "Reward address cannot be the ZERO address" [])
  let db ← get
  match db.rest.stakes.forgerInfo cmdInput.forgerPublicKeys with
  | none => throw (.executionReverted "Forger does not exist" [])
  | some forger =>
    throwIf (forger.rewardShare ≠ 0 ∨ forger.rewardAddress ≠ 0)
      (.executionReverted "Reward share or reward address are not null" [])
    verifySignatures env cmdInput
    onStakes (updateForger cmdInput.forgerPublicKeys cmdInput.rewardShare cmdInput.rewardAddress)
    addLog (.updateForger invocation.caller cmdInput.forgerPublicKeys cmdInput.rewardShare cmdInput.rewardAddress)
    return []

def doDelegateCmd (env : Externals ρ) (invocation : Invocation) (epochNumber : ℕ) : Command ρ Octets := do
  checkForgerStakesV2IsActive
  let inputParams ← orThrow (getArgumentsFromData invocation.input)
  let forgerPublicKeys ← orThrow (env.decodeSelectByForgerCmdInput inputParams)
  let stakedAmount := invocation.value
  throwIf (stakedAmount.sign ≤ 0) (.executionReverted "Value must not be zero" [])
  throwIf (¬ isValidZenAmount stakedAmount)
    (.executionReverted s!"Value is not a legal wei amount: {stakedAmount}" [])
  let db ← get
  throwIf (db.balance invocation.caller < stakedAmount)
    (.executionReverted
      s!"Insufficient funds. Required: {stakedAmount}, available: {db.balance invocation.caller}" [])
  onStakes (addStake forgerPublicKeys epochNumber invocation.caller stakedAmount)
  addLog (.delegateForgerStake invocation.caller forgerPublicKeys stakedAmount)
  subBalance invocation.caller stakedAmount
  addBalance contractAddress stakedAmount
  return []

def doWithdrawCmd (env : Externals ρ) (invocation : Invocation) (epochNumber : ℕ) : Command ρ Octets := do
  requireIsNotPayable invocation
  checkForgerStakesV2IsActive
  let inputParams ← orThrow (getArgumentsFromData invocation.input)
  let (forgerPublicKeys, stakedAmount) ← orThrow (env.decodeWithdrawCmdInput inputParams)
  throwIf (stakedAmount.sign ≠ 1)
    (.executionReverted s!"Withdrawal amount must be greater than zero: {stakedAmount}" [])
  throwIf (¬ isValidZenAmount stakedAmount)
    (.executionReverted s!"Value is not a legal wei amount: {stakedAmount}" [])
  onStakes (removeStake forgerPublicKeys epochNumber invocation.caller stakedAmount)
  addLog (.withdrawForgerStake invocation.caller forgerPublicKeys stakedAmount)
  subBalance contractAddress stakedAmount
  addBalance invocation.caller stakedAmount
  return []

inductive Cmd where
  | registerForger
  | updateForger
  | delegate
  | withdraw
deriving DecidableEq

/-- `process`, once the method of the call data has been recognised as `cmd` -/
def process (env : Externals ρ) (cmd : Cmd) (epochNumber : ℕ) (invocation : Invocation) : Command ρ Octets := do
  throwIf (¬ env.isForkActive epochNumber) (.executionReverted "fork not active" [])
  match cmd with
  | .registerForger => doRegisterForger env invocation epochNumber
  | .updateForger => doUpdateForger env invocation
  | .delegate => doDelegateCmd env invocation epochNumber
  | .withdraw => doWithdrawCmd env invocation epochNumber

/-- a command as the program of a message processor -/
def prog (env : Externals ρ) (invocation : Invocation) (command : Command ρ Octets) : Prog (ContractDb ρ) :=
  .read fun m => .subGas (env.gasCost invocation m.view.stateDb) fun
    | .error e => .throw e
    | .ok _ =>
      .write (fun db => (exec command db).2)
        (match (exec command m.view.stateDb).1 with
          | .ok output => .ret output
          | .error e => .throw e)

def processor (env : Externals ρ) (cmd : Cmd) (epochNumber : ℕ) : MessageProcessor (ContractDb ρ) where
  canProcess invocation _ _ := .ok (invocation.callee = some contractAddress)
  process invocation := prog env invocation (process env cmd epochNumber invocation)

end Commands

/-! ## What a successful command does -/

section Effects

variable {ρ : Type} {env : Externals ρ} {inv : Invocation} {epochNumber : ℕ} {db db' : Db ρ} {out : Octets}

theorem addBalance_ok {a : Address} {amount : ℤ} (h : exec (addBalance a amount) db = (.ok (), db')) :
    db' = db.moveBalance a amount := by
  unfold addBalance at h
  split_ifs at h with hzero
  · have hamount : amount = 0 := Int.sign_eq_zero_iff_zero.1 hzero
    obtain ⟨-, rfl⟩ := Prod.mk.inj h
    simp [hamount, StateDb.moveBalance]
  · simp only [exec_throwIf_bind_ok, exec_modify, Prod.mk.injEq, true_and] at h
    exact h.2.symm

theorem subBalance_ok {a : Address} {amount : ℤ} (h : exec (subBalance a amount) db = (.ok (), db')) :
    db' = db.moveBalance a (-amount) := by
  unfold subBalance at h
  split_ifs at h with hzero
  · have hamount : amount = 0 := Int.sign_eq_zero_iff_zero.1 hzero
    obtain ⟨-, rfl⟩ := Prod.mk.inj h
    simp [hamount, StateDb.moveBalance]
  · simp only [exec_throwIf_bind_ok, exec_modify, Prod.mk.injEq, true_and] at h
    exact h.2.symm

theorem onStakes_ok {α : Type} {call : StakeStorage.Call α} {a : α} (h : exec (onStakes call) db = (.ok a, db')) :
    exec call db.rest.stakes = (.ok a, db'.rest.stakes) ∧ db'.balance = db.balance := by
  obtain ⟨stakes, hcall, rfl⟩ := exec_onPart_ok.1 h
  exact ⟨hcall, rfl⟩

/-- `amount` wei have gone from `src` to `dst`, and the storage of the contract is now `stakes` -/
structure Moved (db db' : Db ρ) (stakes : StakeDb) (src dst : Address) (amount : ℤ) : Prop where
  stakes_eq : db'.rest.stakes = stakes
  balance_eq : db'.balance = ((db.moveBalance src (-amount)).moveBalance dst amount).balance

theorem registerForger_ok (hrun : exec (doRegisterForger env inv epochNumber) db = (.ok out, db')) :
    ∃ (cmdInput : RegisterOrUpdateForgerCmdInput) (stakes : StakeDb), exec (addForger cmdInput.forgerPublicKeys
        cmdInput.rewardShare cmdInput.rewardAddress epochNumber inv.caller inv.value) db.rest.stakes = (.ok (), stakes) ∧
      Moved db db' stakes inv.caller contractAddress inv.value := by
  simp only [doRegisterForger, checkForgerStakesV2IsActive, verifySignatures, bind_assoc, exec_get_bind,
    exec_throwIf_bind_ok, exec_orThrow_bind_ok] at hrun
  obtain ⟨-, -, -, -, -, cmdInput, -, -, -, -, -, -, -, -, hrun⟩ := hrun
  simp only [exec_bind_ok, addLog] at hrun
  obtain ⟨⟨⟩, s1, hstakes, ⟨⟩, s2, hsub, ⟨⟩, s3, hadd, ⟨⟩, s4, hlog, hret⟩ := hrun
  obtain ⟨hcall, hbalance⟩ := onStakes_ok hstakes
  obtain rfl := subBalance_ok hsub
  obtain rfl := addBalance_ok hadd
  obtain ⟨-, rfl⟩ := Prod.mk.inj hlog
  obtain ⟨-, rfl⟩ := Prod.mk.inj hret
  refine ⟨cmdInput, s1.rest.stakes, hcall, rfl, ?_⟩
  simp only [StateDb.moveBalance, hbalance]

theorem updateForger_ok (hrun : exec (doUpdateForger env inv) db = (.ok out, db')) :
    ∃ cmdInput : RegisterOrUpdateForgerCmdInput, exec (updateForger cmdInput.forgerPublicKeys cmdInput.rewardShare
        cmdInput.rewardAddress) db.rest.stakes = (.ok (), db'.rest.stakes) ∧ db'.balance = db.balance := by
  simp only [doUpdateForger, requireIsNotPayable, checkForgerStakesV2IsActive, bind_assoc, exec_get_bind,
    exec_throwIf_bind_ok, exec_orThrow_bind_ok] at hrun
  obtain ⟨-, -, -, -, cmdInput, -, -, -, hrun⟩ := hrun
  split at hrun
  · simp at hrun
  · simp only [verifySignatures, bind_assoc, exec_throwIf_bind_ok] at hrun
    obtain ⟨-, -, -, hrun⟩ := hrun
    simp only [exec_bind_ok, addLog] at hrun
    obtain ⟨⟨⟩, s1, hstakes, ⟨⟩, s2, hlog, hret⟩ := hrun
    obtain ⟨hcall, hbalance⟩ := onStakes_ok hstakes
    obtain ⟨-, rfl⟩ := Prod.mk.inj hlog
    obtain ⟨-, rfl⟩ := Prod.mk.inj hret
    exact ⟨cmdInput, hcall, hbalance⟩

theorem delegate_ok (hrun : exec (doDelegateCmd env inv epochNumber) db = (.ok out, db')) :
    ∃ forger stakes, exec (addStake forger epochNumber inv.caller inv.value) db.rest.stakes = (.ok (), stakes) ∧
      Moved db db' stakes inv.caller contractAddress inv.value := by
  simp only [doDelegateCmd, checkForgerStakesV2IsActive, bind_assoc, exec_get_bind, exec_throwIf_bind_ok,
    exec_orThrow_bind_ok] at hrun
  obtain ⟨-, -, -, forger, -, -, -, -, hrun⟩ := hrun
  simp only [exec_bind_ok, addLog] at hrun
  obtain ⟨⟨⟩, s1, hstakes, ⟨⟩, s2, hlog, ⟨⟩, s3, hsub, ⟨⟩, s4, hadd, hret⟩ := hrun
  obtain ⟨hcall, hbalance⟩ := onStakes_ok hstakes
  obtain ⟨-, rfl⟩ := Prod.mk.inj hlog
  obtain rfl := subBalance_ok hsub
  obtain rfl := addBalance_ok hadd
  obtain ⟨-, rfl⟩ := Prod.mk.inj hret
  refine ⟨forger, s1.rest.stakes, hcall, rfl, ?_⟩
  simp only [StateDb.moveBalance, hbalance]

theorem withdraw_ok (hrun : exec (doWithdrawCmd env inv epochNumber) db = (.ok out, db')) :
    ∃ inputParams forger amount stakes, getArgumentsFromData inv.input = .ok inputParams ∧
      env.decodeWithdrawCmdInput inputParams = .ok (forger, amount) ∧ 0 < amount ∧
      exec (removeStake forger epochNumber inv.caller amount) db.rest.stakes = (.ok (), stakes) ∧
      Moved db db' stakes contractAddress inv.caller amount := by
  simp only [doWithdrawCmd, requireIsNotPayable, checkForgerStakesV2IsActive, bind_assoc, exec_get_bind,
    exec_throwIf_bind_ok, exec_orThrow_bind_ok] at hrun
  obtain ⟨-, -, inputParams, hargs, ⟨forger, amount⟩, hdecode, hsign, -, hrun⟩ := hrun
  simp only [exec_bind_ok, addLog] at hrun
  obtain ⟨⟨⟩, s1, hstakes, ⟨⟩, s2, hlog, ⟨⟩, s3, hsub, ⟨⟩, s4, hadd, hret⟩ := hrun
  obtain ⟨hcall, hbalance⟩ := onStakes_ok hstakes
  obtain ⟨-, rfl⟩ := Prod.mk.inj hlog
  obtain rfl := subBalance_ok hsub
  obtain rfl := addBalance_ok hadd
  obtain ⟨-, rfl⟩ := Prod.mk.inj hret
  have hpos : 0 < amount := Int.sign_eq_one_iff_pos.1 (not_not.1 hsign)
  refine ⟨inputParams, forger, amount, s1.rest.stakes, hargs, hdecode, hpos, hcall, rfl, ?_⟩
  simp only [StateDb.moveBalance, hbalance]

/-- before activation every command fails, so that the storage stays empty until then -/
theorem active_of_process {cmd : Cmd} (hrun : exec (process env cmd epochNumber inv) db = (.ok out, db')) :
    db.rest.stakes.active = true := by
  unfold process at hrun
  rw [exec_throwIf_bind_ok] at hrun
  obtain ⟨-, hrun⟩ := hrun
  cases cmd with
  | registerForger =>
    simp only [doRegisterForger, checkForgerStakesV2IsActive, bind_assoc, exec_get_bind, exec_throwIf_bind_ok] at hrun
    exact not_not.1 hrun.1
  | updateForger =>
    simp only [doUpdateForger, requireIsNotPayable, checkForgerStakesV2IsActive, bind_assoc, exec_get_bind,
      exec_throwIf_bind_ok] at hrun
    exact not_not.1 hrun.2.1
  | delegate =>
    simp only [doDelegateCmd, checkForgerStakesV2IsActive, bind_assoc, exec_get_bind, exec_throwIf_bind_ok] at hrun
    exact not_not.1 hrun.1
  | withdraw =>
    simp only [doWithdrawCmd, requireIsNotPayable, checkForgerStakesV2IsActive, bind_assoc, exec_get_bind,
      exec_throwIf_bind_ok] at hrun
    exact not_not.1 hrun.2.1

end Effects

/-! ## Solvency -/

section Solvency

variable {ρ : Type} {env : Externals ρ} {inv : Invocation} {epochNumber : ℕ} {db db' : Db ρ} {out : Octets}

/-- what the contract owns beyond the latest stakes of all forgers -/
def surplus (db : Db ρ) : ℤ :=
  db.balance contractAddress -
    (((db.rest.stakes.listOfForgers.toList ()).map fun f => getLatestAmount db.rest.stakes (.forger f)).sum : ℕ)

theorem surplus_eq (db : Db ρ) : surplus db = db.balance contractAddress - (content db.rest.stakes).total := by
  unfold surplus Stakes.total
  simp only [getLatestAmount_eq]
  rfl

/-- the stake lists and histories are consistent, and the contract owns `k` more than it owes -/
structure Solvent (k : ℤ) (db : Db ρ) : Prop where
  consistent : (content db.rest.stakes).Consistent
  owns : surplus db = k

theorem Moved.contract_receives {stakes : StakeDb} {src : Address} {amount : ℤ}
    (h : Moved db db' stakes src contractAddress amount) (hne : src ≠ contractAddress) :
    db'.balance contractAddress = db.balance contractAddress + amount := by
  rw [h.balance_eq]
  simp [StateDb.moveBalance, hne.symm]

theorem Moved.contract_pays {stakes : StakeDb} {dst : Address} {amount : ℤ}
    (h : Moved db db' stakes contractAddress dst amount) (hne : dst ≠ contractAddress) :
    db'.balance contractAddress = db.balance contractAddress - amount := by
  rw [h.balance_eq]
  simp [StateDb.moveBalance, hne.symm, sub_eq_add_neg]

theorem registerForger_solvent {k : ℤ} (hdb : Solvent k db) (hcaller : inv.caller ≠ contractAddress)
    (hrun : exec (doRegisterForger env inv epochNumber) db = (.ok out, db')) : Solvent k db' := by
  obtain ⟨cmdInput, stakes, hcall, hmoved⟩ := registerForger_ok hrun
  obtain ⟨hnew, -, hnonneg, -, hcontent⟩ := addForger_content hcall
  rw [← hmoved.stakes_eq] at hcontent
  refine ⟨?_, ?_⟩
  · rw [hcontent]
    exact register_consistent hdb.consistent hnew rfl
  · have htotal := register_total hdb.consistent hnew ⟨cmdInput.forgerPublicKeys, cmdInput.rewardShare.toNat,
      cmdInput.rewardAddress⟩ inv.caller epochNumber inv.value.toNat
    have howns := hdb.owns
    have hbalance := hmoved.contract_receives hcaller
    rw [surplus_eq] at howns ⊢
    rw [hcontent, hbalance]
    omega

theorem updateForger_solvent {k : ℤ} (hdb : Solvent k db) (hrun : exec (doUpdateForger env inv) db = (.ok out, db')) :
    Solvent k db' := by
  obtain ⟨cmdInput, hcall, hbalance⟩ := updateForger_ok hrun
  obtain ⟨hsome, -, hcontent⟩ := updateForger_content hcall
  refine ⟨?_, ?_⟩
  · rw [hcontent]
    exact updateInfo_consistent hdb.consistent hsome rfl
  · have howns := hdb.owns
    rw [surplus_eq] at howns ⊢
    rw [hcontent, hbalance, ← howns]
    rfl

theorem delegate_solvent {k : ℤ} (hdb : Solvent k db) (hcaller : inv.caller ≠ contractAddress)
    (hrun : exec (doDelegateCmd env inv epochNumber) db = (.ok out, db')) : Solvent k db' := by
  obtain ⟨forger, stakes, hcall, hmoved⟩ := delegate_ok hrun
  obtain ⟨hforger, hbefore, -, total, own, htotal, hown, hcontent⟩ := addStake_content hcall
  rw [← hmoved.stakes_eq] at hcontent
  refine ⟨?_, ?_⟩
  · rw [hcontent]
    exact changeStake_consistent hdb.consistent hforger hbefore (by omega)
  · have hsum := changeStake_total hdb.consistent.registry hforger inv.caller epochNumber total own
    have howns := hdb.owns
    have hbalance := hmoved.contract_receives hcaller
    rw [surplus_eq] at howns ⊢
    rw [hcontent, hbalance]
    omega

/-- a withdrawal also is at most the caller's own stake, and that is part of what the contract owes -/
theorem withdraw_solvent {k : ℤ} (hdb : Solvent k db) (hcaller : inv.caller ≠ contractAddress)
    (hrun : exec (doWithdrawCmd env inv epochNumber) db = (.ok out, db')) :
    Solvent k db' ∧ ∃ inputParams forger amount, getArgumentsFromData inv.input = .ok inputParams ∧
      env.decodeWithdrawCmdInput inputParams = .ok (forger, amount) ∧ 0 < amount ∧
      amount ≤ getLatestAmount db.rest.stakes (.stake forger inv.caller) ∧ amount ≤ db.balance contractAddress - k := by
  obtain ⟨inputParams, forger, amount, stakes, hargs, hdecode, hpos, hcall, hmoved⟩ := withdraw_ok hrun
  obtain ⟨hforger, -, hbefore, -, total, own, htotal, hown, hcontent⟩ := removeStake_content hcall
  rw [← hmoved.stakes_eq] at hcontent
  have howns := hdb.owns
  rw [surplus_eq] at howns
  refine ⟨⟨?_, ?_⟩, inputParams, forger, amount, hargs, hdecode, hpos, ?_, ?_⟩
  · rw [hcontent]
    exact changeStake_consistent hdb.consistent hforger hbefore (by omega)
  · have hsum := changeStake_total hdb.consistent.registry hforger inv.caller epochNumber total own
    have hbalance := hmoved.contract_pays hcaller
    rw [surplus_eq, hcontent, hbalance]
    omega
  · rw [getLatestAmount_eq]
    omega
  · have hle := latestAmount_le_total ((hdb.consistent.registry.forger_history forger).1 hforger)
    omega

/-- a successful withdrawal takes at most the caller's own latest stake with that forger, and what the contract holds -/
def Covered (env : Externals ρ) (inv : Invocation) (db : Db ρ) : Prop :=
  ∃ inputParams forger amount, getArgumentsFromData inv.input = .ok inputParams ∧
    env.decodeWithdrawCmdInput inputParams = .ok (forger, amount) ∧
    amount ≤ getLatestAmount db.rest.stakes (.stake forger inv.caller) ∧ amount ≤ db.balance contractAddress

theorem process_solvent {cmd : Cmd} {k : ℤ} (hk : 0 ≤ k) (hdb : Solvent k db) (hcaller : inv.caller ≠ contractAddress)
    (hrun : exec (process env cmd epochNumber inv) db = (.ok out, db')) :
    Solvent k db' ∧ (cmd = .withdraw → Covered env inv db) := by
  unfold process at hrun
  rw [exec_throwIf_bind_ok] at hrun
  obtain ⟨-, hrun⟩ := hrun
  cases cmd with
  | registerForger => exact ⟨registerForger_solvent hdb hcaller hrun, nofun⟩
  | updateForger => exact ⟨updateForger_solvent hdb hrun, nofun⟩
  | delegate => exact ⟨delegate_solvent hdb hcaller hrun, nofun⟩
  | withdraw =>
    obtain ⟨hsolvent, inputParams, forger, amount, hargs, hdecode, -, hstake, hbalance⟩ :=
      withdraw_solvent hdb hcaller hrun
    exact ⟨hsolvent, fun _ => ⟨inputParams, forger, amount, hargs, hdecode, hstake, by omega⟩⟩

end Solvency

/-! ## Runs of invocations -/

section Runs

variable {ρ : Type} (env : Externals ρ)

/-- a command with the invocation that carries it, in a block of the epoch -/
structure Request where
  cmd : Cmd
  inv : Invocation
  epochNumber : ℕ

/-- the commands start no invocations of their own -/
def noCalls (inv : Invocation) (m : Machine (ContractDb ρ)) : Outcome (ContractDb ρ) :=
  (.error (.other "no nested invocation"), inv.gasPool, m)

/-- one command under `StateTransition.invoke` -/
def request (m : Machine (ContractDb ρ)) (r : Request) : Outcome (ContractDb ρ) :=
  invoke noCalls (processor env r.cmd r.epochNumber) r.inv m

/-- the state after it; an exception that is no execution failure makes the whole message invalid, and `transition`
rolls it back -/
def step (m : Machine (ContractDb ρ)) (r : Request) : Machine (ContractDb ρ) :=
  let o := request env m r
  match o.1 with
  | .ok _ => o.2.2
  | .error e => if e.isExecutionFailed then o.2.2 else setDb o.2.2 m.view.stateDb

def run (m : Machine (ContractDb ρ)) (rs : List Request) : Machine (ContractDb ρ) := rs.foldl (step env) m

/-- a program that succeeds has run its command on the database it found -/
theorem runProg_prog {env : Externals ρ} {inv : Invocation} {command : Command ρ Octets} {m m' : Machine (ContractDb ρ)}
    {out : Octets} (h : runProg noCalls (prog env inv command) m = (.ok out, m')) :
    exec command m.view.stateDb = (.ok out, m'.view.stateDb) := by
  simp only [prog, runProg] at h
  have hview := onCallerGas_view (·.subGas (env.gasCost inv m.view.stateDb)) m
  rcases hgas : StateTransition.onCallerGas (·.subGas (env.gasCost inv m.view.stateDb)) m with ⟨r, m1⟩
  rw [hgas] at h hview
  cases r with
  | error e => simp [runProg] at h
  | ok u =>
    have hview1 : m1.view = m.view := hview
    simp only [runProg, hview1] at h
    rcases hexec : exec command m.view.stateDb with ⟨result, db'⟩
    rw [hexec] at h
    cases result with
    | error e => simp [runProg] at h
    | ok output =>
      obtain ⟨hout, rfl⟩ := Prod.mk.inj h
      rw [Except.ok.inj hout]
      rfl

theorem request_cases (m : Machine (ContractDb ρ)) (r : Request) :
    (∃ out, (request env m r).1 = .ok out ∧ exec (process env r.cmd r.epochNumber r.inv) m.view.stateDb =
        (.ok out, (request env m r).2.2.view.stateDb)) ∨
      ∃ e, (request env m r).1 = .error e ∧
        (e.isExecutionFailed → (request env m r).2.2.view.stateDb = m.view.stateDb) := by
  rcases invoke_cases noCalls (processor env r.cmd r.epochNumber) r.inv m with ⟨out, m', hrun, hok, hview⟩ | hfail
  · refine .inl ⟨out, hok, ?_⟩
    have hexec := runProg_prog hrun
    unfold request
    rw [hview]
    exact hexec
  · exact .inr hfail

theorem step_solvent {m : Machine (ContractDb ρ)} {k : ℤ} (hk : 0 ≤ k) (hm : Solvent k m.view.stateDb) (r : Request)
    (hcaller : r.inv.caller ≠ contractAddress) : Solvent k (step env m r).view.stateDb := by
  unfold step
  rcases request_cases env m r with ⟨out, hok, hexec⟩ | ⟨e, herr, hdb⟩
  · simp only [hok]
    exact (process_solvent hk hm hcaller hexec).1
  · simp only [herr]
    split_ifs with hfail
    · rw [hdb hfail]
      exact hm
    · exact hm

theorem run_solvent {m : Machine (ContractDb ρ)} {k : ℤ} (hk : 0 ≤ k) (hm : Solvent k m.view.stateDb)
    (rs : List Request) (hcallers : ∀ r ∈ rs, r.inv.caller ≠ contractAddress) :
    Solvent k (run env m rs).view.stateDb := by
  induction rs generalizing m with
  | nil => exact hm
  | cons r rs ih =>
    have hstep := step_solvent env hk hm r (hcallers r List.mem_cons_self)
    exact ih hstep fun r' hr' => hcallers r' (List.mem_cons_of_mem _ hr')

/-- the contract has been activated and holds at least what it owes -/
structure Activated (db : Db ρ) : Prop where
  active : db.rest.stakes.active
  consistent : (content db.rest.stakes).Consistent
  covered : 0 ≤ surplus db

/-- **Solvency.** From an activated contract, after any commands by any callers other than the contract itself (an
account with code cannot send a message, and the contract calls no one as itself): the surplus of the contract has not
changed; if the next command is a withdrawal and succeeds, it takes at most the caller's own latest stake with that forger
and at most the balance of the contract; if it ends with an `ExecutionRevertedException`, neither stakes nor balances have
changed. -/
theorem stakes_covered (m : Machine (ContractDb ρ)) (hm : Activated m.view.stateDb) (rs : List Request)
    (hcallers : ∀ r ∈ rs, r.inv.caller ≠ contractAddress) :
    surplus (run env m rs).view.stateDb = surplus m.view.stateDb ∧
      (∀ r, r.inv.caller ≠ contractAddress → r.cmd = .withdraw → ∀ out, (request env (run env m rs) r).1 = .ok out →
        Covered env r.inv (run env m rs).view.stateDb) ∧
      ∀ r e, (request env (run env m rs) r).1 = .error e → e.isExecutionReverted →
        (request env (run env m rs) r).2.2.view.stateDb = (run env m rs).view.stateDb := by
  have hrun := run_solvent env hm.covered ⟨hm.consistent, rfl⟩ rs hcallers
  refine ⟨hrun.owns, ?_, ?_⟩
  · intro r hcaller hcmd out hok
    rcases request_cases env (run env m rs) r with ⟨out', -, hexec⟩ | ⟨e, herr, -⟩
    · exact (process_solvent hm.covered hrun hcaller hexec).2 hcmd
    · rw [herr] at hok
      cases hok
  · intro r e herr hrev
    rcases request_cases env (run env m rs) r with ⟨out', hok, -⟩ | ⟨e', herr', hdb⟩
    · rw [hok] at herr
      cases herr
    · rw [herr'] at herr
      obtain rfl := Except.error.inj herr
      apply hdb
      cases e' <;> simp_all [Exc.isExecutionReverted, Exc.isExecutionFailed]

end Runs

/-! A contract with one forger; another account delegates 5 Zen to it and withdraws 2 of them. -/

section Sample

def wordOf (args : Octets) (i : ℕ) : ℕ := ((args.drop (32 * i)).take 32).foldl (fun n b => 256 * n + b.toNat) 0

def bytesOf (n : ℕ) : Octets := ((List.range 32).map fun i => BitVec.ofNat 8 (n / 256 ^ i)).reverse

/-- three words: the key, and the other key in a word and the first byte of the next one -/
def keysOf (args : Octets) : ForgerPublicKeys :=
  ⟨BitVec.ofNat 256 (wordOf args 0), BitVec.ofNat 256 (wordOf args 1), BitVec.ofNat 8 (wordOf args 2 / 256 ^ 31)⟩

def sampleExternals : Externals Unit where
  isForkActive _ := true
  decodeRegisterOrUpdateForgerCmdInput _ := .error (.executionReverted "Could not decode input params: " [])
  decodeSelectByForgerCmdInput args := .ok (keysOf args)
  decodeWithdrawCmdInput args := .ok (keysOf args, wordOf args 3)
  isValidSignature25519 _ := false
  isValidVrfProof _ := false
  gasCost _ _ := 50000

def sampleKeys : ForgerPublicKeys := ⟨7, 8, 9⟩

def sampleKeysData : Octets := bytesOf 7 ++ bytesOf 8 ++ bytesOf (9 * 256 ^ 31)

def zen : ℤ := convertZenniesToWei COIN

/-- the forger has 10 Zen of its own staked, account 2 has 100 -/
def sampleMachine : Machine (ContractDb Unit) where
  view :=
    { stateDb :=
        { balance := fun a => if a = contractAddress then 10 * zen else if a = 2 then 100 * zen else 0
          nonce := fun _ => 0
          isEoaAccount := fun a => a ≠ contractAddress
          refund := 0
          rest :=
            ⟨{ StakeStorage.run StakeDb.empty [.addForger sampleKeys 0 0 3 1 (10 * zen)] with active := true }, [], ()⟩ }
      readOnly := false }
  blockGasPool := GasPool.new 30000000
  invocationStack := []
  depth := 0
  gasTrace := []

def sampleRequests : List Request :=
  [⟨.delegate, ⟨⟨2, some contractAddress, 5 * zen, [0x43, 0x1a, 0xbc, 0x18] ++ sampleKeysData, false⟩,
      GasPool.new 100000⟩, 3⟩,
    ⟨.withdraw, ⟨⟨2, some contractAddress, 0, [0x56, 0x39, 0xb8, 0x73] ++ sampleKeysData ++ bytesOf (2 * zen).toNat,
      false⟩,
      GasPool.new 100000⟩, 4⟩]

theorem sampleMachine_activated : Activated sampleMachine.view.stateDb where
  active := rfl
  consistent := StakeStorage.run_consistent empty_consistent _
  covered := by decide +kernel

theorem stakes_covered_delegate_withdraw :
    surplus (run sampleExternals sampleMachine sampleRequests).view.stateDb = surplus sampleMachine.view.stateDb ∧
      (run sampleExternals sampleMachine sampleRequests).view.stateDb.balance contractAddress = 13 * zen := by
  refine ⟨?_, by decide +kernel⟩
  exact (stakes_covered sampleExternals sampleMachine sampleMachine_activated sampleRequests (by decide +kernel)).1

end Sample

end SidechainsSdk.Account.ForgerStakeV2
