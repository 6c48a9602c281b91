/-
Withdrawal requests (`WithdrawalMsgProcessor`): a message with a value asks for a backward transfer of it to the mainchain. The
contract counts the requests of each withdrawal epoch, stores them under their numbers from 1 on, and takes the value off the
balance of the caller.

- `execAddWithdrawalRequest`, `getListOfWithdrawalReqRecords`, `process`: the code, with its guards in order.
- `addWithdrawalRequest_ok`: what an accepted request has passed and changed.
- `Ledger`: the lists and balances in terms of the requests accepted so far; `process_ledger` keeps it.
- `withdrawal_requests_ledger`: it holds after any messages.

The storage keys are hashes, taken to be without collisions: a key is what is hashed. Records are stored whole, and reading
one that is not there fails. The decoders of the ABI and the gas are parameters.
-/
import Mathlib.Tactic
import SidechainsSdk.Account.NativeContract
import SidechainsSdk.Account.Stakes.ForgerStakeV2

namespace SidechainsSdk.Account.WithdrawalRequests

open Fallible
open SidechainsSdk.Account.StateTransition (StateDb Invocation Machine)
open NativeContract (Command Request Accepted accepted run step subBalance subBalance_ok step_cases run_induction)
open ForgerStakeV2 (METHOD_ID_LENGTH getArgumentsFromData)

/-! ## State -/

/-- `MCPublicKeyHashProposition` -/
abbrev MCPublicKeyHash := BitVec 160

structure WithdrawalRequest where
  proposition : MCPublicKeyHash
  value : ℤ
deriving DecidableEq

/-- `AddWithdrawalRequest` -/
structure Event where
  caller : Address
  mcDest : MCPublicKeyHash
  value : ℤ
  epochNumber : ℤ
deriving DecidableEq

/-- what the database holds besides the accounts: the storage of this contract, logs, and anything else -/
structure ContractDb (ρ : Type) where
  withdrawalEpochCounter : ℤ → ℕ
  withdrawalRequests : ℤ → ℕ → Option WithdrawalRequest
  logs : List Event
  others : ρ

abbrev Db (ρ : Type) := StateDb (ContractDb ρ)

/-- library code: the fork table, the ABI and the gas of a message -/
structure Externals (ρ : Type) where
  isForkActive : ℕ → Bool
  decodeAddWithdrawalRequest : Octets → Except Exc MCPublicKeyHash
  decodeGetListOfWithdrawalRequests : Octets → Except Exc ℤ
  encodeRequest : WithdrawalRequest → Octets
  encodeRequests : List WithdrawalRequest → Octets
  gasCost : Invocation → Db ρ → ℤ

/-- a message to the contract, in a block with these numbers -/
structure Message where
  inv : Invocation
  consensusEpochNumber : ℕ
  withdrawalEpochNumber : ℤ

/-! ## Commands -/

/-- `getBackwardTransfers(uint32)` -/
def GetListOfWithdrawalReqsCmdSig : Octets := [0xed, 0x63, 0xec, 0x62]

/-- `backwardTransfer(bytes20)` -/
def AddNewWithdrawalReqCmdSig : Octets := [0x42, 0x67, 0xec, 0x5e]

/-- the static length of one ABI parameter -/
def ABI_PARAM_LENGTH : ℕ := 32

def MaxWithdrawalReqsNumPerEpoch : ℕ := 3999

/-- `ZenCoinsUtils.getMinDustThreshold(MC_DEFAULT_FEE_RATE)` is 54 zennies -/
def DustThresholdInWei : ℤ := convertZenniesToWei (3 * ((34 + 148) * 100 / 1000))

/-- `ABIUtil.getFunctionSignature` -/
def getFunctionSignature (data : Octets) : Except Exc Octets :=
  if data.length < METHOD_ID_LENGTH then
    .error (.executionReverted s!"Data length {data.length} must be >= {METHOD_ID_LENGTH}" [])
  else .ok (data.take METHOD_ID_LENGTH)

section Commands

variable {ρ : Type} (env : Externals ρ)

/-- the record with this number; without bytes to parse there is an exception -/
def getRecord (rest : ContractDb ρ) (epochNum : ℤ) (index : ℕ) : Except Exc WithdrawalRequest :=
  (rest.withdrawalRequests epochNum index).elim (.error (.other "no record")) .ok

def getListOfWithdrawalReqRecords (epochNum : ℤ) (rest : ContractDb ρ) : Except Exc (List WithdrawalRequest) :=
  (List.range' 1 (rest.withdrawalEpochCounter epochNum)).mapM (getRecord rest epochNum)

def execGetListOfWithdrawalReqRecords (inv : Invocation) : Command (ContractDb ρ) Octets := do
  throwIf (inv.value.sign ≠ 0) (.executionReverted "Call value must be zero" [])
  throwIf (inv.input.length ≠ METHOD_ID_LENGTH + ABI_PARAM_LENGTH)
    (.executionReverted s!"Wrong message data field length: {inv.input.length}" [])
  let epochNum ← orThrow (do
    let args ← getArgumentsFromData inv.input
    match env.decodeGetListOfWithdrawalRequests args with
    | .ok epochNum => .ok epochNum
    | .error _ => .error (.executionReverted "Could not decode input params: " []))
  let db ← get
  let listOfWithdrawalReqs ← orThrow (getListOfWithdrawalReqRecords epochNum db.rest)
  return env.encodeRequests listOfWithdrawalReqs

def checkWithdrawalRequestValidity (inv : Invocation) : Command (ContractDb ρ) Unit := do
  let withdrawalAmount := inv.value
  throwIf (inv.input.length ≠ METHOD_ID_LENGTH + ABI_PARAM_LENGTH)
    (.executionReverted s!"Wrong message data field length: {inv.input.length}" [])
  throwIf (¬ isValidZenAmount withdrawalAmount)
    (.executionReverted s!"Withdrawal amount is not a valid Zen amount: {withdrawalAmount}" [])
  throwIf (withdrawalAmount < DustThresholdInWei)
    (.executionReverted s!"Withdrawal amount is under the dust threshold: {withdrawalAmount}" [])

def setWithdrawalEpochCounter (currentEpochNum : ℤ) (nextNumOfWithdrawalReqs : ℕ) : Command (ContractDb ρ) Unit :=
  modify fun db => { db with rest := { db.rest with
    withdrawalEpochCounter := Function.update db.rest.withdrawalEpochCounter currentEpochNum nextNumOfWithdrawalReqs } }

/-- `updateAccountStorageBytes` under the key of a request -/
def putRequest (epochNum : ℤ) (index : ℕ) (request : WithdrawalRequest) : Command (ContractDb ρ) Unit :=
  modify fun db => { db with rest := { db.rest with
    withdrawalRequests := Function.update db.rest.withdrawalRequests epochNum
      (Function.update (db.rest.withdrawalRequests epochNum) index (some request)) } }

def addLog (event : Event) : Command (ContractDb ρ) Unit :=
  modify fun db => { db with rest := { db.rest with logs := db.rest.logs ++ [event] } }

def execAddWithdrawalRequest (inv : Invocation) (currentEpochNum : ℤ) : Command (ContractDb ρ) Octets := do
  checkWithdrawalRequestValidity inv
  let db ← get
  let numOfWithdrawalReqs := db.rest.withdrawalEpochCounter currentEpochNum
  throwIf (MaxWithdrawalReqsNumPerEpoch ≤ numOfWithdrawalReqs)
    (.executionReverted "Reached maximum number of Withdrawal Requests per epoch: request is invalid" [])
  let nextNumOfWithdrawalReqs := numOfWithdrawalReqs + 1
  setWithdrawalEpochCounter currentEpochNum nextNumOfWithdrawalReqs
  let args ← orThrow (getArgumentsFromData inv.input)
  let mcAddr ← orThrow (env.decodeAddWithdrawalRequest args)
  let withdrawalAmount := inv.value
  let request : WithdrawalRequest := ⟨mcAddr, withdrawalAmount⟩
  putRequest currentEpochNum nextNumOfWithdrawalReqs request
  subBalance inv.caller withdrawalAmount
  addLog ⟨inv.caller, request.proposition, withdrawalAmount, currentEpochNum⟩
  return env.encodeRequest request

def process (msg : Message) : Command (ContractDb ρ) Octets := do
  let functionSig ← orThrow (getFunctionSignature msg.inv.input)
  if functionSig = GetListOfWithdrawalReqsCmdSig then execGetListOfWithdrawalReqRecords env msg.inv
  else if functionSig = AddNewWithdrawalReqCmdSig then do
    throwIf (env.isForkActive msg.consensusEpochNumber)
      (.executionReverted "fork 1.5 active, backward transfers disabled" [])
    execAddWithdrawalRequest env msg.inv msg.withdrawalEpochNumber
  else throw (.executionReverted "Requested function does not exist. Function signature: " [])

def toRequest (msg : Message) : Request (ContractDb ρ) := ⟨msg.inv, process env msg, env.gasCost msg.inv⟩

end Commands

/-! ## What an accepted message does -/

/-- a request that the contract has accepted -/
structure AcceptedRequest where
  caller : Address
  epoch : ℤ
  request : WithdrawalRequest
deriving DecidableEq

/-- the request that a message makes, if it does -/
def requestOf {ρ : Type} (env : Externals ρ) (msg : Message) : Option AcceptedRequest :=
  if msg.inv.input.take METHOD_ID_LENGTH = AddNewWithdrawalReqCmdSig then
    match env.decodeAddWithdrawalRequest (msg.inv.input.drop METHOD_ID_LENGTH) with
    | .ok mcAddr => some ⟨msg.inv.caller, msg.withdrawalEpochNumber, ⟨mcAddr, msg.inv.value⟩⟩
    | .error _ => none
  else none

section Effects

variable {ρ : Type} {env : Externals ρ} {inv : Invocation} {epoch : ℤ} {db db' : Db ρ} {out : Octets}

theorem getArgumentsFromData_ok {data args : Octets} (h : getArgumentsFromData data = .ok args) :
    args = data.drop METHOD_ID_LENGTH := by
  unfold getArgumentsFromData at h
  split_ifs at h
  exact (Except.ok.inj h).symm

theorem getFunctionSignature_ok {data sig : Octets} (h : getFunctionSignature data = .ok sig) :
    sig = data.take METHOD_ID_LENGTH := by
  unfold getFunctionSignature at h
  split_ifs at h
  exact (Except.ok.inj h).symm

/-- one more request of the epoch `r.epoch`, and its value taken off the balance of the caller -/
structure Added (db db' : Db ρ) (r : AcceptedRequest) : Prop where
  room : db.rest.withdrawalEpochCounter r.epoch < MaxWithdrawalReqsNumPerEpoch
  exact_zennies : ZENNY_TO_WEI_MULTIPLIER ∣ r.request.value
  not_dust : DustThresholdInWei ≤ r.request.value
  counter_eq : db'.rest.withdrawalEpochCounter =
    Function.update db.rest.withdrawalEpochCounter r.epoch (db.rest.withdrawalEpochCounter r.epoch + 1)
  records_eq : db'.rest.withdrawalRequests = Function.update db.rest.withdrawalRequests r.epoch
    (Function.update (db.rest.withdrawalRequests r.epoch) (db.rest.withdrawalEpochCounter r.epoch + 1) (some r.request))
  balance_eq : db'.balance = (db.moveBalance r.caller (-r.request.value)).balance

theorem addWithdrawalRequest_ok (h : exec (execAddWithdrawalRequest env inv epoch) db = (.ok out, db')) :
    ∃ mcAddr, env.decodeAddWithdrawalRequest (inv.input.drop METHOD_ID_LENGTH) = .ok mcAddr ∧
      Added db db' ⟨inv.caller, epoch, ⟨mcAddr, inv.value⟩⟩ := by
  simp only [execAddWithdrawalRequest, checkWithdrawalRequestValidity, setWithdrawalEpochCounter, putRequest, addLog, bind_assoc,
    exec_throwIf_bind_ok, exec_get_bind, exec_modify_bind, exec_orThrow_bind_ok] at h
  obtain ⟨-, hvalid, hdust, hroom, args, hargs, mcAddr, hdecode, h⟩ := h
  rw [getArgumentsFromData_ok hargs] at hdecode
  simp only [exec_bind_ok] at h
  obtain ⟨⟨⟩, s1, hsub, ⟨⟩, s2, hlog, hret⟩ := h
  obtain rfl := subBalance_ok hsub
  obtain ⟨-, rfl⟩ := Prod.mk.inj hlog
  obtain ⟨-, rfl⟩ := Prod.mk.inj hret
  exact ⟨mcAddr, hdecode, not_le.1 hroom, (isValidZenAmount_iff.1 (not_not.1 hvalid)).2.2, not_lt.1 hdust, rfl, rfl, rfl⟩

theorem getListOfWithdrawalReqRecords_ok (h : exec (execGetListOfWithdrawalReqRecords env inv) db = (.ok out, db')) :
    db' = db := by
  simp only [execGetListOfWithdrawalReqRecords, exec_throwIf_bind_ok, exec_orThrow_bind_ok, exec_get_bind] at h
  obtain ⟨-, -, epochNum, -, records, -, h⟩ := h
  exact (Prod.mk.inj h).2.symm

/-- an accepted message makes its request, or makes none and changes nothing -/
theorem process_ok {msg : Message} (h : exec (process env msg) db = (.ok out, db')) :
    (∃ r, requestOf env msg = some r ∧ r.epoch = msg.withdrawalEpochNumber ∧ Added db db' r) ∨
      requestOf env msg = none ∧ db' = db := by
  simp only [process, exec_orThrow_bind_ok] at h
  obtain ⟨sig, hsig, h⟩ := h
  rw [getFunctionSignature_ok hsig] at h
  split_ifs at h with hread hadd
  · have hnot : msg.inv.input.take METHOD_ID_LENGTH ≠ AddNewWithdrawalReqCmdSig := by
      rw [hread]
      decide
    exact .inr ⟨by rw [requestOf, if_neg hnot], getListOfWithdrawalReqRecords_ok h⟩
  · rw [exec_throwIf_bind_ok] at h
    obtain ⟨mcAddr, hdecode, hadded⟩ := addWithdrawalRequest_ok h.2
    refine .inl ⟨_, ?_, rfl, hadded⟩
    rw [requestOf, if_pos hadd, hdecode]
  · simp at h

end Effects

/-! ## The ledger -/

section Ledger

variable {ρ : Type} {env : Externals ρ}

/-- the requests of one epoch, in the order in which they were accepted -/
def requestsOf (e : ℤ) (done : List AcceptedRequest) : List WithdrawalRequest :=
  (done.filter fun r => r.epoch = e).map AcceptedRequest.request

/-- what was taken from one caller -/
def takenFrom (a : Address) (done : List AcceptedRequest) : ℤ :=
  ((done.filter fun r => r.caller = a).map fun r => r.request.value).sum

/-- the storage and the balances, after the requests `done`, on a database with the balances `before` -/
structure Ledger (before : Address → ℤ) (db : Db ρ) (done : List AcceptedRequest) : Prop where
  counters : ∀ e, db.rest.withdrawalEpochCounter e = (requestsOf e done).length
  records : ∀ e i, i < (requestsOf e done).length → db.rest.withdrawalRequests e (i + 1) = (requestsOf e done)[i]?
  bound : ∀ e, (requestsOf e done).length ≤ MaxWithdrawalReqsNumPerEpoch
  values : ∀ r ∈ done, ZENNY_TO_WEI_MULTIPLIER ∣ r.request.value ∧ DustThresholdInWei ≤ r.request.value
  balances : ∀ a, db.balance a = before a - takenFrom a done

theorem requestsOf_append (e : ℤ) (done : List AcceptedRequest) (r : AcceptedRequest) :
    requestsOf e (done ++ [r]) = requestsOf e done ++ if r.epoch = e then [r.request] else [] := by
  unfold requestsOf
  rw [List.filter_append, List.map_append]
  split_ifs with he <;> simp [he]

theorem takenFrom_append (a : Address) (done : List AcceptedRequest) (r : AcceptedRequest) :
    takenFrom a (done ++ [r]) = takenFrom a done + if r.caller = a then r.request.value else 0 := by
  unfold takenFrom
  rw [List.filter_append, List.map_append, List.sum_append]
  split_ifs with ha <;> simp [ha]

theorem Added.ledger {before : Address → ℤ} {db db' : Db ρ} {done : List AcceptedRequest} {r : AcceptedRequest}
    (h : Added db db' r) (hdb : Ledger before db done) : Ledger before db' (done ++ [r]) where
  counters e := by
    rw [h.counter_eq, requestsOf_append, List.length_append, ← hdb.counters e]
    by_cases he : r.epoch = e
    · simp [he]
    · rw [Function.update_of_ne (Ne.symm he), if_neg he]
      rfl
  records e i hi := by
    rw [h.records_eq]
    rw [requestsOf_append] at hi ⊢
    by_cases he : r.epoch = e
    · subst he
      rw [Function.update_self, hdb.counters]
      rw [if_pos rfl, List.length_append, List.length_singleton] at hi
      by_cases hlast : i = (requestsOf r.epoch done).length
      · rw [hlast, Function.update_self]
        simp
      · have hlt : i < (requestsOf r.epoch done).length := by omega
        rw [Function.update_of_ne (by omega), hdb.records _ _ hlt, List.getElem?_append_left hlt]
    · rw [if_neg he, List.append_nil] at hi ⊢
      rw [Function.update_of_ne (Ne.symm he)]
      exact hdb.records e i hi
  bound e := by
    rw [requestsOf_append, List.length_append]
    by_cases he : r.epoch = e
    · subst he
      have hroom := h.room
      rw [hdb.counters] at hroom
      rw [if_pos rfl, List.length_singleton]
      omega
    · rw [if_neg he]
      exact hdb.bound e
  values r' hr' := by
    rcases List.mem_append.1 hr' with hr' | hr'
    · exact hdb.values r' hr'
    · obtain rfl := List.mem_singleton.1 hr'
      exact ⟨h.exact_zennies, h.not_dust⟩
  balances a := by
    simp only [h.balance_eq, takenFrom_append, StateDb.moveBalance]
    by_cases ha : a = r.caller
    · subst ha
      rw [Function.update_self, hdb.balances, if_pos rfl]
      ring
    · rw [Function.update_of_ne ha, hdb.balances, if_neg (Ne.symm ha)]
      ring

theorem process_ledger {before : Address → ℤ} {db db' : Db ρ} {done : List Message} {msg : Message} {out : Octets}
    (hdb : Ledger before db (done.filterMap (requestOf env))) (h : exec (process env msg) db = (.ok out, db')) :
    Ledger before db' ((done ++ [msg]).filterMap (requestOf env)) := by
  rw [List.filterMap_append]
  rcases process_ok h with ⟨r, hr, -, hadded⟩ | ⟨hnone, rfl⟩
  · have hone : [msg].filterMap (requestOf env) = [r] := by simp [hr]
    rw [hone]
    exact hadded.ledger hdb
  · have hzero : [msg].filterMap (requestOf env) = [] := by simp [hnone]
    rw [hzero, List.append_nil]
    exact hdb

/-- the list that is read back -/
theorem Ledger.list_eq {before : Address → ℤ} {db : Db ρ} {done : List AcceptedRequest} (h : Ledger before db done)
    (e : ℤ) :
    getListOfWithdrawalReqRecords e db.rest = .ok (requestsOf e done) := by
  have hrecord : ∀ index ∈ List.range' 1 (db.rest.withdrawalEpochCounter e),
      getRecord db.rest e index = .ok ((requestsOf e done)[index - 1]?.getD ⟨0, 0⟩) := by
    intro index hindex
    rw [List.mem_range'_1, h.counters e] at hindex
    obtain ⟨i, rfl⟩ : ∃ i, index = i + 1 := ⟨index - 1, by omega⟩
    have hlt : i < (requestsOf e done).length := by omega
    rw [getRecord, h.records e i hlt, List.getElem?_eq_getElem hlt]
    simp [hlt]
  rw [getListOfWithdrawalReqRecords, mapM_ok hrecord, h.counters e]
  congr 1
  apply List.ext_getElem
  · simp
  · intro i hi hi'
    have hlt : i < (requestsOf e done).length := by simpa using hi
    simp [hlt]

theorem Ledger.total_balance {before : Address → ℤ} {db : Db ρ} {done : List AcceptedRequest} (h : Ledger before db done)
    {callers : Finset Address} (hcallers : ∀ r ∈ done, r.caller ∈ callers) :
    ∑ a ∈ callers, db.balance a = ∑ a ∈ callers, before a - (done.map fun r => r.request.value).sum := by
  have htaken : ∑ a ∈ callers, takenFrom a done = (done.map fun r => r.request.value).sum := by
    have hsum := Grouping.sum_by_key callers.toList callers.nodup_toList AcceptedRequest.caller
      (fun r => r.request.value) done (by simpa using hcallers)
    rw [← hsum, Finset.sum_map_toList]
    rfl
  rw [Finset.sum_congr rfl fun a _ => h.balances a, Finset.sum_sub_distrib, htaken]

/-- **Withdrawal requests.** From a contract without requests, after any messages in any epochs: the list of an epoch is
that of the accepted requests of the epoch in the order in which they were accepted, at most 3999 of them; all values are
whole zennies and not dust; the total of the callers' balances has decreased by the sum of the values; and for any next
message, if it fails nothing has changed in the database, and the lists of the other epochs do not change in any case. -/
theorem withdrawal_requests_ledger (env : Externals ρ) (m : Machine (ContractDb ρ))
    (hempty : ∀ e, m.view.stateDb.rest.withdrawalEpochCounter e = 0) (msgs : List Message) :
    let done := (accepted (toRequest env) m msgs).filterMap (requestOf env)
    let after := run (toRequest env) m msgs
    (∀ e, getListOfWithdrawalReqRecords e after.view.stateDb.rest = .ok (requestsOf e done) ∧
        (requestsOf e done).length ≤ MaxWithdrawalReqsNumPerEpoch) ∧
      (∀ r ∈ done, ZENNY_TO_WEI_MULTIPLIER ∣ r.request.value ∧ DustThresholdInWei ≤ r.request.value) ∧
      (∀ callers : Finset Address, (∀ r ∈ done, r.caller ∈ callers) →
        ∑ a ∈ callers, after.view.stateDb.balance a =
          ∑ a ∈ callers, m.view.stateDb.balance a - (done.map fun r => r.request.value).sum) ∧
      ∀ msg, (¬ Accepted after (toRequest env msg) →
          (step after (toRequest env msg)).view.stateDb = after.view.stateDb) ∧
        ∀ e, e ≠ msg.withdrawalEpochNumber →
          getListOfWithdrawalReqRecords e (step after (toRequest env msg)).view.stateDb.rest =
            getListOfWithdrawalReqRecords e after.view.stateDb.rest := by
  intro done after
  have hstart : Ledger m.view.stateDb.balance m.view.stateDb (([] : List Message).filterMap (requestOf env)) :=
    ⟨hempty, by simp [requestsOf], by simp [requestsOf], by simp, by simp [takenFrom]⟩
  have hledger : Ledger m.view.stateDb.balance after.view.stateDb done :=
    run_induction (P := fun db done => Ledger m.view.stateDb.balance db (done.filterMap (requestOf env)))
      (fun _ _ _ _ _ hdb hexec => process_ledger hdb hexec) hstart msgs
  refine ⟨fun e => ⟨hledger.list_eq e, hledger.bound e⟩, hledger.values, fun callers => hledger.total_balance, ?_⟩
  intro msg
  rcases step_cases after (toRequest env msg) with ⟨haccepted, out, hexec⟩ | ⟨-, hdb⟩
  · refine ⟨fun hrefused => absurd haccepted hrefused, ?_⟩
    intro e he
    rcases process_ok hexec with ⟨r, -, hepoch, hadded⟩ | ⟨-, hdb⟩
    · rw [(hadded.ledger hledger).list_eq e, hledger.list_eq e, requestsOf_append, if_neg (by rw [hepoch]; exact he.symm),
        List.append_nil]
    · rw [hdb]
  · refine ⟨fun _ => hdb, ?_⟩
    intro e _
    rw [hdb]

end Ledger

/-! Account 2 asks for a transfer of 1 Zen and then for one of a single wei. -/

section Sample

def sampleExternals : Externals Unit where
  isForkActive _ := false
  decodeAddWithdrawalRequest args := .ok (BitVec.ofNat 160 (ForgerStakeV2.wordOf args 0 / 256 ^ 12))
  decodeGetListOfWithdrawalRequests args := .ok (ForgerStakeV2.wordOf args 0)
  encodeRequest request := ForgerStakeV2.bytesOf request.value.toNat
  encodeRequests requests := requests.flatMap fun request => ForgerStakeV2.bytesOf request.value.toNat
  gasCost _ _ := 50000

def sampleMachine : Machine (ContractDb Unit) where
  view := ⟨⟨fun a => if a = 2 then 100 * ForgerStakeV2.zen else 0, fun _ => 0, fun _ => true, 0,
    ⟨fun _ => 0, fun _ _ => none, [], ()⟩⟩, false⟩
  blockGasPool := GasPool.new 30000000
  invocationStack := []
  depth := 0
  gasTrace := []

def sampleMessage (value : ℤ) (epoch : ℤ) : Message :=
  ⟨⟨⟨2, some 0x11111111111111111111, value, AddNewWithdrawalReqCmdSig ++ ForgerStakeV2.bytesOf (9 * 256 ^ 12), false⟩,
    GasPool.new 100000⟩, 1, epoch⟩

def sampleMessages : List Message := [sampleMessage ForgerStakeV2.zen 7, sampleMessage 1 7]

theorem one_zen_requested :
    getListOfWithdrawalReqRecords 7 (run (toRequest sampleExternals) sampleMachine sampleMessages).view.stateDb.rest =
      .ok [⟨9, ForgerStakeV2.zen⟩] := by
  have hledger := (withdrawal_requests_ledger sampleExternals sampleMachine (fun _ => rfl) sampleMessages).1 7
  have hdone : requestsOf 7 ((accepted (toRequest sampleExternals) sampleMachine sampleMessages).filterMap
      (requestOf sampleExternals)) = [⟨9, ForgerStakeV2.zen⟩] := by decide +kernel
  exact hledger.1.trans (congrArg Except.ok hdone)

end Sample

end SidechainsSdk.Account.WithdrawalRequests
