/-
Forger stakes, version 2 (`StakeStorage`): who staked how much with which forger, since which epoch.

The contract keeps for every forger a history of its total stake, for every forger and delegator a history of that
delegation, and three kinds of lists: all forgers, the delegators of a forger, the forgers of a delegator. All of them
are arrays in the contract storage. Both histories are updated by every call, but each one drops or keeps its last
checkpoint on its own.

Layers.
- `StakeDb`, `addForger`, `addStake`, `removeStake`: the code, on storage slots, with exceptions.
- `Stakes`, `content`: what the storage says, as lists and functions; `addForger_content`, `addStake_content`,
  `removeStake_content` say what a successful call does to it.
- `Stakes.Consistent`: the invariant; `step_consistent` and `run_consistent` keep it over all calls.

Results.
- `stakes_conserved`: after any calls (failed ones being reverted) and for every epoch, the stake of a forger is the sum
  of the stakes of its delegators at that epoch, and the lists have no duplicates and agree with each other.

Hashes are collision free: a forger key is the pair of public keys it is the hash of, an array is identified by what its
key is computed from. A checkpoint whose serialisation exceeds the 32 bytes of a storage word is refused when it is padded,
which is the case from 2^239 wei on in the first epochs, and from 2^207 wei on in every epoch.
-/
import Mathlib.Tactic
import SidechainsSdk.Core.Checkpoints
import SidechainsSdk.Core.Fallible
import SidechainsSdk.Core.Grouping
import SidechainsSdk.Account.Stakes.StateDbArray

namespace SidechainsSdk.Account.StakeStorage

open Fallible Checkpoints

/-! ## State -/

/-- both fields are checked to be non-negative by the constructor -/
structure StakeCheckpoint where
  fromEpochNumber : ℕ
  stakedAmount : ℕ
deriving DecidableEq, Inhabited

/-- the histories: of one delegation, or of a forger's total -/
inductive HistoryId where
  | stake (forgerKey : ForgerPublicKeys) (delegator : Address)
  | forger (forgerKey : ForgerPublicKeys)
deriving DecidableEq

/-- the storage of the contract -/
structure StakeDb where
  active : Bool
  -- `ForgerMap`: the info stored under a forger key, none where the slot is zero
  forgerInfo : ForgerPublicKeys → Option ForgerInfo
  listOfForgers : StateDbArray Unit ForgerPublicKeys
  history : StateDbArray HistoryId StakeCheckpoint
  delegatorList : StateDbArray ForgerPublicKeys Address
  delegatorListOfForgerKeys : StateDbArray Address ForgerPublicKeys

instance : Inhabited ForgerPublicKeys := ⟨⟨0, ⟨0, 0⟩⟩⟩

/-- the storage before anything was written -/
def StakeDb.empty : StakeDb :=
  ⟨false, fun _ => none, StateDbArray.empty, StateDbArray.empty, StateDbArray.empty, StateDbArray.empty⟩

/-- calls on the storage -/
abbrev Call := Fallible Exc StakeDb

/-! ## Histories -/

/-- `putInt` of a number that is not negative: seven bits a byte, after one for the sign -/
def putIntLength (n : ℕ) : ℕ :=
  if n < 2 ^ 6 then 1 else if n < 2 ^ 13 then 2 else if n < 2 ^ 20 then 3 else if n < 2 ^ 27 then 4 else 5

/-- the serialised checkpoint is the epoch, a byte with a length, and the amount with its sign bit; a storage word has 32 bytes -/
def maxStoredAmount (epoch : ℕ) : ℤ := 2 ^ (8 * (31 - putIntLength epoch) - 1)

/-- `StakeCheckpoint(epoch, amount)`, padded to a storage word -/
def newCheckpoint (epoch : ℕ) (amount : ℤ) : Except Exc StakeCheckpoint :=
  if amount.sign = -1 then
    .error (.illegalArgument s!"requirement failed: Stake cannot be a negative number. Passed value: {amount}")
  else if amount < maxStoredAmount epoch then .ok ⟨epoch, amount.toNat⟩
  else .error (.illegalArgument "not a storage word")

def addCheckpoint (h : HistoryId) (epoch : ℕ) (stakeAmount : ℤ) : Call Unit := do
  let checkpoint ← orThrow (newCheckpoint epoch stakeAmount)
  modify fun db => { db with history := db.history.append h checkpoint }

def updateOrAddCheckpoint (h : HistoryId) (historySize : ℕ) (epoch : ℕ) (op : ℤ → Except Exc ℤ) : Call Unit := do
  let db ← get
  if historySize > 0 then
    let lastElemIndex := historySize - 1
    let lastCheckpoint := db.history.getValue h lastElemIndex
    let newAmount ← orThrow (op lastCheckpoint.stakedAmount)
    if lastCheckpoint.fromEpochNumber = epoch then
      -- if the new amount is that of the previous checkpoint, this last checkpoint is removed
      if lastElemIndex > 0 ∧ ((db.history.getValue h (lastElemIndex - 1)).stakedAmount : ℤ) = newAmount then
        modify fun db => { db with history := db.history.updateSize h (historySize - 1) }
      else
        let checkpoint ← orThrow (newCheckpoint epoch newAmount)
        let history ← orThrow (db.history.updateValue h lastElemIndex checkpoint)
        modify fun db => { db with history := history }
    else if lastCheckpoint.fromEpochNumber < epoch then
      addCheckpoint h epoch newAmount
    else
      throw (.executionReverted
        s!"Epoch is in the past: epoch {epoch}, last epoch: {lastCheckpoint.fromEpochNumber}" [])
  else
    let newAmount ← orThrow (op 0)
    addCheckpoint h epoch newAmount

def getLatestAmount (db : StakeDb) (h : HistoryId) : ℕ :=
  let size := db.history.getSize h
  if size = 0 then 0 else (db.history.getValue h (size - 1)).stakedAmount

/-! ## Calls -/

def existsForger (db : StakeDb) (forgerKey : ForgerPublicKeys) : Bool := (db.forgerInfo forgerKey).isSome

/-- `ForgerInfo(..)` -/
def newForgerInfo (forgerKey : ForgerPublicKeys) (rewardShare : ℤ) (rewardAddress : Address) : Except Exc ForgerInfo :=
  if rewardShare > -1 then .ok ⟨forgerKey, rewardShare.toNat, rewardAddress⟩
  else .error (.illegalArgument "requirement failed: rewardShare expected to be non negative.")

/-- `ForgerMap.addForger` -/
def addForgerInfo (forgerKey : ForgerPublicKeys) (rewardShare : ℤ) (rewardAddress : Address) : Call Unit := do
  modify fun db => { db with listOfForgers := db.listOfForgers.append () forgerKey }
  let forgerInfo ← orThrow (newForgerInfo forgerKey rewardShare rewardAddress)
  modify fun db => { db with forgerInfo := Function.update db.forgerInfo forgerKey (some forgerInfo) }

def updateForger (forgerKey : ForgerPublicKeys) (rewardShare : ℤ) (rewardAddress : Address) : Call Unit := do
  let db ← get
  match db.forgerInfo forgerKey with
  | none => throw (.executionReverted "Forger doesn't exist." [])
  | some forger =>
    throwIf (forger.rewardShare > 0 ∨ forger.rewardAddress ≠ 0)
      (.executionReverted "Forger has already set reward share and reward address." [])
    let forgerInfo ← orThrow (newForgerInfo forgerKey rewardShare rewardAddress)
    modify fun db => { db with forgerInfo := Function.update db.forgerInfo forgerKey (some forgerInfo) }

def setActive : Call Unit := modify fun db => { db with active := true }

def addNewDelegator (forgerKey : ForgerPublicKeys) (delegator : Address) : Call Unit := do
  modify fun db => { db with delegatorList := db.delegatorList.append forgerKey delegator }
  modify fun db =>
    { db with delegatorListOfForgerKeys := db.delegatorListOfForgerKeys.append delegator forgerKey }

def addForger (forgerKey : ForgerPublicKeys) (rewardShare : ℤ) (rewardAddress : Address) (epochNumber : ℕ)
    (delegator : Address) (stakedAmount : ℤ) : Call Unit := do
  let db ← get
  throwIf (existsForger db forgerKey) (.executionReverted "Forger already registered." [])
  addForgerInfo forgerKey rewardShare rewardAddress
  addCheckpoint (.forger forgerKey) epochNumber stakedAmount
  addCheckpoint (.stake forgerKey delegator) epochNumber stakedAmount
  addNewDelegator forgerKey delegator

def addStake (forgerKey : ForgerPublicKeys) (epochNumber : ℕ) (delegator : Address) (stakedAmount : ℤ) :
    Call Unit := do
  let db ← get
  let forgerHistorySize := db.history.getSize (.forger forgerKey)
  throwIf (forgerHistorySize = 0) (.executionReverted "Forger doesn't exist." [])
  updateOrAddCheckpoint (.forger forgerKey) forgerHistorySize epochNumber fun latestStake => .ok (latestStake + stakedAmount)
  let db ← get
  let stakeHistorySize := db.history.getSize (.stake forgerKey delegator)
  updateOrAddCheckpoint (.stake forgerKey delegator) stakeHistorySize epochNumber
    fun latestStake => .ok (latestStake + stakedAmount)
  if stakeHistorySize = 0 then
    addNewDelegator forgerKey delegator

def subtractStake (stakedAmount latestStake : ℤ) : Except Exc ℤ :=
  let newAmount := latestStake - stakedAmount
  if newAmount.sign = -1 then
    .error (.executionReverted s!"Not enough stake. Claimed {stakedAmount}, available {latestStake}" [])
  else .ok newAmount

def removeStake (forgerKey : ForgerPublicKeys) (epochNumber : ℕ) (delegator : Address) (stakedAmount : ℤ) :
    Call Unit := do
  let db ← get
  let forgerHistorySize := db.history.getSize (.forger forgerKey)
  throwIf (forgerHistorySize = 0) (.executionReverted "Forger doesn't exist." [])
  let stakeHistorySize := db.history.getSize (.stake forgerKey delegator)
  throwIf (stakeHistorySize = 0)
    (.executionReverted s!"Delegator {delegator.toHex} doesn't have stake with the forger." [])
  updateOrAddCheckpoint (.stake forgerKey delegator) stakeHistorySize epochNumber (subtractStake stakedAmount)
  updateOrAddCheckpoint (.forger forgerKey) forgerHistorySize epochNumber (subtractStake stakedAmount)

/-! ## What the storage says -/

/-- the contents of the contract storage, without slots -/
structure Stakes where
  forgers : List ForgerPublicKeys
  forgerInfo : ForgerPublicKeys → Option ForgerInfo
  history : HistoryId → List StakeCheckpoint
  delegators : ForgerPublicKeys → List Address
  forgersOf : Address → List ForgerPublicKeys

def content (db : StakeDb) : Stakes :=
  ⟨db.listOfForgers.toList (), db.forgerInfo, db.history.toList, db.delegatorList.toList,
    db.delegatorListOfForgerKeys.toList⟩

/-- the amount of a history at an epoch: that of its last checkpoint with `fromEpochNumber` not above it, or 0 -/
def amountAt (history : List StakeCheckpoint) (epoch : ℕ) : ℕ :=
  valueAt StakeCheckpoint.fromEpochNumber StakeCheckpoint.stakedAmount history epoch

def latestAmount (history : List StakeCheckpoint) : ℕ := latest StakeCheckpoint.stakedAmount history

/-- the history with `amount` from `epoch` on -/
def recordAmount (history : List StakeCheckpoint) (epoch amount : ℕ) : List StakeCheckpoint :=
  record StakeCheckpoint.fromEpochNumber StakeCheckpoint.stakedAmount StakeCheckpoint.mk history epoch amount

theorem newCheckpoint_ok {epoch : ℕ} {amount : ℤ} {c : StakeCheckpoint} (h : newCheckpoint epoch amount = .ok c) :
    0 ≤ amount ∧ c = ⟨epoch, amount.toNat⟩ := by
  unfold newCheckpoint at h
  split_ifs at h with hneg hbig
  refine ⟨?_, (Except.ok.inj h).symm⟩
  exact not_lt.1 fun hlt => hneg (Int.sign_eq_neg_one_iff_neg.2 hlt)

theorem addCheckpoint_ok {h : HistoryId} {epoch : ℕ} {amount : ℤ} {db db' : StakeDb}
    (hrun : exec (addCheckpoint h epoch amount) db = (.ok (), db')) :
    0 ≤ amount ∧ db' = { db with history := db.history.append h ⟨epoch, amount.toNat⟩ } := by
  simp only [addCheckpoint, exec_orThrow_bind_ok, exec_modify, Prod.mk.injEq, true_and] at hrun
  obtain ⟨c, hc, rfl⟩ := hrun
  obtain ⟨hnonneg, rfl⟩ := newCheckpoint_ok hc
  exact ⟨hnonneg, rfl⟩

/-- what a successful update of a history does, slot by slot: the amount was computed from the last checkpoint, the epoch
is not before it, and only this history has changed -/
structure Updated (h : HistoryId) (epoch : ℕ) (op : ℤ → Except Exc ℤ) (db db' : StakeDb) (newAmount : ℕ) : Prop where
  amount : op (latestAmount (db.history.toList h)) = .ok newAmount
  epoch_le : ∀ c ∈ (db.history.toList h).getLast?, c.fromEpochNumber ≤ epoch
  self : db'.history.toList h = recordAmount (db.history.toList h) epoch newAmount
  others : ∀ h', h' ≠ h → db'.history.toList h' = db.history.toList h'
  rest : db' = { db with history := db'.history }

theorem updateOrAddCheckpoint_ok {h : HistoryId} {epoch : ℕ} {op : ℤ → Except Exc ℤ} {db db' : StakeDb}
    (hrun : exec (updateOrAddCheckpoint h (db.history.getSize h) epoch op) db = (.ok (), db')) :
    ∃ newAmount, Updated h epoch op db db' newAmount := by
  rcases List.eq_nil_or_concat (db.history.toList h) with hnil | ⟨init, last, hlist⟩
  · have hsize : db.history.getSize h = 0 := by rw [StateDbArray.getSize_eq, hnil]; rfl
    simp only [updateOrAddCheckpoint, exec_get_bind, hsize, gt_iff_lt, lt_irrefl, if_false, exec_orThrow_bind_ok] at hrun
    obtain ⟨amount, hop, hadd⟩ := hrun
    obtain ⟨hnonneg, rfl⟩ := addCheckpoint_ok hadd
    refine ⟨amount.toNat, ?_, ?_, ?_, fun h' hne => StateDbArray.toList_append_ne _ hne _, rfl⟩
    · rw [hnil]
      simpa [latestAmount, latest, Int.toNat_of_nonneg hnonneg] using hop
    · simp [hnil]
    · rw [StateDbArray.toList_append, hnil]
      rfl
  · rw [List.concat_eq_append] at hlist
    have hsize : db.history.getSize h = init.length + 1 := by rw [StateDbArray.getSize_eq, hlist]; simp
    have hlast : db.history.getValue h init.length = last := by
      have hget := StateDbArray.getValue_eq db.history h init.length (by omega)
      rw [hlist] at hget
      simpa using hget.symm
    have hlatest : latestAmount (db.history.toList h) = last.stakedAmount := by
      rw [hlist]
      exact latest_concat _ _ _
    simp only [updateOrAddCheckpoint, exec_get_bind, hsize, gt_iff_lt, Nat.zero_lt_succ, if_true, exec_orThrow_bind_ok,
      Nat.add_sub_cancel, hlast] at hrun
    obtain ⟨amount, hop, hrun⟩ := hrun
    have hrecord : ∀ new, recordAmount (db.history.toList h) epoch new =
        if last.fromEpochNumber = epoch then
          if init.getLast?.map StakeCheckpoint.stakedAmount = some new then init else init ++ [⟨epoch, new⟩]
        else init ++ [last] ++ [⟨epoch, new⟩] := by
      intro new
      simp only [hlist, recordAmount, record, List.getLast?_append, List.getLast?_singleton, Option.some_or,
        List.dropLast_concat]
    -- the checkpoint before the last one, as the code reads it
    have hprev : ∀ new : ℤ, (0 < init.length ∧ ((db.history.getValue h (init.length - 1)).stakedAmount : ℤ) = new) ↔
        ∃ n : ℕ, new = n ∧ init.getLast?.map StakeCheckpoint.stakedAmount = some n := by
      intro new
      rcases List.eq_nil_or_concat init with hinit | ⟨init', prev, hinit⟩
      · simp [hinit]
      · rw [List.concat_eq_append] at hinit
        have hget := StateDbArray.getValue_eq db.history h (init.length - 1) (by omega)
        rw [hlist, hinit] at hget
        have hvalue : db.history.getValue h (init.length - 1) = prev := by
          rw [hinit]
          simpa using hget.symm
        rw [hvalue, hinit]
        simp [eq_comm]
    split_ifs at hrun with heq hsame hlt
    · -- same epoch, and the amount returns to that of the previous checkpoint
      obtain ⟨n, rfl, hn⟩ := (hprev amount).1 hsame
      simp only [exec_modify, Prod.mk.injEq, true_and] at hrun
      subst hrun
      refine ⟨n, by rw [hlatest, hop], ?_, ?_, fun h' hne => StateDbArray.toList_updateSize_ne _ hne _, rfl⟩
      · rw [hlist]
        simp [heq]
      · rw [hrecord, if_pos heq, if_pos hn, StateDbArray.toList_updateSize_pred _ _ hsize, hlist, List.dropLast_concat]
    · -- same epoch, another amount
      simp only [exec_orThrow_bind_ok, exec_modify, Prod.mk.injEq, true_and] at hrun
      obtain ⟨c, hc, history, hset, rfl⟩ := hrun
      obtain ⟨hnonneg, rfl⟩ := newCheckpoint_ok hc
      have hamount : (amount.toNat : ℤ) = amount := Int.toNat_of_nonneg hnonneg
      have hnew : init.getLast?.map StakeCheckpoint.stakedAmount ≠ some amount.toNat := by
        intro hn
        exact hsame ((hprev amount).2 ⟨amount.toNat, hamount.symm, hn⟩)
      simp only [StateDbArray.updateValue, hsize, Nat.lt_succ_self, if_true, Except.ok.injEq] at hset
      subst hset
      refine ⟨amount.toNat, by rw [hlatest, hop, hamount], ?_, ?_,
        fun h' hne => StateDbArray.toList_setSlot_ne _ hne _ _, rfl⟩
      · rw [hlist]
        simp [heq]
      · rw [hrecord, if_pos heq, if_neg hnew, StateDbArray.toList_setSlot_last _ _ _ hsize, hlist, List.dropLast_concat]
    · -- a later epoch
      obtain ⟨hnonneg, rfl⟩ := addCheckpoint_ok hrun
      have hamount : (amount.toNat : ℤ) = amount := Int.toNat_of_nonneg hnonneg
      refine ⟨amount.toNat, by rw [hlatest, hop, hamount], ?_, ?_,
        fun h' hne => StateDbArray.toList_append_ne _ hne _, rfl⟩
      · rw [hlist]
        simp [hlt.le]
      · rw [hrecord, if_neg heq, StateDbArray.toList_append, hlist]
    · simp at hrun

/-! ## What a successful call does to the contents -/

def Stakes.setHistory (s : Stakes) (h : HistoryId) (l : List StakeCheckpoint) : Stakes :=
  { s with history := Function.update s.history h l }

def Stakes.addDelegator (s : Stakes) (f : ForgerPublicKeys) (d : Address) : Stakes :=
  { s with
    delegators := Function.update s.delegators f (s.delegators f ++ [d])
    forgersOf := Function.update s.forgersOf d (s.forgersOf d ++ [f]) }

/-- the two histories that a call changes -/
def Stakes.rewritten (s : Stakes) (f : ForgerPublicKeys) (d : Address) (epoch total own : ℕ) : Stakes :=
  (s.setHistory (.forger f) (recordAmount (s.history (.forger f)) epoch total)).setHistory (.stake f d)
    (recordAmount (s.history (.stake f d)) epoch own)

/-- the delegation of `d` with `f` becomes `own` and the total of `f` becomes `total`, from `epoch` on -/
def Stakes.changeStake (s : Stakes) (f : ForgerPublicKeys) (d : Address) (epoch total own : ℕ) : Stakes :=
  let s' := s.rewritten f d epoch total own
  if s.history (.stake f d) = [] then s'.addDelegator f d else s'

/-- a new forger with its first delegation -/
def Stakes.register (s : Stakes) (f : ForgerPublicKeys) (info : ForgerInfo) (d : Address) (epoch amount : ℕ) : Stakes :=
  let listed : Stakes :=
    { s with forgers := s.forgers ++ [f], forgerInfo := Function.update s.forgerInfo f (some info) }
  ((listed.setHistory (.forger f) (s.history (.forger f) ++ [⟨epoch, amount⟩])).setHistory
    (.stake f d) (s.history (.stake f d) ++ [⟨epoch, amount⟩])).addDelegator f d

/-- both histories end at or before the epoch of the call -/
def Stakes.NotBefore (s : Stakes) (f : ForgerPublicKeys) (d : Address) (epoch : ℕ) : Prop :=
  (∀ c ∈ (s.history (.forger f)).getLast?, c.fromEpochNumber ≤ epoch) ∧
    ∀ c ∈ (s.history (.stake f d)).getLast?, c.fromEpochNumber ≤ epoch

theorem Updated.content {h : HistoryId} {epoch : ℕ} {op : ℤ → Except Exc ℤ} {db db' : StakeDb} {n : ℕ}
    (hu : Updated h epoch op db db' n) :
    content db' = (content db).setHistory h (recordAmount ((content db).history h) epoch n) := by
  have hhistory : db'.history.toList = Function.update db.history.toList h
      (recordAmount (db.history.toList h) epoch n) := by
    funext h'
    by_cases hh : h' = h
    · subst hh
      rw [hu.self, Function.update_self]
    · rw [hu.others h' hh, Function.update_of_ne hh]
  rw [hu.rest]
  simp only [StakeStorage.content, Stakes.setHistory, hhistory]

theorem addNewDelegator_ok {f : ForgerPublicKeys} {d : Address} {db db' : StakeDb}
    (hrun : exec (addNewDelegator f d) db = (.ok (), db')) :
    content db' = (content db).addDelegator f d ∧ db'.active = db.active := by
  simp only [addNewDelegator, exec_modify_bind, exec_modify, Prod.mk.injEq, true_and] at hrun
  subst hrun
  refine ⟨?_, rfl⟩
  simp only [content, Stakes.addDelegator, StateDbArray.toList_append_eq]

theorem newForgerInfo_ok {f : ForgerPublicKeys} {share : ℤ} {addr : Address} {info : ForgerInfo}
    (h : newForgerInfo f share addr = .ok info) : 0 ≤ share ∧ info = ⟨f, share.toNat, addr⟩ := by
  unfold newForgerInfo at h
  split_ifs at h with hshare
  exact ⟨by omega, (Except.ok.inj h).symm⟩

theorem addForgerInfo_ok {f : ForgerPublicKeys} {share : ℤ} {addr : Address} {db db' : StakeDb}
    (hrun : exec (addForgerInfo f share addr) db = (.ok (), db')) :
    0 ≤ share ∧ db' = { db with
      listOfForgers := db.listOfForgers.append () f
      forgerInfo := Function.update db.forgerInfo f (some ⟨f, share.toNat, addr⟩) } := by
  simp only [addForgerInfo, exec_modify_bind, exec_orThrow_bind_ok, exec_modify, Prod.mk.injEq, true_and] at hrun
  obtain ⟨info, hinfo, rfl⟩ := hrun
  obtain ⟨hshare, rfl⟩ := newForgerInfo_ok hinfo
  exact ⟨hshare, rfl⟩

theorem updateForger_content {f : ForgerPublicKeys} {share : ℤ} {addr : Address} {db db' : StakeDb}
    (hrun : exec (updateForger f share addr) db = (.ok (), db')) :
    (db.forgerInfo f).isSome ∧ db'.active = db.active ∧ content db' = { content db with
      forgerInfo := Function.update db.forgerInfo f (some ⟨f, share.toNat, addr⟩) } := by
  simp only [updateForger, exec_get_bind] at hrun
  cases hforger : db.forgerInfo f with
  | none => simp [hforger] at hrun
  | some forger =>
    simp only [hforger, exec_throwIf_bind_ok, exec_orThrow_bind_ok, exec_modify, Prod.mk.injEq, true_and] at hrun
    obtain ⟨-, info, hinfo, rfl⟩ := hrun
    obtain ⟨-, rfl⟩ := newForgerInfo_ok hinfo
    exact ⟨rfl, rfl, rfl⟩

theorem stake_ne_forger (f f' : ForgerPublicKeys) (d : Address) : HistoryId.stake f d ≠ HistoryId.forger f' := by
  rintro ⟨⟩

theorem getSize_eq_zero {db : StakeDb} {h : HistoryId} : db.history.getSize h = 0 ↔ (content db).history h = [] := by
  rw [StateDbArray.getSize_eq, List.length_eq_zero_iff]
  rfl

theorem addForger_content {f : ForgerPublicKeys} {share : ℤ} {addr : Address} {epoch : ℕ} {d : Address} {amount : ℤ}
    {db db' : StakeDb} (hrun : exec (addForger f share addr epoch d amount) db = (.ok (), db')) :
    db.forgerInfo f = none ∧ 0 ≤ share ∧ 0 ≤ amount ∧ db'.active = db.active ∧
      content db' = (content db).register f ⟨f, share.toNat, addr⟩ d epoch amount.toNat := by
  simp only [addForger, exec_get_bind, exec_throwIf_bind_ok] at hrun
  simp only [exec_bind_ok] at hrun
  obtain ⟨hnew, ⟨⟩, s1, hinfo, ⟨⟩, s2, hadd1, ⟨⟩, s3, hadd2, hdel⟩ := hrun
  obtain ⟨hshare, rfl⟩ := addForgerInfo_ok hinfo
  obtain ⟨hnonneg, rfl⟩ := addCheckpoint_ok hadd1
  obtain ⟨-, rfl⟩ := addCheckpoint_ok hadd2
  obtain ⟨hcontent, hactive⟩ := addNewDelegator_ok hdel
  refine ⟨by simpa [existsForger] using hnew, hshare, hnonneg, hactive, ?_⟩
  rw [hcontent]
  simp only [content, Stakes.register, Stakes.setHistory, StateDbArray.toList_append_eq, Function.update_self,
    Function.update_of_ne (stake_ne_forger f f d)]

theorem addStake_content {f : ForgerPublicKeys} {epoch : ℕ} {d : Address} {amount : ℤ} {db db' : StakeDb}
    (hrun : exec (addStake f epoch d amount) db = (.ok (), db')) :
    (content db).history (.forger f) ≠ [] ∧ (content db).NotBefore f d epoch ∧ db'.active = db.active ∧
      ∃ total own : ℕ, (total : ℤ) = latestAmount ((content db).history (.forger f)) + amount ∧
        (own : ℤ) = latestAmount ((content db).history (.stake f d)) + amount ∧
        content db' = (content db).changeStake f d epoch total own := by
  simp only [addStake, exec_get_bind, exec_throwIf_bind_ok] at hrun
  simp only [exec_bind_ok, exec_get_bind] at hrun
  obtain ⟨hsize, ⟨⟩, s1, hforger, hrun⟩ := hrun
  obtain ⟨total, hu1⟩ := updateOrAddCheckpoint_ok hforger
  obtain ⟨⟨⟩, s2, hstake, hrun⟩ := hrun
  obtain ⟨own, hu2⟩ := updateOrAddCheckpoint_ok hstake
  have hother := hu1.others (.stake f d) (stake_ne_forger f f d)
  have hc2 : content s2 = (content db).rewritten f d epoch total own := by
    rw [hu2.content, hu1.content]
    simp only [Stakes.rewritten, Stakes.setHistory, Function.update_of_ne (stake_ne_forger f f d)]
  have hactive : s2.active = db.active := by rw [hu2.rest, hu1.rest]
  have hamount1 := hu1.amount
  have hamount2 := hu2.amount
  have hbefore2 := hu2.epoch_le
  rw [hother] at hamount2 hbefore2
  refine ⟨fun hnil => hsize (getSize_eq_zero.2 hnil), ⟨hu1.epoch_le, hbefore2⟩, ?_⟩
  have hempty : s1.history.getSize (.stake f d) = 0 ↔ (content db).history (.stake f d) = [] := by
    rw [StateDbArray.getSize_eq, hother, List.length_eq_zero_iff]
    rfl
  split_ifs at hrun with hnew
  · obtain ⟨hcontent, hactive'⟩ := addNewDelegator_ok hrun
    refine ⟨hactive'.trans hactive, total, own, (Except.ok.inj hamount1).symm, (Except.ok.inj hamount2).symm, ?_⟩
    rw [hcontent, hc2, Stakes.changeStake, if_pos (hempty.1 hnew)]
  · obtain ⟨-, rfl⟩ := Prod.mk.inj hrun
    refine ⟨hactive, total, own, (Except.ok.inj hamount1).symm, (Except.ok.inj hamount2).symm, ?_⟩
    rw [hc2, Stakes.changeStake, if_neg (fun h => hnew (hempty.2 h))]

theorem subtractStake_ok {amount latestStake new : ℤ} (h : subtractStake amount latestStake = .ok new) :
    new = latestStake - amount := by
  simp only [subtractStake] at h
  split_ifs at h
  exact (Except.ok.inj h).symm

theorem removeStake_content {f : ForgerPublicKeys} {epoch : ℕ} {d : Address} {amount : ℤ} {db db' : StakeDb}
    (hrun : exec (removeStake f epoch d amount) db = (.ok (), db')) :
    (content db).history (.forger f) ≠ [] ∧ (content db).history (.stake f d) ≠ [] ∧
      (content db).NotBefore f d epoch ∧ db'.active = db.active ∧
      ∃ total own : ℕ, (total : ℤ) = latestAmount ((content db).history (.forger f)) - amount ∧
        (own : ℤ) = latestAmount ((content db).history (.stake f d)) - amount ∧
        content db' = (content db).changeStake f d epoch total own := by
  simp only [removeStake, exec_get_bind, exec_throwIf_bind_ok] at hrun
  simp only [exec_bind_ok] at hrun
  obtain ⟨hsize, hsize', ⟨⟩, s1, hstake, hforger⟩ := hrun
  obtain ⟨own, hu1⟩ := updateOrAddCheckpoint_ok hstake
  have hother := hu1.others (.forger f) (stake_ne_forger f f d).symm
  have hforger' : db.history.getSize (.forger f) = s1.history.getSize (.forger f) := by
    rw [StateDbArray.getSize_eq, StateDbArray.getSize_eq, hother]
  rw [hforger'] at hforger
  obtain ⟨total, hu2⟩ := updateOrAddCheckpoint_ok hforger
  have hne : (content db).history (.stake f d) ≠ [] := fun hnil => hsize' (getSize_eq_zero.2 hnil)
  have hamount1 := subtractStake_ok hu1.amount
  have hamount2 := subtractStake_ok hu2.amount
  have hbefore2 := hu2.epoch_le
  rw [hother] at hamount2 hbefore2
  refine ⟨fun hnil => hsize (getSize_eq_zero.2 hnil), hne, ⟨hbefore2, hu1.epoch_le⟩, ?_, total, own, hamount2, hamount1,
    ?_⟩
  · rw [hu2.rest, hu1.rest]
  · rw [hu2.content, hu1.content, Stakes.changeStake, if_neg hne]
    simp only [Stakes.rewritten, Stakes.setHistory, Function.update_of_ne (stake_ne_forger f f d).symm]
    rw [Function.update_comm (stake_ne_forger f f d)]

/-! ## The invariant -/

/-- delegations: the lists agree with the histories, and stakes are conserved at every epoch -/
structure Stakes.Delegations (s : Stakes) : Prop where
  sorted : ∀ h, Sorted StakeCheckpoint.fromEpochNumber (s.history h)
  stake_history : ∀ f d, s.history (.stake f d) ≠ [] ↔ d ∈ s.delegators f
  delegators_nodup : ∀ f, (s.delegators f).Nodup
  forgersOf_nodup : ∀ d, (s.forgersOf d).Nodup
  listed_both : ∀ f d, f ∈ s.forgersOf d ↔ d ∈ s.delegators f
  conserved : ∀ f e, amountAt (s.history (.forger f)) e =
    ((s.delegators f).map fun d => amountAt (s.history (.stake f d)) e).sum

/-- forgers: listed once, exactly the ones with stored info, with a history, and with delegators -/
structure Stakes.Registry (s : Stakes) : Prop where
  forgers_nodup : s.forgers.Nodup
  registered : ∀ f, f ∈ s.forgers ↔ (s.forgerInfo f).isSome
  info_keys : ∀ f info, s.forgerInfo f = some info → info.forgerPublicKeys = f
  forger_history : ∀ f, s.history (.forger f) ≠ [] ↔ f ∈ s.forgers
  delegator_forger : ∀ f d, d ∈ s.delegators f → f ∈ s.forgers

/-- the invariant of the storage -/
structure Stakes.Consistent (s : Stakes) : Prop where
  delegations : s.Delegations
  registry : s.Registry

theorem amountAt_recordAmount (l : List StakeCheckpoint) (epoch e amount : ℕ)
    (hsorted : Sorted StakeCheckpoint.fromEpochNumber l) (hlast : ∀ c ∈ l.getLast?, c.fromEpochNumber ≤ epoch) :
    amountAt (recordAmount l epoch amount) e = if epoch ≤ e then amount else amountAt l e :=
  valueAt_record _ _ _ (fun _ _ => rfl) (fun _ _ => rfl) l epoch e amount hsorted hlast

/-- from the epoch of a call on, a history that ends before has its latest amount -/
theorem amountAt_of_notBefore (l : List StakeCheckpoint) {epoch e : ℕ} (he : epoch ≤ e)
    (hlast : ∀ c ∈ l.getLast?, c.fromEpochNumber ≤ epoch) : amountAt l e = latestAmount l :=
  valueAt_latest _ _ l e fun c hc => (hlast c hc).trans he

theorem nodup_concat {α : Type} {l : List α} {a : α} (hl : l.Nodup) (ha : a ∉ l) : (l ++ [a]).Nodup := by
  refine List.nodup_append.2 ⟨hl, List.nodup_singleton a, ?_⟩
  intro b hb c hc
  rw [List.mem_singleton.1 hc]
  rintro rfl
  exact ha hb

section ChangeStake

variable (s : Stakes) (f : ForgerPublicKeys) (d : Address) (epoch total own : ℕ)

theorem rewritten_forger (f' : ForgerPublicKeys) :
    (s.rewritten f d epoch total own).history (.forger f') =
      if f' = f then recordAmount (s.history (.forger f)) epoch total else s.history (.forger f') := by
  by_cases h : f' = f
  · subst h
    simp [Stakes.rewritten, Stakes.setHistory, (stake_ne_forger f' f' d).symm]
  · simp [Stakes.rewritten, Stakes.setHistory, (stake_ne_forger f f' d).symm, h]

theorem rewritten_stake (f' : ForgerPublicKeys) (d' : Address) :
    (s.rewritten f d epoch total own).history (.stake f' d') =
      if f' = f ∧ d' = d then recordAmount (s.history (.stake f d)) epoch own else s.history (.stake f' d') := by
  by_cases h : f' = f ∧ d' = d
  · obtain ⟨rfl, rfl⟩ := h
    simp [Stakes.rewritten, Stakes.setHistory]
  · have hne : HistoryId.stake f' d' ≠ HistoryId.stake f d := by
      rintro ⟨⟩
      exact h ⟨rfl, rfl⟩
    simp [Stakes.rewritten, Stakes.setHistory, stake_ne_forger f' f d', hne, h]

/-- the lists after a call: the delegator is on the list of the forger, once -/
theorem changeStake_delegators (hs : s.Delegations) (f' : ForgerPublicKeys) :
    (s.changeStake f d epoch total own).delegators f' =
      if f' = f ∧ d ∉ s.delegators f then s.delegators f ++ [d] else s.delegators f' := by
  have hnil : s.history (.stake f d) = [] ↔ d ∉ s.delegators f := by
    rw [← hs.stake_history, not_not]
  simp only [Stakes.changeStake, hnil]
  by_cases hd : d ∉ s.delegators f
  · by_cases hf : f' = f
    · subst hf
      simp [hd, Stakes.addDelegator, Stakes.rewritten, Stakes.setHistory]
    · simp [hd, hf, Stakes.addDelegator, Stakes.rewritten, Stakes.setHistory]
  · simp [hd, Stakes.rewritten, Stakes.setHistory]

theorem changeStake_forgersOf (hs : s.Delegations) (d' : Address) :
    (s.changeStake f d epoch total own).forgersOf d' =
      if d' = d ∧ d ∉ s.delegators f then s.forgersOf d ++ [f] else s.forgersOf d' := by
  have hnil : s.history (.stake f d) = [] ↔ d ∉ s.delegators f := by
    rw [← hs.stake_history, not_not]
  simp only [Stakes.changeStake, hnil]
  by_cases hd : d ∉ s.delegators f
  · by_cases hd' : d' = d
    · subst hd'
      simp [hd, Stakes.addDelegator, Stakes.rewritten, Stakes.setHistory]
    · simp [hd, hd', Stakes.addDelegator, Stakes.rewritten, Stakes.setHistory]
  · simp [hd, Stakes.rewritten, Stakes.setHistory]

theorem changeStake_history : (s.changeStake f d epoch total own).history = (s.rewritten f d epoch total own).history := by
  unfold Stakes.changeStake
  split_ifs <;> rfl

theorem mem_changeStake_delegators (hs : s.Delegations) (f' : ForgerPublicKeys) (d' : Address) :
    d' ∈ (s.changeStake f d epoch total own).delegators f' ↔ d' ∈ s.delegators f' ∨ (f' = f ∧ d' = d) := by
  rw [changeStake_delegators s f d epoch total own hs]
  split_ifs with h
  · obtain ⟨rfl, -⟩ := h
    simp
  · refine ⟨.inl, ?_⟩
    rintro (hd' | ⟨rfl, rfl⟩)
    · exact hd'
    · by_contra hd
      exact h ⟨rfl, hd⟩

variable (hs : s.Delegations) (hbefore : s.NotBefore f d epoch)

include hs hbefore

theorem rewritten_sorted (h : HistoryId) :
    Sorted StakeCheckpoint.fromEpochNumber ((s.rewritten f d epoch total own).history h) := by
  cases h with
  | forger f' =>
    rw [rewritten_forger]
    split_ifs
    · exact record_sorted _ _ _ (fun _ _ => rfl) _ _ _ (hs.sorted _) hbefore.1
    · exact hs.sorted _
  | stake f' d' =>
    rw [rewritten_stake]
    split_ifs
    · exact record_sorted _ _ _ (fun _ _ => rfl) _ _ _ (hs.sorted _) hbefore.2
    · exact hs.sorted _

/-- the delegations of `f` at an epoch, as a function of the delegator -/
theorem rewritten_delegations (e : ℕ) :
    (fun d' => amountAt ((s.rewritten f d epoch total own).history (.stake f d')) e) =
      Function.update (fun d' => amountAt (s.history (.stake f d')) e) d
        (if epoch ≤ e then own else amountAt (s.history (.stake f d)) e) := by
  funext d'
  rw [rewritten_stake]
  by_cases h : d' = d
  · subst h
    rw [if_pos ⟨rfl, rfl⟩, Function.update_self, amountAt_recordAmount _ _ _ _ (hs.sorted _) hbefore.2]
  · rw [if_neg (fun hand => h hand.2), Function.update_of_ne h]

/-- **One call.** If the total and the delegation change by the same amount, the forger's stake at every epoch is again
the sum of its delegations. -/
theorem changeStake_conserved (hdelta : (total : ℤ) - latestAmount (s.history (.forger f)) =
      own - latestAmount (s.history (.stake f d))) (e : ℕ) :
    amountAt ((s.rewritten f d epoch total own).history (.forger f)) e =
      (((s.changeStake f d epoch total own).delegators f).map
        fun d' => amountAt ((s.rewritten f d epoch total own).history (.stake f d')) e).sum := by
  have hcons := hs.conserved f e
  rw [rewritten_forger, if_pos rfl, amountAt_recordAmount _ _ _ _ (hs.sorted _) hbefore.1,
    rewritten_delegations s f d epoch total own hs hbefore]
  have hlate : epoch ≤ e → amountAt (s.history (.forger f)) e = latestAmount (s.history (.forger f)) ∧
      amountAt (s.history (.stake f d)) e = latestAmount (s.history (.stake f d)) := by
    intro he
    exact ⟨amountAt_of_notBefore _ he hbefore.1, amountAt_of_notBefore _ he hbefore.2⟩
  by_cases hd : d ∈ s.delegators f
  · have hlist : (s.changeStake f d epoch total own).delegators f = s.delegators f := by
      rw [changeStake_delegators s f d epoch total own hs, if_neg (fun hand => hand.2 hd)]
    rw [hlist]
    have hsum := Grouping.sum_map_update (s.delegators f) (hs.delegators_nodup f) d hd
      (fun d' => amountAt (s.history (.stake f d')) e) (if epoch ≤ e then own else amountAt (s.history (.stake f d)) e)
    rw [← hcons] at hsum
    split_ifs at hsum ⊢ with he
    · obtain ⟨h1, h2⟩ := hlate he
      omega
    · omega
  · -- a new delegator: its history was empty, so it contributes nothing before this call
    have hnil : s.history (.stake f d) = [] := by
      by_contra hne
      exact hd ((hs.stake_history f d).1 hne)
    have hzero : latestAmount (s.history (.stake f d)) = 0 ∧ amountAt (s.history (.stake f d)) e = 0 := by
      rw [hnil]
      exact ⟨rfl, rfl⟩
    have hlist : (s.changeStake f d epoch total own).delegators f = s.delegators f ++ [d] := by
      rw [changeStake_delegators s f d epoch total own hs, if_pos ⟨rfl, hd⟩]
    rw [hlist, List.map_append, List.sum_append, Grouping.sum_map_update_of_not_mem _ _ hd, ← hcons,
      List.map_cons, List.map_nil, List.sum_singleton, Function.update_self]
    split_ifs with he
    · obtain ⟨h1, h2⟩ := hlate he
      omega
    · omega

/-- a change of a delegation and of its forger's total by the same amount -/
theorem changeStake_delegations (hdelta : (total : ℤ) - latestAmount (s.history (.forger f)) =
      own - latestAmount (s.history (.stake f d))) : (s.changeStake f d epoch total own).Delegations := by
  refine ⟨?_, ?_, ?_, ?_, ?_, ?_⟩
  · intro h
    rw [changeStake_history]
    exact rewritten_sorted s f d epoch total own hs hbefore h
  · intro f' d'
    rw [changeStake_history, rewritten_stake, mem_changeStake_delegators s f d epoch total own hs, ← hs.stake_history]
    split_ifs with hand
    · exact ⟨fun _ => .inr hand, fun _ => record_ne_nil _ _ _ _ _ _⟩
    · exact ⟨.inl, fun h => h.resolve_right hand⟩
  · intro f'
    rw [changeStake_delegators s f d epoch total own hs]
    split_ifs with hand
    · exact nodup_concat (hs.delegators_nodup f) hand.2
    · exact hs.delegators_nodup f'
  · intro d'
    rw [changeStake_forgersOf s f d epoch total own hs]
    split_ifs with hand
    · exact nodup_concat (hs.forgersOf_nodup d) fun h => hand.2 ((hs.listed_both f d).1 h)
    · exact hs.forgersOf_nodup d'
  · intro f' d'
    rw [mem_changeStake_delegators s f d epoch total own hs, changeStake_forgersOf s f d epoch total own hs,
      ← hs.listed_both f' d']
    split_ifs with hand
    · obtain ⟨rfl, -⟩ := hand
      simp
    · refine ⟨.inl, ?_⟩
      rintro (h | ⟨rfl, rfl⟩)
      · exact h
      · by_contra hf
        exact hand ⟨rfl, fun hd => hf ((hs.listed_both f' d').2 hd)⟩
  · intro f' e
    rw [changeStake_history]
    by_cases h : f' = f
    · subst h
      exact changeStake_conserved s f' d epoch total own hs hbefore hdelta e
    · rw [rewritten_forger, if_neg h, changeStake_delegators s f d epoch total own hs, if_neg (fun hand => h hand.1),
        hs.conserved f' e]
      refine congrArg List.sum (List.map_congr_left ?_)
      intro d' _
      rw [rewritten_stake, if_neg (fun hand => h hand.1)]

end ChangeStake

theorem changeStake_forgers (s : Stakes) (f : ForgerPublicKeys) (d : Address) (epoch total own : ℕ) :
    (s.changeStake f d epoch total own).forgers = s.forgers := by
  unfold Stakes.changeStake
  split_ifs <;> rfl

/-- adding to or removing from a stake with a registered forger keeps the invariant -/
theorem changeStake_consistent {s : Stakes} (hs : s.Consistent) {f : ForgerPublicKeys} {d : Address}
    {epoch total own : ℕ} (hforger : s.history (.forger f) ≠ []) (hbefore : s.NotBefore f d epoch)
    (hdelta : (total : ℤ) - latestAmount (s.history (.forger f)) = own - latestAmount (s.history (.stake f d))) :
    (s.changeStake f d epoch total own).Consistent := by
  have hforgers := changeStake_forgers s f d epoch total own
  have hinfo : (s.changeStake f d epoch total own).forgerInfo = s.forgerInfo := by
    unfold Stakes.changeStake
    split_ifs <;> rfl
  refine ⟨changeStake_delegations s f d epoch total own hs.delegations hbefore hdelta, ?_, ?_, ?_, ?_, ?_⟩
  · rw [hforgers]
    exact hs.registry.forgers_nodup
  · rw [hforgers, hinfo]
    exact hs.registry.registered
  · rw [hinfo]
    exact hs.registry.info_keys
  · intro f'
    rw [hforgers, changeStake_history, rewritten_forger]
    split_ifs with h
    · subst h
      exact ⟨fun _ => (hs.registry.forger_history f').1 hforger, fun _ => record_ne_nil _ _ _ _ _ _⟩
    · exact hs.registry.forger_history f'
  · intro f' d' hd'
    rw [hforgers]
    rcases (mem_changeStake_delegators s f d epoch total own hs.delegations f' d').1 hd' with hd' | ⟨rfl, rfl⟩
    · exact hs.registry.delegator_forger f' d' hd'
    · exact (hs.registry.forger_history f').1 hforger

/-- a new forger has empty histories, so registering it is a change of stake, with the forger put on the list -/
theorem register_eq_changeStake {s : Stakes} {f : ForgerPublicKeys} {info : ForgerInfo} {d : Address}
    {epoch amount : ℕ} (hforger : s.history (.forger f) = []) (hstake : s.history (.stake f d) = []) :
    s.register f info d epoch amount =
      { s.changeStake f d epoch amount amount with
        forgers := s.forgers ++ [f]
        forgerInfo := Function.update s.forgerInfo f (some info) } := by
  simp only [Stakes.register, Stakes.changeStake, hstake, if_true, Stakes.rewritten, Stakes.setHistory,
    Stakes.addDelegator, hforger]
  rfl

theorem not_listed {s : Stakes} (hs : s.Registry) {f : ForgerPublicKeys} (hnew : s.forgerInfo f = none) :
    f ∉ s.forgers := by
  rw [hs.registered, hnew]
  simp

theorem not_listed_history {s : Stakes} (hs : s.Registry) {f : ForgerPublicKeys} (hnew : s.forgerInfo f = none) :
    s.history (.forger f) = [] := by
  by_contra hne
  exact not_listed hs hnew ((hs.forger_history f).1 hne)

theorem not_listed_stake {s : Stakes} (hs : s.Consistent) {f : ForgerPublicKeys} (hnew : s.forgerInfo f = none)
    (d : Address) : s.history (.stake f d) = [] := by
  by_contra hne
  exact not_listed hs.registry hnew (hs.registry.delegator_forger f d ((hs.delegations.stake_history f d).1 hne))

theorem register_consistent {s : Stakes} (hs : s.Consistent) {f : ForgerPublicKeys} {info : ForgerInfo} {d : Address}
    {epoch amount : ℕ} (hnew : s.forgerInfo f = none) (hkeys : info.forgerPublicKeys = f) :
    (s.register f info d epoch amount).Consistent := by
  have hlist := not_listed hs.registry hnew
  have hforger := not_listed_history hs.registry hnew
  have hstake := not_listed_stake hs hnew d
  have hbefore : s.NotBefore f d epoch := by
    unfold Stakes.NotBefore
    rw [hforger, hstake]
    simp
  have hdelta : (amount : ℤ) - latestAmount (s.history (.forger f)) =
      amount - latestAmount (s.history (.stake f d)) := by
    rw [hforger, hstake]
  have hchange := changeStake_delegations s f d epoch amount amount hs.delegations hbefore hdelta
  rw [register_eq_changeStake hforger hstake]
  refine ⟨⟨hchange.sorted, hchange.stake_history, hchange.delegators_nodup, hchange.forgersOf_nodup,
    hchange.listed_both, hchange.conserved⟩, nodup_concat hs.registry.forgers_nodup hlist, ?_, ?_, ?_, ?_⟩
  · intro f'
    by_cases h : f' = f
    · subst h
      simp
    · simp [h, hs.registry.registered]
  · intro f' info' hinfo'
    by_cases h : f' = f
    · subst h
      simp only [Function.update_self, Option.some.injEq] at hinfo'
      rw [← hinfo', hkeys]
    · simp only [Function.update_of_ne h] at hinfo'
      exact hs.registry.info_keys f' info' hinfo'
  · intro f'
    simp only [changeStake_history, rewritten_forger]
    split_ifs with h
    · subst h
      exact ⟨fun _ => by simp, fun _ => record_ne_nil _ _ _ _ _ _⟩
    · simp [h, hs.registry.forger_history]
  · intro f' d' hd'
    rcases (mem_changeStake_delegators s f d epoch amount amount hs.delegations f' d').1 hd' with hd' | ⟨rfl, rfl⟩
    · exact List.mem_append_left _ (hs.registry.delegator_forger f' d' hd')
    · simp

/-! ## Totals -/

/-- the latest stakes of all forgers together -/
def Stakes.total (s : Stakes) : ℕ := (s.forgers.map fun f => latestAmount (s.history (.forger f))).sum

theorem getLatestAmount_eq (db : StakeDb) (h : HistoryId) : getLatestAmount db h = latestAmount ((content db).history h) := by
  show _ = latestAmount (db.history.toList h)
  unfold getLatestAmount
  rcases List.eq_nil_or_concat (db.history.toList h) with hnil | ⟨init, last, hlist⟩
  · have hsize : db.history.getSize h = 0 := by
      rw [StateDbArray.getSize_eq, hnil]
      rfl
    simp [hsize, hnil, latestAmount, latest]
  · rw [List.concat_eq_append] at hlist
    have hsize : db.history.getSize h = init.length + 1 := by
      rw [StateDbArray.getSize_eq, hlist]
      simp
    have hget := StateDbArray.getValue_eq db.history h init.length (by omega)
    rw [hlist] at hget
    have hlast : db.history.getValue h init.length = last := by simpa using hget.symm
    rw [hlist]
    simp [hsize, hlast, latestAmount, latest]

theorem latestAmount_recordAmount (l : List StakeCheckpoint) (epoch amount : ℕ) :
    latestAmount (recordAmount l epoch amount) = amount :=
  latest_record _ _ _ (fun _ _ => rfl) _ _ _

theorem changeStake_latest_forger (s : Stakes) (f : ForgerPublicKeys) (d : Address) (epoch total own : ℕ) :
    (fun f' => latestAmount ((s.changeStake f d epoch total own).history (.forger f'))) =
      Function.update (fun f' => latestAmount (s.history (.forger f'))) f total := by
  funext f'
  rw [changeStake_history, rewritten_forger]
  by_cases h : f' = f
  · subst h
    rw [if_pos rfl, Function.update_self, latestAmount_recordAmount]
  · rw [if_neg h, Function.update_of_ne h]

/-- a change of stake changes the total as it changes the stake of the forger -/
theorem changeStake_total {s : Stakes} (hs : s.Registry) {f : ForgerPublicKeys} (hforger : s.history (.forger f) ≠ [])
    (d : Address) (epoch total own : ℕ) :
    (s.changeStake f d epoch total own).total + latestAmount (s.history (.forger f)) = s.total + total := by
  have hsum := Grouping.sum_map_update s.forgers hs.forgers_nodup f ((hs.forger_history f).1 hforger)
    (fun f' => latestAmount (s.history (.forger f'))) total
  unfold Stakes.total
  rw [changeStake_forgers, changeStake_latest_forger]
  exact hsum

/-- registering a forger adds its first stake to the total -/
theorem register_total {s : Stakes} (hs : s.Consistent) {f : ForgerPublicKeys} (hnew : s.forgerInfo f = none)
    (info : ForgerInfo) (d : Address) (epoch amount : ℕ) :
    (s.register f info d epoch amount).total = s.total + amount := by
  have hlist := not_listed hs.registry hnew
  rw [register_eq_changeStake (not_listed_history hs.registry hnew) (not_listed_stake hs hnew d)]
  unfold Stakes.total
  simp only [changeStake_latest_forger]
  rw [List.map_append, List.sum_append, Grouping.sum_map_update_of_not_mem _ _ hlist]
  simp

/-- new info for a registered forger -/
theorem updateInfo_consistent {s : Stakes} (hs : s.Consistent) {f : ForgerPublicKeys} {info : ForgerInfo}
    (hsome : (s.forgerInfo f).isSome) (hkeys : info.forgerPublicKeys = f) :
    { s with forgerInfo := Function.update s.forgerInfo f (some info) : Stakes }.Consistent := by
  obtain ⟨hd, hr⟩ := hs
  refine ⟨⟨hd.sorted, hd.stake_history, hd.delegators_nodup, hd.forgersOf_nodup, hd.listed_both, hd.conserved⟩,
    hr.forgers_nodup, ?_, ?_, hr.forger_history, hr.delegator_forger⟩
  · intro f'
    by_cases h : f' = f
    · subst h
      simp [hr.registered, hsome]
    · simp [h, hr.registered]
  · intro f' info' hinfo'
    by_cases h : f' = f
    · subst h
      simp only [Function.update_self, Option.some.injEq] at hinfo'
      rw [← hinfo', hkeys]
    · simp only [Function.update_of_ne h] at hinfo'
      exact hr.info_keys f' info' hinfo'

/-- the stake of one forger is part of the total -/
theorem latestAmount_le_total {s : Stakes} {f : ForgerPublicKeys} (hf : f ∈ s.forgers) :
    latestAmount (s.history (.forger f)) ≤ s.total :=
  List.single_le_sum (fun _ _ => Nat.zero_le _) _ (List.mem_map_of_mem hf)

/-! ## Runs -/

/-- the calls that change stakes -/
inductive Op where
  | addForger (forgerKey : ForgerPublicKeys) (rewardShare : ℤ) (rewardAddress : Address) (epochNumber : ℕ)
      (delegator : Address) (stakedAmount : ℤ)
  | addStake (forgerKey : ForgerPublicKeys) (epochNumber : ℕ) (delegator : Address) (stakedAmount : ℤ)
  | removeStake (forgerKey : ForgerPublicKeys) (epochNumber : ℕ) (delegator : Address) (stakedAmount : ℤ)

def Op.call : Op → Call Unit
  | .addForger f share addr epoch d amount => StakeStorage.addForger f share addr epoch d amount
  | .addStake f epoch d amount => StakeStorage.addStake f epoch d amount
  | .removeStake f epoch d amount => StakeStorage.removeStake f epoch d amount

/-- one call, reverted if it fails -/
def step (db : StakeDb) (o : Op) : StakeDb := (reverting o.call db).2

def run (db : StakeDb) (ops : List Op) : StakeDb := ops.foldl step db

theorem call_consistent {db db' : StakeDb} (hdb : (content db).Consistent) (o : Op)
    (hrun : exec o.call db = (.ok (), db')) : (content db').Consistent := by
  cases o with
  | addForger f share addr epoch d amount =>
    obtain ⟨hnew, -, -, -, hcontent⟩ := addForger_content hrun
    rw [hcontent]
    exact register_consistent hdb hnew rfl
  | addStake f epoch d amount =>
    obtain ⟨hforger, hbefore, -, total, own, htotal, hown, hcontent⟩ := addStake_content hrun
    rw [hcontent]
    exact changeStake_consistent hdb hforger hbefore (by omega)
  | removeStake f epoch d amount =>
    obtain ⟨hforger, -, hbefore, -, total, own, htotal, hown, hcontent⟩ := removeStake_content hrun
    rw [hcontent]
    exact changeStake_consistent hdb hforger hbefore (by omega)

theorem step_consistent {db : StakeDb} (hdb : (content db).Consistent) (o : Op) : (content (step db o)).Consistent := by
  unfold step
  rcases reverting_cases o.call db with ⟨⟨⟩, db', hexec, hrev⟩ | ⟨e, db', -, hrev⟩
  · rw [hrev]
    exact call_consistent hdb o hexec
  · rw [hrev]
    exact hdb

theorem run_consistent {db : StakeDb} (hdb : (content db).Consistent) (ops : List Op) :
    (content (run db ops)).Consistent := by
  induction ops generalizing db with
  | nil => exact hdb
  | cons o ops ih => exact ih (step_consistent hdb o)

theorem empty_consistent : (content StakeDb.empty).Consistent := by
  refine ⟨⟨?_, ?_, ?_, ?_, ?_, ?_⟩, ?_, ?_, ?_, ?_, ?_⟩
  all_goals simp [content, StakeDb.empty, Sorted, amountAt]

/-- **Conservation at every epoch.** After any calls, failed ones being reverted: at every epoch the stake of a
forger is the sum of the stakes of the delegators on its list; each delegator is on that list once, a forger is on the
list of a delegator exactly when the delegator is on its list, and no forger is listed twice. Neither the order of the
epochs nor the sign of the amounts matters: the calls check what they need. -/
theorem stakes_conserved (ops : List Op) :
    let db := run StakeDb.empty ops
    (∀ f e, amountAt (db.history.toList (.forger f)) e =
        ((db.delegatorList.toList f).map fun d => amountAt (db.history.toList (.stake f d)) e).sum) ∧
      (∀ f, (db.delegatorList.toList f).Nodup) ∧
      (∀ f d, f ∈ db.delegatorListOfForgerKeys.toList d ↔ d ∈ db.delegatorList.toList f) ∧
      (db.listOfForgers.toList ()).Nodup := by
  intro db
  have hdb := run_consistent empty_consistent ops
  exact ⟨hdb.delegations.conserved, hdb.delegations.delegators_nodup, hdb.delegations.listed_both,
    hdb.registry.forgers_nodup⟩

end SidechainsSdk.Account.StakeStorage
