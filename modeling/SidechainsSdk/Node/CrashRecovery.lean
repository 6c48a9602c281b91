/-
What a UTXO node does about its storages when it starts (`SidechainNodeViewHolder.checkAndRecoverStorages`,
`SidechainState.ensureStorageConsistencyAfterRestore`, `SidechainWallet.ensureStorageConsistencyAfterRestore`).

A block is written into one storage after the other, first those of the state, then those of the wallet, and last it becomes the
best block of the history. Before all this, the block that begins a consensus epoch adds a version to the storage of the
forging boxes, under a random name. The node may stop between any two of these writes.

- `checkAndRecoverStorages`: the code, with the rollbacks that it makes.
- `stopped`: the storages after some of the writes of a block.

An application may keep storages of its own, for its state and for its wallet. How many is a parameter, and may be zero. What is
written is arbitrary.
-/
import Mathlib.Tactic
import SidechainsSdk.Core.StoreFamily
import SidechainsSdk.History.SyncInfo

namespace SidechainsSdk.Node.CrashRecovery

open Chain History ParentTree StoreFamily
open Chain.ActiveChain (sampleParams)
open Fallible (exec)
open Snapshots (After ReturnsTo after_zero_iff lastVersion_push returnsTo_self returnsTo_rollback)

/-- the storages with versions -/
inductive Store where
  | applicationState (i : ℕ)
  | utxoMerkleTree
  | stateStorage
  | forgerBoxStorage
  | applicationWallet (i : ℕ)
  | walletBoxStorage
  | walletTransactionStorage
  | forgingBoxesInfoStorage
  | cswDataStorage
  deriving DecidableEq, Repr

structure Layout where
  isCSWEnabled : Bool
  applicationStateStorages : ℕ
  applicationWalletStorages : ℕ
  versionsToKeep : Store → ℕ

abbrev Storages (C : Type) := StoreFamily Store ModifierId C

namespace Layout

variable (p : Layout)

def applicationState : List Store := (List.range p.applicationStateStorages).map .applicationState

def applicationWallet : List Store := (List.range p.applicationWalletStorages).map .applicationWallet

/-- without CSW the providers of the tree and of the CSW data do nothing -/
def ifCSWEnabled (store : Store) : List Store := if p.isCSWEnabled then [store] else []

/-- in the order of `applyChanges` -/
def stateStores : List Store := p.applicationState ++ p.ifCSWEnabled .utxoMerkleTree ++ [.stateStorage, .forgerBoxStorage]

/-- in the order of `scanPersistent` -/
def walletStores : List Store :=
  p.applicationWallet ++ [.walletBoxStorage, .walletTransactionStorage, .forgingBoxesInfoStorage] ++ p.ifCSWEnabled
    .cswDataStorage

/-- in the order of `SidechainState.rollbackTo` -/
def stateRollback : List Store := [.forgerBoxStorage, .stateStorage] ++ p.ifCSWEnabled .utxoMerkleTree ++ p.applicationState

/-- in the order of `SidechainWallet.rollback` -/
def walletRollback : List Store :=
  p.ifCSWEnabled .cswDataStorage ++ [.forgingBoxesInfoStorage, .walletTransactionStorage, .walletBoxStorage] ++
    p.applicationWallet

end Layout

variable {C : Type} (p : Layout)

/-! ## The code -/

/-- `checkStoragesVersion`: all storages of the application have this version. Without storages there is nothing to check. -/
def checkStoragesVersion (stores : List Store) (id : ModifierId) (s : Storages C) : Bool :=
  stores.all fun store => (s store).lastVersion = some id

/-- the state's storages, brought to one version, and this version -/
def ensureStateConsistency (s : Storages C) : Option (Storages C × ModifierId) := do
  let versionFb ← (s .forgerBoxStorage).lastVersion
  if checkStoragesVersion p.applicationState versionFb s then
    if p.isCSWEnabled && (s .utxoMerkleTree).lastVersion ≠ some versionFb then none
    -- the version attribute of the state is that of the state storage
    else if (s .stateStorage).lastVersion ≠ some versionFb then none
    else some (s, versionFb)
  else
    let rolledBackState ← rollbackAll versionFb p.stateRollback s
    some (rolledBackState, versionFb)

def ensureWalletConsistency (s : Storages C) : Option (Storages C × ModifierId) := do
  let version ← (s .walletBoxStorage).lastVersion
  if (s .walletTransactionStorage).lastVersion = some version ∧
      (p.isCSWEnabled = false ∨ (s .cswDataStorage).lastVersion = some version) ∧
      checkStoragesVersion p.applicationWallet version s then
    if (s .forgingBoxesInfoStorage).lastVersion = some version then some (s, version)
    else if ((s .forgingBoxesInfoStorage).versions.take 2).getLast? = some version then
      -- only the genesis block and the version after it
      if (s .forgingBoxesInfoStorage).versions.length = 2 then some (s, version)
      else
        let rolledBack ← StoreFamily.rollback version s .forgingBoxesInfoStorage
        some (rolledBack, version)
    else none
  else none

def checkAndRecoverStorages (params : NetworkParams) (fuel : ℕ) (history : HistoryStorage) (s : Storages C) :
    Option (Storages C) := do
  let (checkedState, stateVersion) ← ensureStateConsistency p s
  if bestBlockId params history = stateVersion then
    let (checkedWallet, walletVersion) ← ensureWalletConsistency p checkedState
    if bestBlockId params history = walletVersion then some checkedWallet else none
  else
    let nonChainSuffix ← chainBack history history.isInActiveChain fuel stateVersion []
    let rollbackTo ← nonChainSuffix.head?
    let rolledBackWallet ← rollbackAll rollbackTo p.walletRollback checkedState
    rollbackAll rollbackTo p.stateRollback rolledBackWallet

/-- the writes of a block: what the switch of the epoch writes, if there is one, and the storages in their order -/
def writes (switch : Option (ModifierId × C)) (id : ModifierId) (contents : Store → C) : List (Store × ModifierId × C) :=
  (switch.toList.map fun w => (.forgingBoxesInfoStorage, w)) ++
    (p.stateStores ++ p.walletStores).map fun store => (store, id, contents store)

/-- the storages after the first `k` writes -/
def stopped (s : Storages C) (switch : Option (ModifierId × C)) (id : ModifierId) (contents : Store → C) (k : ℕ) :
    Storages C :=
  ((writes p switch id contents).take k).foldl (write p.versionsToKeep) s

/-- no storage has one of the versions that it is given -/
structure NewVersions (s : Storages C) (switch : Option (ModifierId × C)) (id : ModifierId) : Prop where
  block : ∀ store ∈ p.stateStores ++ p.walletStores, id ∉ (s store).versions
  switch : ∀ w ∈ switch, w.1 ∉ (s .forgingBoxesInfoStorage).versions ∧ w.1 ≠ id

/-- a version is not lost when a block comes after it -/
structure KeepsVersions (ahead : ℕ) : Prop where
  each : ∀ store, 2 ≤ p.versionsToKeep store
  forging : ahead + 2 < p.versionsToKeep .forgingBoxesInfoStorage

/-! ## The order of the storages -/

section Order

variable {p}

theorem nodup_stores (p : Layout) : (p.stateStores ++ p.walletStores).Nodup := by
  have hstate : ((List.range p.applicationStateStorages).map Store.applicationState).Nodup :=
    List.nodup_range.map fun i j h => by injection h
  have hwallet : ((List.range p.applicationWalletStorages).map Store.applicationWallet).Nodup :=
    List.nodup_range.map fun i j h => by injection h
  cases hcsw : p.isCSWEnabled <;>
    simp [Layout.stateStores, Layout.walletStores, Layout.ifCSWEnabled, hcsw, List.nodup_append, Layout.applicationState,
      Layout.applicationWallet, hstate, hwallet]
  all_goals
    intro i _ store hstore heq
    subst heq
    simp at hstore

theorem stateRollback_perm (p : Layout) : p.stateRollback.Perm p.stateStores := by
  unfold Layout.stateRollback Layout.stateStores
  refine List.perm_append_comm.trans ?_
  rw [List.append_assoc]
  exact List.Perm.append_left _ (List.perm_append_comm.trans (List.Perm.append_left _ (List.Perm.swap _ _ _)))

theorem walletRollback_perm (p : Layout) : p.walletRollback.Perm p.walletStores := by
  unfold Layout.walletRollback Layout.walletStores
  refine List.perm_append_comm.trans ?_
  rw [List.append_assoc]
  refine List.Perm.append_left _ (List.perm_append_comm.trans (List.Perm.append_right _ ?_))
  exact (List.reverse_perm [Store.walletBoxStorage, .walletTransactionStorage, .forgingBoxesInfoStorage])

theorem forgerBoxStorage_mem (p : Layout) : Store.forgerBoxStorage ∈ p.stateStores := by simp [Layout.stateStores]

theorem stateStorage_mem (p : Layout) : Store.stateStorage ∈ p.stateStores := by simp [Layout.stateStores]

theorem utxoMerkleTree_mem (hcsw : p.isCSWEnabled = true) : Store.utxoMerkleTree ∈ p.stateStores := by
  simp [Layout.stateStores, Layout.ifCSWEnabled, hcsw]

theorem applicationState_subset (p : Layout) : ∀ store ∈ p.applicationState, store ∈ p.stateStores := by
  intro store hstore
  simp [Layout.stateStores, hstore]

theorem forgingBoxesInfoStorage_not_mem (p : Layout) : Store.forgingBoxesInfoStorage ∉ p.stateStores := by
  cases hcsw : p.isCSWEnabled <;> simp [Layout.stateStores, Layout.applicationState, Layout.ifCSWEnabled, hcsw]

end Order

/-! ## The checks -/

section Checks

variable {p} {s s' : Storages C} {id : ModifierId}

theorem checkStoragesVersion_eq {stores : List Store} (h : ∀ store ∈ stores, (s store).lastVersion = some id) :
    checkStoragesVersion stores id s = true := by
  simpa [checkStoragesVersion] using h

theorem ensureStateConsistency_eq (h : ∀ store ∈ p.stateStores, (s store).lastVersion = some id) :
    ensureStateConsistency p s = some (s, id) := by
  have hforger := h _ (forgerBoxStorage_mem p)
  have hstate := h _ (stateStorage_mem p)
  have happlication := checkStoragesVersion_eq fun store hstore => h store (applicationState_subset p store hstore)
  have htree : ¬ (p.isCSWEnabled && (s .utxoMerkleTree).lastVersion ≠ some id) = true := by
    cases hcsw : p.isCSWEnabled
    · simp
    · simp [h _ (utxoMerkleTree_mem hcsw)]
  rw [ensureStateConsistency, hforger, Option.bind_eq_bind, Option.bind_some, if_pos happlication, if_neg htree,
    if_neg (not_not.2 hstate)]

/-- the application tells that its storages are not at the version of the forger boxes: the state goes back to it -/
theorem ensureStateConsistency_behind (hforger : (s .forgerBoxStorage).lastVersion = some id) {store : Store}
    (hstore : store ∈ p.applicationState) (hahead : (s store).lastVersion ≠ some id) :
    ensureStateConsistency p s = (rollbackAll id p.stateRollback s).map fun rolledBackState => (rolledBackState, id) := by
  have hcheck : ¬ checkStoragesVersion p.applicationState id s = true := by
    simp only [checkStoragesVersion, List.all_eq_true, decide_eq_true_eq]
    exact fun h => hahead (h store hstore)
  rw [ensureStateConsistency, hforger, Option.bind_eq_bind, Option.bind_some, if_neg hcheck]
  cases rollbackAll id p.stateRollback s <;> rfl

/-- without storages of its own the application does not tell, and the storages of the node do not agree -/
theorem ensureStateConsistency_none (hforger : (s .forgerBoxStorage).lastVersion = some id)
    (happlication : p.applicationState = [])
    (hother : (s .stateStorage).lastVersion ≠ some id ∨ p.isCSWEnabled = true ∧
      (s .utxoMerkleTree).lastVersion ≠ some id) :
    ensureStateConsistency p s = none := by
  have hcheck : checkStoragesVersion p.applicationState id s = true := by
    rw [happlication]
    rfl
  rw [ensureStateConsistency, hforger, Option.bind_eq_bind, Option.bind_some, if_pos hcheck]
  rcases hother with hstate | ⟨hcsw, htree⟩
  · by_cases htree : (p.isCSWEnabled && (s .utxoMerkleTree).lastVersion ≠ some id) = true
    · rw [if_pos htree]
    · rw [if_neg htree, if_pos hstate]
  · rw [if_pos (by simp [hcsw, htree])]

theorem mem_walletStores (p : Layout) :
    ∀ store, store ∈ p.walletStores ↔ store ∈ p.applicationWallet ∨ store = .walletBoxStorage ∨
    store = .walletTransactionStorage ∨ store = .forgingBoxesInfoStorage ∨ p.isCSWEnabled = true ∧
      store = .cswDataStorage := by
  intro store
  cases hcsw : p.isCSWEnabled <;> simp [Layout.walletStores, Layout.ifCSWEnabled, hcsw]

theorem forgingBoxesInfoStorage_mem (p : Layout) : Store.forgingBoxesInfoStorage ∈ p.stateStores ++ p.walletStores :=
  List.mem_append_right _ ((mem_walletStores p _).2 (by simp))

/-- the storages of the wallet have the version last; the one of the forging boxes may have others after it -/
structure WalletSettled (p : Layout) (s : Storages C) (id : ModifierId) (ahead : ℕ) : Prop where
  last : ∀ store ∈ p.walletStores, store ≠ .forgingBoxesInfoStorage → (s store).lastVersion = some id
  forging : After id ahead (s .forgingBoxesInfoStorage)

/-- the storage of the forging boxes is back at a version, or keeps the one after the genesis block -/
def ForgingRecovered (id : ModifierId) (old new : Snapshots ModifierId C) : Prop :=
  ReturnsTo id old new ∨ (new = old ∧ ∃ r, new.versions = [r, id])

namespace WalletSettled

variable {ahead : ℕ} (h : WalletSettled p s id ahead)
include h

/-- the versions that are updated together are those of one block -/
theorem aligned : (s .walletBoxStorage).lastVersion = some id ∧ (s .walletTransactionStorage).lastVersion = some id ∧
    (p.isCSWEnabled = false ∨ (s .cswDataStorage).lastVersion = some id) ∧ checkStoragesVersion p.applicationWallet id s := by
  refine ⟨h.last _ ((mem_walletStores p _).2 (by simp)) (by simp), h.last _ ((mem_walletStores p _).2 (by simp)) (by simp), ?_,
    ?_⟩
  · cases hcsw : p.isCSWEnabled
    · exact .inl rfl
    · exact .inr (h.last _ ((mem_walletStores p _).2 (by simp [hcsw])) (by simp))
  · refine checkStoragesVersion_eq fun store hstore => h.last store ((mem_walletStores p _).2 (.inl hstore)) ?_
    rintro rfl
    simp [Layout.applicationWallet] at hstore

theorem ensureWalletConsistency_eq (hahead : ahead ≤ 1) :
    ∃ s', ensureWalletConsistency p s = some (s', id) ∧
      (∀ store, store ≠ .forgingBoxesInfoStorage → s' store = s store) ∧
      ForgingRecovered id (s .forgingBoxesInfoStorage) (s' .forgingBoxesInfoStorage) := by
  obtain ⟨hboxes, haligned⟩ := h.aligned
  rw [ensureWalletConsistency, hboxes, Option.bind_eq_bind, Option.bind_some, if_pos haligned]
  by_cases hzero : ahead = 0
  · have hlast := h.forging.lastVersion_iff.2 hzero
    exact ⟨s, if_pos hlast, fun _ _ => rfl, .inl (returnsTo_self hlast)⟩
  · have hone : ahead = 1 := by omega
    have hlast : ¬ (s .forgingBoxesInfoStorage).lastVersion = some id := fun heq => hzero (h.forging.lastVersion_iff.1 heq)
    rw [if_neg hlast, if_pos ((h.forging.take_two_getLast? hzero).2 hone)]
    by_cases hlength : (s .forgingBoxesInfoStorage).versions.length = 2
    · refine ⟨s, if_pos hlength, fun _ _ => rfl, .inr ⟨rfl, ?_⟩⟩
      obtain ⟨r, v, hversions⟩ := List.length_eq_two.1 hlength
      have hgetLast := (h.forging.take_two_getLast? hzero).2 hone
      rw [hversions] at hgetLast
      exact ⟨r, by simpa [hversions] using hgetLast⟩
    · have hmem := h.forging.mem
      refine ⟨Function.update s .forgingBoxesInfoStorage ((s .forgingBoxesInfoStorage).rollback id), ?_, ?_, .inl ?_⟩
      · rw [if_neg hlength, StoreFamily.rollback, if_pos hmem]
        rfl
      · intro store hstore
        rw [Function.update_of_ne hstore]
      · rw [Function.update_self]
        exact returnsTo_rollback hmem

theorem ensureWalletConsistency_none (hahead : 2 ≤ ahead) : ensureWalletConsistency p s = none := by
  obtain ⟨hboxes, haligned⟩ := h.aligned
  have hzero : ahead ≠ 0 := by omega
  have hlast : ¬ (s .forgingBoxesInfoStorage).lastVersion = some id := fun heq => hzero (h.forging.lastVersion_iff.1 heq)
  have hgetLast : ¬ ((s .forgingBoxesInfoStorage).versions.take 2).getLast? = some id := by
    rw [h.forging.take_two_getLast? hzero]
    omega
  rw [ensureWalletConsistency, hboxes, Option.bind_eq_bind, Option.bind_some, if_pos haligned, if_neg hlast, if_neg hgetLast]

end WalletSettled

/-- the version that is found is in all storages of the wallet -/
theorem mem_of_ensureWalletConsistency (h : ensureWalletConsistency p s = some (s', id)) :
    ∀ store ∈ p.walletStores, id ∈ (s store).versions := by
  obtain ⟨version, hboxes, h⟩ := Option.bind_eq_some_iff.1 h
  obtain ⟨htransactions, hcsw, happlication⟩ : (s .walletTransactionStorage).lastVersion = some version ∧
      (p.isCSWEnabled = false ∨ (s .cswDataStorage).lastVersion = some version) ∧
        checkStoragesVersion p.applicationWallet version s = true := by
    by_contra hnot
    rw [if_neg hnot] at h
    cases h
  rw [if_pos ⟨htransactions, hcsw, happlication⟩] at h
  have hlast : ∀ store, (s store).lastVersion = some version → version ∈ (s store).versions := fun store hstore =>
    (after_zero_iff.2 hstore).mem
  have hforging : version = id ∧ version ∈ (s .forgingBoxesInfoStorage).versions := by
    by_cases hzero : (s .forgingBoxesInfoStorage).lastVersion = some version
    · rw [if_pos hzero] at h
      exact ⟨congrArg Prod.snd (Option.some.inj h), hlast _ hzero⟩
    · rw [if_neg hzero] at h
      by_cases hone : ((s .forgingBoxesInfoStorage).versions.take 2).getLast? = some version
      · have hmem : version ∈ (s .forgingBoxesInfoStorage).versions := List.mem_of_mem_take (List.mem_of_getLast? hone)
        rw [if_pos hone, StoreFamily.rollback, if_pos hmem] at h
        by_cases hgenesis : (s .forgingBoxesInfoStorage).versions.length = 2
        · rw [if_pos hgenesis] at h
          exact ⟨congrArg Prod.snd (Option.some.inj h), hmem⟩
        · rw [if_neg hgenesis] at h
          exact ⟨congrArg Prod.snd (Option.some.inj h), hmem⟩
      · rw [if_neg hone] at h
        cases h
  obtain ⟨rfl, hforging⟩ := hforging
  intro store hstore
  rcases (mem_walletStores p store).1 hstore with hstore | rfl | rfl | rfl | ⟨henabled, rfl⟩
  · exact hlast store (by simpa using List.all_eq_true.1 happlication store hstore)
  · exact hlast _ hboxes
  · exact hlast _ htransactions
  · exact hforging
  · exact hlast _ (hcsw.resolve_left (by simp [henabled]))

end Checks

/-! ## The start -/

section Start

variable {p} {params : NetworkParams} {fuel : ℕ} {history : HistoryStorage} {s s₁ : Storages C} {id : ModifierId}
    {ahead : ℕ}

/-- the state has the best block of the history: the wallet has to have it too -/
theorem recover_wallet (fuel : ℕ) (hbest : bestBlockId params history = id)
    (hstate : ensureStateConsistency p s = some (s₁, id))
    (hwallet : WalletSettled p s₁ id ahead) (hahead : ahead ≤ 1) :
    ∃ s', checkAndRecoverStorages p params fuel history s = some s' ∧
      (∀ store, store ≠ .forgingBoxesInfoStorage → s' store = s₁ store) ∧
      ForgingRecovered id (s₁ .forgingBoxesInfoStorage) (s' .forgingBoxesInfoStorage) := by
  obtain ⟨s', hensure, hrest⟩ := hwallet.ensureWalletConsistency_eq hahead
  refine ⟨s', ?_, hrest⟩
  simp only [checkAndRecoverStorages, hstate, hensure, Option.bind_eq_bind, Option.bind_some, hbest, if_true]

theorem recover_none (hbest : bestBlockId params history = id) (hstate : ensureStateConsistency p s = some (s₁, id))
    (hwallet : WalletSettled p s₁ id ahead) (hahead : 2 ≤ ahead) :
      checkAndRecoverStorages p params fuel history s = none := by
  simp only [checkAndRecoverStorages, hstate, hwallet.ensureWalletConsistency_none hahead, Option.bind_eq_bind, Option.bind_some,
    Option.bind_none, hbest, if_true]

theorem rollbackAll_stateStores (hmem : ∀ store ∈ p.stateStores, id ∈ (s store).versions) :
    rollbackAll id p.stateRollback s = some fun store => if store ∈ p.stateStores then (s store).rollback id else s store := by
  have hnodup := (stateRollback_perm p).nodup_iff.2 (nodup_stores p).of_append_left
  rw [rollbackAll_eq hnodup fun store hstore => hmem store ((stateRollback_perm p).mem_iff.1 hstore)]
  simp only [(stateRollback_perm p).mem_iff]

theorem stores_perm (p : Layout) : (p.walletRollback ++ p.stateRollback).Perm (p.stateStores ++ p.walletStores) :=
  List.perm_append_comm.trans ((stateRollback_perm p).append (walletRollback_perm p))

/-- the state has a block that the history does not have as its best: all storages go back to the last one on the active chain -/
theorem recover_back {v : ModifierId} (hstate : ensureStateConsistency p s = some (s₁, v))
    (hne : bestBlockId params history ≠ v)
    {rest : List ModifierId} (hback : chainBack history history.isInActiveChain fuel v [] = some (id :: rest))
    (hmem : ∀ store ∈ p.stateStores ++ p.walletStores, id ∈ (s₁ store).versions) :
    ∃ s', checkAndRecoverStorages p params fuel history s = some s' ∧
      ∀ store ∈ p.stateStores ++ p.walletStores, s' store = (s₁ store).rollback id := by
  have hnodup : (p.walletRollback ++ p.stateRollback).Nodup := (stores_perm p).nodup_iff.2 (nodup_stores p)
  have hrollback := rollbackAll_eq hnodup (fun store hstore => hmem store ((stores_perm p).mem_iff.1 hstore))
  rw [rollbackAll, List.foldlM_append] at hrollback
  have hrecover : checkAndRecoverStorages p params fuel history s =
      some fun store => if store ∈ p.walletRollback ++ p.stateRollback then (s₁ store).rollback id else s₁ store := by
    simp only [checkAndRecoverStorages, hstate, Option.bind_eq_bind, Option.bind_some, if_neg hne, hback, List.head?_cons]
    exact hrollback
  exact ⟨_, hrecover, fun store hstore => if_pos ((stores_perm p).mem_iff.2 hstore)⟩

end Start

/-! ## A stop while a block is written -/

section Stopped

variable {p} {s : Storages C} {switch : Option (ModifierId × C)} {id best : ModifierId} {contents : Store → C} {ahead : ℕ}

/-- all storages have the version last, up to the one of the forging boxes -/
structure Settled (p : Layout) (s : Storages C) (id : ModifierId) (ahead : ℕ) : Prop extends WalletSettled p s id ahead where
  state : ∀ store ∈ p.stateStores, (s store).lastVersion = some id

theorem Settled.mem (h : Settled p s id ahead) : ∀ store ∈ p.stateStores ++ p.walletStores, id ∈ (s store).versions := by
  intro store hstore
  by_cases hforging : store = .forgingBoxesInfoStorage
  · rw [hforging]
    exact h.forging.mem
  · rcases List.mem_append.1 hstore with hstore | hstore
    · exact (after_zero_iff.2 (h.state store hstore)).mem
    · exact (after_zero_iff.2 (h.last store hstore hforging)).mem

/-- the storages after the first `k` writes, as far as the switch of the epoch goes -/
def switched (p : Layout) (s : Storages C) (switch : Option (ModifierId × C)) (k : ℕ) : Storages C :=
  ((switch.toList.map fun w => (Store.forgingBoxesInfoStorage, w)).take k).foldl (write p.versionsToKeep) s

theorem switched_cases (p : Layout) (s : Storages C) (switch : Option (ModifierId × C)) (k : ℕ) :
    (switched p s switch k = s ∧ min k switch.toList.length = 0) ∨
      ∃ w, switch = some w ∧ min k switch.toList.length = 1 ∧
        switched p s switch k = write p.versionsToKeep s (.forgingBoxesInfoStorage, w) := by
  cases switch with
  | none => exact .inl ⟨by simp [switched], by simp⟩
  | some w =>
    cases k with
    | zero => exact .inl ⟨rfl, by simp⟩
    | succ k => exact .inr ⟨w, rfl, by simp, by simp [switched]⟩

theorem switched_of_ne {store : Store} (hstore : store ≠ .forgingBoxesInfoStorage) (k : ℕ) :
    switched p s switch k store = s store := by
  rcases switched_cases p s switch k with ⟨heq, -⟩ | ⟨w, -, -, heq⟩
  · rw [heq]
  · rw [heq, write, Function.update_of_ne hstore]

section Switched

variable (hs : Settled p s best ahead) (hkeep : KeepsVersions p ahead) (hnew : NewVersions p s switch id)
include hs hnew

theorem switch_ne {w : ModifierId × C} (hw : switch = some w) : w.1 ≠ best := by
  intro heq
  exact (hnew.switch w hw).1 (heq ▸ hs.forging.mem)

theorem returnsTo_switched {k : ℕ} {new : Snapshots ModifierId C}
    (h : ReturnsTo best (switched p s switch k .forgingBoxesInfoStorage) new) :
      ReturnsTo best (s .forgingBoxesInfoStorage) new := by
  rcases switched_cases p s switch k with ⟨heq, -⟩ | ⟨w, hw, -, heq⟩
  · rwa [heq] at h
  · rw [heq, write, Function.update_self] at h
    exact h.of_push (switch_ne hs hnew hw)

include hkeep

/-- the switch adds a version to the forging boxes, and changes nothing else -/
theorem settled_switched (k : ℕ) : Settled p (switched p s switch k) best (ahead + min k switch.toList.length) where
  last := by
    intro store hstore hne
    rw [switched_of_ne hne]
    exact hs.last store hstore hne
  forging := by
    rcases switched_cases p s switch k with ⟨heq, hzero⟩ | ⟨w, hw, hone, heq⟩
    · rw [heq, hzero]
      exact hs.forging
    · rw [heq, hone, write, Function.update_self]
      exact hs.forging.push (switch_ne hs hnew hw) (Nat.lt_of_succ_lt hkeep.forging) _
  state := by
    intro store hstore
    rw [switched_of_ne fun heq => forgingBoxesInfoStorage_not_mem p (heq ▸ hstore)]
    exact hs.state store hstore

end Switched

/-- the storages that have got the block after `k` writes -/
def written (p : Layout) (switch : Option (ModifierId × C)) (k : ℕ) : List Store :=
  (p.stateStores ++ p.walletStores).take (k - switch.toList.length)

theorem stopped_eq (k : ℕ) : stopped p s switch id contents k = fun store =>
    if store ∈ written p switch k then (switched p s switch k store).push (p.versionsToKeep store) id (contents store)
    else switched p s switch k store := by
  have hnodup : (written p switch k).Nodup := (nodup_stores p).sublist (List.take_sublist _ _)
  have htake : ((p.stateStores ++ p.walletStores).map fun store => (store, id, contents store)).take (k - switch.toList.length) =
      (written p switch k).map fun store => (store, id, contents store) := List.map_take.symm
  rw [stopped, writes, List.take_append, List.foldl_append, List.length_map, htake]
  exact foldl_write_eq hnodup (switched p s switch k)

theorem stopped_of_written {k : ℕ} {store : Store} (hstore : store ∈ written p switch k) :
    stopped p s switch id contents k store = (switched p s switch k store).push (p.versionsToKeep store) id (contents store) := by
  rw [stopped_eq]
  exact if_pos hstore

theorem stopped_of_not_written {k : ℕ} {store : Store} (hstore : store ∉ written p switch k) :
    stopped p s switch id contents k store = switched p s switch k store := by
  rw [stopped_eq]
  exact if_neg hstore

/-- how far the block has come: the storages of the state are written first, and the one of the forger boxes as the last of
them -/
theorem written_cases (p : Layout) (switch : Option (ModifierId × C)) (k : ℕ) :
    (k ≤ switch.toList.length ∧ written p switch k = []) ∨
      (switch.toList.length < k ∧ k < switch.toList.length + p.stateStores.length ∧
        (∀ store ∈ written p switch k, store ∈ p.stateStores) ∧ Store.forgerBoxStorage ∉ written p switch k ∧
        ∀ store ∈ p.stateStores.head?, store ∈ written p switch k) ∨
      switch.toList.length + p.stateStores.length ≤ k ∧ ∀ store ∈ p.stateStores, store ∈ written p switch k := by
  by_cases hswitch : k ≤ switch.toList.length
  · exact .inl ⟨hswitch, by rw [written, Nat.sub_eq_zero_of_le hswitch, List.take_zero]⟩
  by_cases hstate : k < switch.toList.length + p.stateStores.length
  · have htake : written p switch k = p.stateStores.take (k - switch.toList.length) :=
      List.take_append_of_le_length (by omega)
    refine .inr (.inl ⟨by omega, hstate, fun store hstore => List.mem_of_mem_take (htake ▸ hstore), ?_, ?_⟩)
    · rw [htake]
      exact last_not_mem_take (nodup_stores p).of_append_left (by simp [Layout.stateStores]) (by omega)
    · intro store hstore
      obtain ⟨rest, hrest⟩ := List.head?_eq_some_iff.1 hstore
      obtain ⟨j, hj⟩ : ∃ j, k - switch.toList.length = j + 1 := ⟨k - switch.toList.length - 1, by omega⟩
      rw [htake, hrest, hj]
      exact List.mem_cons_self
  · refine .inr (.inr ⟨by omega, fun store hstore => ?_⟩)
    rw [written, List.take_append, List.take_of_length_le (by omega)]
    exact List.mem_append_left _ hstore

section Written

variable (hs : Settled p s best ahead) (hkeep : KeepsVersions p ahead) (hnew : NewVersions p s switch id) {k : ℕ}
    {store : Store}

include hkeep in
theorem lastVersion_of_written (hstore : store ∈ written p switch k) :
    (stopped p s switch id contents k store).lastVersion = some id := by
  have hkept := hkeep.each store
  rw [stopped_of_written hstore]
  exact lastVersion_push (by omega) ..

include hs hnew

theorem block_ne : id ≠ best := by
  intro heq
  have hmem : Store.stateStorage ∈ p.stateStores ++ p.walletStores := List.mem_append_left _ (stateStorage_mem p)
  exact hnew.block _ hmem (heq ▸ hs.mem _ hmem)

/-- what returns to the version before the block returns to it from before the first write -/
theorem returnsTo_stopped {new : Snapshots ModifierId C} (h : ReturnsTo best (stopped p s switch id contents k store) new) :
    ReturnsTo best (s store) new := by
  have hswitched : ReturnsTo best (switched p s switch k store) new := by
    by_cases hwritten : store ∈ written p switch k
    · rw [stopped_of_written hwritten] at h
      exact h.of_push (block_ne hs hnew)
    · rwa [stopped_of_not_written hwritten] at h
  by_cases hforging : store = .forgingBoxesInfoStorage
  · rw [hforging] at hswitched ⊢
    exact returnsTo_switched hs hnew hswitched
  · rwa [switched_of_ne hforging] at hswitched

include hkeep

/-- the version before the block is still there -/
theorem mem_stopped (hstore : store ∈ p.stateStores ++ p.walletStores) :
    best ∈ (stopped p s switch id contents k store).versions := by
  have hsettled := settled_switched hs hkeep hnew k
  by_cases hwritten : store ∈ written p switch k
  · have hne := block_ne hs hnew
    rw [stopped_of_written hwritten]
    by_cases hforging : store = .forgingBoxesInfoStorage
    · rw [hforging]
      have hroom : ahead + min k switch.toList.length + 1 < p.versionsToKeep .forgingBoxesInfoStorage := by
        have hforging := hkeep.forging
        have hone : switch.toList.length ≤ 1 := by cases switch <;> simp
        omega
      exact (hsettled.forging.push hne hroom _).mem
    · have hlast : After best 0 (switched p s switch k store) := by
        rw [after_zero_iff]
        rcases List.mem_append.1 hstore with hstate | hwallet
        · exact hsettled.state store hstate
        · exact hsettled.last store hwallet hforging
      exact (hlast.push hne (hkeep.each store) _).mem
  · rw [stopped_of_not_written hwritten]
    exact hsettled.mem store hstore

end Written

/-- **What the check of the state finds.** Up to the last write of the state it is brought back to the version before, if the
application tells; after it all storages of the state have the block. -/
theorem ensureStateConsistency_stopped (hs : Settled p s best ahead) (hkeep : KeepsVersions p ahead)
    (hnew : NewVersions p s switch id)
    (contents : Store → C) (k : ℕ) :
    (k < switch.toList.length + p.stateStores.length ∧ (k ≤ switch.toList.length ∨ 0 < p.applicationStateStorages) ∧
        (∀ store ∈ written p switch k, store ∈ p.stateStores) ∧
        ∃ s₁, ensureStateConsistency p (stopped p s switch id contents k) = some (s₁, best) ∧
          (∀ store ∈ p.stateStores, ReturnsTo best (stopped p s switch id contents k store) (s₁ store)) ∧
          ∀ store, store ∉ p.stateStores → s₁ store = stopped p s switch id contents k store) ∨
      (k < switch.toList.length + p.stateStores.length ∧ ¬ (k ≤ switch.toList.length ∨ 0 < p.applicationStateStorages) ∧
        ensureStateConsistency p (stopped p s switch id contents k) = none) ∨
      switch.toList.length + p.stateStores.length ≤ k ∧
        ensureStateConsistency p (stopped p s switch id contents k) = some (stopped p s switch id contents k, id) := by
  have hsettled := settled_switched hs hkeep hnew k
  have hpos : 0 < p.stateStores.length := List.length_pos_of_mem (stateStorage_mem p)
  rcases written_cases p switch k with ⟨hk, hwritten⟩ | ⟨hk, hk', hwritten, hforger, hfirst⟩ | ⟨hk, hwritten⟩
  · -- nothing of the block is written yet
    have hlast : ∀ store ∈ p.stateStores, (stopped p s switch id contents k store).lastVersion = some best := by
      intro store hstore
      rw [stopped_of_not_written (by simp [hwritten])]
      exact hsettled.state store hstore
    exact .inl ⟨by omega, .inl hk, by simp [hwritten], _, ensureStateConsistency_eq hlast,
      fun store hstore => returnsTo_self (hlast store hstore), fun _ _ => rfl⟩
  · -- the state is partly written
    have hne := block_ne hs hnew
    have hlast : (stopped p s switch id contents k .forgerBoxStorage).lastVersion = some best := by
      rw [stopped_of_not_written hforger]
      exact hsettled.state _ (forgerBoxStorage_mem p)
    have hahead : ∀ store ∈ written p switch k, (stopped p s switch id contents k store).lastVersion ≠ some best := by
      intro store hstore
      rw [lastVersion_of_written hkeep hstore]
      exact fun heq => hne (Option.some.inj heq)
    by_cases happlication : 0 < p.applicationStateStorages
    · obtain ⟨n, hn⟩ : ∃ n, p.applicationStateStorages = n + 1 := ⟨p.applicationStateStorages - 1, by omega⟩
      have hmem : Store.applicationState 0 ∈ p.applicationState := by simp [Layout.applicationState, hn]
      have hhead : p.stateStores.head? = some (.applicationState 0) := by
        simp [Layout.stateStores, Layout.applicationState, hn, List.range_succ_eq_map]
      have hmemState : ∀ store ∈ p.stateStores, best ∈ (stopped p s switch id contents k store).versions :=
        fun store hstore =>
        mem_stopped hs hkeep hnew (List.mem_append_left _ hstore)
      have hrollback := rollbackAll_stateStores hmemState
      have hstate := ensureStateConsistency_behind hlast hmem (hahead _ (hfirst _ hhead))
      rw [hrollback, Option.map_some] at hstate
      refine .inl ⟨hk', .inr happlication, hwritten, _, hstate, fun store hstore => ?_, fun store hstore => if_neg hstore⟩
      rw [if_pos hstore]
      exact returnsTo_rollback (hmemState store hstore)
    · have hnil : p.applicationState = [] := by simp [Layout.applicationState, Nat.eq_zero_of_not_pos happlication]
      refine .inr (.inl ⟨hk', fun h => h.elim (by omega) happlication, ensureStateConsistency_none hlast hnil ?_⟩)
      cases hcsw : p.isCSWEnabled
      · exact .inl (hahead _ (hfirst _ (by simp [Layout.stateStores, Layout.ifCSWEnabled, hnil, hcsw])))
      · exact .inr ⟨rfl, hahead _ (hfirst _ (by simp [Layout.stateStores, Layout.ifCSWEnabled, hnil, hcsw]))⟩
  · exact .inr (.inr ⟨hk, ensureStateConsistency_eq fun store hstore => lastVersion_of_written hkeep
      (hwritten store hstore)⟩)

/-- all storages are back at a block, with the contents that they had then; the one of the forging boxes may have been left -/
structure Recovered (p : Layout) (id : ModifierId) (old stop new : Storages C) : Prop where
  back : ∀ store ∈ p.stateStores ++ p.walletStores, store ≠ .forgingBoxesInfoStorage →
    ReturnsTo id (old store) (new store)
  forging : ReturnsTo id (old .forgingBoxesInfoStorage) (new .forgingBoxesInfoStorage) ∨
    (new .forgingBoxesInfoStorage = stop .forgingBoxesInfoStorage ∧ ∃ r, (new .forgingBoxesInfoStorage).versions = [r, id])

/-- the state has the best block of the history, and nothing of the wallet is written -/
theorem recovery_before {params : NetworkParams} (fuel : ℕ) {history : HistoryStorage} (hs : Settled p s best ahead)
    (hkeep : KeepsVersions p ahead) (hnew : NewVersions p s switch id) (hbest : bestBlockId params history = best) {k : ℕ}
    {s₁ : Storages C} (hstate : ensureStateConsistency p (stopped p s switch id contents k) = some (s₁, best))
    (hwritten : ∀ store ∈ written p switch k, store ∈ p.stateStores)
    (hback : ∀ store ∈ p.stateStores, ReturnsTo best (stopped p s switch id contents k store) (s₁ store))
    (hkept : ∀ store, store ∉ p.stateStores → s₁ store = stopped p s switch id contents k store) :
    ((checkAndRecoverStorages p params fuel history (stopped p s switch id contents k)).isSome ↔
        ahead + min k switch.toList.length ≤ 1) ∧
      ∀ s' ∈ checkAndRecoverStorages p params fuel history (stopped p s switch id contents k),
        Recovered p best s (stopped p s switch id contents k) s' := by
  have hsettled := settled_switched hs hkeep hnew k
  have hother : ∀ store, store ∉ p.stateStores → s₁ store = switched p s switch k store := by
    intro store hstore
    rw [hkept store hstore, stopped_of_not_written fun hmem => hstore (hwritten store hmem)]
  have hdisjoint := List.disjoint_of_nodup_append (nodup_stores p)
  have hwallet : WalletSettled p s₁ best (ahead + min k switch.toList.length) := by
    refine ⟨fun store hstore hne => ?_, ?_⟩
    · rw [hother store fun hmem => hdisjoint hmem hstore]
      exact hsettled.last store hstore hne
    · rw [hother _ (forgingBoxesInfoStorage_not_mem p)]
      exact hsettled.forging
  have hforging := hkept _ (forgingBoxesInfoStorage_not_mem p)
  by_cases hahead : ahead + min k switch.toList.length ≤ 1
  · obtain ⟨s', hrecover, hsame, hrecovered⟩ := recover_wallet fuel hbest hstate hwallet hahead
    rw [hrecover]
    refine ⟨by simp [hahead], fun s'' hs'' => ?_⟩
    obtain rfl := Option.mem_some_iff.1 hs''
    refine ⟨fun store hstore hne => ?_, ?_⟩
    · rw [hsame store hne]
      by_cases hmem : store ∈ p.stateStores
      · exact returnsTo_stopped hs hnew (hback store hmem)
      · rw [hother store hmem, switched_of_ne hne]
        exact returnsTo_self (hs.last store ((List.mem_append.1 hstore).resolve_left hmem) hne)
    · rw [hforging] at hrecovered
      exact hrecovered.imp_left fun hreturns => returnsTo_stopped hs hnew hreturns
  · rw [recover_none hbest hstate hwallet (by omega)]
    exact ⟨by simp [hahead], fun s' hs' => absurd hs' (Option.not_mem_none s')⟩

/-- **A stop while a block is written.** For every node whose storages have the best block of its history, every block on top of
it (with or without a switch of the epoch), whatever it writes, and every number `k` of storages written when the node stops: the
next start succeeds exactly if the state has been written completely, or else if the storage of the forging boxes has no more than
one version after the best block, and the application keeps storages for its state or nothing of the block is written. The
storages are then those of the best block, with their contents. -/
theorem recovery_of_stop {params : NetworkParams} {history : HistoryStorage} {bs : List SidechainBlock}
    {tip block : SidechainBlock}
    (hc : Consistent params history bs tip) (hblock : block ∈ bs) (hpath : paths bs block.id = paths bs tip.id ++ [block])
    (hs : Settled p s tip.id ahead) (hkeep : KeepsVersions p ahead) (hnew : NewVersions p s switch block.id) {fuel : ℕ}
    (hfuel : 1 < fuel) (k : ℕ) :
    ((checkAndRecoverStorages p params fuel history (stopped p s switch block.id contents k)).isSome ↔
        switch.toList.length + p.stateStores.length ≤ k ∨
          (k ≤ switch.toList.length ∨ 0 < p.applicationStateStorages) ∧ ahead + min k switch.toList.length ≤ 1) ∧
      ∀ s' ∈ checkAndRecoverStorages p params fuel history (stopped p s switch block.id contents k),
        Recovered p tip.id s (stopped p s switch block.id contents k) s' := by
  have hself : tip ∈ paths bs tip.id := List.mem_of_getLast? (hc.tree.grown.path_last hc.active.mem)
  rcases ensureStateConsistency_stopped hs hkeep hnew contents k with
    ⟨hk, htells, hwritten, s₁, hstate, hback, hkept⟩ | ⟨hk, hsilent, hstate⟩ | ⟨hk, hstate⟩
  · obtain ⟨hiff, hrecovered⟩ := recovery_before fuel hs hkeep hnew hc.bestBlockId_eq hstate hwritten hback hkept
    exact ⟨hiff.trans ⟨fun hahead => .inr ⟨htells, hahead⟩, fun h => (h.resolve_left (by omega)).2⟩, hrecovered⟩
  · have hrecover : checkAndRecoverStorages p params fuel history (stopped p s switch block.id contents k) = none := by
      rw [checkAndRecoverStorages, hstate]
      rfl
    rw [hrecover]
    exact ⟨⟨fun h => absurd h Bool.false_ne_true, fun h => absurd (h.resolve_left (by omega)).1 hsilent⟩,
      fun s' hs' => absurd hs' (Option.not_mem_none s')⟩
  · have hdisjoint : ∀ x ∈ [block], x ∉ paths bs tip.id := by
      intro x hx hmem
      rw [List.mem_singleton.1 hx] at hmem
      have hnodup := hc.tree.grown.path_nodup hblock
      rw [show Node.id block = block.id from rfl, hpath, List.map_append] at hnodup
      exact List.disjoint_of_nodup_append hnodup (List.mem_map_of_mem hmem) (by simp)
    have hne : bestBlockId params history ≠ block.id := fun heq => block_ne hs hnew (heq.symm.trans hc.bestBlockId_eq)
    obtain ⟨s', hrecover, hs'⟩ := recover_back hstate hne (hc.chainBack_eq hblock hself hpath hdisjoint hfuel [])
      fun store hstore => mem_stopped hs hkeep hnew hstore
    have hreturns : ∀ store ∈ p.stateStores ++ p.walletStores, ReturnsTo tip.id (s store) (s' store) := by
      intro store hstore
      rw [hs' store hstore]
      exact returnsTo_stopped hs hnew (returnsTo_rollback (mem_stopped hs hkeep hnew hstore))
    rw [hrecover]
    refine ⟨by simp [hk], fun s'' hs'' => ?_⟩
    obtain rfl := Option.mem_some_iff.1 hs''
    exact ⟨fun store hstore _ => hreturns store hstore, .inl (hreturns _ (forgingBoxesInfoStorage_mem p))⟩

end Stopped

/-! Two blocks are applied, and a third one is stored. Every storage keeps five versions; the application has two storages for its
state and one for its wallet. -/

def sampleLayout : Layout := ⟨true, 2, 1, fun _ => 5⟩

def sampleStorages : Storages ℕ := fun _ => ⟨0, [(2, 20), (1, 10)]⟩

def takesAll (_ : HistoryStorage) (_ : SidechainBlock) : Bool := true

/-- the history with a block that is not applied -/
def storing (block : SidechainBlock) : HistoryStorage :=
  (exec (append sampleParams takesAll 10 block) (historyOf sampleParams ownBlocks)).2

theorem consistent_storing {block : SidechainBlock} (hparent : ∃ a ∈ ownBlocks, a.id = block.parentId)
    (hfresh : ∀ x ∈ ownBlocks, x.id ≠ block.id) (hcont : Continues (paths ownBlocks block.parentId) block) :
    Consistent sampleParams (storing block) (ownBlocks ++ [block]) (onTop 2 1) := by
  obtain ⟨a, ha, hid⟩ := hparent
  have htaken : takesAll (historyOf sampleParams ownBlocks) block = true := rfl
  have hfuel : ownBlocks.length < 10 := by decide
  obtain ⟨progress, s', hexec, -, hconsistent, -⟩ := consistent_ownBlocks.1.exec_append ha hid hfresh hcont htaken hfuel
  rw [storing, hexec]
  exact hconsistent

theorem settled_sample : Settled sampleLayout sampleStorages 2 0 :=
  ⟨⟨fun _ _ _ => rfl, [], 20, [(1, 10)], rfl, by simp, rfl⟩, fun _ _ => rfl⟩

theorem newVersions_sample : NewVersions sampleLayout sampleStorages (some (99, 0)) 3 :=
  ⟨fun _ _ => by simp [sampleStorages, Snapshots.versions], by simp [sampleStorages, Snapshots.versions]⟩

theorem keepsVersions_sample : KeepsVersions sampleLayout 0 := ⟨fun _ => by simp [sampleLayout], by simp [sampleLayout]⟩

/-- the epoch is switched, and the application has written its state, when the node stops -/
theorem recovery_of_stop_sample : ∃ s', checkAndRecoverStorages sampleLayout sampleParams 10 (storing (onTop 3 2))
    (stopped sampleLayout sampleStorages (some (99, 0)) 3 (fun _ => 30) 3) = some s' ∧
      (s' .stateStorage).lastVersion = some 2 := by
  have hconsistent : Consistent sampleParams (storing (onTop 3 2)) (ownBlocks ++ [onTop 3 2]) (onTop 2 1) :=
    consistent_storing ⟨onTop 2 1, by simp [ownBlocks], rfl⟩ (by simp [ownBlocks, sampleGenesisBlock, onTop])
      ⟨by simp [SidechainBlock.mainchainParent, onTop], List.nodup_singleton 10, List.prefix_refl [10]⟩
  have hblock : onTop 3 2 ∈ ownBlocks ++ [onTop 3 2] := by simp
  have hfuel : 1 < 10 := by decide
  obtain ⟨hiff, hrecovered⟩ :=
    recovery_of_stop hconsistent hblock rfl settled_sample keepsVersions_sample newVersions_sample hfuel 3
  obtain ⟨s', hs'⟩ := Option.isSome_iff_exists.1 (hiff.2 (.inr ⟨.inr (by decide), by decide⟩))
  exact ⟨s', hs', ((hrecovered s' hs').back .stateStorage (by decide) (by decide)).lastVersion⟩

end SidechainsSdk.Node.CrashRecovery
