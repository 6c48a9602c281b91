/-
Blocks that cannot be applied (`SidechainState.applyModifier`). The comment over `applyChanges` asks for a rollback of the
application state if a step fails; the code returns the failure and leaves what is written.

- `SameStores`: the four stores with all their versions.
- `Reaches`: the checks before the first store is touched.
- `Outcome`, `writeAll_outcome`: what is written at each point where the application can stop.
- `failed_block_iff`: for which blocks a failure leaves the stores as they were.
-/
import Mathlib.Tactic
import SidechainsSdk.Utxo.SidechainState

namespace SidechainsSdk.Utxo

open Fallible Ledger
open Withdrawals (WithdrawalEpochInfo)
open Withdrawals.WithdrawalEpochUtils (isEpochLastIndex)
open SidechainState

/-- a storage that does not take a version -/
def Refuses {α : Type} (backend : Backend α) (storage : Snapshots ModifierId α) (version : ModifierId) (new : α) : Prop :=
  version ∈ storage.versions ∨ backend.fails storage version new = true

section Write

variable {α : Type} {backend : Backend α} {storage : Snapshots ModifierId α} {version : ModifierId} {new : α}

theorem write_refused (h : Refuses backend storage version new) :
    ∃ e, exec (SidechainState.write backend version new) storage = (.error e, storage) := by
  rw [SidechainState.write, exec_get_bind]
  by_cases hversion : version ∈ storage.versions
  · exact ⟨_, exec_throwIf_pos_bind hversion⟩
  · rw [exec_throwIf_neg_bind hversion]
    exact ⟨_, exec_throwIf_pos_bind (h.resolve_left hversion)⟩

theorem write_taken (h : ¬ Refuses backend storage version new) :
    exec (SidechainState.write backend version new) storage = (.ok (), storage.push backend.keep version new) := by
  obtain ⟨hversion, hfails⟩ := not_or.1 h
  rw [SidechainState.write, exec_get_bind, exec_throwIf_neg_bind hversion, exec_throwIf_neg_bind hfails, exec_modify]

end Write

namespace FailedBlocks

variable {σ τ : Type} (params : NetworkParams) (env : Externals σ τ) (s : SidechainState σ τ) (cs : BoxStateChanges)
  (d : BlockData) (keys : Option CertifiersKeys)

/-- the result of the callback, and the application state after it -/
def callbackResult : Except String Unit × σ := env.onApplyChanges s d.newVersion (s.boxesToAppend params env cs d) cs.toRemove

def newLeaves : Except String τ :=
  env.updateTree s.utxoMerkleTree.current ((s.boxesToAppend params env cs d).filter Box.isCoinsBox) cs.toRemove

def TreeRefuses : Prop :=
  params.isCSWEnabled ∧ ∀ leaves, newLeaves params env s cs d = .ok leaves →
    Refuses env.treeBackend s.utxoMerkleTree d.newVersion leaves

/-- the merkle tree storage after the block -/
def treeAfter : Snapshots ModifierId τ :=
  match params.isCSWEnabled, newLeaves params env s cs d with
  | true, .ok leaves => s.utxoMerkleTree.push env.treeBackend.keep d.newVersion leaves
  | _, _ => s.utxoMerkleTree

/-- the root that is stored with the last block of an epoch -/
def rootAfter : Option Hash :=
  if isEpochLastIndex d.withdrawalEpochInfo params.withdrawalEpochLength ∧ params.isCSWEnabled then
    some (env.getMerkleTreeRoot (treeAfter params env s cs d).current)
  else none

def storedUpdate : StateContents.Update := s.stateUpdate params env cs d (rootAfter params env s cs d) keys

def StateStorageRefuses : Prop :=
  ¬ s.contents.indexesInBounds (storedUpdate params env s cs d keys) ∨
    Refuses env.stateBackend s.stateStorage d.newVersion (s.contents.update params (storedUpdate params env s cs d keys))

def ForgerBoxStorageRefuses : Prop :=
  Refuses env.forgerBoxBackend s.forgerBoxStorage d.newVersion
    (s.forgerBoxStorage.current.update ((s.boxesToAppend params env cs d).filter Box.isForgerBox) cs.toRemove)

def afterCallback : SidechainState σ τ := { s with applicationState := (callbackResult params env s cs d).2 }

def afterTree : SidechainState σ τ :=
  { afterCallback params env s cs d with utxoMerkleTree := treeAfter params env s cs d }

def afterStateStorage : SidechainState σ τ :=
  { afterTree params env s cs d with
    stateStorage := s.stateStorage.push env.stateBackend.keep d.newVersion
      (s.contents.update params (storedUpdate params env s cs d keys)) }

/-- the steps of `applyChanges` from the callback on -/
def writeAll : Step σ τ Unit := do
  onApplyChanges env d.newVersion (s.boxesToAppend params env cs d) cs.toRemove
  updateUtxoMerkleTree params env d.newVersion (s.boxesToAppend params env cs d) cs.toRemove
  let updated ← get
  let utxoMerkleTreeRootOpt :=
    if isEpochLastIndex d.withdrawalEpochInfo params.withdrawalEpochLength ∧ params.isCSWEnabled then
      some (env.getMerkleTreeRoot updated.utxoMerkleTree.current)
    else none
  updateStateStorage params env (s.stateUpdate params env cs d utxoMerkleTreeRootOpt keys)
  updateForgerBoxStorage env d.newVersion ((s.boxesToAppend params env cs d).filter Box.isForgerBox) cs.toRemove
  modify fun s => { s with version := d.newVersion }

variable {params env s cs d keys}

theorem applyChanges_eq (hkeys : s.certifiersKeysToStore params d = .ok keys) :
    exec (applyChanges params env cs d) s = exec (writeAll params env s cs d keys) s := by
  rw [applyChanges, exec_get_bind, hkeys, exec_orThrow_value_bind]
  rfl

/-! ## The steps -/

theorem callback_failed {e : String} (h : (callbackResult params env s cs d).1 = .error e) :
    exec (writeAll params env s cs d keys) s = (.error e, afterCallback params env s cs d) := by
  have hrun : exec (onApplyChanges env d.newVersion (s.boxesToAppend params env cs d) cs.toRemove) s =
      (.error e, afterCallback params env s cs d) := Prod.ext h rfl
  rw [writeAll, exec_bind, hrun]

theorem callback_ok (h : (callbackResult params env s cs d).1 = .ok ()) :
    exec (onApplyChanges env d.newVersion (s.boxesToAppend params env cs d) cs.toRemove) s =
      (.ok (), afterCallback params env s cs d) := Prod.ext h rfl

/-- the callback does not touch the tree -/
theorem updateTree_afterCallback :
    env.updateTree (afterCallback params env s cs d).utxoMerkleTree.current
      ((s.boxesToAppend params env cs d).filter Box.isCoinsBox) cs.toRemove = newLeaves params env s cs d := rfl

theorem utxoMerkleTree_afterCallback : (afterCallback params env s cs d).utxoMerkleTree = s.utxoMerkleTree := rfl

theorem exists_leaves (hcsw : params.isCSWEnabled = true) (h : ¬ TreeRefuses params env s cs d) :
    ∃ leaves, newLeaves params env s cs d = .ok leaves ∧ ¬ Refuses env.treeBackend s.utxoMerkleTree d.newVersion leaves := by
  by_contra hnone
  refine h ⟨hcsw, ?_⟩
  intro leaves hleaves
  by_contra htaken
  exact hnone ⟨leaves, hleaves, htaken⟩

theorem tree_refused (h : TreeRefuses params env s cs d) :
    ∃ e, exec (updateUtxoMerkleTree params env d.newVersion (s.boxesToAppend params env cs d) cs.toRemove)
      (afterCallback params env s cs d) = (.error e, afterCallback params env s cs d) := by
  obtain ⟨hcsw, hrefuses⟩ := h
  rw [updateUtxoMerkleTree, if_pos hcsw, exec_get_bind, updateTree_afterCallback]
  cases hleaves : newLeaves params env s cs d with
  | error e => exact ⟨e, by rw [exec_bind, exec_orThrow]⟩
  | ok leaves =>
    obtain ⟨e, hwrite⟩ := write_refused (hrefuses leaves hleaves)
    refine ⟨e, ?_⟩
    rw [exec_orThrow_value_bind, exec_onPart, utxoMerkleTree_afterCallback, hwrite, ← utxoMerkleTree_afterCallback]

theorem tree_taken (h : ¬ TreeRefuses params env s cs d) :
    exec (updateUtxoMerkleTree params env d.newVersion (s.boxesToAppend params env cs d) cs.toRemove)
      (afterCallback params env s cs d) = (.ok (), afterTree params env s cs d) := by
  rw [updateUtxoMerkleTree, afterTree, treeAfter]
  by_cases hcsw : params.isCSWEnabled = true
  · obtain ⟨leaves, hleaves, htaken⟩ := exists_leaves hcsw h
    rw [if_pos hcsw, exec_get_bind, updateTree_afterCallback, hleaves, exec_orThrow_value_bind, exec_onPart,
      utxoMerkleTree_afterCallback, write_taken htaken, hcsw]
  · rw [if_neg hcsw, exec_pure, Bool.eq_false_of_not_eq_true hcsw]
    rfl

theorem stateStorage_refused (h : StateStorageRefuses params env s cs d keys) :
    ∃ e, exec (updateStateStorage params env (storedUpdate params env s cs d keys)) (afterTree params env s cs d) =
      (.error e, afterTree params env s cs d) := by
  have hcontents : (afterTree params env s cs d).contents = s.contents := rfl
  have hstorage : (afterTree params env s cs d).stateStorage = s.stateStorage := rfl
  rw [updateStateStorage, exec_get_bind, hcontents]
  by_cases hindexes : s.contents.indexesInBounds (storedUpdate params env s cs d keys) = true
  · obtain ⟨e, hwrite⟩ := write_refused (h.resolve_left (not_not.2 hindexes))
    refine ⟨e, ?_⟩
    rw [exec_throwIf_neg_bind (not_not.2 hindexes), exec_onPart, hstorage,
      show (storedUpdate params env s cs d keys).version = d.newVersion from rfl, hwrite, ← hstorage]
  · exact ⟨_, exec_throwIf_pos_bind hindexes⟩

theorem stateStorage_taken (h : ¬ StateStorageRefuses params env s cs d keys) :
    exec (updateStateStorage params env (storedUpdate params env s cs d keys)) (afterTree params env s cs d) =
      (.ok (), afterStateStorage params env s cs d keys) := by
  have hcontents : (afterTree params env s cs d).contents = s.contents := rfl
  have hstorage : (afterTree params env s cs d).stateStorage = s.stateStorage := rfl
  obtain ⟨hindexes, htaken⟩ := not_or.1 h
  rw [updateStateStorage, exec_get_bind, hcontents, exec_throwIf_neg_bind hindexes, exec_onPart, hstorage,
    show (storedUpdate params env s cs d keys).version = d.newVersion from rfl, write_taken htaken]
  rfl

theorem forgerBoxStorage_refused (h : ForgerBoxStorageRefuses params env s cs d) :
    ∃ e, exec (updateForgerBoxStorage env d.newVersion ((s.boxesToAppend params env cs d).filter Box.isForgerBox)
      cs.toRemove) (afterStateStorage params env s cs d keys) = (.error e, afterStateStorage params env s cs d keys) := by
  have hstorage : (afterStateStorage params env s cs d keys).forgerBoxStorage = s.forgerBoxStorage := rfl
  obtain ⟨e, hwrite⟩ := write_refused h
  refine ⟨e, ?_⟩
  rw [updateForgerBoxStorage, exec_get_bind, exec_onPart, hstorage, hwrite, ← hstorage]

theorem forgerBoxStorage_taken (h : ¬ ForgerBoxStorageRefuses params env s cs d) :
    ∃ s', exec (updateForgerBoxStorage env d.newVersion ((s.boxesToAppend params env cs d).filter Box.isForgerBox)
      cs.toRemove) (afterStateStorage params env s cs d keys) = (.ok (), s') := by
  have hstorage : (afterStateStorage params env s cs d keys).forgerBoxStorage = s.forgerBoxStorage := rfl
  rw [updateForgerBoxStorage, exec_get_bind, exec_onPart, hstorage, write_taken h]
  exact ⟨_, rfl⟩

/-! ## What is written when the application stops -/

/-- the callback and the tree are done -/
theorem writeAll_after_tree (hcallback : (callbackResult params env s cs d).1 = .ok ())
    (htree : ¬ TreeRefuses params env s cs d) :
    exec (writeAll params env s cs d keys) s = exec (do
      updateStateStorage params env (storedUpdate params env s cs d keys)
      updateForgerBoxStorage env d.newVersion ((s.boxesToAppend params env cs d).filter Box.isForgerBox) cs.toRemove
      modify fun s => { s with version := d.newVersion }) (afterTree params env s cs d) := by
  rw [writeAll, exec_bind_of_ok (callback_ok hcallback), exec_bind_of_ok (tree_taken htree), exec_get_bind]
  rfl

/-- where the application stops, and with which stores -/
inductive Outcome (params : NetworkParams) (env : Externals σ τ) (s : SidechainState σ τ) (cs : BoxStateChanges)
    (d : BlockData) (keys : Option CertifiersKeys) : Except String Unit × SidechainState σ τ → Prop where
  | callback {e : String} : (callbackResult params env s cs d).1 = .error e →
      Outcome params env s cs d keys (.error e, afterCallback params env s cs d)
  | tree {e : String} : (callbackResult params env s cs d).1 = .ok () → TreeRefuses params env s cs d →
      Outcome params env s cs d keys (.error e, afterCallback params env s cs d)
  | stateStorage {e : String} : (callbackResult params env s cs d).1 = .ok () → ¬ TreeRefuses params env s cs d →
      StateStorageRefuses params env s cs d keys → Outcome params env s cs d keys (.error e, afterTree params env s cs d)
  | forgerBoxStorage {e : String} : (callbackResult params env s cs d).1 = .ok () → ¬ TreeRefuses params env s cs d →
      ¬ StateStorageRefuses params env s cs d keys → ForgerBoxStorageRefuses params env s cs d →
      Outcome params env s cs d keys (.error e, afterStateStorage params env s cs d keys)
  | applied {s' : SidechainState σ τ} : (callbackResult params env s cs d).1 = .ok () → ¬ TreeRefuses params env s cs d →
      ¬ StateStorageRefuses params env s cs d keys → ¬ ForgerBoxStorageRefuses params env s cs d →
      Outcome params env s cs d keys (.ok (), s')

theorem writeAll_outcome (params : NetworkParams) (env : Externals σ τ) (s : SidechainState σ τ) (cs : BoxStateChanges)
    (d : BlockData) (keys : Option CertifiersKeys) :
    Outcome params env s cs d keys (exec (writeAll params env s cs d keys) s) := by
  cases hcallback : (callbackResult params env s cs d).1 with
  | error e =>
    rw [callback_failed hcallback]
    exact .callback hcallback
  | ok =>
    by_cases htree : TreeRefuses params env s cs d
    · obtain ⟨e, hrun⟩ := tree_refused htree
      rw [writeAll, exec_bind_of_ok (callback_ok hcallback), exec_bind, hrun]
      exact .tree hcallback htree
    rw [writeAll_after_tree hcallback htree]
    by_cases hstate : StateStorageRefuses params env s cs d keys
    · obtain ⟨e, hrun⟩ := stateStorage_refused hstate
      rw [exec_bind, hrun]
      exact .stateStorage hcallback htree hstate
    rw [exec_bind_of_ok (stateStorage_taken hstate)]
    by_cases hforger : ForgerBoxStorageRefuses params env s cs d
    · obtain ⟨e, hrun⟩ := forgerBoxStorage_refused hforger
      rw [exec_bind, hrun]
      exact .forgerBoxStorage hcallback htree hstate hforger
    · obtain ⟨s', hrun⟩ := forgerBoxStorage_taken hforger
      rw [exec_bind_of_ok hrun, exec_modify]
      exact .applied hcallback htree hstate hforger

/-! ## Failures -/

/-- the stores with all their versions -/
structure SameStores (s s' : SidechainState σ τ) : Prop where
  applicationState : s'.applicationState = s.applicationState
  utxoMerkleTree : s'.utxoMerkleTree = s.utxoMerkleTree
  stateStorage : s'.stateStorage = s.stateStorage
  forgerBoxStorage : s'.forgerBoxStorage = s.forgerBoxStorage

/-- the block passes all checks before the callback -/
structure Reaches (params : NetworkParams) (env : Externals σ τ) (s : SidechainState σ τ) (mod : SidechainBlock)
    (info : WithdrawalEpochInfo) (consensusEpoch : ℕ) (keys : Option CertifiersKeys) : Prop where
  validated : s.validate params env mod = .ok ()
  info_eq : Withdrawals.WithdrawalEpochUtils.getWithdrawalEpochInfo mod.mainchainBlockReferencesData.length
    s.getWithdrawalEpochInfo params.withdrawalEpochLength = .ok info
  epoch_eq : env.timeStampToEpochNumber mod.timestamp = .ok consensusEpoch
  keys_eq : s.certifiersKeysToStore params (blockData params mod info consensusEpoch) = .ok keys

/-- no store keeps anything of a block that fails: the callback leaves no trace if it or a later step fails, no storage
fails after the merkle tree is written, and the storage of forger boxes does not fail -/
structure LeavesNoTrace (params : NetworkParams) (env : Externals σ τ) (s : SidechainState σ τ) (cs : BoxStateChanges)
    (d : BlockData) (keys : Option CertifiersKeys) : Prop where
  callback : (callbackResult params env s cs d).1 ≠ .ok () → (callbackResult params env s cs d).2 = s.applicationState
  tree : (callbackResult params env s cs d).1 = .ok () → TreeRefuses params env s cs d →
    (callbackResult params env s cs d).2 = s.applicationState
  stateStorage : (callbackResult params env s cs d).1 = .ok () → ¬ TreeRefuses params env s cs d →
    StateStorageRefuses params env s cs d keys →
    (callbackResult params env s cs d).2 = s.applicationState ∧ params.isCSWEnabled = false
  forgerBoxStorage : (callbackResult params env s cs d).1 = .ok () → ¬ TreeRefuses params env s cs d →
    ¬ StateStorageRefuses params env s cs d keys → ¬ ForgerBoxStorageRefuses params env s cs d

theorem treeAfter_of_disabled (h : params.isCSWEnabled = false) : treeAfter params env s cs d = s.utxoMerkleTree := by
  rw [treeAfter, h]

theorem treeAfter_ne (hcsw : params.isCSWEnabled = true) (h : ¬ TreeRefuses params env s cs d) :
    treeAfter params env s cs d ≠ s.utxoMerkleTree := by
  obtain ⟨leaves, hleaves, htaken⟩ := exists_leaves hcsw h
  rw [treeAfter, hcsw, hleaves]
  exact Snapshots.push_ne env.treeBackend.keep_pos (not_or.1 htaken).1 leaves

theorem writeAll_leavesNoTrace_iff :
    (∀ e s', exec (writeAll params env s cs d keys) s = (.error e, s') → SameStores s s') ↔
      LeavesNoTrace params env s cs d keys := by
  have houtcome := writeAll_outcome params env s cs d keys
  generalize exec (writeAll params env s cs d keys) s = r at houtcome
  constructor
  · intro hsame
    cases houtcome with
    | callback hfail =>
      refine ⟨fun _ => (hsame _ _ rfl).applicationState, ?_, ?_, ?_⟩
      · intro hok
        rw [hfail] at hok
        cases hok
      · intro hok
        rw [hfail] at hok
        cases hok
      · intro hok
        rw [hfail] at hok
        cases hok
    | tree hok htree =>
      exact ⟨fun hfail => absurd hok hfail, fun _ _ => (hsame _ _ rfl).applicationState,
        fun _ hnot => absurd htree hnot, fun _ hnot => absurd htree hnot⟩
    | stateStorage hok htree hstate =>
      refine ⟨fun hfail => absurd hok hfail, fun _ hrefuses => absurd hrefuses htree, ?_, fun _ _ hnot => absurd hstate hnot⟩
      intro _ _ _
      refine ⟨(hsame _ _ rfl).applicationState, ?_⟩
      by_contra hcsw
      exact treeAfter_ne (by simpa using hcsw) htree (hsame _ _ rfl).utxoMerkleTree
    | forgerBoxStorage hok htree hstate hforger =>
      refine absurd (hsame _ _ rfl).stateStorage ?_
      exact Snapshots.push_ne env.stateBackend.keep_pos (not_or.1 (not_or.1 hstate).2).1 _
    | applied hok htree hstate hforger =>
      exact ⟨fun hfail => absurd hok hfail, fun _ hrefuses => absurd hrefuses htree,
        fun _ _ hrefuses => absurd hrefuses hstate, fun _ _ _ => hforger⟩
  · rintro htrace e s' hr
    cases houtcome with
    | callback hfail =>
      obtain rfl := (Prod.mk.inj hr).2
      exact ⟨htrace.callback (by rw [hfail]; exact nofun), rfl, rfl, rfl⟩
    | tree hok htree =>
      obtain rfl := (Prod.mk.inj hr).2
      exact ⟨htrace.tree hok htree, rfl, rfl, rfl⟩
    | stateStorage hok htree hstate =>
      obtain rfl := (Prod.mk.inj hr).2
      obtain ⟨happ, hcsw⟩ := htrace.stateStorage hok htree hstate
      exact ⟨happ, treeAfter_of_disabled hcsw, rfl, rfl⟩
    | forgerBoxStorage hok htree hstate hforger => exact absurd hforger (htrace.forgerBoxStorage hok htree hstate)
    | applied => cases hr

theorem applyModifier_cases (params : NetworkParams) (env : Externals σ τ) (s : SidechainState σ τ) (mod : SidechainBlock) :
    (∃ info consensusEpoch keys, Reaches params env s mod info consensusEpoch keys ∧
      exec (applyModifier params env mod) s =
        exec (writeAll params env s (changes mod) (blockData params mod info consensusEpoch) keys) s) ∨
      (∀ info consensusEpoch keys, ¬ Reaches params env s mod info consensusEpoch keys) ∧
        ∃ e, exec (applyModifier params env mod) s = (.error e, s) := by
  rw [applyModifier, exec_get_bind]
  cases hvalid : s.validate params env mod with
  | error e =>
    refine .inr ⟨?_, e, by rw [exec_bind, exec_orThrow]⟩
    intro info consensusEpoch keys h
    rw [h.validated] at hvalid
    cases hvalid
  | ok =>
    rw [exec_orThrow_value_bind]
    cases hinfo : Withdrawals.WithdrawalEpochUtils.getWithdrawalEpochInfo mod.mainchainBlockReferencesData.length
        s.getWithdrawalEpochInfo params.withdrawalEpochLength with
    | error e =>
      refine .inr ⟨?_, e, by rw [exec_bind, exec_orThrow]⟩
      intro info consensusEpoch keys h
      rw [h.info_eq] at hinfo
      cases hinfo
    | ok info =>
      rw [exec_orThrow_value_bind]
      cases hepoch : env.timeStampToEpochNumber mod.timestamp with
      | error e =>
        refine .inr ⟨?_, e, by rw [exec_bind, exec_orThrow]⟩
        intro info consensusEpoch keys h
        rw [h.epoch_eq] at hepoch
        cases hepoch
      | ok consensusEpoch =>
        rw [exec_orThrow_value_bind]
        cases hkeys : s.certifiersKeysToStore params (blockData params mod info consensusEpoch) with
        | error e =>
          refine .inr ⟨?_, e, by rw [applyChanges, exec_get_bind, hkeys, exec_bind, exec_orThrow]⟩
          intro info' consensusEpoch' keys h
          have hkeys' := h.keys_eq
          obtain rfl := Except.ok.inj (hinfo.symm.trans h.info_eq)
          obtain rfl := Except.ok.inj (hepoch.symm.trans h.epoch_eq)
          rw [hkeys] at hkeys'
          cases hkeys'
        | ok keys => exact .inl ⟨info, consensusEpoch, keys, ⟨hvalid, hinfo, hepoch, hkeys⟩, applyChanges_eq hkeys⟩

/-- **Failed blocks.** A block that fails leaves the application state, the merkle tree storage, the state storage and the
storage of forger boxes as they were if and only if `LeavesNoTrace` holds where its application starts. -/
theorem failed_block_iff (params : NetworkParams) (env : Externals σ τ) (s : SidechainState σ τ) (mod : SidechainBlock) :
    (∀ e s', exec (applyModifier params env mod) s = (.error e, s') → SameStores s s') ↔
      ∀ info consensusEpoch keys, Reaches params env s mod info consensusEpoch keys →
        LeavesNoTrace params env s (changes mod) (blockData params mod info consensusEpoch) keys := by
  rcases applyModifier_cases params env s mod with ⟨info, consensusEpoch, keys, hreaches, hrun⟩ | ⟨hnot, e, hrun⟩
  · rw [hrun, writeAll_leavesNoTrace_iff]
    constructor
    · intro htrace info' consensusEpoch' keys' h
      have hkeys := h.keys_eq
      obtain rfl := Except.ok.inj (hreaches.info_eq.symm.trans h.info_eq)
      obtain rfl := Except.ok.inj (hreaches.epoch_eq.symm.trans h.epoch_eq)
      obtain rfl := Except.ok.inj (hreaches.keys_eq.symm.trans hkeys)
      exact htrace
    · intro hall
      exact hall info consensusEpoch keys hreaches
  · rw [hrun]
    constructor
    · intro _ info consensusEpoch keys h
      exact absurd h (hnot info consensusEpoch keys)
    · intro _ e' s' hr
      obtain rfl := (Prod.mk.inj hr).2
      exact ⟨rfl, rfl, rfl, rfl⟩

/-- the storage of forger boxes fails: an error of its disk -/
def failingExternals : Externals Unit Unit :=
  { sampleExternals with forgerBoxBackend := ⟨10, ten_pos, fun _ _ _ => true⟩ }

/-- the genesis block is in the state storage, and not in the storage of forger boxes -/
theorem failed_genesis_is_stored :
    (∃ e s', exec (applyModifier sampleParams failingExternals sampleGenesis) sampleState = (.error e, s') ∧
      s'.stateStorage.versions = [1] ∧ s'.forgerBoxStorage.versions = []) ∧
    ¬ ∀ (env : Externals Unit Unit) (s : SidechainState Unit Unit) (mod : SidechainBlock) (e : String)
      (s' : SidechainState Unit Unit), exec (applyModifier sampleParams env mod) s = (.error e, s') → SameStores s s' := by
  have hrun : ∃ e s', exec (applyModifier sampleParams failingExternals sampleGenesis) sampleState = (.error e, s') ∧
      s'.stateStorage.versions = [1] ∧ s'.forgerBoxStorage.versions = [] := ⟨_, _, rfl, rfl, rfl⟩
  refine ⟨hrun, ?_⟩
  intro hclaim
  obtain ⟨e, s', hfail, hversions, -⟩ := hrun
  have hsame := (hclaim _ _ _ e s' hfail).stateStorage
  rw [hsame] at hversions
  cases hversions

end FailedBlocks

end SidechainsSdk.Utxo
