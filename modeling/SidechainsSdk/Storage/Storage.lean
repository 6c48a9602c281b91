/-
The storage as the classes above it see it (`storage/Storage.java`): a stack of maps. The checks of an update are those of
the LevelDB adapter; it may also refuse an update for reasons of its own, and then nothing changes.

- `update_simulated`: what the LevelDB adapter does to a database is what this storage does to the stack it holds.
-/
import Mathlib.Tactic
import SidechainsSdk.Core.Contracts
import SidechainsSdk.Storage.SnapshotRefinement

namespace SidechainsSdk.Storage

open Fallible

/-- the contents of the retained versions -/
abbrev Versioned := Snapshots Bytes DB

/-- how many versions are kept, and which updates fail inside the database -/
structure Backend where
  keep : ℕ
  keep_pos : 0 < keep
  fails : Versioned → Bytes → List (Bytes × Bytes) → List Bytes → Bool

namespace Versioned

def update (b : Backend) (version : Bytes) (toUpdate : List (Bytes × Bytes)) (toRemove : List Bytes) :
    Fallible StorageException Versioned Unit := do
  throwIf (version ∈ ChangeSet.updateKeys toUpdate toRemove) .versionUsedAsKey
  throwIf (¬ (toUpdate.map Prod.fst).Nodup) .duplicateKeyInUpdate
  throwIf (¬ toRemove.Nodup) .duplicateKeyInRemove
  let s ← get
  throwIf (version ∈ s.versions) .versionAlreadyExist
  throwIf (b.fails s version toUpdate toRemove = true) .backendFailure
  modify fun s => s.push b.keep version (applyChanges s.current toUpdate toRemove)

def rollback (version : Bytes) : Fallible StorageException Versioned Unit := do
  let s ← get
  throwIf (version ∉ s.versions) .rollbackToNonExistVersion
  modify (Snapshots.rollback version)

theorem exec_update_ok {b : Backend} {version : Bytes} {toUpdate : List (Bytes × Bytes)} {toRemove : List Bytes}
    {s s' : Versioned} {u : Unit} (h : exec (update b version toUpdate toRemove) s = (.ok u, s')) :
    (toUpdate.map Prod.fst).Nodup ∧ toRemove.Nodup ∧ version ∉ s.versions ∧
      s' = s.push b.keep version (applyChanges s.current toUpdate toRemove) := by
  simp only [update, exec_throwIf_bind_ok, exec_get_bind, exec_modify, Prod.mk.injEq, true_and] at h
  obtain ⟨-, hupdate, hremove, hversion, -, rfl⟩ := h
  exact ⟨not_not.1 hupdate, not_not.1 hremove, hversion, rfl⟩

/-- when an update is carried out -/
structure Accepts (b : Backend) (version : Bytes) (toUpdate : List (Bytes × Bytes)) (toRemove : List Bytes)
    (s : Versioned) : Prop where
  notKey : version ∉ ChangeSet.updateKeys toUpdate toRemove
  updates : (toUpdate.map Prod.fst).Nodup
  removes : toRemove.Nodup
  fresh : version ∉ s.versions
  works : b.fails s version toUpdate toRemove = false

theorem exec_update_of_accepts {b : Backend} {version : Bytes} {toUpdate : List (Bytes × Bytes)} {toRemove : List Bytes}
    {s : Versioned} (h : Accepts b version toUpdate toRemove s) :
    exec (update b version toUpdate toRemove) s =
      (.ok (), s.push b.keep version (applyChanges s.current toUpdate toRemove)) := by
  simp only [update, exec_throwIf_bind_ok, exec_get_bind, exec_modify]
  exact ⟨h.notKey, not_not.2 h.updates, not_not.2 h.removes, h.fresh, by simp [h.works], trivial⟩

/-- an update that is refused has no effect -/
theorem exec_update_of_not_accepts {b : Backend} {version : Bytes} {toUpdate : List (Bytes × Bytes)}
    {toRemove : List Bytes} {s : Versioned} (h : ¬ Accepts b version toUpdate toRemove s) :
    ∃ e, exec (update b version toUpdate toRemove) s = (.error e, s) := by
  have hwp : wp (update b version toUpdate toRemove) (fun _ _ => False) (fun _ s' => s' = s) s := by
    simp only [update, wp_bind, wp_throwIf, wp_get, wp_modify]
    refine ⟨fun _ => trivial, fun hkey => ⟨fun _ => trivial, fun hupdate => ⟨fun _ => trivial, fun hremove =>
      ⟨fun _ => trivial, fun hversion => ⟨fun _ => trivial, fun hfails => ?_⟩⟩⟩⟩⟩
    exact h ⟨hkey, not_not.1 hupdate, not_not.1 hremove, hversion, by simpa using hfails⟩
  rcases hexec : exec (update b version toUpdate toRemove) s with ⟨r, s'⟩
  rw [wp, hexec] at hwp
  cases r with
  | ok u => exact hwp.elim
  | error e => exact ⟨e, by rw [show s' = s from hwp]⟩

theorem exec_rollback_ok {version : Bytes} {s s' : Versioned} {u : Unit}
    (h : exec (rollback version) s = (.ok u, s')) : version ∈ s.versions ∧ s' = Snapshots.rollback version s := by
  simp only [rollback, exec_throwIf_bind_ok, exec_get_bind, exec_modify, Prod.mk.injEq, true_and] at h
  obtain ⟨hversion, rfl⟩ := h
  exact ⟨not_not.1 hversion, rfl⟩

/-- an update of the adapter is one of the storage, on the stack that the database holds -/
theorem update_simulated [VLQ] {p : StoreSettings} {Key : Bytes → Prop} {db db' : DB} {s : Versioned} {b : Backend}
    {version : Bytes} {toUpdate : List (Bytes × Bytes)} {toRemove : List Bytes} {u : Unit} (h : Refines p Key db s)
    (hlist : ¬ Key p.versionsKey) (hcut : p.cut = idLength * b.keep)
    (hadm : (Call.update version toUpdate toRemove).Admissible p Key)
    (hfails : b.fails s version toUpdate toRemove = false)
    (hexec : exec (VersionedLevelDbStorageAdapter.update p version toUpdate toRemove) db = (.ok u, db')) :
    ∃ s', exec (update b version toUpdate toRemove) s = (.ok u, s') ∧ Refines p Key db' s' := by
  refine ⟨_, ?_, h.update hlist b.keep_pos hadm.1 hcut hadm.2.1 hadm.2.2 hexec⟩
  simp only [VersionedLevelDbStorageAdapter.update, exec_throwIf_bind_ok, exec_get_bind, h.versions_eq] at hexec
  obtain ⟨hkey, hupdate, hremove, hversion, -⟩ := hexec
  simp only [update, exec_throwIf_bind_ok, exec_get_bind, exec_modify]
  exact ⟨hkey, hupdate, hremove, hversion, by simp [hfails], trivial⟩

end Versioned

end SidechainsSdk.Storage
