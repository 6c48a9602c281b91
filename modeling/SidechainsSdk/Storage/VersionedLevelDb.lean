/-
The versioned key-value store (`storage/leveldb/VersionedLDBKVStore.scala`) and the storage the node uses it through
(`VersionedLevelDbStorageAdapter.scala`).

LevelDB is a sorted map of byte strings; a write batch is atomic and its operations take effect in order. The database
holds the data, one change set under each retained version id, and the list of these ids under `versionsKey`, which is the
hash of a fixed text and a parameter here. `keepVersions` is an `Int`: the length at which the list of versions is cut is
the `Int` product of the id length and `keepVersions`.
-/
import Mathlib.Tactic
import SidechainsSdk.Core.Snapshots
import SidechainsSdk.Storage.ChangeSet

namespace SidechainsSdk.Storage

open Fallible WriteOp

/-- `Constants.HashLength` -/
def HashLength : Int32 := 32

/-- the length of a version id -/
abbrev idLength : ℕ := HashLength.toNatClampNeg

def ChangeSetPrefix : UInt8 := 0x16

/-- `grouped`: pieces of length `n`, the last one possibly shorter -/
def groupedFuel {α : Type} (n : ℕ) : ℕ → List α → List (List α)
  | 0, _ => []
  | fuel + 1, l => if l = [] then [] else l.take n :: groupedFuel n fuel (l.drop n)

def grouped {α : Type} (n : ℕ) (l : List α) : List (List α) := groupedFuel n l.length l

/-- the parameters a store is opened with -/
structure StoreSettings where
  keepVersions : Int32
  versionsKey : Bytes

/-- `splitAt` on the bytes of the version list, at `HashLength * keepVersions` -/
def StoreSettings.cut (p : StoreSettings) : ℕ := (HashLength * p.keepVersions).toNatClampNeg

namespace VersionedLDBKVStore

variable [VLQ] (p : StoreSettings)

def versions (db : DB) : List Bytes := (db[p.versionsKey]?.map (grouped idLength)).getD []

/-- the version list with a new id in front -/
def withVersion (db : DB) (version : Bytes) : Bytes := (db[p.versionsKey]?.map (version ++ ·)).getD version

def update (toInsert : List (Bytes × Bytes)) (toRemove : List Bytes) (version : Bytes) :
    Fallible StorageException DB Unit := do
  throwIf (version.length ≠ idLength) .illegalVersionIdSize
  let db ← get
  throwIf (db[version]?.isSome) .versionIdAlreadyUsed
  let changeSet := ChangeSet.changes db toInsert toRemove
  let allVersions ← orThrow (javaArray (withVersion p db version))
  let updatedVersions := allVersions.take p.cut
  let versionIdsToShrink := grouped idLength (allVersions.drop p.cut)
  let changeSetBytes ← orThrow changeSet.toBytes
  let undo ← orThrow (javaArray (ChangeSetPrefix :: changeSetBytes))
  modify (write ([put p.versionsKey updatedVersions] ++ versionIdsToShrink.map delete ++ [put version undo] ++
    ChangeSet.updateBatch toInsert toRemove))

/-- the change set stored under a version -/
def changeSetOf (db : DB) (verId : Bytes) : Except StorageException (Bytes × ChangeSet) :=
  match db[verId]?.bind fun changeSetBytes => ChangeSet.parseBytesTry changeSetBytes.tail with
  | some changeSet => .ok (verId, changeSet)
  | none => .error .inconsistentState

/-- the inner result is the returned `Try`; an exception thrown inside is not caught -/
def rollbackTo (versionId : Bytes) : Fallible StorageException DB (Except StorageException Unit) := do
  let db ← get
  match db[p.versionsKey]? with
  | some bytes =>
    let versionsToRollBack := (grouped idLength bytes).takeWhile (· ≠ versionId)
    let changeSets ← orThrow (versionsToRollBack.mapM (changeSetOf db))
    let updatedVersions := ((grouped idLength bytes).dropWhile (· ≠ versionId)).flatten
    modify (write (changeSets.flatMap (fun c => c.2.revertBatch ++ [delete c.1]) ++
      [put p.versionsKey updatedVersions]))
    pure (.ok ())
  | none => pure (.error .versionNotFound)

end VersionedLDBKVStore

namespace VersionedLevelDbStorageAdapter

open VersionedLDBKVStore

variable [VLQ] (p : StoreSettings)

def getAll (db : DB) : List (Bytes × Bytes) :=
  db.toList.filter fun kv => kv.1 ∉ p.versionsKey :: versions p db

def get? (db : DB) (key : Bytes) : Option Bytes := db[key]?

def update (version : Bytes) (toUpdate : List (Bytes × Bytes)) (toRemove : List Bytes) :
    Fallible StorageException DB Unit := do
  throwIf (version ∈ ChangeSet.updateKeys toUpdate toRemove) .versionUsedAsKey
  throwIf (¬ (toUpdate.map Prod.fst).Nodup) .duplicateKeyInUpdate
  throwIf (¬ toRemove.Nodup) .duplicateKeyInRemove
  let db ← get
  throwIf (version ∈ versions p db) .versionAlreadyExist
  VersionedLDBKVStore.update p toUpdate toRemove version

def rollback (versionID : Bytes) : Fallible StorageException DB Unit := do
  let db ← get
  if versionID ∈ versions p db then
    let _ ← rollbackTo p versionID
    pure ()
  else throw .rollbackToNonExistVersion

end VersionedLevelDbStorageAdapter

/-- a call of the storage -/
inductive Call where
  | update (version : Bytes) (toUpdate : List (Bytes × Bytes)) (toRemove : List Bytes)
  | rollback (version : Bytes)

/-- the call made on the database -/
def Call.exec [VLQ] (p : StoreSettings) : Call → Fallible StorageException DB Unit
  | .update version toUpdate toRemove => VersionedLevelDbStorageAdapter.update p version toUpdate toRemove
  | .rollback version => VersionedLevelDbStorageAdapter.rollback p version

end SidechainsSdk.Storage
