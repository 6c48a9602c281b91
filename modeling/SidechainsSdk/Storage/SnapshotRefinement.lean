/-
The versioned store refines a stack of maps.

The reference (`Call.reference`) is a stack of snapshots, one map for each of the last `keepVersions` versions.
`Refines` ties a database to it: the data keys hold the newest snapshot, the version list names the stack, and the change
set stored under a version leads from its snapshot to the one below.

- `Refines.update`, `Refines.rollback`: one call keeps the relation.
- `refines_of_reachable`: so does every run.
- `storage_refines_snapshots`: what this says about the storage's answers.
- `storage_forgets_versions`: from `2 ^ 26` kept versions on the product with the id length overflows, and the versions
  are dropped as soon as they are made.
-/
import Mathlib.Tactic
import SidechainsSdk.Core.Contracts
import SidechainsSdk.Storage.VersionedLevelDb

namespace SidechainsSdk.Storage

open Fallible WriteOp

/-- the contents after an update -/
def applyChanges (m : DB) (toUpdate : List (Bytes × Bytes)) (toRemove : List Bytes) : DB :=
  toRemove.foldl (fun m k => m.erase k) (toUpdate.foldl (fun m x => m.insert x.1 x.2) m)

/-- the reference: a stack of maps, of which the last `keep` are retained -/
def Call.reference (keep : ℕ) (s : Snapshots Bytes DB) : Call → Snapshots Bytes DB
  | .update version toUpdate toRemove => s.push keep version (applyChanges s.current toUpdate toRemove)
  | .rollback version => s.rollback version

theorem getElem?_applyChanges (m : DB) (toUpdate : List (Bytes × Bytes)) (toRemove : List Bytes) (k : Bytes) :
    (applyChanges m toUpdate toRemove)[k]? = writeAt (ChangeSet.updateBatch toUpdate toRemove) k m[k]? := by
  have hwrite : applyChanges m toUpdate toRemove = write (ChangeSet.updateBatch toUpdate toRemove) m := by
    unfold applyChanges write ChangeSet.updateBatch
    rw [List.foldl_append, List.foldl_map, List.foldl_map]
    rfl
  rw [hwrite, getElem?_write]

/-! The version list as bytes. -/

section Grouped

variable {α : Type} {n : ℕ}

theorem groupedFuel_flatten (hn : 0 < n) {ls : List (List α)} (hlen : ∀ l ∈ ls, l.length = n) (fuel : ℕ)
    (hfuel : ls.flatten.length ≤ fuel) : groupedFuel n fuel ls.flatten = ls := by
  induction ls generalizing fuel with
  | nil => cases fuel <;> rfl
  | cons l ls ih =>
    have hl : l.length = n := hlen l List.mem_cons_self
    rw [List.flatten_cons, List.length_append] at hfuel
    obtain ⟨fuel, rfl⟩ := Nat.exists_eq_succ_of_ne_zero (show fuel ≠ 0 by omega)
    have hne : l ++ ls.flatten ≠ [] := by
      intro hnil
      have hzero := congrArg List.length hnil
      rw [List.length_append] at hzero
      simp only [List.length_nil] at hzero
      omega
    rw [List.flatten_cons, groupedFuel, if_neg hne, List.take_left' hl, List.drop_left' hl,
      ih (fun l' hl' => hlen l' (List.mem_cons_of_mem _ hl')) fuel (by omega)]

theorem grouped_flatten (hn : 0 < n) {ls : List (List α)} (hlen : ∀ l ∈ ls, l.length = n) :
    grouped n ls.flatten = ls := groupedFuel_flatten hn hlen _ le_rfl

theorem take_flatten {ls : List (List α)} (hlen : ∀ l ∈ ls, l.length = n) (keep : ℕ) :
    ls.flatten.take (n * keep) = (ls.take keep).flatten := by
  induction keep generalizing ls with
  | zero => simp
  | succ keep ih =>
    cases ls with
    | nil => simp
    | cons l ls =>
      have hl : l.length = n := hlen l List.mem_cons_self
      have hsplit : n * (keep + 1) = l.length + n * keep := by
        rw [hl]
        ring
      rw [List.flatten_cons, hsplit, List.take_length_add_append, ih fun l' hl' => hlen l' (List.mem_cons_of_mem _ hl')]
      rfl

theorem drop_flatten {ls : List (List α)} (hlen : ∀ l ∈ ls, l.length = n) (keep : ℕ) :
    ls.flatten.drop (n * keep) = (ls.drop keep).flatten := by
  have htake : (ls.take keep).flatten ++ ls.flatten.drop (n * keep) = (ls.take keep).flatten ++ (ls.drop keep).flatten := by
    rw [← take_flatten hlen, List.take_append_drop, take_flatten hlen, ← List.flatten_append, List.take_append_drop]
  exact List.append_cancel_left htake

end Grouped

/-! The relation. -/

section Relation

variable [VLQ] (p : StoreSettings) (Key : Bytes → Prop)

open VersionedLDBKVStore

/-- the change set stored under a version leads to the contents of the version before -/
def Undoes (db : DB) (newer older : Bytes × DB) : Prop :=
  ∃ cs, changeSetOf db newer.1 = .ok (newer.1, cs) ∧ (∀ op ∈ cs.revertBatch, Key op.key) ∧
    ∀ k, writeAt cs.revertBatch k newer.2[k]? = older.2[k]?

/-- contents at data keys only -/
def OnKeys (m : DB) : Prop := ∀ k, ¬ Key k → m[k]? = none

/-- the database `db` holds the stack `s`; `Key` are the keys used for data -/
structure Refines (db : DB) (s : Snapshots Bytes DB) : Prop where
  list : db[p.versionsKey]? = if s.stack = [] then none else some s.versions.flatten
  ids : ∀ v ∈ s.versions, v.length = idLength ∧ v ≠ p.versionsKey ∧ ¬ Key v
  nodup : s.versions.Nodup
  data : ∀ k, Key k → db[k]? = s.current[k]?
  others : ∀ k, ¬ Key k → k ≠ p.versionsKey → k ∉ s.versions → db[k]? = none
  onKeys : s.Forall (OnKeys Key)
  undo : s.stack.IsChain (Undoes Key db)

theorem refines_empty : Refines p Key ∅ ⟨∅, []⟩ where
  list := by simp
  ids := by simp [Snapshots.versions]
  nodup := by simp [Snapshots.versions]
  data := fun _ _ => rfl
  others := by simp
  onKeys := ⟨fun k _ => by simp, by simp⟩
  undo := List.IsChain.nil

variable {p Key} {db : DB} {s : Snapshots Bytes DB}

omit [VLQ] in
theorem idLength_pos : 0 < idLength := by decide

theorem Refines.versions_eq (h : Refines p Key db s) : versions p db = s.versions := by
  unfold versions
  rw [h.list]
  split_ifs with hnil
  · simp [Snapshots.versions, hnil]
  · exact grouped_flatten idLength_pos fun v hv => (h.ids v hv).1

theorem Refines.withVersion_eq (h : Refines p Key db s) (version : Bytes) :
    withVersion p db version = (version :: s.versions).flatten := by
  unfold withVersion
  rw [h.list]
  split_ifs with hnil
  · simp [Snapshots.versions, hnil]
  · rfl

/-! An update. -/

omit [VLQ] in
theorem javaArray_ok {bs bs' : Bytes} (h : javaArray bs = .ok bs') : bs' = bs := by
  unfold javaArray at h
  split_ifs at h with hlen
  exact (Except.ok.inj h).symm

omit [VLQ] in
/-- the batch of an update, as one key sees it -/
theorem writeAt_stored {versionsKey version list undo : Bytes} {shrink : List Bytes}
    {batch : List (WriteOp Bytes Bytes)} (hversion : version ≠ versionsKey)
    (hshrink : ∀ w ∈ shrink, w ≠ versionsKey ∧ w ≠ version)
    (hbatch : ∀ op ∈ batch, op.key ≠ versionsKey ∧ op.key ≠ version) (k : Bytes) (o : Option Bytes) :
    writeAt ([put versionsKey list] ++ shrink.map delete ++ [put version undo] ++ batch) k o =
      if k = versionsKey then some list else if k = version then some undo else
        writeAt batch k (if k ∈ shrink then none else o) := by
  have hdelete : ∀ o : Option Bytes, writeAt (shrink.map delete) k o = if k ∈ shrink then none else o := by
    intro o
    have hnone : ∀ op ∈ shrink.map (delete : Bytes → WriteOp Bytes Bytes), op.key = k → op.value = none := by
      intro op hop _
      obtain ⟨w, -, rfl⟩ := List.mem_map.1 hop
      rfl
    rw [writeAt_of_forall hnone]
    simp
  simp only [writeAt_append, writeAt_cons, writeAt_nil, hdelete, key_put, value_put]
  by_cases hlist : k = versionsKey
  · subst hlist
    rw [writeAt_of_not_mem fun op hop => (hbatch op hop).1]
    have hmem : k ∉ shrink := fun hmem => (hshrink k hmem).1 rfl
    simp [hversion, hmem]
  by_cases hid : k = version
  · subst hid
    rw [writeAt_of_not_mem fun op hop => (hbatch op hop).2]
    simp [hversion]
  · simp [hlist, hid, Ne.symm hlist, Ne.symm hid]

/-- what a successful update of the storage has checked and written -/
theorem exec_update_ok {version : Bytes} {toUpdate : List (Bytes × Bytes)} {toRemove : List Bytes} {db' : DB} {u : Unit}
    (h : exec (VersionedLevelDbStorageAdapter.update p version toUpdate toRemove) db = (.ok u, db')) :
    version ∉ versions p db ∧ version.length = idLength ∧
      ∃ bs, (ChangeSet.changes db toUpdate toRemove).toBytes = .ok bs ∧
        db' = write ([put p.versionsKey ((withVersion p db version).take p.cut)] ++
          (grouped idLength ((withVersion p db version).drop p.cut)).map delete ++
          [put version (ChangeSetPrefix :: bs)] ++ ChangeSet.updateBatch toUpdate toRemove) db := by
  simp only [VersionedLevelDbStorageAdapter.update, VersionedLDBKVStore.update, exec_throwIf_bind_ok, exec_get_bind,
    exec_orThrow_bind_ok, exec_modify, Prod.mk.injEq, true_and] at h
  obtain ⟨-, -, -, hexist, hlen, -, list, hlist, bs, hbs, undo, hundo, rfl⟩ := h
  rw [javaArray_ok hlist, javaArray_ok hundo]
  exact ⟨hexist, not_not.1 hlen, bs, hbs, rfl⟩

theorem Undoes.congr {db' : DB} {newer older : Bytes × DB} (h : Undoes Key db newer older)
    (heq : db'[newer.1]? = db[newer.1]?) : Undoes Key db' newer older := by
  obtain ⟨cs, hcs, hkeys, hback⟩ := h
  refine ⟨cs, ?_, hkeys, hback⟩
  rw [← hcs]
  unfold changeSetOf
  rw [heq]

/-- the change set of an update leads back to the contents before it -/
theorem undoes_changes {db' : DB} {version bs : Bytes} {toUpdate : List (Bytes × Bytes)} {toRemove : List Bytes}
    (h : Refines p Key db s) (hkeys : ∀ k ∈ ChangeSet.updateKeys toUpdate toRemove, Key k)
    (hbs : (ChangeSet.changes db toUpdate toRemove).toBytes = .ok bs)
    (hstored : db'[version]? = some (ChangeSetPrefix :: bs)) {older : Bytes × DB} (holder : older.2 = s.current) :
    Undoes Key db' (version, applyChanges s.current toUpdate toRemove) older := by
  have hrevert : ∀ op ∈ (ChangeSet.changes db toUpdate toRemove).revertBatch, Key op.key :=
    fun op hop => hkeys _ (ChangeSet.mem_revertBatch hop).1
  refine ⟨ChangeSet.changes db toUpdate toRemove, ?_, hrevert, ?_⟩
  · simp only [changeSetOf, hstored, Option.bind_some, List.tail_cons, ChangeSet.parse_toBytes hbs]
  · intro k
    rw [holder, getElem?_applyChanges]
    by_cases hk : Key k
    · rw [← h.data k hk]
      exact ChangeSet.writeAt_revertBatch_changes db toUpdate toRemove k
    · have hnotReverted : ∀ op ∈ (ChangeSet.changes db toUpdate toRemove).revertBatch, op.key ≠ k :=
        fun op hop heq => hk (heq ▸ hrevert op hop)
      have hnotUpdated : ∀ op ∈ ChangeSet.updateBatch toUpdate toRemove, op.key ≠ k :=
        fun op hop heq => hk (heq ▸ hkeys _ (ChangeSet.key_mem_updateBatch hop))
      rw [writeAt_of_not_mem hnotReverted, writeAt_of_not_mem hnotUpdated]

/-- an id that an update can take -/
structure NewVersion (p : StoreSettings) (Key : Bytes → Prop) (s : Snapshots Bytes DB) (version : Bytes) : Prop where
  length_eq : version.length = idLength
  ne_versionsKey : version ≠ p.versionsKey
  not_key : ¬ Key version
  unused : version ∉ s.versions

/-- what an update leaves: the version list cut at `keep`, no change sets of the versions that are cut off, and the change
set `bs` of the new one -/
def updated (p : StoreSettings) (keep : ℕ) (s : Snapshots Bytes DB) (version bs : Bytes) (toUpdate : List (Bytes × Bytes))
    (toRemove : List Bytes) (db : DB) : DB :=
  write ([put p.versionsKey ((version :: s.versions).take keep).flatten] ++
    ((version :: s.versions).drop keep).map delete ++ [put version (ChangeSetPrefix :: bs)] ++
    ChangeSet.updateBatch toUpdate toRemove) db

section Update

variable {keep : ℕ} {version bs : Bytes} {toUpdate : List (Bytes × Bytes)} {toRemove : List Bytes}
variable (h : Refines p Key db s) (hnew : NewVersion p Key s version)
include h hnew

theorem Refines.ids_cons : ∀ v ∈ version :: s.versions, v.length = idLength ∧ v ≠ p.versionsKey ∧ ¬ Key v := by
  intro v hv
  rcases List.mem_cons.1 hv with rfl | hv
  · exact ⟨hnew.length_eq, hnew.ne_versionsKey, hnew.not_key⟩
  · exact h.ids v hv

theorem Refines.nodup_cons : (version :: s.versions).Nodup := List.nodup_cons.2 ⟨hnew.unused, h.nodup⟩

theorem Refines.not_mem_drop {v : Bytes} (hv : v ∈ (version :: s.versions).take keep) :
    v ∉ (version :: s.versions).drop keep :=
  fun hv' => List.disjoint_take_drop (h.nodup_cons hnew) le_rfl hv hv'

omit hnew in
theorem Refines.exec_update {db' : DB} {u : Unit} (hcut : p.cut = idLength * keep) (hversion : ¬ Key version)
    (hfresh : version ≠ p.versionsKey)
    (hexec : exec (VersionedLevelDbStorageAdapter.update p version toUpdate toRemove) db = (.ok u, db')) :
    NewVersion p Key s version ∧ ∃ bs, (ChangeSet.changes db toUpdate toRemove).toBytes = .ok bs ∧
      db' = updated p keep s version bs toUpdate toRemove db := by
  obtain ⟨hunused, hlen, bs, hbs, rfl⟩ := exec_update_ok hexec
  rw [h.versions_eq] at hunused
  have hnew : NewVersion p Key s version := ⟨hlen, hfresh, hversion, hunused⟩
  have hlens : ∀ v ∈ version :: s.versions, v.length = idLength := fun v hv => (h.ids_cons hnew v hv).1
  refine ⟨hnew, bs, hbs, ?_⟩
  rw [h.withVersion_eq, hcut, take_flatten hlens, drop_flatten hlens,
    grouped_flatten idLength_pos fun v hv => hlens v (List.mem_of_mem_drop hv), updated]

variable (hlist : ¬ Key p.versionsKey) (hkeep : 0 < keep)
variable (hkeys : ∀ k ∈ ChangeSet.updateKeys toUpdate toRemove, Key k)

omit [VLQ] h hnew in
include hkeys in
theorem writeAt_updateBatch_of_not_key {k : Bytes} (hk : ¬ Key k) (o : Option Bytes) :
    writeAt (ChangeSet.updateBatch toUpdate toRemove) k o = o := by
  refine writeAt_of_not_mem ?_ _
  rintro op hop rfl
  exact hk (hkeys _ (ChangeSet.key_mem_updateBatch hop))

omit [VLQ] h hnew in
include hkeep in
theorem version_mem_take : version ∈ (version :: s.versions).take keep := by
  obtain ⟨n, rfl⟩ := Nat.exists_eq_succ_of_ne_zero hkeep.ne'
  exact List.mem_cons_self

include hlist hkeep hkeys

/-- every key after an update -/
theorem Refines.getElem?_updated (k : Bytes) : (updated p keep s version bs toUpdate toRemove db)[k]? =
    if k = p.versionsKey then some ((version :: s.versions).take keep).flatten
    else if k = version then some (ChangeSetPrefix :: bs)
    else writeAt (ChangeSet.updateBatch toUpdate toRemove) k
      (if k ∈ (version :: s.versions).drop keep then none else db[k]?) := by
  rw [updated, getElem?_write]
  refine writeAt_stored hnew.ne_versionsKey ?_ ?_ k _
  · intro w hw
    refine ⟨(h.ids_cons hnew w (List.mem_of_mem_drop hw)).2.1, ?_⟩
    rintro rfl
    exact h.not_mem_drop hnew (version_mem_take hkeep) hw
  · intro op hop
    have hkey := hkeys _ (ChangeSet.key_mem_updateBatch hop)
    exact ⟨fun heq => hlist (heq ▸ hkey), fun heq => hnew.not_key (heq ▸ hkey)⟩

theorem Refines.data_updated {k : Bytes} (hk : Key k) : (updated p keep s version bs toUpdate toRemove db)[k]? =
    (s.push keep version (applyChanges s.current toUpdate toRemove)).current[k]? := by
  have hnotDropped : k ∉ (version :: s.versions).drop keep :=
    fun hmem => (h.ids_cons hnew k (List.mem_of_mem_drop hmem)).2.2 hk
  have hneList : k ≠ p.versionsKey := fun heq => hlist (heq ▸ hk)
  have hneVersion : k ≠ version := fun heq => hnew.not_key (heq ▸ hk)
  rw [h.getElem?_updated hnew hlist hkeep hkeys, if_neg hneList, if_neg hneVersion, if_neg hnotDropped,
    Snapshots.current_push hkeep, getElem?_applyChanges, h.data k hk]

theorem Refines.others_updated {k : Bytes} (hk : ¬ Key k) (hk' : k ≠ p.versionsKey)
    (hmem : k ∉ (version :: s.versions).take keep) : (updated p keep s version bs toUpdate toRemove db)[k]? = none := by
  have hneVersion : k ≠ version := fun heq => hmem (heq ▸ version_mem_take hkeep)
  rw [h.getElem?_updated hnew hlist hkeep hkeys, if_neg hk', if_neg hneVersion,
    writeAt_updateBatch_of_not_key hkeys hk]
  split_ifs with hold
  · rfl
  · refine h.others k hk hk' ?_
    intro hin
    have hall := List.mem_append.1
      (List.take_append_drop keep (version :: s.versions) ▸ List.mem_cons_of_mem version hin)
    exact hall.elim hmem hold

/-- the new change set leads back to the contents before, and those of the other kept versions are untouched -/
theorem Refines.undo_updated (hbs : (ChangeSet.changes db toUpdate toRemove).toBytes = .ok bs) :
    (s.push keep version (applyChanges s.current toUpdate toRemove)).stack.IsChain
      (Undoes Key (updated p keep s version bs toUpdate toRemove db)) := by
  have hget : ∀ k, (updated p keep s version bs toUpdate toRemove db)[k]? = _ :=
    h.getElem?_updated hnew hlist hkeep hkeys
  obtain ⟨n, rfl⟩ := Nat.exists_eq_succ_of_ne_zero hkeep.ne'
  refine List.isChain_cons.2 ⟨?_, ?_⟩
  · intro older holder
    refine undoes_changes h hkeys hbs ?_ ?_
    · rw [hget, if_neg hnew.ne_versionsKey, if_pos rfl]
    · rw [List.head?_take] at holder
      split_ifs at holder with hn
      · simp at holder
      · rw [Snapshots.current, holder]
        rfl
  · refine (h.undo.take n).imp_of_mem_imp ?_
    intro newer older hnewer _ hundoes
    have hmem : newer.1 ∈ s.versions.take n := by
      rw [Snapshots.versions, ← List.map_take]
      exact List.mem_map_of_mem hnewer
    have hin : newer.1 ∈ s.versions := List.mem_of_mem_take hmem
    have hneVersion : newer.1 ≠ version := fun heq => hnew.unused (heq ▸ hin)
    have hnotDropped : newer.1 ∉ (version :: s.versions).drop (n + 1) :=
      h.not_mem_drop hnew (List.mem_cons_of_mem _ hmem)
    refine hundoes.congr ?_
    rw [hget, if_neg (h.ids _ hin).2.1, if_neg hneVersion, if_neg hnotDropped,
      writeAt_updateBatch_of_not_key hkeys (h.ids _ hin).2.2]

omit hnew in
theorem Refines.update {db' : DB} {u : Unit} (hcut : p.cut = idLength * keep) (hversion : ¬ Key version)
    (hfresh : version ≠ p.versionsKey)
    (hexec : exec (VersionedLevelDbStorageAdapter.update p version toUpdate toRemove) db = (.ok u, db')) :
    Refines p Key db' (s.push keep version (applyChanges s.current toUpdate toRemove)) := by
  obtain ⟨hnew, bs, hbs, rfl⟩ := h.exec_update hcut hversion hfresh hexec
  have hversions : (s.push keep version (applyChanges s.current toUpdate toRemove)).versions =
      (version :: s.versions).take keep := Snapshots.versions_push _ _ _ _
  have hne : (s.push keep version (applyChanges s.current toUpdate toRemove)).stack ≠ [] := by
    intro hnil
    have hmem : version ∈ (version :: s.versions).take keep := version_mem_take hkeep
    rw [← hversions, Snapshots.versions, hnil] at hmem
    simp at hmem
  refine ⟨?_, ?_, ?_, ?_, ?_, ?_, h.undo_updated hnew hlist hkeep hkeys hbs⟩
  · rw [h.getElem?_updated hnew hlist hkeep hkeys, if_pos rfl, if_neg hne, hversions]
  · rw [hversions]
    exact fun v hv => h.ids_cons hnew v (List.mem_of_mem_take hv)
  · rw [hversions]
    exact (h.nodup_cons hnew).sublist (List.take_sublist _ _)
  · exact fun k hk => h.data_updated hnew hlist hkeep hkeys hk
  · rw [hversions]
    exact fun k hk hk' hmem => h.others_updated hnew hlist hkeep hkeys hk hk' hmem
  · refine h.onKeys.push keep version ?_
    intro k hk
    rw [getElem?_applyChanges, writeAt_updateBatch_of_not_key hkeys hk]
    exact h.onKeys.current k hk

end Update

/-! A rollback. -/

/-- the undo writes of a version, and the deletion of its change set -/
def undoBatch (c : Bytes × ChangeSet) : List (WriteOp Bytes Bytes) := c.2.revertBatch ++ [delete c.1]

/-- the change sets of all versions above one, and where their undo writes lead, newest first -/
theorem exists_changeSets {undone : List (Bytes × DB)} {target : Bytes × DB}
    (hchain : (undone ++ [target]).IsChain (Undoes Key db)) (hids : ∀ q ∈ undone, ¬ Key q.1) :
    ∃ css, (undone.map Prod.fst).mapM (changeSetOf db) = .ok css ∧ css.map Prod.fst = undone.map Prod.fst ∧
      (∀ c ∈ css, ∀ op ∈ c.2.revertBatch, Key op.key) ∧
      ∀ k, Key k → ∀ top, (undone ++ [target]).head? = some top →
        writeAt (css.flatMap undoBatch) k top.2[k]? = target.2[k]? := by
  induction undone with
  | nil =>
    refine ⟨[], rfl, rfl, by simp, ?_⟩
    intro k _ top htop
    simp only [List.nil_append, List.head?_cons, Option.some.injEq] at htop
    rw [htop]
    rfl
  | cons q undone ih =>
    obtain ⟨hhead, htail⟩ := List.isChain_cons.1 hchain
    obtain ⟨css, hmap, hfst, hkeys, hback⟩ := ih htail fun q' hq' => hids q' (List.mem_cons_of_mem _ hq')
    obtain ⟨next, hnext⟩ : ∃ next, (undone ++ [target]).head? = some next := by
      cases undone with
      | nil => exact ⟨target, rfl⟩
      | cons q' undone => exact ⟨q', rfl⟩
    obtain ⟨cs, hcs, hcsKeys, hcsBack⟩ := hhead next hnext
    refine ⟨(q.1, cs) :: css, ?_, ?_, ?_, ?_⟩
    · rw [List.map_cons, List.mapM_cons, hcs, hmap]
      rfl
    · rw [List.map_cons, List.map_cons, hfst]
    · intro c hc
      rcases List.mem_cons.1 hc with rfl | hc
      · exact hcsKeys
      · exact hkeys c hc
    · intro k hk top htop
      have htop : q = top := by simpa using htop
      subst htop
      have hother : q.1 ≠ k := fun heq => hids q List.mem_cons_self (heq ▸ hk)
      rw [List.flatMap_cons, writeAt_append, undoBatch, writeAt_append, hcsBack k,
        writeAt_of_not_mem (show ∀ op ∈ [delete q.1], op.key ≠ k by simpa using hother)]
      exact hback k hk next hnext

omit [VLQ] in
theorem takeWhile_versions {undone kept : List (Bytes × DB)} {v : Bytes} {m : DB} (hundone : ∀ q ∈ undone, q.1 ≠ v) :
    ((undone ++ (v, m) :: kept).map Prod.fst).takeWhile (· ≠ v) = undone.map Prod.fst := by
  rw [List.map_append, List.map_cons, List.takeWhile_append_of_pos]
  · simp
  · intro w hw
    obtain ⟨q, hq, rfl⟩ := List.mem_map.1 hw
    simpa using hundone q hq

omit [VLQ] in
theorem dropWhile_versions {undone kept : List (Bytes × DB)} {v : Bytes} {m : DB} (hundone : ∀ q ∈ undone, q.1 ≠ v) :
    ((undone ++ (v, m) :: kept).map Prod.fst).dropWhile (· ≠ v) = v :: kept.map Prod.fst := by
  rw [List.map_append, List.map_cons, List.dropWhile_append_of_pos]
  · simp
  · intro w hw
    obtain ⟨q, hq, rfl⟩ := List.mem_map.1 hw
    simpa using hundone q hq

/-- how a stack is rolled back to `version`, with the contents `m`: `css` are the change sets of the versions above it -/
structure Undone (Key : Bytes → Prop) (s : Snapshots Bytes DB) (version : Bytes) (undone kept : List (Bytes × DB)) (m : DB)
    (css : List (Bytes × ChangeSet)) : Prop where
  stack : s.stack = undone ++ (version, m) :: kept
  rollback : (s.rollback version).stack = (version, m) :: kept
  names : css.map Prod.fst = undone.map Prod.fst
  keys : ∀ cs ∈ css, ∀ op ∈ cs.2.revertBatch, Key op.key
  back : ∀ k, Key k → writeAt (css.flatMap undoBatch) k s.current[k]? = m[k]?

/-- what a rollback leaves -/
def rolledBack (p : StoreSettings) (s : Snapshots Bytes DB) (version : Bytes) (css : List (Bytes × ChangeSet)) (db : DB) : DB :=
  write (css.flatMap undoBatch ++ [put p.versionsKey (s.rollback version).versions.flatten]) db

/-- a rollback to a retained version succeeds -/
theorem Refines.exec_rollback {version : Bytes} (h : Refines p Key db s) (hversion : version ∈ s.versions) :
    ∃ undone kept m css, Undone Key s version undone kept m css ∧
      exec (VersionedLevelDbStorageAdapter.rollback p version) db = (.ok (), rolledBack p s version css db) := by
  obtain ⟨undone, m, kept, hstack, hundone, hroll⟩ := Snapshots.stack_split hversion
  have hidOf : ∀ q ∈ undone, ¬ Key q.1 := by
    intro q hq
    refine (h.ids q.1 ?_).2.2
    rw [Snapshots.versions, hstack]
    exact List.mem_map_of_mem (List.mem_append_left _ hq)
  have hchain : (undone ++ [(version, m)]).IsChain (Undoes Key db) := by
    refine h.undo.prefix ?_
    rw [hstack]
    exact ⟨kept, by simp⟩
  obtain ⟨css, hmap, hfst, hkeys, hback⟩ := exists_changeSets hchain hidOf
  obtain ⟨top, htop⟩ : ∃ top, (undone ++ [(version, m)]).head? = some top := by
    cases undone with
    | nil => exact ⟨_, rfl⟩
    | cons q undone => exact ⟨q, rfl⟩
  have hcurrent : s.current = top.2 := by
    have hhead : s.stack.head? = some top := by
      rw [hstack, ← htop]
      cases undone <;> rfl
    rw [Snapshots.current, hhead]
    rfl
  have hne : s.stack ≠ [] := by
    rw [hstack]
    simp
  have hbytes : db[p.versionsKey]? = some s.versions.flatten := by rw [h.list, if_neg hne]
  have hgrouped : grouped idLength s.versions.flatten = s.versions :=
    grouped_flatten idLength_pos fun v hv => (h.ids v hv).1
  have htake : s.versions.takeWhile (· ≠ version) = undone.map Prod.fst := by
    rw [Snapshots.versions, hstack]
    exact takeWhile_versions hundone
  have hdrop : s.versions.dropWhile (· ≠ version) = (s.rollback version).versions := by
    rw [Snapshots.versions, Snapshots.versions, hstack, hroll]
    exact dropWhile_versions hundone
  refine ⟨undone, kept, m, css, ⟨hstack, hroll, hfst, hkeys, ?_⟩, ?_⟩
  · intro k hk
    rw [hcurrent]
    exact hback k hk top htop
  · simp only [VersionedLevelDbStorageAdapter.rollback, rollbackTo, h.versions_eq, if_pos hversion,
      exec_bind, exec_get, hbytes, hgrouped, htake, hdrop, hmap, exec_orThrow, exec_modify, exec_pure]
    rfl

omit [VLQ] in
/-- every key after a rollback -/
theorem getElem?_rolledBack (version : Bytes) (css : List (Bytes × ChangeSet)) (k : Bytes) :
    (rolledBack p s version css db)[k]? = if k = p.versionsKey then some (s.rollback version).versions.flatten else
      writeAt (css.flatMap undoBatch) k db[k]? := by
  rw [rolledBack, getElem?_write, writeAt_append]
  by_cases hk : k = p.versionsKey
  · simp [hk]
  · simp [hk, Ne.symm hk]

section Undone

variable {version : Bytes} {undone kept : List (Bytes × DB)} {m : DB} {css : List (Bytes × ChangeSet)}
variable (hu : Undone Key s version undone kept m css)
include hu

omit [VLQ] in
theorem Undone.versions_eq : s.versions = undone.map Prod.fst ++ (s.rollback version).versions := by
  rw [Snapshots.versions, Snapshots.versions, hu.stack, hu.rollback, List.map_append]

omit [VLQ] in
/-- outside the data the undo writes only delete the ids they undo -/
theorem Undone.only_deletes {k : Bytes} (hk : ¬ Key k) {op : WriteOp Bytes Bytes} (hop : op ∈ css.flatMap undoBatch)
    (heq : op.key = k) : k ∈ undone.map Prod.fst ∧ op.value = none := by
  obtain ⟨cs, hcs, hop⟩ := List.mem_flatMap.1 hop
  rcases List.mem_append.1 hop with hop | hop
  · exact absurd (heq ▸ hu.keys cs hcs op hop) hk
  · rw [List.mem_singleton.1 hop] at heq ⊢
    rw [← hu.names, ← heq]
    exact ⟨List.mem_map_of_mem hcs, rfl⟩

variable (h : Refines p Key db s)
include h

theorem Undone.data_rolledBack (hlist : ¬ Key p.versionsKey) {k : Bytes} (hk : Key k) :
    (rolledBack p s version css db)[k]? = (s.rollback version).current[k]? := by
  have hneList : k ≠ p.versionsKey := fun heq => hlist (heq ▸ hk)
  have hcurrent : (s.rollback version).current = m := by
    rw [Snapshots.current, hu.rollback]
    rfl
  rw [getElem?_rolledBack, if_neg hneList, h.data k hk, hcurrent]
  exact hu.back k hk

theorem Undone.others_rolledBack {k : Bytes} (hk : ¬ Key k) (hk' : k ≠ p.versionsKey)
    (hmem : k ∉ (s.rollback version).versions) : (rolledBack p s version css db)[k]? = none := by
  rw [getElem?_rolledBack, if_neg hk', writeAt_of_forall fun op hop heq => (hu.only_deletes hk hop heq).2]
  split_ifs with hex
  · rfl
  · refine h.others k hk hk' ?_
    intro hin
    have hold : k ∉ undone.map Prod.fst := by
      rw [← hu.names]
      intro hmem
      obtain ⟨cs, hcs, rfl⟩ := List.mem_map.1 hmem
      exact hex ⟨delete cs.1, List.mem_flatMap.2 ⟨cs, hcs, by simp [undoBatch]⟩, rfl⟩
    rw [hu.versions_eq] at hin
    exact (List.mem_append.1 hin).elim hold hmem

theorem Undone.undo_rolledBack : (s.rollback version).stack.IsChain (Undoes Key (rolledBack p s version css db)) := by
  refine (h.undo.suffix (s.rollback_suffix version)).imp_of_mem_imp ?_
  intro newer older hnewer _ hundoes
  have hin : newer.1 ∈ (s.rollback version).versions := List.mem_map_of_mem hnewer
  have hid := h.ids newer.1 (hu.versions_eq ▸ List.mem_append_right _ hin)
  have hnotUndone : newer.1 ∉ undone.map Prod.fst := by
    intro hmem
    have hnodup := h.nodup
    rw [hu.versions_eq] at hnodup
    exact (List.nodup_append.1 hnodup).2.2 _ hmem _ hin rfl
  refine hundoes.congr ?_
  rw [getElem?_rolledBack, if_neg hid.2.1]
  exact writeAt_of_not_mem (fun op hop heq => hnotUndone (hu.only_deletes hid.2.2 hop heq).1) _

end Undone

/-- a rollback to a retained version succeeds, and undoes the versions after it -/
theorem Refines.rollback {version : Bytes} (h : Refines p Key db s) (hlist : ¬ Key p.versionsKey)
    (hversion : version ∈ s.versions) :
    ∃ db', exec (VersionedLevelDbStorageAdapter.rollback p version) db = (.ok (), db') ∧
      Refines p Key db' (s.rollback version) := by
  obtain ⟨undone, kept, m, css, hu, hexec⟩ := h.exec_rollback hversion
  have hsuffix : (s.rollback version).versions <:+ s.versions := (s.rollback_suffix version).map _
  have hne : (s.rollback version).stack ≠ [] := by
    rw [hu.rollback]
    simp
  refine ⟨_, hexec, ?_, ?_, ?_, ?_, ?_, h.onKeys.rollback version, hu.undo_rolledBack h⟩
  · rw [getElem?_rolledBack, if_pos rfl, if_neg hne]
  · exact fun v hv => h.ids v (hsuffix.mem hv)
  · exact h.nodup.sublist hsuffix.sublist
  · exact fun k hk => hu.data_rolledBack h hlist hk
  · exact fun k hk hk' hmem => hu.others_rolledBack h hk hk' hmem

/-- what the storage shows is the newest snapshot -/
theorem Refines.getAll_eq (h : Refines p Key db s) (hlist : ¬ Key p.versionsKey) :
    VersionedLevelDbStorageAdapter.getAll p db = s.current.toList := by
  have hfilter : db.filter (fun k _ => k ∉ p.versionsKey :: s.versions) = s.current := by
    refine Std.ExtTreeMap.ext_getElem? ?_
    intro k
    rw [Std.ExtTreeMap.getElem?_filter']
    by_cases hk : Key k
    · have hneList : k ≠ p.versionsKey := fun heq => hlist (heq ▸ hk)
      have hnotId : k ∉ s.versions := fun hmem => (h.ids k hmem).2.2 hk
      rw [← h.data k hk]
      cases db[k]? <;> simp [hneList, hnotId]
    · rw [h.onKeys.current k hk]
      by_cases hreserved : k ∈ p.versionsKey :: s.versions
      · simp [hreserved]
      · rw [List.mem_cons, not_or] at hreserved
        rw [h.others k hk hreserved.1 hreserved.2]
        rfl
  rw [← hfilter, Std.ExtTreeMap.toList_filter, VersionedLevelDbStorageAdapter.getAll, h.versions_eq]

/-! Failures. -/

/-- a call that throws has written nothing -/
theorem exec_error_unchanged {call : Call} {e : StorageException} {db' : DB}
    (h : exec (call.exec p) db = (.error e, db')) : db' = db := by
  have hwp : wp (call.exec p) (fun _ _ => True) (fun _ db' => db' = db) db := by
    cases call with
    | update version toUpdate toRemove =>
      simp [Call.exec, VersionedLevelDbStorageAdapter.update, VersionedLDBKVStore.update, wp_orThrow]
    | rollback version =>
      simp only [Call.exec, VersionedLevelDbStorageAdapter.rollback, wp_bind, wp_get]
      split_ifs with hversion
      · simp only [rollbackTo, wp_bind, wp_get]
        split
        · simp [wp_orThrow]
        · simp
      · simp
  have hunchanged := wp_error hwp h
  exact hunchanged

theorem Refines.rollback_missing {version : Bytes} (h : Refines p Key db s) (hversion : version ∉ s.versions) :
    exec (VersionedLevelDbStorageAdapter.rollback p version) db = (.error .rollbackToNonExistVersion, db) := by
  simp [VersionedLevelDbStorageAdapter.rollback, h.versions_eq, hversion]

/-- what an update has to meet besides the use of the keys; all arrays have an `Int` length -/
structure Acceptable (s : Snapshots Bytes DB) (version : Bytes) (toUpdate : List (Bytes × Bytes)) (toRemove : List Bytes) :
    Prop where
  updateNodup : (toUpdate.map Prod.fst).Nodup
  removeNodup : toRemove.Nodup
  idSize : version.length = idLength
  fresh : version ∉ s.versions
  keySize : ∀ k ∈ ChangeSet.updateKeys toUpdate toRemove, k.length ≤ 255
  undoFits : (ChangeSet.changes s.current toUpdate toRemove).serialize.length + 1 < 2 ^ 31
  listFits : (version :: s.versions).flatten.length < 2 ^ 31

omit [VLQ] in
theorem changes_congr {m : DB} {toUpdate : List (Bytes × Bytes)} {toRemove : List Bytes}
    (h : ∀ k ∈ ChangeSet.updateKeys toUpdate toRemove, db[k]? = m[k]?) :
    ChangeSet.changes db toUpdate toRemove = ChangeSet.changes m toUpdate toRemove := by
  have hupdate : ∀ x ∈ toUpdate, db[x.1]? = m[x.1]? :=
    fun x hx => h _ (List.mem_append_left _ (List.mem_map_of_mem hx))
  have hremove : ∀ k ∈ toRemove, db[k]? = m[k]? := fun k hk => h _ (List.mem_append_right _ hk)
  simp only [ChangeSet.changes, ChangeSet.mk.injEq]
  refine ⟨?_, ?_, ?_⟩
  · rw [List.filter_congr fun x hx => by rw [hupdate x hx]]
  · exact List.filterMap_congr fun k hk => by rw [hremove k hk]
  · exact List.filterMap_congr fun x hx => by rw [hupdate x hx]

omit [VLQ] in
theorem keysFit_changes {toUpdate : List (Bytes × Bytes)} {toRemove : List Bytes}
    (h : ∀ k ∈ ChangeSet.updateKeys toUpdate toRemove, k.length ≤ 255) :
    (ChangeSet.changes db toUpdate toRemove).keysFit = true := by
  have hupdate : ∀ x ∈ toUpdate, x.1.length ≤ 255 :=
    fun x hx => h _ (List.mem_append_left _ (List.mem_map_of_mem hx))
  have hremove : ∀ k ∈ toRemove, k.length ≤ 255 := fun k hk => h _ (List.mem_append_right _ hk)
  simp only [ChangeSet.keysFit, ChangeSet.changes, Bool.and_eq_true, List.all_eq_true, decide_eq_true_eq]
  refine ⟨⟨?_, ?_⟩, ?_⟩
  · intro k hk
    obtain ⟨x, hx, rfl⟩ := List.mem_map.1 hk
    exact hupdate x (List.mem_filter.1 hx).1
  · intro kv hkv
    obtain ⟨k, hk, hv⟩ := List.mem_filterMap.1 hkv
    obtain ⟨v, -, rfl⟩ := Option.map_eq_some_iff.1 hv
    exact hremove k hk
  · intro kv hkv
    obtain ⟨x, hx, hv⟩ := List.mem_filterMap.1 hkv
    obtain ⟨v, -, rfl⟩ := Option.map_eq_some_iff.1 hv
    exact hupdate x hx

theorem Refines.update_accepted {version : Bytes} {toUpdate : List (Bytes × Bytes)} {toRemove : List Bytes}
    (h : Refines p Key db s) (hkeys : ∀ k ∈ ChangeSet.updateKeys toUpdate toRemove, Key k) (hversion : ¬ Key version)
    (hfresh : version ≠ p.versionsKey) (hacc : Acceptable s version toUpdate toRemove) :
    ∃ db', exec (VersionedLevelDbStorageAdapter.update p version toUpdate toRemove) db = (.ok (), db') := by
  have hnotKey : version ∉ ChangeSet.updateKeys toUpdate toRemove := fun hmem => hversion (hkeys _ hmem)
  have hunused : db[version]? = none := h.others version hversion hfresh hacc.fresh
  have hchanges := changes_congr fun k hk => h.data k (hkeys k hk)
  have hbytes : (ChangeSet.changes s.current toUpdate toRemove).toBytes =
      .ok (ChangeSet.changes s.current toUpdate toRemove).serialize := by
    rw [ChangeSet.toBytes, if_pos (keysFit_changes hacc.keySize), javaArray, if_pos (by have := hacc.undoFits; omega)]
  have hundo : javaArray (ChangeSetPrefix :: (ChangeSet.changes s.current toUpdate toRemove).serialize) =
      .ok (ChangeSetPrefix :: (ChangeSet.changes s.current toUpdate toRemove).serialize) := if_pos hacc.undoFits
  have hall : javaArray (withVersion p db version) = .ok (withVersion p db version) := by
    rw [h.withVersion_eq]
    exact if_pos hacc.listFits
  simp only [VersionedLevelDbStorageAdapter.update, VersionedLDBKVStore.update, exec_throwIf_bind_ok, exec_get_bind,
    exec_orThrow_bind_ok, exec_modify, Prod.mk.injEq, true_and, h.versions_eq, hunused, hchanges]
  exact ⟨_, hnotKey, not_not.2 hacc.updateNodup, not_not.2 hacc.removeNodup, hacc.fresh, not_not.2 hacc.idSize, by simp,
    _, hall, _, hbytes, _, hundo, rfl⟩

end Relation

/-! Runs. -/

section Runs

variable [VLQ] (p : StoreSettings) (Key : Bytes → Prop)

/-- keys are not version ids, and a version id is not the key of the version list -/
def Call.Admissible : Call → Prop
  | .update version toUpdate toRemove =>
    (∀ k ∈ ChangeSet.updateKeys toUpdate toRemove, Key k) ∧ ¬ Key version ∧ version ≠ p.versionsKey
  | .rollback _ => True

/-- the number of versions the reference retains -/
abbrev StoreSettings.keep : ℕ := p.keepVersions.toNatClampNeg

/-- runs of the storage, with the reference beside it: it takes the successful calls -/
inductive Reachable : DB → Snapshots Bytes DB → Prop where
  | empty : Reachable ∅ ⟨∅, []⟩
  | success {db db' : DB} {s : Snapshots Bytes DB} (call : Call) : Reachable db s → call.Admissible p Key →
      exec (call.exec p) db = (.ok (), db') → Reachable db' (call.reference p.keep s)
  | failure {db db' : DB} {s : Snapshots Bytes DB} (call : Call) (e : StorageException) : Reachable db s →
      exec (call.exec p) db = (.error e, db') → Reachable db' s

variable {p Key}

omit [VLQ] in
/-- without overflow the version list is cut after `keepVersions` ids -/
theorem cut_eq (hpos : 1 ≤ p.keepVersions.toInt) (hfit : p.keepVersions.toInt < 2 ^ 26) : p.cut = idLength * p.keep := by
  have hmul : (HashLength * p.keepVersions).toInt = 32 * p.keepVersions.toInt := by
    rw [Int32.toInt_mul, show HashLength.toInt = 32 from rfl]
    exact Int.bmod_eq_of_le (by omega) (by omega)
  have hid : idLength = 32 := rfl
  unfold StoreSettings.cut StoreSettings.keep Int32.toNatClampNeg
  rw [hmul, hid]
  omega

theorem refines_of_reachable (hlist : ¬ Key p.versionsKey) (hpos : 1 ≤ p.keepVersions.toInt)
    (hfit : p.keepVersions.toInt < 2 ^ 26) {db : DB} {s : Snapshots Bytes DB} (h : Reachable p Key db s) :
    Refines p Key db s ∧ s.stack.length ≤ p.keep := by
  induction h with
  | empty => exact ⟨refines_empty p Key, Nat.zero_le _⟩
  | @success db db' s call _ hadm hexec ih =>
    cases call with
    | update version toUpdate toRemove =>
      have hkeep : 0 < p.keep := by
        unfold StoreSettings.keep Int32.toNatClampNeg
        omega
      exact ⟨ih.1.update hlist hkeep hadm.1 (cut_eq hpos hfit) hadm.2.1 hadm.2.2 hexec, Snapshots.length_push_le _ _ _ _⟩
    | rollback version =>
      by_cases hversion : version ∈ s.versions
      · obtain ⟨db₁, hexec', hrefines⟩ := ih.1.rollback hlist hversion
        have heq := hexec.symm.trans hexec'
        rw [(Prod.mk.inj heq).2]
        exact ⟨hrefines, (s.rollback_suffix version).length_le.trans ih.2⟩
      · rw [Call.exec, ih.1.rollback_missing hversion] at hexec
        cases hexec
  | failure call e _ hexec ih =>
    rw [exec_error_unchanged hexec]
    exact ih

/-- **Refinement.** After every run with `1 ≤ keepVersions < 2 ^ 26` the storage shows what the reference holds; every
retained version can be rolled back to and then shows the contents it was made with; a call that fails changes nothing. -/
theorem storage_refines_snapshots (hlist : ¬ Key p.versionsKey) (hpos : 1 ≤ p.keepVersions.toInt)
    (hfit : p.keepVersions.toInt < 2 ^ 26) {db : DB} {s : Snapshots Bytes DB} (h : Reachable p Key db s) :
    VersionedLevelDbStorageAdapter.getAll p db = s.current.toList ∧
      (∀ k, Key k → VersionedLevelDbStorageAdapter.get? db k = s.current[k]?) ∧
      VersionedLDBKVStore.versions p db = s.versions ∧ s.versions.Nodup ∧ s.versions.length ≤ p.keep ∧
      (∀ v c, (v, c) ∈ s.stack → ∃ db', exec (VersionedLevelDbStorageAdapter.rollback p v) db = (.ok (), db') ∧
        VersionedLevelDbStorageAdapter.getAll p db' = c.toList) ∧
      (∀ v ∉ s.versions,
        exec (VersionedLevelDbStorageAdapter.rollback p v) db = (.error .rollbackToNonExistVersion, db)) ∧
      (∀ call e db', exec (Call.exec p call) db = (.error e, db') → db' = db) ∧
      ∀ version toUpdate toRemove, (Call.update version toUpdate toRemove).Admissible p Key →
        Acceptable s version toUpdate toRemove →
        ∃ db', exec (VersionedLevelDbStorageAdapter.update p version toUpdate toRemove) db = (.ok (), db') := by
  obtain ⟨hrefines, hlen⟩ := refines_of_reachable hlist hpos hfit h
  refine ⟨hrefines.getAll_eq hlist, hrefines.data, hrefines.versions_eq, hrefines.nodup, ?_, ?_, ?_, ?_, ?_⟩
  · rwa [Snapshots.versions, List.length_map]
  · intro v c hmem
    have hversion : v ∈ s.versions := List.mem_map_of_mem (f := Prod.fst) hmem
    obtain ⟨db', hexec, hrefines'⟩ := hrefines.rollback hlist hversion
    refine ⟨db', hexec, ?_⟩
    rw [hrefines'.getAll_eq hlist, Snapshots.current_rollback hrefines.nodup hmem]
  · intro v hversion
    exact hrefines.rollback_missing hversion
  · intro call e db' hexec
    exact exec_error_unchanged hexec
  · intro version toUpdate toRemove hadm hacc
    exact hrefines.update_accepted hadm.1 hadm.2.1 hadm.2.2 hacc

end Runs

/-! Fixed runs: one key, overwritten and then rolled back, and the first update with `keepVersions = 2 ^ 26`. -/

/-- a version id -/
def idOf (b : UInt8) : Bytes := List.replicate 32 b

def keepTwo : StoreSettings := ⟨2, idOf 0⟩

def keepTooMany : StoreSettings := ⟨67108864, idOf 0⟩

def firstUpdate : Call := .update (idOf 1) [([7], [1])] []

def secondUpdate : Call := .update (idOf 2) [([7], [2])] []

theorem Reachable.next [VLQ] {p : StoreSettings} {Key : Bytes → Prop} {db : DB} {s : Snapshots Bytes DB}
    (h : Reachable p Key db s) (call : Call) (hadm : call.Admissible p Key) (hok : (exec (call.exec p) db).1 = .ok ()) :
    Reachable p Key (exec (call.exec p) db).2 (call.reference p.keep s) :=
  .success call h hadm (Prod.ext hok rfl)

theorem storage_refines_snapshots_two_versions :
    ∃ db s, Reachable keepTwo (· = [7]) db s ∧ s.current.toList = [([7], [2])] ∧
      VersionedLevelDbStorageAdapter.getAll keepTwo db = s.current.toList ∧
      ∃ db', exec (VersionedLevelDbStorageAdapter.rollback keepTwo (idOf 1)) db = (.ok (), db') ∧
        VersionedLevelDbStorageAdapter.getAll keepTwo db' = [([7], [1])] := by
  have hfirst := (Reachable.empty : Reachable keepTwo (· = [7]) _ _).next firstUpdate ⟨by decide, by decide, by decide⟩
      (by rfl)
  have hsecond := hfirst.next secondUpdate ⟨by decide, by decide, by decide⟩ (by rfl)
  refine ⟨_, _, hsecond, by decide, ?_, ?_⟩
  · exact (storage_refines_snapshots (by decide) (by decide) (by decide) hsecond).1
  · have h := (storage_refines_snapshots (by decide) (by decide) (by decide) hsecond).2.2.2.2.2.1
    exact h (idOf 1) _ (List.mem_cons_of_mem _ List.mem_cons_self)

/-- after one update the version is not in the version list, and cannot be rolled back to -/
theorem storage_forgets_versions :
    ¬ ∀ db s, Reachable keepTooMany (· = [7]) db s → VersionedLDBKVStore.versions keepTooMany db = s.versions := by
  intro hall
  have hfirst := (Reachable.empty : Reachable keepTooMany (· = [7]) _ _).next firstUpdate
    ⟨by decide, by decide, by decide⟩ (by rfl)
  have hlost := hall _ _ hfirst
  revert hlost
  decide

end SidechainsSdk.Storage
