/-
The wallet's secrets (`storage/SidechainSecretStorage.scala`): a storage of serialized secrets under the hashes of their
public images, and the same secrets in memory. Both are changed by every call, the memory in loops before or after the
write, and a call that throws leaves what it has done in memory.

- `Synced`: the memory is what a load of the storage would give.
- `exec_addAll_cases`, `exec_removeAll_cases`: where the list operations can stop, and what is left in memory then.
- `good_iff`: a call keeps memory and storage together, and is without effect when it fails, exactly under `Meets`.
- `memory_equals_disk_iff`: the same for runs.
-/
import Mathlib.Tactic
import SidechainsSdk.Core.AssocMap
import SidechainsSdk.Core.Contracts
import SidechainsSdk.Storage.Storage

namespace SidechainsSdk.Storage

open Fallible WriteOp

/-- the serializers of the secret types, and the hash of a public image; a type without a serializer cannot be written -/
class SecretsCompanion (σ : Type) (π : outParam Type) where
  publicImage : σ → π
  calculateKey : π → Bytes
  toBytes : σ → Option Bytes
  parseBytesTry : Bytes → Option σ
  parse_toBytes : ∀ s bs, toBytes s = some bs → parseBytesTry bs = some s

open SecretsCompanion

inductive SecretStorageException where
  | secretIsNull
  | nullSecretInList
  | keyAlreadyExists
  | objectWithoutSerializer
  | propositionIsNull
  | storage (e : StorageException)
  deriving DecidableEq, Repr

/-- a linked hash map, the newest entry first -/
abbrev SecretMap (σ : Type) := AList fun _ : Bytes => σ

structure SidechainSecretStorage (σ : Type) where
  storage : Versioned
  secrets : SecretMap σ

namespace SidechainSecretStorage

variable {σ π : Type} [SecretsCompanion σ π]

def keyOf (s : σ) : Bytes := calculateKey σ (publicImage s)

def putSecret (secrets : SecretMap σ) (s : σ) : SecretMap σ := AssocMap.put (keyOf s) s secrets

def loadSecrets (contents : DB) : SecretMap σ :=
  (contents.toList.filterMap fun kv => parseBytesTry kv.2).foldl putSecret ∅

/-- a new object on the storage -/
def opened (storage : Versioned) : SidechainSecretStorage σ := ⟨storage, loadSecrets storage.current⟩

def get? (s : SidechainSecretStorage σ) (proposition : π) : Option σ := s.secrets.lookup (calculateKey σ proposition)

def getAll (s : SidechainSecretStorage σ) : List σ := (s.secrets.entries.map Sigma.snd).reverse

def contains (s : SidechainSecretStorage σ) (secret : σ) : Bool := keyOf secret ∈ s.secrets

/-- a write of the storage below -/
def updateStorage (b : Backend) (version : Bytes) (toUpdate : List (Bytes × Bytes)) (toRemove : List Bytes) :
    Fallible SecretStorageException (SidechainSecretStorage σ) Unit :=
  ExceptT.mk fun s =>
    let (r, storage) := exec (Versioned.update b version toUpdate toRemove) s.storage
    (r.mapError .storage, { s with storage := storage })

def add (b : Backend) (version : Bytes) (secret : Option σ) :
    Fallible SecretStorageException (SidechainSecretStorage σ) Unit := do
  let secret ← getOrThrow secret .secretIsNull
  let s ← get
  throwIf (keyOf secret ∈ s.secrets) .keyAlreadyExists
  let value ← getOrThrow (toBytes secret) .objectWithoutSerializer
  updateStorage b version [(keyOf secret, value)] []
  modify fun s => { s with secrets := putSecret s.secrets secret }

/-- the loop of `add` over a list; the result is `updateList` -/
def addEach : List σ → Fallible SecretStorageException (SidechainSecretStorage σ) (List (Bytes × Bytes))
  | [] => pure []
  | secret :: secretList => do
    let s ← get
    throwIf (keyOf secret ∈ s.secrets) .keyAlreadyExists
    modify fun s => { s with secrets := putSecret s.secrets secret }
    let value ← getOrThrow (toBytes secret) .objectWithoutSerializer
    let updateList ← addEach secretList
    pure ((keyOf secret, value) :: updateList)

def addAll (b : Backend) (version : Bytes) (secretList : List (Option σ)) :
    Fallible SecretStorageException (SidechainSecretStorage σ) Unit := do
  throwIf (secretList.any Option.isNone = true) .nullSecretInList
  let updateList ← addEach secretList.reduceOption
  updateStorage b version updateList []

def remove (b : Backend) (version : Bytes) (proposition : Option π) :
    Fallible SecretStorageException (SidechainSecretStorage σ) Unit := do
  let proposition ← getOrThrow proposition .propositionIsNull
  updateStorage b version [] [calculateKey σ proposition]
  modify fun s => { s with secrets := s.secrets.erase (calculateKey σ proposition) }

def removeAll (b : Backend) (version : Bytes) (propositionList : List (Option π)) :
    Fallible SecretStorageException (SidechainSecretStorage σ) Unit := do
  throwIf (propositionList.any Option.isNone = true) .propositionIsNull
  let removeList := propositionList.reduceOption.map (calculateKey σ)
  modify fun s => { s with secrets := removeList.foldl (fun secrets key => secrets.erase key) s.secrets }
  updateStorage b version [] removeList

/-- the calls, with the random version that is used -/
inductive Call (σ π : Type) where
  | add (version : Bytes) (secret : Option σ)
  | addAll (version : Bytes) (secretList : List (Option σ))
  | remove (version : Bytes) (proposition : Option π)
  | removeAll (version : Bytes) (propositionList : List (Option π))

def Call.exec (b : Backend) : Call σ π → Fallible SecretStorageException (SidechainSecretStorage σ) Unit
  | .add version secret => SidechainSecretStorage.add b version secret
  | .addAll version secretList => SidechainSecretStorage.addAll b version secretList
  | .remove version proposition => SidechainSecretStorage.remove b version proposition
  | .removeAll version propositionList => SidechainSecretStorage.removeAll b version propositionList

/-! What a load finds. -/

theorem lookup_putSecret (secrets : SecretMap σ) (s : σ) (k : Bytes) :
    (putSecret secrets s).lookup k = if k = keyOf s then some s else secrets.lookup k :=
  AssocMap.lookup_put (keyOf s) s secrets k

/-- a run of `put`s that agree at a key -/
theorem lookup_foldl_putSecret {l : List σ} {k : Bytes} {o : Option σ} (h : ∀ s ∈ l, keyOf s = k → some s = o)
    (secrets : SecretMap σ) :
    (l.foldl putSecret secrets).lookup k = if ∃ s ∈ l, keyOf s = k then o else secrets.lookup k := by
  induction l generalizing secrets with
  | nil => simp
  | cons s l ih =>
    rw [List.foldl_cons, ih fun s' hs' => h s' (List.mem_cons_of_mem _ hs'), lookup_putSecret]
    by_cases hs : keyOf s = k
    · have hsome := h s List.mem_cons_self hs
      simp [hs, hsome]
    · simp [hs, Ne.symm hs]

theorem lookup_foldl_erase (keys : List Bytes) (secrets : SecretMap σ) (k : Bytes) :
    (keys.foldl (fun secrets key => secrets.erase key) secrets).lookup k =
      if k ∈ keys then none else secrets.lookup k := by
  induction keys generalizing secrets with
  | nil => simp
  | cons key keys ih =>
    rw [List.foldl_cons, ih]
    by_cases hk : k = key
    · rw [hk, AList.lookup_erase]
      simp
    · simp [hk, AList.lookup_erase_ne hk]

/-- every record that can be read is under the key of its secret -/
def Written (σ : Type) {π : Type} [SecretsCompanion σ π] (contents : DB) : Prop :=
  ∀ (k bs : Bytes) (s : σ), contents[k]? = some bs → parseBytesTry bs = some s → keyOf s = k

theorem lookup_loadSecrets {contents : DB} (h : Written σ contents) (k : Bytes) :
    (loadSecrets contents : SecretMap σ).lookup k = contents[k]?.bind parseBytesTry := by
  have hmem : ∀ s : σ, s ∈ contents.toList.filterMap (fun kv => parseBytesTry kv.2) ↔
      ∃ k bs : Bytes, contents[k]? = some bs ∧ parseBytesTry bs = some s := by
    intro s
    rw [List.mem_filterMap]
    constructor
    · rintro ⟨kv, hkv, hparse⟩
      exact ⟨kv.1, kv.2, Std.ExtTreeMap.mem_toList_iff_getElem?_eq_some.1 hkv, hparse⟩
    · rintro ⟨k', bs, hbs, hparse⟩
      exact ⟨(k', bs), Std.ExtTreeMap.mem_toList_iff_getElem?_eq_some.2 hbs, hparse⟩
  have hfound : ∀ s : σ, s ∈ contents.toList.filterMap (fun kv => parseBytesTry kv.2) → keyOf s = k →
      some s = contents[k]?.bind parseBytesTry := by
    intro s hs hkey
    obtain ⟨k', bs, hbs, hparse⟩ := (hmem s).1 hs
    have hk' : k' = k := (h k' bs s hbs hparse).symm.trans hkey
    rw [← hk', hbs]
    exact hparse.symm
  rw [loadSecrets, lookup_foldl_putSecret hfound]
  split_ifs with hex
  · rfl
  · cases hread : (contents[k]?.bind parseBytesTry : Option σ) with
    | none => rfl
    | some s =>
      obtain ⟨bs, hbs, hparse⟩ := Option.bind_eq_some_iff.1 hread
      exact absurd ⟨s, (hmem s).2 ⟨k, bs, hbs, hparse⟩, h k bs s hbs hparse⟩ hex

/-! Memory and storage. -/

/-- the same answers -/
structure SameAnswers (s s' : SidechainSecretStorage σ) : Prop where
  get? : ∀ proposition : π, s.get? proposition = s'.get? proposition
  getAll : s.getAll.Perm s'.getAll
  contains : ∀ secret, s.contains secret = s'.contains secret

theorem SameAnswers.of_lookup {s s' : SidechainSecretStorage σ} (h : ∀ k, s.secrets.lookup k = s'.secrets.lookup k) :
    SameAnswers s s' where
  get? := fun proposition => h (calculateKey σ proposition)
  getAll := by
    have hperm := (AssocMap.entries_perm h).map Sigma.snd
    exact ((List.reverse_perm _).trans hperm).trans (List.reverse_perm _).symm
  contains := by
    intro secret
    unfold SidechainSecretStorage.contains
    rw [decide_eq_decide, ← AList.lookup_isSome, ← AList.lookup_isSome, h]

/-- the answers of a new object on the same storage -/
def EqualsDisk (s : SidechainSecretStorage σ) : Prop := SameAnswers s (opened s.storage)

structure Synced (s : SidechainSecretStorage σ) : Prop where
  written : Written σ s.storage.current
  memory : ∀ k, s.secrets.lookup k = s.storage.current[k]?.bind parseBytesTry

theorem synced_opened {storage : Versioned} (h : Written σ storage.current) :
    Synced (opened storage : SidechainSecretStorage σ) := ⟨h, lookup_loadSecrets h⟩

theorem Synced.equalsDisk {s : SidechainSecretStorage σ} (h : Synced s) : EqualsDisk s := by
  refine SameAnswers.of_lookup ?_
  intro k
  exact (h.memory k).trans (lookup_loadSecrets h.written k).symm

/-- what a call may do at one key: nothing, remove what is there, or put one secret into both -/
inductive Change (s s' : SidechainSecretStorage σ) (k : Bytes) : Prop where
  | same (storage : s'.storage.current[k]? = s.storage.current[k]?) (memory : s'.secrets.lookup k = s.secrets.lookup k)
  | removed (storage : s'.storage.current[k]? = none) (memory : s'.secrets.lookup k = none)
  | put (secret : σ) (value : Bytes) (key : keyOf secret = k) (bytes : toBytes secret = some value)
      (storage : s'.storage.current[k]? = some value) (memory : s'.secrets.lookup k = some secret)

theorem Synced.change {s s' : SidechainSecretStorage σ} (h : Synced s) (hchange : ∀ k, Change s s' k) : Synced s' := by
  refine ⟨?_, ?_⟩
  · intro k bs secret hbs hparse
    cases hchange k with
    | same storage memory => exact h.written k bs secret (storage ▸ hbs) hparse
    | removed storage memory => exact absurd (storage.symm.trans hbs) (by simp)
    | put secret' value key bytes storage memory =>
      have hvalue : value = bs := Option.some.inj (storage.symm.trans hbs)
      have hsecret := parse_toBytes secret' value bytes
      rw [hvalue, hparse] at hsecret
      rw [Option.some.inj hsecret, key]
  · intro k
    cases hchange k with
    | same storage memory => rw [storage, memory, h.memory k]
    | removed storage memory => rw [storage, memory]; rfl
    | put secret value key bytes storage memory =>
      rw [storage, memory, Option.bind_some, parse_toBytes secret value bytes]

/-- storage and memory are as before -/
structure Kept (s s' : SidechainSecretStorage σ) : Prop where
  storage : s'.storage = s.storage
  memory : ∀ k, s'.secrets.lookup k = s.secrets.lookup k

theorem Kept.refl (s : SidechainSecretStorage σ) : Kept s s := ⟨rfl, fun _ => rfl⟩

theorem Synced.kept {s s' : SidechainSecretStorage σ} (h : Synced s) (hkept : Kept s s') : Synced s' := by
  refine h.change ?_
  intro k
  exact .same (by rw [hkept.storage]) (hkept.memory k)

/-! What the calls do. -/

section Calls

variable {b : Backend} {s : SidechainSecretStorage σ} {version : Bytes}

theorem exec_updateStorage_of_accepts {toUpdate : List (Bytes × Bytes)} {toRemove : List Bytes}
    (h : Versioned.Accepts b version toUpdate toRemove s.storage) :
    exec (updateStorage b version toUpdate toRemove) s =
      (.ok (), ⟨s.storage.push b.keep version (applyChanges s.storage.current toUpdate toRemove), s.secrets⟩) := by
  have hexec := Versioned.exec_update_of_accepts h
  change ((exec (Versioned.update b version toUpdate toRemove) s.storage).1.mapError _,
    { s with storage := (exec (Versioned.update b version toUpdate toRemove) s.storage).2 }) = _
  rw [hexec]
  rfl

theorem exec_updateStorage_of_not_accepts {toUpdate : List (Bytes × Bytes)} {toRemove : List Bytes}
    (h : ¬ Versioned.Accepts b version toUpdate toRemove s.storage) :
    ∃ e, exec (updateStorage b version toUpdate toRemove) s = (.error e, s) := by
  obtain ⟨e, hexec⟩ := Versioned.exec_update_of_not_accepts h
  refine ⟨.storage e, ?_⟩
  change ((exec (Versioned.update b version toUpdate toRemove) s.storage).1.mapError _,
    { s with storage := (exec (Versioned.update b version toUpdate toRemove) s.storage).2 }) = _
  rw [hexec]
  rfl

/-- the records of a list of secrets -/
def records (secretList : List σ) : List (Bytes × Bytes) :=
  secretList.map fun secret => (keyOf secret, (toBytes secret).getD [])

theorem updateBatch_records (secretList : List σ) :
    ChangeSet.updateBatch (records secretList) [] =
      secretList.map fun secret => put (keyOf secret) ((toBytes secret).getD []) := by
  simp [ChangeSet.updateBatch, records]

/-- the secrets are new, different and can be serialized -/
structure Addable (secrets : SecretMap σ) (secretList : List σ) : Prop where
  new : ∀ secret ∈ secretList, keyOf secret ∉ secrets
  nodup : (secretList.map keyOf).Nodup
  serializable : ∀ secret ∈ secretList, (toBytes secret).isSome

/-- the storage and the memory with new secrets in both -/
def added (b : Backend) (version : Bytes) (secretList : List σ) (s : SidechainSecretStorage σ) :
    SidechainSecretStorage σ where
  storage := s.storage.push b.keep version (applyChanges s.storage.current (records secretList) [])
  secrets := secretList.foldl putSecret s.secrets

def removed (b : Backend) (version : Bytes) (keys : List Bytes) (s : SidechainSecretStorage σ) :
    SidechainSecretStorage σ where
  storage := s.storage.push b.keep version (applyChanges s.storage.current [] keys)
  secrets := keys.foldl (fun secrets key => secrets.erase key) s.secrets

theorem Synced.added {secretList : List σ} (h : Synced s) (b : Backend) (version : Bytes)
    (hadd : Addable s.secrets secretList) : Synced (added b version secretList s) := by
  refine h.change ?_
  intro k
  have hcontents : (SidechainSecretStorage.added b version secretList s).storage.current[k]? =
      writeAt (ChangeSet.updateBatch (records secretList) []) k s.storage.current[k]? := by
    rw [SidechainSecretStorage.added, Snapshots.current_push b.keep_pos, getElem?_applyChanges]
  by_cases hex : ∃ secret ∈ secretList, keyOf secret = k
  · obtain ⟨secret, hsecret, hkey⟩ := hex
    obtain ⟨value, hvalue⟩ := Option.isSome_iff_exists.1 (hadd.serializable secret hsecret)
    have honly : ∀ secret' ∈ secretList, keyOf secret' = k → secret' = secret := by
      intro secret' hsecret' hkey'
      exact List.inj_on_of_nodup_map hadd.nodup hsecret' hsecret (hkey'.trans hkey.symm)
    refine .put secret value hkey hvalue ?_ ?_
    · rw [hcontents, updateBatch_records, writeAt_of_forall (w := some value), if_pos]
      · exact ⟨_, List.mem_map_of_mem hsecret, hkey⟩
      · intro op hop hopkey
        obtain ⟨secret', hsecret', rfl⟩ := List.mem_map.1 hop
        rw [honly secret' hsecret' hopkey, value_put, hvalue]
        rfl
    · change (secretList.foldl putSecret s.secrets).lookup k = some secret
      rw [lookup_foldl_putSecret (o := some secret) fun secret' hsecret' hkey' => by
        rw [honly secret' hsecret' hkey'], if_pos ⟨secret, hsecret, hkey⟩]
  · refine .same ?_ ?_
    · rw [hcontents, updateBatch_records, writeAt_of_not_mem]
      intro op hop hopkey
      obtain ⟨secret, hsecret, rfl⟩ := List.mem_map.1 hop
      exact hex ⟨secret, hsecret, hopkey⟩
    · change (secretList.foldl putSecret s.secrets).lookup k = _
      rw [lookup_foldl_putSecret (o := none) fun secret' hsecret' hkey' => absurd ⟨secret', hsecret', hkey'⟩ hex,
        if_neg hex]

theorem Synced.removed (h : Synced s) (b : Backend) (version : Bytes) (keys : List Bytes) :
    Synced (removed b version keys s) := by
  refine h.change ?_
  intro k
  have hcontents : (SidechainSecretStorage.removed b version keys s).storage.current[k]? =
      if k ∈ keys then none else s.storage.current[k]? := by
    rw [SidechainSecretStorage.removed, Snapshots.current_push b.keep_pos, getElem?_applyChanges,
      writeAt_of_forall (w := none) (fun op hop _ => by
        obtain ⟨key, -, rfl⟩ := List.mem_map.1 (show op ∈ keys.map delete from hop)
        rfl)]
    simp [ChangeSet.updateBatch]
  have hmemory : (SidechainSecretStorage.removed b version keys s).secrets.lookup k =
      if k ∈ keys then none else s.secrets.lookup k := lookup_foldl_erase keys s.secrets k
  by_cases hk : k ∈ keys
  · rw [if_pos hk] at hcontents hmemory
    exact .removed hcontents hmemory
  · rw [if_neg hk] at hcontents hmemory
    exact .same hcontents hmemory

/-- the loop goes through -/
theorem exec_addEach_of_addable {secretList : List σ} (h : Addable s.secrets secretList) :
    exec (addEach secretList) s = (.ok (records secretList), ⟨s.storage, secretList.foldl putSecret s.secrets⟩) := by
  induction secretList generalizing s with
  | nil => rfl
  | cons secret secretList ih =>
    obtain ⟨hfirst, hnodup⟩ := List.nodup_cons.1 (show (keyOf secret :: secretList.map keyOf).Nodup from h.nodup)
    obtain ⟨value, hvalue⟩ := Option.isSome_iff_exists.1 (h.serializable secret List.mem_cons_self)
    have hrest : Addable (putSecret s.secrets secret) secretList := by
      refine ⟨?_, hnodup, fun x hx => h.serializable x (List.mem_cons_of_mem _ hx)⟩
      intro x hx hmem
      rw [← AList.lookup_isSome, lookup_putSecret, if_neg, AList.lookup_isSome] at hmem
      · exact h.new x (List.mem_cons_of_mem _ hx) hmem
      · intro hkey
        exact hfirst (hkey ▸ List.mem_map_of_mem hx)
    have hrun := ih (s := { s with secrets := putSecret s.secrets secret }) hrest
    rw [addEach, exec_get_bind, exec_throwIf_neg_bind (h.new secret List.mem_cons_self), exec_modify_bind, hvalue,
      exec_getOrThrow_some_bind, exec_bind_of_ok hrun, exec_pure]
    simp [records, hvalue]

/-- the loop stops at a secret that is there already, before anything is put -/
theorem exec_addEach_of_mem {secret : σ} {secretList : List σ} (h : keyOf secret ∈ s.secrets) :
    exec (addEach (secret :: secretList)) s = (.error .keyAlreadyExists, s) := by
  rw [addEach, exec_get_bind, exec_throwIf_pos_bind h]

/-- the loop does not write, and what is in memory stays there -/
theorem wp_addEach (secretList : List σ) {k : Bytes} (h : (s.secrets.lookup k).isSome) :
    wp (addEach secretList) (fun _ s' => s'.storage = s.storage ∧ (s'.secrets.lookup k).isSome)
      (fun _ s' => s'.storage = s.storage ∧ (s'.secrets.lookup k).isSome) s := by
  induction secretList generalizing s with
  | nil => exact ⟨rfl, h⟩
  | cons secret secretList ih =>
    have hput : ((putSecret s.secrets secret).lookup k).isSome := by
      rw [lookup_putSecret]
      split_ifs
      · rfl
      · exact h
    simp only [addEach, wp_bind, wp_get, wp_throwIf, wp_modify]
    refine ⟨fun _ => ⟨trivial, h⟩, fun _ => ?_⟩
    refine (wp_orThrow).2 ⟨fun value _ => ?_, fun e _ => ⟨rfl, hput⟩⟩
    exact wp_mono (ih (s := { s with secrets := putSecret s.secrets secret }) hput) (fun _ _ h' => h') (fun _ _ h' => h')

/-- a list the loop goes through is addable -/
theorem addable_of_exec_addEach_ok {secretList : List σ} {updateList : List (Bytes × Bytes)}
    {s' : SidechainSecretStorage σ} (h : exec (addEach secretList) s = (.ok updateList, s')) :
    Addable s.secrets secretList := by
  induction secretList generalizing s s' updateList with
  | nil => exact ⟨by simp, by simp, by simp⟩
  | cons secret secretList ih =>
    rw [addEach, exec_get_bind, exec_throwIf_bind_ok, exec_modify_bind] at h
    obtain ⟨hnew, h⟩ := h
    cases hvalue : toBytes secret with
    | none =>
      rw [hvalue, exec_getOrThrow_none_bind] at h
      cases h
    | some value =>
      rw [hvalue, exec_getOrThrow_some_bind] at h
      obtain ⟨us, s₂, hrest, -⟩ := exec_bind_ok.1 h
      have hadd := ih hrest
      have hkeys : ∀ x ∈ secretList, keyOf x ≠ keyOf secret ∧ keyOf x ∉ s.secrets := by
        intro x hx
        have hx' := hadd.new x hx
        rw [← AList.lookup_eq_none, lookup_putSecret] at hx'
        split_ifs at hx' with hkey
        exact ⟨hkey, AList.lookup_eq_none.1 hx'⟩
      refine ⟨List.forall_mem_cons.2 ⟨hnew, fun x hx => (hkeys x hx).2⟩, ?_,
        List.forall_mem_cons.2 ⟨?_, hadd.serializable⟩⟩
      · rw [List.map_cons, List.nodup_cons]
        refine ⟨?_, hadd.nodup⟩
        intro hmem
        obtain ⟨x, hx, hkey⟩ := List.mem_map.1 hmem
        exact (hkeys x hx).1 hkey
      · rw [hvalue]
        rfl

/-! The four calls. A list call that contains a null is refused before the loop. -/

/-- how a call can end: in a synced state, or with an exception and nothing changed -/
def Ends (s : SidechainSecretStorage σ) : Except SecretStorageException Unit × SidechainSecretStorage σ → Prop
  | (.ok _, s') => Synced s'
  | (.error _, s') => Kept s s'

theorem ends_add (h : Synced s) (secret : Option σ) : Ends s (exec (add b version secret) s) := by
  cases secret with
  | none => exact Kept.refl s
  | some secret =>
    rw [add, exec_getOrThrow_some_bind, exec_get_bind]
    by_cases hkey : keyOf secret ∈ s.secrets
    · rw [exec_throwIf_pos_bind hkey]
      exact Kept.refl s
    rw [exec_throwIf_neg_bind hkey]
    cases hvalue : toBytes secret with
    | none => exact Kept.refl s
    | some value =>
      have hadd : Addable s.secrets [secret] := ⟨by simpa using hkey, by simp, by simp [hvalue]⟩
      have hrecords : records [secret] = [(keyOf secret, value)] := by simp [records, hvalue]
      rw [exec_getOrThrow_some_bind]
      by_cases haccepts : Versioned.Accepts b version [(keyOf secret, value)] [] s.storage
      · have hsynced := h.added b version hadd
        rw [exec_bind_of_ok (exec_updateStorage_of_accepts haccepts), exec_modify]
        rw [SidechainSecretStorage.added, hrecords] at hsynced
        exact hsynced
      · obtain ⟨e, hexec⟩ := exec_updateStorage_of_not_accepts haccepts
        rw [exec_bind, hexec]
        exact Kept.refl s

theorem ends_remove (h : Synced s) (proposition : Option π) : Ends s (exec (remove b version proposition) s) := by
  cases proposition with
  | none => exact Kept.refl s
  | some proposition =>
    rw [remove, exec_getOrThrow_some_bind]
    by_cases haccepts : Versioned.Accepts b version [] [calculateKey σ proposition] s.storage
    · rw [exec_bind_of_ok (exec_updateStorage_of_accepts haccepts), exec_modify]
      exact h.removed b version [calculateKey σ proposition]
    · obtain ⟨e, hexec⟩ := exec_updateStorage_of_not_accepts haccepts
      rw [exec_bind, hexec]
      exact Kept.refl s

/-- the list is refused before anything is put, or goes through and is accepted by the storage -/
def AddAllMeets (b : Backend) (version : Bytes) (secretList : List (Option σ)) (s : SidechainSecretStorage σ) : Prop :=
  secretList.any Option.isNone = true ∨ (∀ secret ∈ secretList.reduceOption.head?, keyOf secret ∈ s.secrets) ∨
    Addable s.secrets secretList.reduceOption ∧
      Versioned.Accepts b version (records secretList.reduceOption) [] s.storage

/-- nothing is removed from memory, or the storage accepts the removal -/
def RemoveAllMeets (b : Backend) (version : Bytes) (propositionList : List (Option π)) (s : SidechainSecretStorage σ) :
    Prop :=
  propositionList.any Option.isNone = true ∨
    (∀ proposition ∈ propositionList.reduceOption, calculateKey σ proposition ∉ s.secrets) ∨
    Versioned.Accepts b version [] (propositionList.reduceOption.map (calculateKey σ)) s.storage

theorem ends_addAll (h : Synced s) {secretList : List (Option σ)} (hmeets : AddAllMeets b version secretList s) :
    Ends s (exec (addAll b version secretList) s) := by
  by_cases hnull : secretList.any Option.isNone = true
  · rw [addAll, exec_throwIf_pos_bind hnull]
    exact Kept.refl s
  rw [addAll, exec_throwIf_neg_bind hnull]
  rcases hmeets with hmeets | hhead | ⟨hadd, haccepts⟩
  · exact absurd hmeets hnull
  · cases hlist : secretList.reduceOption with
    | nil =>
      have hrun : exec (addEach ([] : List σ)) s = (.ok [], s) := rfl
      rw [exec_bind_of_ok hrun]
      by_cases haccepts : Versioned.Accepts b version [] [] s.storage
      · rw [exec_updateStorage_of_accepts haccepts]
        exact h.removed b version []
      · obtain ⟨e, hexec⟩ := exec_updateStorage_of_not_accepts haccepts
        rw [hexec]
        exact Kept.refl s
    | cons secret rest =>
      rw [hlist] at hhead
      rw [exec_bind, exec_addEach_of_mem (hhead secret rfl)]
      exact Kept.refl s
  · have hwrite := exec_updateStorage_of_accepts
      (s := ⟨s.storage, secretList.reduceOption.foldl putSecret s.secrets⟩) haccepts
    rw [exec_bind_of_ok (exec_addEach_of_addable hadd), hwrite]
    exact h.added b version hadd

theorem ends_removeAll (h : Synced s) {propositionList : List (Option π)}
    (hmeets : RemoveAllMeets b version propositionList s) :
    Ends s (exec (removeAll b version propositionList) s) := by
  by_cases hnull : propositionList.any Option.isNone = true
  · rw [removeAll, exec_throwIf_pos_bind hnull]
    exact Kept.refl s
  rw [removeAll, exec_throwIf_neg_bind hnull, exec_modify_bind]
  set removedKeys := propositionList.reduceOption.map (calculateKey σ) with hkeys
  by_cases haccepts : Versioned.Accepts b version [] removedKeys s.storage
  · have hwrite := exec_updateStorage_of_accepts
      (s := ⟨s.storage, removedKeys.foldl (fun secrets key => secrets.erase key) s.secrets⟩) haccepts
    rw [hwrite]
    exact h.removed b version removedKeys
  · obtain ⟨e, hexec⟩ := exec_updateStorage_of_not_accepts
      (s := ⟨s.storage, removedKeys.foldl (fun secrets key => secrets.erase key) s.secrets⟩) haccepts
    rw [hexec]
    refine ⟨rfl, ?_⟩
    intro k
    rw [lookup_foldl_erase]
    split_ifs with hk
    · obtain ⟨proposition, hmem, rfl⟩ := List.mem_map.1 hk
      rcases hmeets with hmeets | habsent | hmeets
      · exact absurd hmeets hnull
      · exact (AList.lookup_eq_none.2 (habsent proposition hmem)).symm
      · exact absurd hmeets haccepts
    · rfl

/-- otherwise the call throws, and a secret that the storage does not have is left in memory -/
theorem exec_addAll_of_not_meets {secretList : List (Option σ)} (h : ¬ AddAllMeets b version secretList s) :
    ∃ (secret : σ) (e : SecretStorageException) (s' : SidechainSecretStorage σ),
      exec (addAll b version secretList) s = (.error e, s') ∧ s'.storage = s.storage ∧ keyOf secret ∉ s.secrets ∧
        (s'.secrets.lookup (keyOf secret)).isSome := by
  simp only [AddAllMeets, not_or, not_forall, exists_prop] at h
  obtain ⟨hnull, ⟨secret, hhead, hnew⟩, hrefused⟩ := h
  obtain ⟨rest, hlist⟩ : ∃ rest, secretList.reduceOption = secret :: rest := List.head?_eq_some_iff.1 hhead
  -- the first secret is put, and the rest of the loop leaves it there
  have hput : ((putSecret s.secrets secret).lookup (keyOf secret)).isSome := by
    rw [lookup_putSecret, if_pos rfl]
    rfl
  rw [addAll, exec_throwIf_neg_bind hnull, hlist]
  rw [hlist] at hrefused
  rcases hexec : exec (addEach (secret :: rest)) s with ⟨r, s'⟩
  have hstays : s'.storage = s.storage ∧ (s'.secrets.lookup (keyOf secret)).isSome := by
    rw [addEach, exec_get_bind, exec_throwIf_neg_bind hnew, exec_modify_bind] at hexec
    cases hvalue : toBytes secret with
    | none =>
      rw [hvalue, exec_getOrThrow_none_bind] at hexec
      cases hexec
      exact ⟨rfl, hput⟩
    | some value =>
      rw [hvalue, exec_getOrThrow_some_bind, exec_bind] at hexec
      have hloop := wp_addEach (s := ⟨s.storage, putSecret s.secrets secret⟩) rest hput
      rcases hrest : exec (addEach rest) (⟨s.storage, putSecret s.secrets secret⟩ : SidechainSecretStorage σ)
        with ⟨r', s₂⟩
      rw [hrest] at hexec
      rw [wp, hrest] at hloop
      cases r' with
      | error e =>
        cases hexec
        exact hloop
      | ok updateList =>
        cases hexec
        exact hloop
  cases r with
  | error e =>
    rw [exec_bind, hexec]
    exact ⟨secret, e, s', rfl, hstays.1, hnew, hstays.2⟩
  | ok updateList =>
    have hadd := addable_of_exec_addEach_ok hexec
    have hrecords := exec_addEach_of_addable hadd
    rw [hexec] at hrecords
    cases hrecords
    have hnot : ¬ Versioned.Accepts b version (records (secret :: rest)) [] s.storage := fun haccepts =>
      hrefused ⟨hadd, haccepts⟩
    obtain ⟨e, hwrite⟩ := exec_updateStorage_of_not_accepts
      (s := ⟨s.storage, (secret :: rest).foldl putSecret s.secrets⟩) hnot
    rw [exec_bind_of_ok hexec, hwrite]
    exact ⟨secret, e, _, rfl, rfl, hnew, hstays.2⟩

/-- otherwise the call throws, and a secret that the storage still has is gone from memory -/
theorem exec_removeAll_of_not_meets {propositionList : List (Option π)}
    (h : ¬ RemoveAllMeets b version propositionList s) :
    ∃ (proposition : π) (e : SecretStorageException) (s' : SidechainSecretStorage σ),
      exec (removeAll b version propositionList) s = (.error e, s') ∧ s'.storage = s.storage ∧
      calculateKey σ proposition ∈ s.secrets ∧ s'.secrets.lookup (calculateKey σ proposition) = none := by
  simp only [RemoveAllMeets, not_or, not_forall, not_not] at h
  obtain ⟨hnull, ⟨proposition, hmem, hthere⟩, hrefused⟩ := h
  obtain ⟨e, hwrite⟩ := exec_updateStorage_of_not_accepts
    (s := ⟨s.storage, (propositionList.reduceOption.map (calculateKey σ)).foldl
      (fun secrets key => secrets.erase key) s.secrets⟩) hrefused
  rw [removeAll, exec_throwIf_neg_bind hnull, exec_modify_bind, hwrite]
  refine ⟨proposition, e, _, rfl, rfl, hthere, ?_⟩
  rw [lookup_foldl_erase, if_pos (List.mem_map_of_mem hmem)]

/-! Runs. -/

/-- the condition on a call, in the state before it -/
def Meets (b : Backend) (s : SidechainSecretStorage σ) : Call σ π → Prop
  | .add _ _ => True
  | .addAll version secretList => AddAllMeets b version secretList s
  | .remove _ _ => True
  | .removeAll version propositionList => RemoveAllMeets b version propositionList s

/-- after the call the memory equals the disk, and if it failed both are as before -/
def Good (b : Backend) (s : SidechainSecretStorage σ) (call : Call σ π) : Prop :=
  EqualsDisk (exec (call.exec b) s).2 ∧
    ∀ e, (exec (call.exec b) s).1 = .error e →
      SameAnswers (exec (call.exec b) s).2 s ∧ (exec (call.exec b) s).2.storage = s.storage

theorem ends_of_meets {call : Call σ π} (h : Synced s) (hmeets : Meets b s call) : Ends s (exec (call.exec b) s) := by
  cases call with
  | add version secret => exact ends_add h secret
  | addAll version secretList => exact ends_addAll h hmeets
  | remove version proposition => exact ends_remove h proposition
  | removeAll version propositionList => exact ends_removeAll h hmeets

theorem Ends.synced {r : Except SecretStorageException Unit × SidechainSecretStorage σ} (h : Synced s)
    (hends : Ends s r) : Synced r.2 := by
  obtain ⟨r, s'⟩ := r
  cases r with
  | ok u => exact hends
  | error e => exact h.kept hends

theorem good_of_meets {call : Call σ π} (h : Synced s) (hmeets : Meets b s call) : Good b s call := by
  have hends := ends_of_meets h hmeets
  refine ⟨(hends.synced h).equalsDisk, ?_⟩
  intro e herror
  rcases hexec : exec (call.exec b) s with ⟨r, s'⟩
  rw [hexec] at hends herror
  cases herror
  exact ⟨SameAnswers.of_lookup hends.memory, hends.storage⟩

theorem meets_of_good {call : Call σ π} (hgood : Good b s call) : Meets b s call := by
  by_contra hnot
  cases call with
  | add version secret => exact hnot trivial
  | remove version proposition => exact hnot trivial
  | addAll version secretList =>
    obtain ⟨secret, e, s', hexec, -, hnew, hleft⟩ := exec_addAll_of_not_meets hnot
    have hsame := (hgood.2 e (by rw [Call.exec, hexec])).1.get? (publicImage secret)
    rw [Call.exec, hexec] at hsame
    change s'.secrets.lookup (keyOf secret) = s.secrets.lookup (keyOf secret) at hsame
    rw [hsame, AList.lookup_isSome] at hleft
    exact hnew hleft
  | removeAll version propositionList =>
    obtain ⟨proposition, e, s', hexec, -, hthere, hgone⟩ := exec_removeAll_of_not_meets hnot
    have hsame := (hgood.2 e (by rw [Call.exec, hexec])).1.get? proposition
    rw [Call.exec, hexec] at hsame
    change s'.secrets.lookup (calculateKey σ proposition) = s.secrets.lookup (calculateKey σ proposition) at hsame
    rw [hgone] at hsame
    exact AList.lookup_eq_none.1 hsame.symm hthere

/-- a condition on every call of a run, each in the state it finds -/
def Throughout (b : Backend) (P : SidechainSecretStorage σ → Call σ π → Prop) :
    SidechainSecretStorage σ → List (Call σ π) → Prop
  | _, [] => True
  | s, call :: calls => P s call ∧ Throughout b P (exec (call.exec b) s).2 calls

theorem good_throughout_iff {calls : List (Call σ π)} (h : Synced s) :
    Throughout b (Good b) s calls ↔ Throughout b (Meets b) s calls := by
  induction calls generalizing s with
  | nil => exact Iff.rfl
  | cons call calls ih =>
    constructor
    · rintro ⟨hgood, hrest⟩
      have hmeets := meets_of_good hgood
      exact ⟨hmeets, (ih ((ends_of_meets h hmeets).synced h)).1 hrest⟩
    · rintro ⟨hmeets, hrest⟩
      exact ⟨good_of_meets h hmeets, (ih ((ends_of_meets h hmeets).synced h)).2 hrest⟩

end Calls

/-- **Memory and disk.** In a run from a new object on a storage of secrets, every call leaves the memory equal to the
disk, and changes neither when it fails, exactly if every list call meets its condition. -/
theorem memory_equals_disk_iff (b : Backend) {storage : Versioned} (h : Written σ storage.current)
    (calls : List (Call σ π)) :
    Throughout b (Good b) (opened storage : SidechainSecretStorage σ) calls ↔
      Throughout b (Meets b) (opened storage : SidechainSecretStorage σ) calls :=
  good_throughout_iff (synced_opened h)

/-! Fixed runs. A secret of the example is a byte, which is its public image. -/

structure ByteSecret where
  byte : UInt8

instance : SecretsCompanion ByteSecret UInt8 where
  publicImage := ByteSecret.byte
  calculateKey := fun p => [0, p]
  toBytes := fun s => some [s.byte]
  parseBytesTry := fun bs => bs.head?.map ByteSecret.mk
  parse_toBytes := by
    intro s bs h
    cases h
    rfl

def keepTwo : Backend := ⟨2, by decide, fun _ _ _ _ => false⟩

theorem written_empty : Written ByteSecret (Snapshots.current (⟨∅, []⟩ : Versioned)) := by
  intro k bs s hbs
  simp [Snapshots.current] at hbs

/-- a secret is added and removed again by a list; a list with a null is refused -/
theorem memory_equals_disk_good_run :
    Throughout keepTwo (Good keepTwo) (opened ⟨∅, []⟩ : SidechainSecretStorage ByteSecret)
      [.add [1] (some ⟨7⟩), .removeAll [2] [some 7], .addAll [3] [none]] := by
  refine (memory_equals_disk_iff keepTwo written_empty _).2 ⟨trivial, ?_, ?_, trivial⟩
  · exact .inr (.inr ⟨by decide, by decide, by decide, by decide, rfl⟩)
  · exact .inl rfl

/-- a list with the same secret twice is refused after the first has been put into memory -/
theorem memory_differs_after_duplicate :
    ¬ Throughout keepTwo (Good keepTwo) (opened ⟨∅, []⟩ : SidechainSecretStorage ByteSecret)
      [.addAll [1] [some ⟨7⟩, some ⟨7⟩]] := by
  rintro ⟨⟨hdisk, -⟩, -⟩
  have hget := congrArg Option.isSome (hdisk.get? 7)
  revert hget
  decide

end SidechainSecretStorage

end SidechainsSdk.Storage
