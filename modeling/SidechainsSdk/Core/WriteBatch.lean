/-
Batches of writes to a key-value map. The operations of a batch take effect in order, so the last one on a key decides;
keys that the batch does not name are left alone.

- `getElem?_write`: a batch acts on each key by itself (`writeAt`).
- `writeAt_of_forall`: when all operations on a key leave the same there, that is what is left.
- `updateAt`: a list of new entries and a list of removed keys, as one key sees them; `updateAt_removed`, `updateAt_put` and
  `updateAt_other` are its cases.
-/
import Mathlib.Tactic
import Std.Data.ExtTreeMap

namespace SidechainsSdk

/-- one write of a batch -/
inductive WriteOp (κ α : Type) where
  | put (k : κ) (v : α)
  | delete (k : κ)

namespace WriteOp

variable {κ α : Type}

def key : WriteOp κ α → κ
  | put k _ => k
  | delete k => k

/-- what is left at the key -/
def value : WriteOp κ α → Option α
  | put _ v => some v
  | delete _ => none

@[simp] theorem key_put (k : κ) (v : α) : (put k v).key = k := rfl

@[simp] theorem key_delete (k : κ) : (delete k : WriteOp κ α).key = k := rfl

@[simp] theorem value_put (k : κ) (v : α) : (put k v).value = some v := rfl

@[simp] theorem value_delete (k : κ) : (delete k : WriteOp κ α).value = none := rfl

variable {cmp : κ → κ → Ordering} [Std.TransCmp cmp] [Std.LawfulEqCmp cmp]

def apply (m : Std.ExtTreeMap κ α cmp) : WriteOp κ α → Std.ExtTreeMap κ α cmp
  | put k v => m.insert k v
  | delete k => m.erase k

/-- the whole batch, in order -/
def write (batch : List (WriteOp κ α)) (m : Std.ExtTreeMap κ α cmp) : Std.ExtTreeMap κ α cmp := batch.foldl apply m

variable [DecidableEq κ]

/-- the batch as one key sees it -/
def writeAt (batch : List (WriteOp κ α)) (k : κ) (o : Option α) : Option α :=
  batch.foldl (fun o op => if op.key = k then op.value else o) o

theorem getElem?_apply (m : Std.ExtTreeMap κ α cmp) (op : WriteOp κ α) (k : κ) :
    (op.apply m)[k]? = if op.key = k then op.value else m[k]? := by
  by_cases hk : op.key = k
  · rw [if_pos hk, ← hk]
    cases op with
    | put k' v => exact Std.ExtTreeMap.getElem?_insert_self
    | delete k' => exact Std.ExtTreeMap.getElem?_erase_self
  · rw [if_neg hk]
    cases op with
    | put k' v => simp [apply, Std.ExtTreeMap.getElem?_insert, show k' ≠ k from hk]
    | delete k' => simp [apply, Std.ExtTreeMap.getElem?_erase, show k' ≠ k from hk]

theorem getElem?_write (batch : List (WriteOp κ α)) (m : Std.ExtTreeMap κ α cmp) (k : κ) :
    (write batch m)[k]? = writeAt batch k m[k]? := by
  induction batch generalizing m with
  | nil => rfl
  | cons op batch ih =>
    have hcons : write (op :: batch) m = write batch (op.apply m) := rfl
    rw [hcons, ih, getElem?_apply]
    rfl

@[simp] theorem writeAt_nil (k : κ) (o : Option α) : writeAt [] k o = o := rfl

@[simp] theorem writeAt_cons (op : WriteOp κ α) (batch : List (WriteOp κ α)) (k : κ) (o : Option α) :
    writeAt (op :: batch) k o = writeAt batch k (if op.key = k then op.value else o) := rfl

@[simp] theorem writeAt_append (b₁ b₂ : List (WriteOp κ α)) (k : κ) (o : Option α) :
    writeAt (b₁ ++ b₂) k o = writeAt b₂ k (writeAt b₁ k o) := List.foldl_append

/-- all writes to a key leave the same there -/
theorem writeAt_of_forall {batch : List (WriteOp κ α)} {k : κ} {w : Option α}
    (h : ∀ op ∈ batch, op.key = k → op.value = w) (o : Option α) :
    writeAt batch k o = if ∃ op ∈ batch, op.key = k then w else o := by
  induction batch generalizing o with
  | nil => simp
  | cons op batch ih =>
    rw [writeAt_cons, ih fun op' hop' => h op' (List.mem_cons_of_mem _ hop')]
    by_cases hop : op.key = k
    · simp [hop, h op List.mem_cons_self hop]
    · simp [hop]

theorem writeAt_of_not_mem {batch : List (WriteOp κ α)} {k : κ} (h : ∀ op ∈ batch, op.key ≠ k) (o : Option α) :
    writeAt batch k o = o := by
  rw [writeAt_of_forall (w := o) fun op hop hk => absurd hk (h op hop), ite_self]

/-- new entries, and then removed keys -/
def updateAt (toUpdate : List (κ × α)) (toRemove : List κ) (k : κ) (o : Option α) : Option α :=
  writeAt (toUpdate.map (fun e => put e.1 e.2) ++ toRemove.map delete) k o

theorem updateAt_removed {toUpdate : List (κ × α)} {toRemove : List κ} {k : κ} (h : k ∈ toRemove) (o : Option α) :
    updateAt toUpdate toRemove k o = none := by
  rw [updateAt, writeAt_append, writeAt_of_forall (w := none), if_pos ⟨delete k, List.mem_map_of_mem h, rfl⟩]
  intro op hop _
  obtain ⟨k', -, rfl⟩ := List.mem_map.1 hop
  rfl

theorem updateAt_kept {toUpdate : List (κ × α)} {toRemove : List κ} {k : κ} (h : k ∉ toRemove) (o : Option α) :
    updateAt toUpdate toRemove k o = writeAt (toUpdate.map fun e => put e.1 e.2) k o := by
  rw [updateAt, writeAt_append, writeAt_of_not_mem]
  intro op hop hkey
  obtain ⟨k', hk', rfl⟩ := List.mem_map.1 hop
  exact h (hkey ▸ hk')

theorem updateAt_put {toUpdate : List (κ × α)} {toRemove : List κ} (hnodup : (toUpdate.map Prod.fst).Nodup) {k : κ}
    {v : α} (hput : (k, v) ∈ toUpdate) (h : k ∉ toRemove) (o : Option α) : updateAt toUpdate toRemove k o = some v := by
  rw [updateAt_kept h, writeAt_of_forall (w := some v), if_pos ⟨put k v, List.mem_map_of_mem hput, rfl⟩]
  intro op hop hkey
  obtain ⟨e, he, rfl⟩ := List.mem_map.1 hop
  have heq : e = (k, v) := List.inj_on_of_nodup_map hnodup he hput hkey
  rw [heq]
  rfl

theorem updateAt_other {toUpdate : List (κ × α)} {toRemove : List κ} {k : κ} (hput : k ∉ toUpdate.map Prod.fst)
    (h : k ∉ toRemove) (o : Option α) : updateAt toUpdate toRemove k o = o := by
  rw [updateAt_kept h, writeAt_of_not_mem]
  intro op hop hkey
  obtain ⟨e, he, rfl⟩ := List.mem_map.1 hop
  exact hput (hkey ▸ List.mem_map_of_mem he)

end WriteOp

end SidechainsSdk
