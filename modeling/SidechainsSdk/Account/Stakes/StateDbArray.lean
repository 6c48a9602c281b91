/-
Arrays in the contract storage (`StateDbArray`).

An array is a size slot and one slot per element; slots beyond the size keep whatever was written there last. The slots
of different arrays are different because their keys are hashes of different seeds (collision freedom), so a family of
arrays is indexed by what its seeds are made of. An element slot that was never written holds the zero word, which is
the `default` of the element type.

`toList` reads an array from index 0 to its size. Each operation has one lemma that says what it does to `toList` of its
own array, and one that says it leaves the others alone; callers use only these.
-/
import Mathlib.Tactic
import SidechainsSdk.Core.SwapRemove
import SidechainsSdk.Account.GasPool

namespace SidechainsSdk.Account

open SwapRemove

/-- a family of arrays: `κ` are the arrays, `ν` what an element slot holds -/
structure StateDbArray (κ ν : Type) where
  size : κ → ℕ
  elem : κ → ℕ → ν

namespace StateDbArray

variable {κ ν : Type}

/-- no slot was ever written -/
def empty [Inhabited ν] : StateDbArray κ ν := ⟨fun _ => 0, fun _ _ => default⟩

/-! ## The code -/

def getSize (s : StateDbArray κ ν) (k : κ) : ℕ := s.size k

def getValue (s : StateDbArray κ ν) (k : κ) (index : ℕ) : ν := s.elem k index

section Code

variable [DecidableEq κ]

def updateSize (s : StateDbArray κ ν) (k : κ) (newSize : ℕ) : StateDbArray κ ν :=
  { s with size := Function.update s.size k newSize }

def setSlot (s : StateDbArray κ ν) (k : κ) (index : ℕ) (value : ν) : StateDbArray κ ν :=
  { s with elem := Function.update s.elem k (Function.update (s.elem k) index value) }

def append (s : StateDbArray κ ν) (k : κ) (value : ν) : StateDbArray κ ν :=
  let numOfElem := s.getSize k
  (s.setSlot k numOfElem value).updateSize k (numOfElem + 1)

def updateValue (s : StateDbArray κ ν) (k : κ) (index : ℕ) (newValue : ν) : Except Exc (StateDbArray κ ν) :=
  if index < s.getSize k then .ok (s.setSlot k index newValue)
  else .error (.illegalArgument "requirement failed: Index out of range")

/-- the last element takes the place of the removed one, so that there are no gaps -/
def removeAndRearrange [Inhabited ν] (s : StateDbArray κ ν) (k : κ) (index : ℕ) :
    Except Exc (ν × StateDbArray κ ν) :=
  let size := s.getSize k
  if index < size then
    let lastElemIndex := size - 1
    let lastElemValue := s.getValue k lastElemIndex
    let s := (s.setSlot k lastElemIndex default).updateSize k (size - 1)
    if index ≠ lastElemIndex then
      match s.updateValue k index lastElemValue with
      | .error e => .error e
      | .ok s => .ok (lastElemValue, s)
    else .ok (lastElemValue, s)
  else .error (.illegalArgument "requirement failed: Index out of range")

end Code

/-! ## The contents -/

/-- the elements from index 0 to the size -/
def toList (s : StateDbArray κ ν) (k : κ) : List ν := (List.range (s.size k)).map (s.elem k)

@[simp] theorem toList_empty [Inhabited ν] (k : κ) : (empty : StateDbArray κ ν).toList k = [] := rfl

theorem getSize_eq (s : StateDbArray κ ν) (k : κ) : s.getSize k = (s.toList k).length := by
  simp [getSize, toList]

theorem getValue_eq (s : StateDbArray κ ν) (k : κ) (i : ℕ) (h : i < s.getSize k) :
    (s.toList k)[i]? = some (s.getValue k i) := by
  simp only [getSize] at h
  simp [toList, getValue, h]

theorem toList_congr {s s' : StateDbArray κ ν} {k : κ} (hsize : s'.size k = s.size k)
    (helem : ∀ i < s.size k, s'.elem k i = s.elem k i) : s'.toList k = s.toList k := by
  unfold toList
  rw [hsize]
  exact List.map_congr_left fun i hi => helem i (List.mem_range.1 hi)

section Updates

variable [DecidableEq κ]

theorem toList_append (s : StateDbArray κ ν) (k : κ) (v : ν) : (s.append k v).toList k = s.toList k ++ [v] := by
  simp only [toList, append, setSlot, updateSize, getSize, Function.update_self, List.range_succ, List.map_append,
    List.map_cons, List.map_nil]
  congr 1
  refine List.map_congr_left ?_
  intro i hi
  rw [Function.update_of_ne (List.mem_range.1 hi).ne]

theorem toList_append_ne (s : StateDbArray κ ν) {k k' : κ} (hne : k' ≠ k) (v : ν) :
    (s.append k v).toList k' = s.toList k' := by
  apply toList_congr
  · simp [append, setSlot, updateSize, hne]
  · intro i _
    simp [append, setSlot, updateSize, hne]

/-- appending, as an update of the contents of all arrays -/
theorem toList_append_eq (s : StateDbArray κ ν) (k : κ) (v : ν) :
    (s.append k v).toList = Function.update s.toList k (s.toList k ++ [v]) := by
  funext k'
  by_cases h : k' = k
  · subst h
    rw [toList_append, Function.update_self]
  · rw [toList_append_ne s h, Function.update_of_ne h]

theorem toList_updateSize_pred (s : StateDbArray κ ν) (k : κ) {n : ℕ} (h : s.getSize k = n + 1) :
    (s.updateSize k n).toList k = (s.toList k).dropLast := by
  simp only [getSize] at h
  simp [toList, updateSize, h, List.range_succ]

theorem toList_updateSize_ne (s : StateDbArray κ ν) {k k' : κ} (hne : k' ≠ k) (n : ℕ) :
    (s.updateSize k n).toList k' = s.toList k' := by
  apply toList_congr
  · simp [updateSize, hne]
  · intro i _
    simp [updateSize]

theorem toList_setSlot_last (s : StateDbArray κ ν) (k : κ) (v : ν) {n : ℕ} (h : s.getSize k = n + 1) :
    (s.setSlot k n v).toList k = (s.toList k).dropLast ++ [v] := by
  simp only [getSize] at h
  simp only [toList, setSlot, h, List.range_succ, Function.update_self, List.map_append, List.map_cons, List.map_nil,
    List.dropLast_concat]
  congr 1
  refine List.map_congr_left ?_
  intro i hi
  rw [Function.update_of_ne (List.mem_range.1 hi).ne]

theorem toList_setSlot_ne (s : StateDbArray κ ν) {k k' : κ} (hne : k' ≠ k) (i : ℕ) (v : ν) :
    (s.setSlot k i v).toList k' = s.toList k' := by
  apply toList_congr
  · simp [setSlot]
  · intro j _
    simp [setSlot, hne]

/-- writing a slot, as an update of the contents of all arrays -/
theorem toList_setSlot_eq (s : StateDbArray κ ν) (k : κ) (i : ℕ) (v : ν) :
    (s.setSlot k i v).toList = Function.update s.toList k ((s.toList k).set i v) := by
  funext k'
  by_cases h : k' = k
  · subst h
    rw [Function.update_self]
    apply List.ext_getElem?
    intro j
    by_cases hj : j < s.size k'
    · by_cases hij : j = i
      · subst hij
        simp [toList, setSlot, hj]
      · simp [toList, setSlot, hj, hij, Ne.symm hij]
    · simp [toList, setSlot, hj, List.getElem?_set]
  · rw [toList_setSlot_ne s h, Function.update_of_ne h]

theorem toList_updateSize_eq (s : StateDbArray κ ν) (k : κ) {n : ℕ} (h : s.getSize k = n + 1) :
    (s.updateSize k n).toList = Function.update s.toList k (s.toList k).dropLast := by
  funext k'
  by_cases hk : k' = k
  · subst hk
    rw [toList_updateSize_pred s k' h, Function.update_self]
  · rw [toList_updateSize_ne s hk, Function.update_of_ne hk]

/-- the contents of all arrays after the removal of an element -/
theorem removeAndRearrange_ok [Inhabited ν] (s : StateDbArray κ ν) {k : κ} {index : ℕ} (h : index < s.getSize k) :
    ∃ last s', s.removeAndRearrange k index = .ok (last, s') ∧ (s.toList k).getLast? = some last ∧
      s'.toList = Function.update s.toList k (swapRemove (s.toList k) index) := by
  obtain ⟨n, hn⟩ : ∃ n, s.getSize k = n + 1 := ⟨s.getSize k - 1, by omega⟩
  set last := s.getValue k n
  have hlist : s.toList k = (s.toList k).dropLast ++ [last] := by
    simp only [getSize] at hn
    simp [toList, hn, List.range_succ, last, getValue]
  have hlength : (s.toList k).dropLast.length = n := by
    rw [List.length_dropLast, ← getSize_eq, hn, Nat.add_sub_cancel]
  have hlast : (s.toList k).getLast? = some last := by
    rw [hlist, List.getLast?_concat]
  have hswap : swapRemove (s.toList k) index = (s.toList k).dropLast.set index last := by
    unfold swapRemove
    rw [hlast]
  -- the array without its last element
  set s₁ := (s.setSlot k n default).updateSize k n with hs₁
  have hsize₁ : (s.setSlot k n default).getSize k = n + 1 := hn
  have hs₁list : s₁.toList = Function.update s.toList k (s.toList k).dropLast := by
    rw [hs₁, toList_updateSize_eq _ k hsize₁, toList_setSlot_eq, Function.update_self, Function.update_idem]
    congr 1
    rw [hlist]
    simp [hlength]
  have hcode : s.removeAndRearrange k index =
      if index ≠ n then
        match s₁.updateValue k index last with
        | .error e => .error e
        | .ok s => .ok (last, s)
      else .ok (last, s₁) := by
    unfold removeAndRearrange
    dsimp only
    rw [if_pos h, hn, Nat.add_sub_cancel]
  by_cases hindex : index = n
  · refine ⟨last, s₁, ?_, hlast, ?_⟩
    · rw [hcode, if_neg (by simpa using hindex)]
    · rw [hs₁list, hswap, List.set_eq_of_length_le (by omega)]
  · have hlt : index < s₁.getSize k := by
      have hsize : s₁.getSize k = n := by simp [hs₁, getSize, updateSize]
      omega
    refine ⟨last, s₁.setSlot k index last, ?_, hlast, ?_⟩
    · rw [hcode, if_pos hindex, updateValue, if_pos hlt]
    · rw [toList_setSlot_eq, hs₁list, Function.update_self, Function.update_idem, hswap]

end Updates

end StateDbArray

end SidechainsSdk.Account
