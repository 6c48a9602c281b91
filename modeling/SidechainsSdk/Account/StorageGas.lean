/-
Gas and refunds of storage writes by native contracts (`StateDbAccountStateViewGasTracked`), within one transaction.

- A slot is an address with a key of 32 bytes. `StateDb` is what the writes use of the state database: the current and the
  committed values, the access list and the refund counter. A negative refund counter aborts the library
  (`refundBelowZero`).
- `Session`: a view, the snapshots taken, and the books kept of it: what has been charged for each slot, and what net
  refunds it has been granted. A snapshot brings back values, access list, refund counter and the granted refunds; what is
  charged stays charged.
- An exception of a write is caught where the caller has taken a snapshot: a `rollback` of the call says which one is
  reverted to. `StateTransition.invoke` reverts whenever an execution has failed.

`eip3529Cost` and `eip3529Refund` say what a write costs and refunds, from the committed, the current and the new value.
The refunds are covered by a potential of the three values (`Balanced`): while a slot holds the refund for having been
cleared it has been granted at least as much (`held`), and what is granted is below what was charged by a `reserve`.
-/
import Mathlib.Tactic
import SidechainsSdk.Account.GasPool
import SidechainsSdk.Account.Types
import SidechainsSdk.Core.Fallible

namespace SidechainsSdk.Account.StorageGas

open Fallible

/-! ## The view -/

abbrev Hash := BitVec 256

def ZERO : Hash := 0

abbrev Slot := Address × Hash

namespace GasUtil

def WarmStorageReadCostEIP2929 : ℤ := 100

def ColdSloadCostEIP2929 : ℤ := 2100

def SstoreSentryGasEIP2200 : ℤ := 2300

def SstoreSetGasEIP2200 : ℤ := 20000

def SstoreResetGasEIP2200 : ℤ := 5000

def SstoreClearsScheduleRefundEIP3529 : ℤ := 4800

end GasUtil

open GasUtil

inductive WriteExc where
  -- an `OutOfGasException` before any gas is taken
  | sentry (message : String)
  | exc (e : Exc)
  -- the state database refuses to take more off the refund counter than there is
  | refundBelowZero
  -- a snapshot that was never taken, or is gone
  | invalidRevision (id : ℕ)
deriving DecidableEq

structure StateDb where
  storage : Slot → Hash
  committed : Slot → Hash
  accessed : Slot → Bool
  refund : ℤ

structure View where
  stateDb : StateDb
  gas : GasPool
  readOnly : Bool

abbrev Tracked := Fallible WriteExc View

def setDb (f : StateDb → StateDb) : Tracked Unit := modify fun v => { v with stateDb := f v.stateDb }

/-- whether the slot was accessed before -/
def accessSlot (slot : Slot) : Tracked Bool := do
  let v ← get
  setDb fun db => { db with accessed := Function.update db.accessed slot true }
  pure (v.stateDb.accessed slot)

def addRefund (gas : ℤ) : Tracked Unit := setDb fun db => { db with refund := db.refund + gas }

def subRefund (gas : ℤ) : Tracked Unit := do
  let v ← get
  throwIf (v.stateDb.refund < gas) .refundBelowZero
  setDb fun db => { db with refund := db.refund - gas }

def subGas (gas : ℤ) : Tracked Unit := do
  let v ← get
  let pool ← orThrow ((v.gas.subGas gas).mapError .exc)
  modify fun v => { v with gas := pool }

def storageAccess (slot : Slot) : Tracked Unit := do
  let warm ← accessSlot slot
  subGas (if warm then WarmStorageReadCostEIP2929 else ColdSloadCostEIP2929)

/-- `writeGasCost`, with the refunds on the way -/
def writeGasCost (slot : Slot) (value : Hash) : Tracked ℤ := do
  let v ← get
  let current := v.stateDb.storage slot
  if value = current then
    pure WarmStorageReadCostEIP2929
  else do
    let original := v.stateDb.committed slot
    if original = current then
      if original = ZERO then
        pure SstoreSetGasEIP2200
      else do
        if value = ZERO then
          addRefund SstoreClearsScheduleRefundEIP3529
        pure (SstoreResetGasEIP2200 - ColdSloadCostEIP2929)
    else do
      if original ≠ ZERO then
        if current = ZERO then
          subRefund SstoreClearsScheduleRefundEIP3529
        else if value = ZERO then
          addRefund SstoreClearsScheduleRefundEIP3529
      if original = value then
        if original = ZERO then
          addRefund (SstoreSetGasEIP2200 - WarmStorageReadCostEIP2929)
        else
          addRefund (SstoreResetGasEIP2200 - ColdSloadCostEIP2929 - WarmStorageReadCostEIP2929)
      pure WarmStorageReadCostEIP2929

def storageWriteAccess (slot : Slot) (value : Hash) : Tracked Unit := do
  let v ← get
  throwIf (v.gas.currentGas ≤ SstoreSentryGasEIP2200) (.sentry "account storage write gas sentry fail")
  let warm ← accessSlot slot
  if ¬ warm then
    subGas ColdSloadCostEIP2929
  let cost ← writeGasCost slot value
  subGas cost

def getAccountStorage (slot : Slot) : Tracked Hash := do
  storageAccess slot
  let v ← get
  pure (v.stateDb.storage slot)

def updateAccountStorage (slot : Slot) (value : Hash) : Tracked Unit := do
  storageWriteAccess slot value
  let v ← get
  throwIf (v.readOnly = true) (.exc (.writeProtection "invalid write access to storage"))
  setDb fun db => { db with storage := Function.update db.storage slot value }

/-! ## EIP-3529 -/

/-- the surcharge for a slot that was not accessed before -/
def coldCost (warm : Bool) : ℤ := if warm then 0 else ColdSloadCostEIP2929

/-- what it costs to write a slot: most for a slot that holds its committed value -/
def eip3529Cost (original current value : Hash) : ℤ :=
  if value = current ∨ original ≠ current then WarmStorageReadCostEIP2929
  else if original = ZERO then SstoreSetGasEIP2200
  else SstoreResetGasEIP2200 - ColdSloadCostEIP2929

/-- the refund that a slot with a committed value holds while it is cleared -/
def held (original current : Hash) : ℤ :=
  if original ≠ ZERO ∧ current = ZERO then SstoreClearsScheduleRefundEIP3529 else 0

/-- the refund for having a changed slot back at its committed value -/
def resetRefund (original current value : Hash) : ℤ :=
  if original ≠ current ∧ original = value then
    if original = ZERO then SstoreSetGasEIP2200 - WarmStorageReadCostEIP2929
    else SstoreResetGasEIP2200 - ColdSloadCostEIP2929 - WarmStorageReadCostEIP2929
  else 0

def eip3529Refund (original current value : Hash) : ℤ :=
  held original value - held original current + resetRefund original current value

/-! ### What the code computes -/

/-- the refund counter changed -/
def View.refunded (v : View) (refund : ℤ) : View := { v with stateDb := { v.stateDb with refund := v.stateDb.refund + refund } }

/-- the slot on the access list -/
def View.warmed (v : View) (slot : Slot) : View :=
  { v with stateDb := { v.stateDb with accessed := Function.update v.stateDb.accessed slot true } }

def View.charged (v : View) (gas : ℤ) : View := { v with gas := { v.gas with currentGas := v.gas.currentGas - gas } }

def View.written (v : View) (slot : Slot) (value : Hash) : View :=
  { v with stateDb := { v.stateDb with storage := Function.update v.stateDb.storage slot value } }

@[simp] theorem exec_addRefund (gas : ℤ) (v : View) : exec (addRefund gas) v = (.ok (), v.refunded gas) := rfl

@[simp] theorem exec_subRefund (gas : ℤ) (v : View) : exec (subRefund gas) v =
    if v.stateDb.refund < gas then (.error .refundBelowZero, v) else (.ok (), v.refunded (-gas)) := by
  rw [subRefund, exec_get_bind]
  by_cases h : v.stateDb.refund < gas
  · rw [exec_throwIf_pos_bind h, if_pos h]
  · rw [exec_throwIf_neg_bind h, if_neg h]
    rfl

@[simp] theorem refunded_zero (v : View) : v.refunded 0 = v := by
  simp [View.refunded]

@[simp] theorem refunded_refunded (v : View) (a b : ℤ) : (v.refunded a).refunded b = v.refunded (a + b) := by
  simp [View.refunded, add_assoc]

/-- taking gas fails with too little of it, and leaves the pool as it was -/
theorem exec_subGas {gas : ℤ} (h : 0 ≤ gas) (v : View) : exec (subGas gas) v =
    if v.gas.currentGas < gas then (.error (.exc (.outOfGas gas v.gas.currentGas)), v) else (.ok (), v.charged gas) := by
  have hsign : gas.sign ≠ -1 := by
    intro hneg
    have hlt := Int.sign_eq_neg_one_iff_neg.1 hneg
    omega
  rw [subGas, exec_get_bind, GasPool.subGas, if_neg hsign]
  by_cases hlow : v.gas.currentGas < gas
  · rw [if_pos hlow, if_pos hlow]
    rfl
  · rw [if_neg hlow, if_neg hlow]
    rfl

theorem exec_writeGasCost (slot : Slot) (value : Hash) (v : View) :
    exec (writeGasCost slot value) v =
      if (v.stateDb.committed slot ≠ ZERO ∧ v.stateDb.storage slot = ZERO ∧ value ≠ ZERO) ∧
          v.stateDb.refund < SstoreClearsScheduleRefundEIP3529 then (.error .refundBelowZero, v)
      else (.ok (eip3529Cost (v.stateDb.committed slot) (v.stateDb.storage slot) value),
        v.refunded (eip3529Refund (v.stateDb.committed slot) (v.stateDb.storage slot) value)) := by
  rw [writeGasCost, exec_get_bind]
  generalize v.stateDb.committed slot = original
  generalize v.stateDb.storage slot = current
  by_cases hnoop : value = current
  · subst hnoop
    simp [eip3529Cost, eip3529Refund, resetRefund]
  · by_cases hclean : original = current
    · -- the slot holds its committed value
      subst hclean
      by_cases hzero : original = ZERO
      · subst hzero
        simp [eip3529Cost, eip3529Refund, held, resetRefund, hnoop]
      · by_cases hvalue : value = ZERO
        · subst hvalue
          simp [-bind_pure_comp, exec_bind, eip3529Cost, eip3529Refund, held, resetRefund, hzero, hnoop]
        · simp [-bind_pure_comp, eip3529Cost, eip3529Refund, held, resetRefund, hnoop, hzero, hvalue]
    · by_cases hzero : original = ZERO
      · -- a slot created in this transaction
        subst hzero
        by_cases hreset : value = ZERO
        · subst hreset
          simp [-bind_pure_comp, exec_bind, eip3529Cost, eip3529Refund, held, resetRefund, hnoop]
        · simp [-bind_pure_comp, eip3529Cost, eip3529Refund, held, resetRefund, hnoop, hclean, hreset, Ne.symm hreset]
      · by_cases hcurrent : current = ZERO
        · subst hcurrent
          by_cases hlow : v.stateDb.refund < SstoreClearsScheduleRefundEIP3529
          · simp [-bind_pure_comp, exec_bind, hnoop, hclean, hlow]
          · by_cases hreset : original = value
            · simp [-bind_pure_comp, exec_bind, eip3529Cost, eip3529Refund, held, resetRefund, hnoop, hlow, hreset]
            · simp [-bind_pure_comp, exec_bind, eip3529Cost, eip3529Refund, held, resetRefund, hnoop, hclean, hlow, hreset]
        · by_cases hvalue : value = ZERO
          · subst hvalue
            simp [-bind_pure_comp, exec_bind, eip3529Cost, eip3529Refund, held, resetRefund, hnoop, hclean, hzero, hcurrent]
          · by_cases hreset : original = value
            · simp [-bind_pure_comp, exec_bind, eip3529Cost, eip3529Refund, held, resetRefund, hnoop, hcurrent, hvalue, hreset]
            · simp [-bind_pure_comp, eip3529Cost, eip3529Refund, held, resetRefund, hnoop, hclean, hzero, hcurrent, hvalue,
                hreset]

theorem eip3529Cost_nonneg (original current value : Hash) : 0 ≤ eip3529Cost original current value := by
  unfold eip3529Cost
  split_ifs <;> decide

theorem coldCost_nonneg (warm : Bool) : 0 ≤ coldCost warm := by
  cases warm <;> decide

/-- the outcomes of a write of `value` to `slot` -/
inductive Outcome (v : View) (slot : Slot) (value : Hash) : Except WriteExc Unit × View → Prop
  | sentry (h : v.gas.currentGas ≤ SstoreSentryGasEIP2200) (message : String) :
    Outcome v slot value (.error (.sentry message), v)
  | refundBelowZero
    (h : v.stateDb.committed slot ≠ ZERO ∧ v.stateDb.storage slot = ZERO ∧
      v.stateDb.refund < SstoreClearsScheduleRefundEIP3529) :
    Outcome v slot value (.error .refundBelowZero, (v.warmed slot).charged (coldCost (v.stateDb.accessed slot)))
  -- the refund was granted already, and the value is not written
  | outOfGas (e : Exc) :
    Outcome v slot value (.error (.exc e), ((v.warmed slot).charged (coldCost (v.stateDb.accessed slot))).refunded
      (eip3529Refund (v.stateDb.committed slot) (v.stateDb.storage slot) value))
  | writeProtection (h : v.readOnly = true) (e : Exc) :
    Outcome v slot value (.error (.exc e), (((v.warmed slot).charged (coldCost (v.stateDb.accessed slot))).refunded
      (eip3529Refund (v.stateDb.committed slot) (v.stateDb.storage slot) value)).charged
        (eip3529Cost (v.stateDb.committed slot) (v.stateDb.storage slot) value))
  | written (h : SstoreSentryGasEIP2200 < v.gas.currentGas) (hwritable : v.readOnly = false) :
    Outcome v slot value (.ok (), ((((v.warmed slot).charged (coldCost (v.stateDb.accessed slot))).refunded
      (eip3529Refund (v.stateDb.committed slot) (v.stateDb.storage slot) value)).charged
        (eip3529Cost (v.stateDb.committed slot) (v.stateDb.storage slot) value)).written slot value)

/-- the first access: the sentry leaves enough gas for it -/
theorem exec_firstAccess {v : View} (h : SstoreSentryGasEIP2200 < v.gas.currentGas) (slot : Slot)
    (rest : Unit → Tracked Unit) :
    exec (do
      let warm ← accessSlot slot
      if ¬ warm then
        subGas ColdSloadCostEIP2929
      rest ()) v = exec (rest ()) ((v.warmed slot).charged (coldCost (v.stateDb.accessed slot))) := by
  have haccess : exec (accessSlot slot) v = (.ok (v.stateDb.accessed slot), v.warmed slot) := rfl
  rw [exec_bind, haccess]
  cases hwarm : v.stateDb.accessed slot with
  | true =>
    have hsame : (v.warmed slot).charged (coldCost true) = v.warmed slot := by
      simp [View.charged, coldCost]
    rw [hsame]
    simp
  | false =>
    have henough : ¬ (v.warmed slot).gas.currentGas < ColdSloadCostEIP2929 := by
      have hgas : (v.warmed slot).gas.currentGas = v.gas.currentGas := rfl
      rw [hgas]
      unfold SstoreSentryGasEIP2200 at h
      unfold ColdSloadCostEIP2929
      omega
    have hsub : exec (subGas ColdSloadCostEIP2929) (v.warmed slot) =
        (.ok (), (v.warmed slot).charged ColdSloadCostEIP2929) := by
      rw [exec_subGas (by decide), if_neg henough]
    simp [exec_bind, hsub, coldCost]

/-- **One write.** -/
theorem updateAccountStorage_outcome (slot : Slot) (value : Hash) (v : View) :
    Outcome v slot value (exec (updateAccountStorage slot value) v) := by
  by_cases hsentry : v.gas.currentGas ≤ SstoreSentryGasEIP2200
  · have haccess : exec (storageWriteAccess slot value) v =
        (.error (.sentry "account storage write gas sentry fail"), v) := by
      rw [storageWriteAccess, exec_get_bind, exec_throwIf_pos_bind hsentry]
    rw [updateAccountStorage, exec_bind, haccess]
    exact .sentry hsentry _
  · set original := v.stateDb.committed slot with horiginal
    set current := v.stateDb.storage slot with hcurrent
    set warm := (v.warmed slot).charged (coldCost (v.stateDb.accessed slot)) with hwarm
    set refunded := warm.refunded (eip3529Refund original current value) with hrefunded
    have hfirst : exec (storageWriteAccess slot value) v = exec (writeGasCost slot value >>= subGas) warm := by
      rw [storageWriteAccess, exec_get_bind, exec_throwIf_neg_bind hsentry]
      exact exec_firstAccess (not_le.1 hsentry) slot fun _ => writeGasCost slot value >>= subGas
    have hcost : exec (writeGasCost slot value) warm =
        if (original ≠ ZERO ∧ current = ZERO ∧ value ≠ ZERO) ∧ v.stateDb.refund < SstoreClearsScheduleRefundEIP3529 then
          (.error .refundBelowZero, warm)
        else (.ok (eip3529Cost original current value), refunded) := exec_writeGasCost slot value warm
    by_cases hlow : (original ≠ ZERO ∧ current = ZERO ∧ value ≠ ZERO) ∧
        v.stateDb.refund < SstoreClearsScheduleRefundEIP3529
    · rw [if_pos hlow] at hcost
      rw [updateAccountStorage, exec_bind, hfirst, exec_bind, hcost]
      exact .refundBelowZero ⟨hlow.1.1, hlow.1.2.1, hlow.2⟩
    · rw [if_neg hlow] at hcost
      have hsub := exec_subGas (eip3529Cost_nonneg original current value) refunded
      by_cases hgas : refunded.gas.currentGas < eip3529Cost original current value
      · rw [if_pos hgas] at hsub
        rw [updateAccountStorage, exec_bind, hfirst, exec_bind, hcost]
        simp only [hsub]
        exact .outOfGas _
      · rw [if_neg hgas] at hsub
        have haccess : exec (storageWriteAccess slot value) v =
            (.ok (), refunded.charged (eip3529Cost original current value)) := by
          rw [hfirst, exec_bind, hcost]
          exact hsub
        rw [updateAccountStorage, exec_bind_of_ok haccess, exec_get_bind]
        by_cases hreadOnly : v.readOnly = true
        · have hprotected : (refunded.charged (eip3529Cost original current value)).readOnly = true := hreadOnly
          rw [exec_throwIf_pos_bind hprotected]
          exact .writeProtection hreadOnly _
        · have hwritable : ¬ (refunded.charged (eip3529Cost original current value)).readOnly = true := hreadOnly
          rw [exec_throwIf_neg_bind hwritable]
          exact .written (not_le.1 hsentry) (Bool.eq_false_iff.2 hreadOnly)

/-- the outcomes of a read -/
inductive ReadOutcome (v : View) (slot : Slot) : Except WriteExc Hash × View → Prop
  | outOfGas (e : Exc) : ReadOutcome v slot (.error (.exc e), v.warmed slot)
  | read : ReadOutcome v slot (.ok (v.stateDb.storage slot), (v.warmed slot).charged
      (if v.stateDb.accessed slot then WarmStorageReadCostEIP2929 else ColdSloadCostEIP2929))

theorem getAccountStorage_outcome (slot : Slot) (v : View) :
    ReadOutcome v slot (exec (getAccountStorage slot) v) := by
  have haccess : exec (accessSlot slot) v = (.ok (v.stateDb.accessed slot), v.warmed slot) := rfl
  have hnonneg : 0 ≤ if v.stateDb.accessed slot then WarmStorageReadCostEIP2929 else ColdSloadCostEIP2929 := by
    split_ifs <;> decide
  have hsub := exec_subGas hnonneg (v.warmed slot)
  have hstorage : exec (storageAccess slot) v =
      exec (subGas (if v.stateDb.accessed slot then WarmStorageReadCostEIP2929 else ColdSloadCostEIP2929))
        (v.warmed slot) := by
    rw [storageAccess, exec_bind, haccess]
  rw [hsub] at hstorage
  rw [getAccountStorage, exec_bind, hstorage]
  by_cases hlow : (v.warmed slot).gas.currentGas <
      if v.stateDb.accessed slot then WarmStorageReadCostEIP2929 else ColdSloadCostEIP2929
  · rw [if_pos hlow]
    exact .outOfGas _
  · rw [if_neg hlow]
    exact .read

/-! ## What covers the refunds of a slot -/

/-- what must have been charged beyond the refunds granted. An accessed slot has paid for its access; a slot that holds a
new value may still be granted a refund for its reset, one that was cleared has had its refund. -/
def reserve (original current : Hash) (warm : Bool) : ℤ :=
  if warm = false then 0
  else if current = original then 1900
  else if original = ZERO then 21700
  else if current = ZERO then 0
  else 4700

/-- the books of one slot -/
structure Balanced (original current : Hash) (warm : Bool) (granted charged : ℤ) : Prop where
  -- only accessed slots are written
  clean : warm = false → current = original
  held_le : held original current ≤ granted
  covered : granted + reserve original current warm ≤ charged

theorem held_nonneg (original current : Hash) : 0 ≤ held original current := by
  unfold held
  split_ifs <;> decide

theorem reserve_nonneg (original current : Hash) (warm : Bool) : 0 ≤ reserve original current warm := by
  unfold reserve
  split_ifs <;> decide

section Balanced

variable {original current : Hash} {warm : Bool} {granted charged : ℤ} (h : Balanced original current warm granted charged)

include h

theorem Balanced.mono {charged' : ℤ} (hle : charged ≤ charged') : Balanced original current warm granted charged' where
  clean := h.clean
  held_le := h.held_le
  covered := h.covered.trans hle

theorem Balanced.granted_nonneg : 0 ≤ granted := (held_nonneg original current).trans h.held_le

theorem Balanced.granted_le : granted ≤ charged := by
  have hreserve := reserve_nonneg original current warm
  have hcovered := h.covered
  omega

/-- a read pays for the access -/
theorem Balanced.read : Balanced original current true granted
    (charged + if warm then WarmStorageReadCostEIP2929 else ColdSloadCostEIP2929) where
  clean := fun hcold => Bool.noConfusion hcold
  held_le := h.held_le
  covered := by
    have hcovered := h.covered
    cases warm with
    | true =>
      have hnonneg : 0 ≤ WarmStorageReadCostEIP2929 := by decide
      rw [if_pos rfl]
      omega
    | false =>
      have hclean := h.clean rfl
      have hcold : reserve original current false = 0 := rfl
      have hwarm : reserve original current true = 1900 := by simp [reserve, hclean]
      have hcost : ColdSloadCostEIP2929 = 2100 := rfl
      rw [if_neg Bool.false_ne_true, hwarm, hcost]
      omega

omit h in
/-- on an accessed slot, the cost of a write and the change of the reserve cover the refund -/
theorem refund_covered (value : Hash) : eip3529Refund original current value + reserve original value true ≤
    reserve original current true + eip3529Cost original current value := by
  unfold eip3529Refund eip3529Cost reserve held resetRefund WarmStorageReadCostEIP2929 ColdSloadCostEIP2929
    SstoreSetGasEIP2200 SstoreResetGasEIP2200 SstoreClearsScheduleRefundEIP3529
  -- the cases are whether the slot is changed at all, clean or dirty, and which of the three values are zero or equal
  by_cases hnoop : value = current
  · grind
  · by_cases hclean : original = current
    · grind
    · grind

/-- **A write** pays for its refunds: what it refunds is covered by its cost and the change of the reserve. -/
theorem Balanced.write (value : Hash) : Balanced original value true (granted + eip3529Refund original current value)
    (charged + (coldCost warm + eip3529Cost original current value)) where
  clean := fun hcold => Bool.noConfusion hcold
  held_le := by
    have hheld := h.held_le
    have hreset : 0 ≤ resetRefund original current value := by
      unfold resetRefund
      split_ifs <;> decide
    unfold eip3529Refund
    omega
  covered := by
    have hcovered := h.covered
    have hwrite : eip3529Refund original current value + reserve original value true ≤
        reserve original current true + eip3529Cost original current value := refund_covered value
    cases warm with
    | true =>
      have hcold : coldCost true = 0 := rfl
      omega
    | false =>
      -- the first access costs more than an accessed slot keeps in reserve
      have hcold : coldCost false = 2100 := rfl
      have hreserve : reserve original current false = 0 := rfl
      have haccessed : reserve original current true = 1900 := by simp [reserve, h.clean rfl]
      omega

end Balanced

/-! ## A transaction -/

/-- a snapshot, with the net refunds granted until then -/
structure Revision where
  id : ℕ
  stateDb : StateDb
  granted : Slot → ℤ

/-- a view in a transaction, and the books of the slots -/
structure Session where
  view : View
  revisions : List Revision
  nextRevisionId : ℕ
  charged : Slot → ℤ
  granted : Slot → ℤ

/-- what may happen; the `rollback` of an access is the snapshot that its caller reverts to if it throws -/
inductive Op where
  | updateAccountStorage (slot : Slot) (value : Hash) (rollback : Option ℕ)
  | getAccountStorage (slot : Slot) (rollback : Option ℕ)
  | snapshot
  | revertToSnapshot (id : ℕ)
  -- gas taken and given by anything else, or a view of another invocation
  | switchView (gas : GasPool) (readOnly : Bool)

namespace Session

/-- the start of a transaction: every slot holds its committed value and none was accessed -/
def start (committed : Slot → Hash) (gas : GasPool) (readOnly : Bool) : Session where
  view := ⟨⟨committed, committed, fun _ => false, 0⟩, gas, readOnly⟩
  revisions := []
  nextRevisionId := 0
  charged := fun _ => 0
  granted := fun _ => 0

/-- the view after an access to `slot`, entered in the books -/
def book (s : Session) (slot : Slot) (view : View) : Session := { s with
  view := view
  charged := fun slot' => s.charged slot' + if slot' = slot then s.view.gas.currentGas - view.gas.currentGas else 0
  granted := fun slot' => s.granted slot' + if slot' = slot then view.stateDb.refund - s.view.stateDb.refund else 0 }

/-- newest first; the snapshot itself and those after it are gone -/
def revertToSnapshot (s : Session) (id : ℕ) : Except WriteExc Session :=
  match s.revisions.dropWhile fun r => r.id ≠ id with
  | [] => .error (.invalidRevision id)
  | r :: revisions => .ok { s with
      view := { s.view with stateDb := r.stateDb }
      revisions := revisions
      granted := r.granted }

/-- after an access: an exception is caught where its caller reverts, if it does, and a negative counter aborts -/
def settle {α : Type} (s : Session) (slot : Slot) (rollback : Option ℕ) :
    Except WriteExc α × View → Except WriteExc Session
  | (.ok _, view) => .ok (s.book slot view)
  | (.error .refundBelowZero, _) => .error .refundBelowZero
  | (.error _, view) => match rollback with
    | none => .ok (s.book slot view)
    | some id => (s.book slot view).revertToSnapshot id

def step (s : Session) : Op → Except WriteExc Session
  | .updateAccountStorage slot value rollback => s.settle slot rollback (exec (StorageGas.updateAccountStorage slot value) s.view)
  | .getAccountStorage slot rollback => s.settle slot rollback (exec (StorageGas.getAccountStorage slot) s.view)
  | .snapshot => .ok { s with
      revisions := ⟨s.nextRevisionId, s.view.stateDb, s.granted⟩ :: s.revisions
      nextRevisionId := s.nextRevisionId + 1 }
  | .revertToSnapshot id => s.revertToSnapshot id
  | .switchView gas readOnly => .ok { s with view := { s.view with gas := gas, readOnly := readOnly } }

def run (s : Session) (ops : List Op) : Except WriteExc Session := ops.foldlM step s

end Session

/-- the caller of an access that throws reverts to a snapshot -/
def Op.RollsBack : Op → Prop
  | .updateAccountStorage _ _ rollback => rollback.isSome
  | .getAccountStorage _ rollback => rollback.isSome
  | _ => True

/-! ### The books -/

/-- the books of all slots: the counter is the sum of the refunds granted to them -/
structure Books (db : StateDb) (granted charged : Slot → ℤ) : Prop where
  balanced : ∀ slot, Balanced (db.committed slot) (db.storage slot) (db.accessed slot) (granted slot) (charged slot)
  counter : ∃ slots : Finset Slot, (∀ slot ∉ slots, granted slot = 0) ∧ db.refund = ∑ slot ∈ slots, granted slot

section Books

variable {db : StateDb} {granted charged : Slot → ℤ} (h : Books db granted charged)

include h

theorem Books.mono {charged' : Slot → ℤ} (hle : ∀ slot, charged slot ≤ charged' slot) : Books db granted charged' where
  balanced := fun slot => (h.balanced slot).mono (hle slot)
  counter := h.counter

/-- the counter covers what any slot has been granted -/
theorem Books.granted_le_refund (slot : Slot) : granted slot ≤ db.refund := by
  obtain ⟨slots, hnone, hsum⟩ := h.counter
  have hnonneg : ∀ slot ∈ slots, 0 ≤ granted slot := fun slot _ => (h.balanced slot).granted_nonneg
  rw [hsum]
  by_cases hslot : slot ∈ slots
  · exact Finset.single_le_sum hnonneg hslot
  · rw [hnone slot hslot]
    exact Finset.sum_nonneg hnonneg

theorem Books.refund_nonneg : 0 ≤ db.refund := by
  obtain ⟨slots, -, hsum⟩ := h.counter
  rw [hsum]
  exact Finset.sum_nonneg fun slot _ => (h.balanced slot).granted_nonneg

omit h in
/-- one slot's entry and the counter change together -/
theorem counter_add (slot : Slot) {refund : ℤ} (gain : ℤ)
    (hcounter : ∃ slots : Finset Slot, (∀ slot ∉ slots, granted slot = 0) ∧ refund = ∑ slot ∈ slots, granted slot) :
    ∃ slots : Finset Slot, (∀ slot' ∉ slots, (granted slot' + if slot' = slot then gain else 0) = 0) ∧
      refund + gain = ∑ slot' ∈ slots, (granted slot' + if slot' = slot then gain else 0) := by
  obtain ⟨slots, hnone, hsum⟩ := hcounter
  refine ⟨insert slot slots, ?_, ?_⟩
  · intro slot' hslot'
    rw [Finset.mem_insert, not_or] at hslot'
    rw [hnone slot' hslot'.2, if_neg hslot'.1, add_zero]
  · have hsame : ∑ slot' ∈ insert slot slots, granted slot' = ∑ slot' ∈ slots, granted slot' := by
      refine Finset.sum_insert_of_eq_zero_if_notMem ?_
      exact hnone slot
    rw [Finset.sum_add_distrib, hsame, ← hsum, Finset.sum_ite_eq' (insert slot slots) slot fun _ => gain,
      if_pos (Finset.mem_insert_self slot slots)]

end Books

/-- an access to one slot that keeps the books of this slot keeps them all -/
theorem Books.book {s : Session} (h : Books s.view.stateDb s.granted s.charged) {slot : Slot} {view : View}
    (hcommitted : view.stateDb.committed = s.view.stateDb.committed)
    (hothers : ∀ slot' ≠ slot, view.stateDb.storage slot' = s.view.stateDb.storage slot' ∧
      view.stateDb.accessed slot' = s.view.stateDb.accessed slot')
    (hslot : Balanced (s.view.stateDb.committed slot) (view.stateDb.storage slot) (view.stateDb.accessed slot)
      (s.granted slot + (view.stateDb.refund - s.view.stateDb.refund))
      (s.charged slot + (s.view.gas.currentGas - view.gas.currentGas))) :
    Books view.stateDb (s.book slot view).granted (s.book slot view).charged where
  balanced := by
    intro slot'
    simp only [Session.book]
    rw [hcommitted]
    by_cases hsame : slot' = slot
    · subst hsame
      rw [if_pos rfl, if_pos rfl]
      exact hslot
    · rw [if_neg hsame, if_neg hsame, add_zero, add_zero, (hothers slot' hsame).1, (hothers slot' hsame).2]
      exact h.balanced slot'
  counter := by
    have hsum := counter_add slot (view.stateDb.refund - s.view.stateDb.refund) h.counter
    rw [add_sub_cancel] at hsum
    exact hsum

/-- the books are in order, now and in every snapshot -/
structure Sound (s : Session) : Prop where
  books : Books s.view.stateDb s.granted s.charged
  revisions : ∀ r ∈ s.revisions, Books r.stateDb r.granted s.charged

/-- no abort, and the books in order afterwards -/
def Keeps : Except WriteExc Session → Prop
  | .ok s => Sound s
  | .error e => e ≠ .refundBelowZero

theorem sound_start (committed : Slot → Hash) (gas : GasPool) (readOnly : Bool) :
    Sound (Session.start committed gas readOnly) where
  books := by
    refine ⟨?_, ∅, fun _ _ => rfl, rfl⟩
    intro slot
    refine ⟨fun _ => rfl, ?_, le_refl _⟩
    show held (committed slot) (committed slot) ≤ 0
    unfold held
    rw [if_neg fun hboth => hboth.1 hboth.2]
  revisions := fun _ hr => absurd hr List.not_mem_nil

/-- a snapshot brings its books back; the current ones need not be in order -/
theorem keeps_revert {s : Session} (h : ∀ r ∈ s.revisions, Books r.stateDb r.granted s.charged) (id : ℕ) :
    Keeps (s.revertToSnapshot id) := by
  unfold Session.revertToSnapshot
  cases hdrop : s.revisions.dropWhile fun r => r.id ≠ id with
  | nil => exact WriteExc.noConfusion
  | cons r revisions =>
    have hsub : (r :: revisions).Sublist s.revisions := hdrop ▸ List.dropWhile_sublist _
    exact ⟨h r (hsub.subset List.mem_cons_self), fun r' hr' => h r' (hsub.subset (List.mem_cons_of_mem r hr'))⟩

section Settle

variable {s : Session} (h : Sound s) {slot : Slot} {view : View}

include h

/-- gas taken by an access leaves the books of the snapshots in order -/
theorem Sound.revisions_book (hgas : view.gas.currentGas ≤ s.view.gas.currentGas) :
    ∀ r ∈ (s.book slot view).revisions, Books r.stateDb r.granted (s.book slot view).charged := by
  intro r hr
  refine (h.revisions r hr).mono ?_
  intro slot'
  simp only [Session.book]
  split_ifs <;> omega

theorem Sound.settle_ok {α : Type} (a : α) (rollback : Option ℕ) (hgas : view.gas.currentGas ≤ s.view.gas.currentGas)
    (hbooks : Books view.stateDb (s.book slot view).granted (s.book slot view).charged) :
    Keeps (s.settle slot rollback (.ok a, view)) := ⟨hbooks, h.revisions_book hgas⟩

/-- an exception that the caller reverts -/
theorem Sound.settle_error {α : Type} {e : WriteExc} (he : e ≠ .refundBelowZero) {rollback : Option ℕ}
    (hrollback : rollback.isSome) (hgas : view.gas.currentGas ≤ s.view.gas.currentGas) :
    Keeps (s.settle slot rollback ((.error e, view) : Except WriteExc α × View)) := by
  obtain ⟨id, rfl⟩ := Option.isSome_iff_exists.1 hrollback
  have hbooks : ∀ r ∈ (s.book slot view).revisions, Books r.stateDb r.granted (s.book slot view).charged :=
    h.revisions_book hgas
  have hrevert := keeps_revert hbooks id
  cases e with
  | refundBelowZero => exact absurd rfl he
  | sentry message => exact hrevert
  | exc e => exact hrevert
  | invalidRevision id' => exact hrevert

end Settle

theorem Sound.write {s : Session} (h : Sound s) (slot : Slot) (value : Hash) {rollback : Option ℕ}
    (hrollback : rollback.isSome) : Keeps (s.step (.updateAccountStorage slot value rollback)) := by
  have houtcome := updateAccountStorage_outcome slot value s.view
  have hcost := eip3529Cost_nonneg (s.view.stateDb.committed slot) (s.view.stateDb.storage slot) value
  have hcold := coldCost_nonneg (s.view.stateDb.accessed slot)
  rw [Session.step]
  generalize exec (updateAccountStorage slot value) s.view = r at houtcome
  cases houtcome with
  | sentry _ message => exact h.settle_error WriteExc.noConfusion hrollback le_rfl
  | refundBelowZero hlow =>
    -- the counter covers the refund that the slot holds
    have hheld := (h.books.balanced slot).held_le
    have hrefund := h.books.granted_le_refund slot
    rw [held, if_pos ⟨hlow.1, hlow.2.1⟩] at hheld
    omega
  | outOfGas e =>
    refine h.settle_error WriteExc.noConfusion hrollback ?_
    show s.view.gas.currentGas - coldCost _ ≤ _
    omega
  | writeProtection _ e =>
    refine h.settle_error WriteExc.noConfusion hrollback ?_
    show s.view.gas.currentGas - coldCost _ - eip3529Cost _ _ _ ≤ _
    omega
  | written _ _ =>
    refine h.settle_ok () rollback ?_ (h.books.book rfl ?_ ?_)
    · show s.view.gas.currentGas - coldCost _ - eip3529Cost _ _ _ ≤ _
      omega
    · intro slot' hne
      exact ⟨Function.update_of_ne hne _ _, Function.update_of_ne hne _ _⟩
    · have hbalanced := (h.books.balanced slot).write value
      simp only [View.written, View.charged, View.refunded, View.warmed, Function.update_self]
      have hrefund : s.view.stateDb.refund + eip3529Refund (s.view.stateDb.committed slot) (s.view.stateDb.storage slot)
          value - s.view.stateDb.refund =
            eip3529Refund (s.view.stateDb.committed slot) (s.view.stateDb.storage slot) value := by ring
      have hgas : s.view.gas.currentGas - (s.view.gas.currentGas - coldCost (s.view.stateDb.accessed slot) -
          eip3529Cost (s.view.stateDb.committed slot) (s.view.stateDb.storage slot) value) =
            coldCost (s.view.stateDb.accessed slot) +
              eip3529Cost (s.view.stateDb.committed slot) (s.view.stateDb.storage slot) value := by ring
      rw [hrefund, hgas]
      exact hbalanced

theorem Sound.read {s : Session} (h : Sound s) (slot : Slot) {rollback : Option ℕ} (hrollback : rollback.isSome) :
    Keeps (s.step (.getAccountStorage slot rollback)) := by
  have houtcome := getAccountStorage_outcome slot s.view
  rw [Session.step]
  generalize exec (getAccountStorage slot) s.view = r at houtcome
  cases houtcome with
  | outOfGas e => exact h.settle_error WriteExc.noConfusion hrollback le_rfl
  | read =>
    have hbalanced := (h.books.balanced slot).read
    set cost := if s.view.stateDb.accessed slot then WarmStorageReadCostEIP2929 else ColdSloadCostEIP2929 with hcost
    have hnonneg : 0 ≤ cost := by
      rw [hcost]
      split_ifs <;> decide
    refine h.settle_ok _ rollback ?_ (h.books.book rfl ?_ ?_)
    · show s.view.gas.currentGas - cost ≤ _
      omega
    · intro slot' hne
      exact ⟨rfl, Function.update_of_ne hne _ _⟩
    · have hgas : s.view.gas.currentGas - (s.view.gas.currentGas - cost) = cost := by ring
      simp only [View.charged, View.warmed, Function.update_self]
      rw [hgas, sub_self, add_zero]
      exact hbalanced

/-- **One step.** -/
theorem Sound.step {s : Session} (h : Sound s) {op : Op} (hop : op.RollsBack) : Keeps (s.step op) := by
  cases op with
  | updateAccountStorage slot value rollback => exact h.write slot value hop
  | getAccountStorage slot rollback => exact h.read slot hop
  | snapshot => exact ⟨h.books, List.forall_mem_cons.2 ⟨h.books, h.revisions⟩⟩
  | revertToSnapshot id => exact keeps_revert h.revisions id
  | switchView gas readOnly => exact ⟨h.books, h.revisions⟩

theorem Sound.run {s : Session} (h : Sound s) {ops : List Op} (hops : ∀ op ∈ ops, op.RollsBack) : Keeps (s.run ops) := by
  induction ops generalizing s with
  | nil => exact h
  | cons op ops ih =>
    have hstep := h.step (hops op List.mem_cons_self)
    rw [Session.run, List.foldlM_cons]
    cases hs : s.step op with
    | error e =>
      rw [hs] at hstep
      exact hstep
    | ok s' =>
      rw [hs] at hstep
      exact ih hstep fun op' hop' => hops op' (List.mem_cons_of_mem op hop')

/-- a write that succeeds, as one function of the three values and of whether the slot was accessed -/
theorem updateAccountStorage_ok {slot : Slot} {value : Hash} {v v' : View}
    (h : exec (updateAccountStorage slot value) v = (.ok (), v')) :
    v' = { v with
      stateDb := { v.stateDb with
        storage := Function.update v.stateDb.storage slot value
        accessed := Function.update v.stateDb.accessed slot true
        refund := v.stateDb.refund + eip3529Refund (v.stateDb.committed slot) (v.stateDb.storage slot) value }
      gas := { v.gas with currentGas := v.gas.currentGas - (coldCost (v.stateDb.accessed slot) +
        eip3529Cost (v.stateDb.committed slot) (v.stateDb.storage slot) value) } } := by
  have houtcome := updateAccountStorage_outcome slot value v
  rw [h] at houtcome
  cases houtcome with
  | written _ _ => simp [View.written, View.charged, View.refunded, View.warmed, sub_sub]

/-- **Refunds are covered.** In a transaction whose callers revert what has thrown, no refund is taken off a counter that
does not hold it, and the counter, the sum of the net refunds of the slots, is never negative; no slot is granted more than
was charged for it. A write that succeeds costs and refunds what its three values and the access list say. -/
theorem refunds_covered (committed : Slot → Hash) (gas : GasPool) (readOnly : Bool) (ops : List Op)
    (hops : ∀ op ∈ ops, op.RollsBack) :
    (Session.start committed gas readOnly).run ops ≠ .error .refundBelowZero ∧
    (∀ s, (Session.start committed gas readOnly).run ops = .ok s →
      0 ≤ s.view.stateDb.refund ∧
      (∃ slots : Finset Slot, (∀ slot ∉ slots, s.granted slot = 0) ∧
        s.view.stateDb.refund = ∑ slot ∈ slots, s.granted slot) ∧
      ∀ slot, s.granted slot ≤ s.charged slot) ∧
    ∀ slot value v v', exec (updateAccountStorage slot value) v = (.ok (), v') →
      v' = { v with
        stateDb := { v.stateDb with
          storage := Function.update v.stateDb.storage slot value
          accessed := Function.update v.stateDb.accessed slot true
          refund := v.stateDb.refund + eip3529Refund (v.stateDb.committed slot) (v.stateDb.storage slot) value }
        gas := { v.gas with currentGas := v.gas.currentGas - (coldCost (v.stateDb.accessed slot) +
          eip3529Cost (v.stateDb.committed slot) (v.stateDb.storage slot) value) } } := by
  have hrun := (sound_start committed gas readOnly).run hops
  refine ⟨?_, ?_, fun _ _ _ _ => updateAccountStorage_ok⟩
  · intro habort
    rw [habort] at hrun
    exact hrun rfl
  · intro s hs
    rw [hs] at hrun
    exact ⟨hrun.books.refund_nonneg, hrun.books.counter, fun slot => (hrun.books.balanced slot).granted_le⟩

/-- a slot with a committed value cleared, and written again after a snapshot that is reverted -/
theorem refunds_covered_sample : (Session.start (fun _ => 1) ⟨9000, 9000⟩ false).run
    [.snapshot, .updateAccountStorage (7, 3) ZERO (some 0), .snapshot, .updateAccountStorage (7, 3) 2 (some 1),
      .revertToSnapshot 1] ≠ .error .refundBelowZero :=
  (refunds_covered (fun _ => 1) ⟨9000, 9000⟩ false
    [.snapshot, .updateAccountStorage (7, 3) ZERO (some 0), .snapshot, .updateAccountStorage (7, 3) 2 (some 1),
      .revertToSnapshot 1] (by simp [Op.RollsBack])).1

/-- Two writes that throw and are not reverted: one that runs out of gas is granted its refund and charged for the access
only; one in a read-only view takes its refund back without the value written, and once more. -/
theorem thrown_not_reverted :
    ((Session.start (fun _ => 1) ⟨4500, 4500⟩ false).run [.updateAccountStorage (7, 3) ZERO none]).map
      (fun s => (s.granted (7, 3), s.charged (7, 3))) = .ok (4800, 2100) ∧
    ((Session.start (fun _ => 1) ⟨50000, 50000⟩ false).run [.updateAccountStorage (7, 3) ZERO none,
      .switchView ⟨40000, 50000⟩ true, .updateAccountStorage (7, 3) 2 none, .updateAccountStorage (7, 3) 2 none]).map
        (fun s => s.view.stateDb.refund) = .error .refundBelowZero :=
  ⟨by rfl, by rfl⟩

end SidechainsSdk.Account.StorageGas
