/-
Gas pools and the exceptions that message processing distinguishes (`GasPool`, `InvalidMessageExceptions`, the
`ExecutionFailedException` hierarchy).

A pool remembers the gas it was created with; `subGas` and `addGas` are guarded so that the current gas stays between
zero and that amount. Both guards throw, and which exception they throw matters: running out of gas is an execution
failure (the message is applied and paid for), a negative amount or an overfull pool is not (the message is invalid).

- `subGas_ok`, `addGas_ok`: exactly when a guard passes, and what the pool holds then.
- `subGas_within`, `addGas_within`: a pool that has passed a guard lies within its bounds again.
-/
import Mathlib.Tactic
import SidechainsSdk.Account.Types

namespace SidechainsSdk.Account

/-- a `byte[]` of the virtual machine -/
abbrev Octets := List (BitVec 8)

/-- the exceptions of message processing -/
inductive Exc where
  -- subclasses of `ExecutionFailedException`, itself the last of them
  | executionReverted (message : String) (returnData : Octets)
  | outOfGas (gas currentGas : ℤ)
  | writeProtection (message : String)
  | executionFailed (message : String)
  -- subclasses of `InvalidMessageException`
  | nonceTooLow (address : Address) (txNonce stateNonce : ℤ)
  | nonceTooHigh (address : Address) (txNonce stateNonce : ℤ)
  | nonceMax (address : Address) (stateNonce : ℤ)
  | gasLimitReached
  | insufficientFunds (address : Address) (have_ want : ℤ)
  | gasUintOverflow
  | intrinsicGas (have_ want : ℤ)
  | feeCapTooLow (address : Address) (maxFeePerGas baseFee : ℤ)
  | senderNotEoa (address : Address)
  | maxInitCodeSizeExceeded (initCodeLength maxInitCodeSize : ℕ)
  -- its superclass, thrown by the checks of a transaction on its own
  | transactionSemanticValidity (message : String)
  -- anything else
  | illegalArgument (message : String)
  | nullPointer
  | other (message : String)
deriving DecidableEq

namespace Exc

/-- `case err: ExecutionFailedException` -/
def isExecutionFailed : Exc → Bool
  | executionReverted _ _ | outOfGas _ _ | writeProtection _ | executionFailed _ => true
  | _ => false

/-- `case _: ExecutionRevertedException` -/
def isExecutionReverted : Exc → Bool
  | executionReverted _ _ => true
  | _ => false

end Exc

/-- `GasPool`: `initialGas` never changes -/
structure GasPool where
  initialGas : ℤ
  currentGas : ℤ
deriving DecidableEq

namespace GasPool

/-- `new GasPool(initialGas)` -/
def new (initialGas : ℤ) : GasPool := ⟨initialGas, initialGas⟩

def getUsedGas (p : GasPool) : ℤ := p.initialGas - p.currentGas

def subGas (p : GasPool) (gas : ℤ) : Except Exc GasPool :=
  if gas.sign = -1 then .error (.illegalArgument "cannot consume a negative amount of gas")
  else if p.currentGas < gas then .error (.outOfGas gas p.currentGas)
  else .ok { p with currentGas := p.currentGas - gas }

def addGas (p : GasPool) (gas : ℤ) : Except Exc GasPool :=
  if gas.sign = -1 then .error (.illegalArgument "cannot return a negative amount of gas")
  else if p.currentGas + gas > p.initialGas then .error (.illegalArgument "cannot return more gas than was used")
  else .ok { p with currentGas := p.currentGas + gas }

/-- not negative, and not more than the pool was created with -/
structure Within (p : GasPool) : Prop where
  nonneg : 0 ≤ p.currentGas
  le_initial : p.currentGas ≤ p.initialGas

theorem within_new {gas : ℤ} (h : 0 ≤ gas) : (new gas).Within := ⟨h, le_rfl⟩

theorem subGas_ok {p p' : GasPool} {gas : ℤ} :
    p.subGas gas = .ok p' ↔ 0 ≤ gas ∧ gas ≤ p.currentGas ∧ p' = { p with currentGas := p.currentGas - gas } := by
  unfold subGas
  split_ifs with hneg hlow
  · have : gas < 0 := Int.sign_eq_neg_one_iff_neg.1 hneg
    simp only [false_iff]
    omega
  · simp only [false_iff]
    omega
  · have : 0 ≤ gas := not_lt.1 fun h => hneg (Int.sign_eq_neg_one_iff_neg.2 h)
    simp only [Except.ok.injEq]
    constructor
    · rintro rfl
      exact ⟨this, not_lt.1 hlow, rfl⟩
    · rintro ⟨-, -, rfl⟩
      rfl

theorem addGas_ok {p p' : GasPool} {gas : ℤ} :
    p.addGas gas = .ok p' ↔
      0 ≤ gas ∧ p.currentGas + gas ≤ p.initialGas ∧ p' = { p with currentGas := p.currentGas + gas } := by
  unfold addGas
  split_ifs with hneg hhigh
  · have : gas < 0 := Int.sign_eq_neg_one_iff_neg.1 hneg
    simp only [false_iff]
    omega
  · simp only [false_iff]
    omega
  · have : 0 ≤ gas := not_lt.1 fun h => hneg (Int.sign_eq_neg_one_iff_neg.2 h)
    simp only [Except.ok.injEq]
    constructor
    · rintro rfl
      exact ⟨this, not_lt.1 hhigh, rfl⟩
    · rintro ⟨-, -, rfl⟩
      rfl

theorem subGas_within {p p' : GasPool} {gas : ℤ} (hp : p.Within) (h : p.subGas gas = .ok p') : p'.Within := by
  obtain ⟨hgas, hle, rfl⟩ := subGas_ok.1 h
  exact ⟨by dsimp only; omega, by have := hp.le_initial; dsimp only; omega⟩

theorem addGas_within {p p' : GasPool} {gas : ℤ} (hp : p.Within) (h : p.addGas gas = .ok p') : p'.Within := by
  obtain ⟨hgas, hle, rfl⟩ := addGas_ok.1 h
  exact ⟨by have := hp.nonneg; dsimp only; omega, hle⟩

end GasPool

end SidechainsSdk.Account
