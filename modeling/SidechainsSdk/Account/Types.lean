/-
Values shared by the account model: addresses, forger key pairs, block fee records, payments.

- An address is its 20 bytes; `AddressProposition` wraps an address and compares by it, so it is the same type here.
- A key pair is the 32 bytes of the block sign key and the 33 bytes of the VRF key.
- Wei amounts are `BigInteger` in the source and `ℤ` here; `BigInteger.divide` truncates towards zero (`Int.tdiv`).
- `ForgerInfo.rewardShare` is an `Int` with the constructor check "rewardShare expected to be non negative", hence `ℕ`.
- The iteration order of a hash map is not specified; it is a parameter (`HashOrder`) wherever the source iterates one.
-/
import Mathlib.Data.List.AList
import Mathlib.Tactic

namespace SidechainsSdk.Account

/-- the 20 bytes of an account address -/
abbrev Address := BitVec 160

/-- the 33 bytes of a VRF key, cut as the contract ABI transports them (`vrf1` is `bytes32`, `vrf2` is `bytes1`) -/
structure VrfPublicKey where
  vrf1 : BitVec 256
  vrf2 : BitVec 8
deriving DecidableEq

/-- the two public keys a forger is registered with -/
structure ForgerPublicKeys where
  blockSignPublicKey : BitVec 256
  vrfPublicKey : VrfPublicKey
deriving DecidableEq

/-- who is paid for a block: the reward address, and the forger's keys since fork 1.4; `equals` compares both -/
structure ForgerIdentifier where
  address : Address
  forgerKeys : Option ForgerPublicKeys
deriving DecidableEq

/-- the fees of one block, as recorded in the metadata storage -/
structure AccountBlockFeeInfo where
  baseFee : ℤ
  forgerTips : ℤ
  forgerAddress : Address
  forgerKeys : Option ForgerPublicKeys
deriving DecidableEq

/-- a payment to a forger identifier, before it is split with the delegators -/
structure ForgerPayment where
  identifier : ForgerIdentifier
  value : ℤ
  valueFromMainchain : ℤ
deriving DecidableEq

/-- a payment to an address -/
structure AccountPayment where
  address : Address
  value : ℤ
  valueFromMainchain : Option ℤ
  valueFromFees : Option ℤ
deriving DecidableEq

/-- what the stake contract stores about a registered forger -/
structure ForgerInfo where
  forgerPublicKeys : ForgerPublicKeys
  rewardShare : ℕ
  rewardAddress : Address
deriving DecidableEq

/-- the delegators' share of a forger's payment, with the keys of that forger -/
structure DelegatorFeePayment where
  feePayment : AccountPayment
  forgerKeys : ForgerPublicKeys
deriving DecidableEq

/-! ## Amounts

Amounts are in wei. A zenny is 10^10 wei, and stakes are whole numbers of zennies. -/

/-- `ZenCoinsUtils.COIN`, in zennies -/
def COIN : ℤ := 10 ^ 8

/-- `ZenCoinsUtils.MAX_MONEY`, in zennies -/
def MAX_MONEY : ℤ := 21000000 * COIN

def ZENNY_TO_WEI_MULTIPLIER : ℤ := 10 ^ 10

def convertZenniesToWei (valueInZennies : ℤ) : ℤ := ZENNY_TO_WEI_MULTIPLIER * valueInZennies

def MAX_MONEY_IN_WEI : ℤ := convertZenniesToWei MAX_MONEY

def isValidZenAmount (valueInWei : ℤ) : Bool :=
  0 ≤ valueInWei.sign ∧ valueInWei ≤ MAX_MONEY_IN_WEI ∧ (valueInWei % ZENNY_TO_WEI_MULTIPLIER).sign = 0

theorem isValidZenAmount_iff {w : ℤ} :
    isValidZenAmount w = true ↔ 0 ≤ w ∧ w ≤ MAX_MONEY_IN_WEI ∧ ZENNY_TO_WEI_MULTIPLIER ∣ w := by
  simp only [isValidZenAmount, Bool.decide_and, Bool.and_eq_true, decide_eq_true_eq, Int.sign_nonneg_iff,
    Int.sign_eq_zero_iff_zero, Int.dvd_iff_emod_eq_zero]

/-! ## Hash maps -/

/-- the order in which a hash map is iterated: some permutation of its entries, given in the order of insertion. Small maps of
Scala, of at most four entries, keep that order, larger ones go by hash codes. -/
structure HashOrder (α : Type) where
  iterate : List α → List α
  perm : ∀ l, (iterate l).Perm l

/-- the order in which the entries were first inserted -/
def HashOrder.insertion (α : Type) : HashOrder α := ⟨id, fun _ => List.Perm.refl _⟩

end SidechainsSdk.Account
