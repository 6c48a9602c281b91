/-
The transactions of the UTXO mempool (`utxo/mempool/MempoolMap.scala`): a map by id, the keys sorted by fee rate, and the
number of bytes of all transactions. The three are changed by hand.

A transaction is given by what the mempool reads of it. Its size is the length of a byte array; its id depends on its whole
content. The counters are `Long`s that stay far below their range.
-/
import Mathlib.Tactic
import SidechainsSdk.Core.AssocMap
import SidechainsSdk.Core.Codec
import SidechainsSdk.Core.SortedSet

namespace SidechainsSdk.Utxo.Mempool

/-- what the mempool reads of a transaction; `extraCompatible` is what its checker asks besides the default checker -/
class BoxTransaction (τ : Type) (ι : outParam Type) where
  id : τ → ι
  fee : τ → ℤ
  size : τ → ℕ
  closedBoxIds : τ → List Bytes
  isMemoryPoolCompatible : τ → Bool
  extraCompatible : τ → List τ → Bool
  /-- an id stands for one fee, one size and one list of inputs -/
  same_content : ∀ t t', id t = id t' → fee t = fee t' ∧ size t = size t' ∧ closedBoxIds t = closedBoxIds t'

/-- `utils/FeeRate.scala` -/
structure FeeRate where
  fee : ℤ
  size : ℤ

/-- the product is a `Long`, the division rounds to zero -/
def FeeRate.satoshiPerK (r : FeeRate) : ℤ := if 0 < r.size then ((r.fee * 1000).bmod (2 ^ 64)).tdiv r.size else 0

structure SidechainMemoryPoolEntry (τ : Type) where
  unconfirmedTx : τ

inductive MempoolException where
  | feeLessThanMinFeeRate
  | mempoolFull
  | incompatibleTransaction
  | noSuchElement
  | indexOutOfBounds
  deriving DecidableEq, Repr

structure MempoolMapKey (ι : Type) where
  txid : ι
  feeRate : ℤ
  deriving DecidableEq

namespace MempoolMapKey

variable {ι : Type}

def toLexKey (k : MempoolMapKey ι) : ℤ ×ₗ ι := toLex (k.feeRate, k.txid)

theorem toLexKey_injective : Function.Injective (toLexKey : MempoolMapKey ι → ℤ ×ₗ ι) := by
  intro a b h
  cases a
  cases b
  simpa [toLexKey, and_comm] using h

variable [LinearOrder ι]

/-- the order: by fee rate, then by id -/
def compare (a b : MempoolMapKey ι) : Ordering :=
  if a.feeRate > b.feeRate then .gt else if a.feeRate < b.feeRate then .lt else cmp a.txid b.txid

instance : LinearOrder (MempoolMapKey ι) := LinearOrder.lift' toLexKey toLexKey_injective

theorem lt_def {a b : MempoolMapKey ι} :
    a < b ↔ a.feeRate < b.feeRate ∨ a.feeRate = b.feeRate ∧ a.txid < b.txid := Prod.Lex.lt_iff

theorem compare_eq_lt {a b : MempoolMapKey ι} : compare a b = .lt ↔ a < b := by
  rw [lt_def]
  unfold compare
  by_cases hgt : a.feeRate > b.feeRate
  · rw [if_pos hgt]
    simp only [reduceCtorEq, false_iff, not_or, not_and]
    omega
  · rw [if_neg hgt]
    by_cases hlt : a.feeRate < b.feeRate
    · rw [if_pos hlt]
      simp [hlt]
    · have heq : a.feeRate = b.feeRate := by omega
      rw [if_neg hlt, cmp_eq_lt_iff]
      simp [heq]

end MempoolMapKey

/-- ids are compared as those of an order -/
theorem lawfulBEq_ids {ι : Type} [LinearOrder ι] : LawfulBEq ι := inferInstance

scoped instance decidableMemIds {ι : Type} [LinearOrder ι] (i : ι) (l : List ι) : Decidable (i ∈ l) :=
  @List.instDecidableMemOfLawfulBEq ι _ lawfulBEq_ids i l

open BoxTransaction

section Model

variable {τ ι : Type} [LinearOrder ι] [BoxTransaction τ ι]

namespace SidechainMemoryPoolEntry

def feeRate (entry : SidechainMemoryPoolEntry τ) : FeeRate := ⟨fee entry.unconfirmedTx, size entry.unconfirmedTx⟩

def getFeeRate (entry : SidechainMemoryPoolEntry τ) : ℤ := entry.feeRate.satoshiPerK

def getSize (entry : SidechainMemoryPoolEntry τ) : ℤ := entry.feeRate.size

def txid (entry : SidechainMemoryPoolEntry τ) : ι := BoxTransaction.id entry.unconfirmedTx

end SidechainMemoryPoolEntry

structure MempoolMap (τ ι : Type) [LinearOrder ι] where
  map : AList fun _ : ι => SidechainMemoryPoolEntry τ
  usedPoolSizeBytes : ℤ
  idsSortedByFeeRate : SortedSet (MempoolMapKey ι)

namespace MempoolMap

/-- one turn of the constructor -/
def addInitial (m : MempoolMap τ ι) (ele : SidechainMemoryPoolEntry τ) : MempoolMap τ ι where
  idsSortedByFeeRate := m.idsSortedByFeeRate.insert ⟨ele.txid, ele.getFeeRate⟩
  usedPoolSizeBytes := m.usedPoolSizeBytes + ele.getSize
  map := m.map.insert ele.txid ele

def ofValues (initialValues : List (SidechainMemoryPoolEntry τ)) : MempoolMap τ ι :=
  initialValues.foldl addInitial ⟨∅, 0, .empty⟩

def add (entry : SidechainMemoryPoolEntry τ) (m : MempoolMap τ ι) : MempoolMap τ ι :=
  match m.map.lookup entry.txid with
  | some _ => { m with map := m.map.insert entry.txid entry }
  | none =>
    { map := m.map.insert entry.txid entry
      idsSortedByFeeRate := m.idsSortedByFeeRate.insert ⟨entry.txid, entry.getFeeRate⟩
      usedPoolSizeBytes := m.usedPoolSizeBytes + entry.getSize }

def remove (id : ι) (m : MempoolMap τ ι) : MempoolMap τ ι :=
  match m.map.lookup id with
  | some entry =>
    { map := m.map.erase id
      idsSortedByFeeRate := m.idsSortedByFeeRate.filter fun k => k.txid ≠ id
      usedPoolSizeBytes := m.usedPoolSizeBytes - entry.getSize }
  | none => m

def values (m : MempoolMap τ ι) : List (SidechainMemoryPoolEntry τ) := m.map.entries.map Sigma.snd

def size (m : MempoolMap τ ι) : ℕ := m.map.entries.length

/-- the entry under a key of the sorted set; `map.get(..).get` throws if it is not there -/
def entryOf (m : MempoolMap τ ι) (k : MempoolMapKey ι) : Except MempoolException (SidechainMemoryPoolEntry τ) :=
  match m.map.lookup k.txid with
  | some entry => .ok entry
  | none => .error .noSuchElement

def takeLowest (n : ℕ) (m : MempoolMap τ ι) : Except MempoolException (List (SidechainMemoryPoolEntry τ)) :=
  (m.idsSortedByFeeRate.toList.take n).mapM (entryOf m)

end MempoolMap

end Model

end SidechainsSdk.Utxo.Mempool
