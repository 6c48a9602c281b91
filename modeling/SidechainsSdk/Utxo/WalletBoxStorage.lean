/-
The wallet's boxes (`utxo/storage/SidechainWalletBoxStorage.scala`): a storage of serialized boxes, and in memory three
structures derived from it: the boxes, the boxes of each type, and the balance of each type.

An update changes the three by the boxes added and removed; a rollback and a restart load them again from the storage
(`loadWalletBoxes`). The balances are `Long`s.
-/
import Mathlib.Tactic
import Mathlib.Data.BitVec
import SidechainsSdk.Core.AssocMap
import SidechainsSdk.Storage.Storage

namespace SidechainsSdk.Utxo

open Storage Fallible

namespace WalletBoxStorage

abbrev Long := BitVec 64

/-- what the wallet reads of a box; equal ids mean equal boxes -/
class Box (β : Type) (τ : outParam Type) where
  id : β → Bytes
  getClass : β → τ
  value : β → Long
  eq_of_id : ∀ b b', id b = id b' → b = b'

end WalletBoxStorage

/-- a box with the transaction that made it -/
structure WalletBox (β : Type) where
  box : β
  transactionId : Bytes
  createdAt : ℤ
  transactionId_length : transactionId.length = 32
  createdAt_bounds : 0 ≤ createdAt ∧ createdAt < 2 ^ 63

/-- the serializers of the box types, with the signed integers of the writer they use and the hash of a box id -/
class BoxesCompanion (β : Type) where
  serialize : β → Bytes
  parse : Reader β
  putLong : ℤ → Bytes
  getLong : Reader ℤ
  calculateKey : Bytes → Bytes
  reads_serialize : ∀ b, Reader.Reads parse (serialize b) b
  reads_putLong : ∀ x, -2 ^ 63 ≤ x → x < 2 ^ 63 → Reader.Reads getLong (putLong x) x
  calculateKey_injective : Function.Injective calculateKey

open BoxesCompanion

namespace WalletBoxSerializer

variable {β : Type} [BoxesCompanion β]

def toBytes (wb : WalletBox β) : Bytes := wb.transactionId ++ (putLong β wb.createdAt ++ serialize wb.box)

/-- the constructor refuses a negative time -/
def parse : Reader (WalletBox β) := do
  let txId ← Reader.bytes 32
  let createdAt ← getLong β
  let box ← BoxesCompanion.parse
  if h : txId.length = 32 ∧ 0 ≤ createdAt ∧ createdAt < 2 ^ 63 then pure ⟨box, txId, createdAt, h.1, h.2⟩
  else StateT.lift none

def parseBytesTry (bs : Bytes) : Option (WalletBox β) := (parse.run bs).map Prod.fst

theorem parse_toBytes (wb : WalletBox β) : parseBytesTry (toBytes wb) = some wb := by
  have htx : Reader.Reads (Reader.bytes 32) wb.transactionId wb.transactionId := by
    have h := Reader.reads_bytes wb.transactionId
    rwa [wb.transactionId_length] at h
  have htime := reads_putLong (β := β) wb.createdAt (by have := wb.createdAt_bounds; omega) wb.createdAt_bounds.2
  have hbox : Reader.Reads (do
      let box ← BoxesCompanion.parse
      if h : wb.transactionId.length = 32 ∧ 0 ≤ wb.createdAt ∧ wb.createdAt < 2 ^ 63 then
        pure (⟨box, wb.transactionId, wb.createdAt, h.1, h.2⟩ : WalletBox β)
      else StateT.lift none) (serialize wb.box) wb := by
    simp only [wb.transactionId_length, wb.createdAt_bounds, and_self, dite_true]
    exact (reads_serialize wb.box).map fun box => (⟨box, wb.transactionId, wb.createdAt, _, _⟩ : WalletBox β)
  have hparse : Reader.Reads parse (toBytes wb) wb := htx.bind (htime.bind hbox)
  have hrun := hparse []
  rw [List.append_nil] at hrun
  rw [parseBytesTry, hrun]
  rfl

end WalletBoxSerializer

open WalletBoxSerializer

namespace WalletBoxStorage

/-- boxes under the hashes of their ids -/
abbrev BoxMap (β : Type) := AList fun _ : Bytes => WalletBox β

structure Cache (β τ : Type) where
  walletBoxes : BoxMap β
  walletBoxesByType : AList fun _ : τ => BoxMap β
  walletBoxesBalances : AList fun _ : τ => Long

variable {β τ : Type} [DecidableEq τ] [Box β τ] [BoxesCompanion β]

def keyOf (wb : WalletBox β) : Bytes := calculateKey β (Box.id wb.box)

def classOf (wb : WalletBox β) : τ := Box.getClass wb.box

def valueOf (wb : WalletBox β) : Long := Box.value wb.box

def sumValues (boxes : BoxMap β) : Long := AssocMap.sum (fun _ wb => valueOf wb) boxes

def calculateBoxesBalances (c : Cache β τ) : Cache β τ :=
  { c with
    walletBoxesBalances := c.walletBoxesByType.entries.foldl
      (fun balances e => balances.insert e.1 (sumValues e.2)) c.walletBoxesBalances }

def getBoxesBalance (c : Cache β τ) (boxType : τ) : Long := (c.walletBoxesBalances.lookup boxType).getD 0

/-- `updateBoxesBalance`, with the change of the balance of one type -/
def updateBoxesBalance (boxType : τ) (delta : Long) (c : Cache β τ) : Cache β τ :=
  { c with walletBoxesBalances := c.walletBoxesBalances.insert boxType (getBoxesBalance c boxType + delta) }

def addWalletBoxByType (wb : WalletBox β) (c : Cache β τ) : Cache β τ :=
  let boxes := (c.walletBoxesByType.lookup (classOf wb)).getD ∅
  { c with walletBoxesByType := c.walletBoxesByType.insert (classOf wb) (boxes.insert (keyOf wb) wb) }

def removeWalletBoxByType (key : Bytes) (c : Cache β τ) : Cache β τ :=
  { c with walletBoxesByType := AssocMap.mapValues (fun boxes => boxes.erase key) c.walletBoxesByType }

def putWalletBox (wb : WalletBox β) (c : Cache β τ) : Cache β τ :=
  { c with walletBoxes := c.walletBoxes.insert (keyOf wb) wb }

/-- one turn of the loop over the removed ids -/
def removeBox (c : Cache β τ) (key : Bytes) : Cache β τ :=
  let c' := removeWalletBoxByType key { c with walletBoxes := c.walletBoxes.erase key }
  match c.walletBoxes.lookup key with
  | some wb => updateBoxesBalance (classOf wb) (-valueOf wb) c'
  | none => c'

/-- one turn of the loop over the added boxes -/
def addBox (c : Cache β τ) (wb : WalletBox β) : Cache β τ :=
  let c' := addWalletBoxByType wb (putWalletBox wb c)
  match c.walletBoxes.lookup (keyOf wb) with
  | some _ => c'
  | none => updateBoxesBalance (classOf wb) (valueOf wb) c'

/-- the balances are not cleared -/
def loadWalletBoxes (contents : DB) (c : Cache β τ) : Cache β τ :=
  calculateBoxesBalances ((contents.toList.filterMap fun kv => parseBytesTry kv.2).foldl
    (fun c wb => addWalletBoxByType wb (putWalletBox wb c)) { c with walletBoxes := ∅, walletBoxesByType := ∅ })

end WalletBoxStorage

open WalletBoxStorage

structure WalletBoxStorage (β τ : Type) where
  storage : Versioned
  cache : Cache β τ

namespace WalletBoxStorage

variable {β τ : Type} [DecidableEq τ] [Box β τ] [BoxesCompanion β]

/-- a computation of the storage below -/
def onStorage {α : Type} (x : Fallible StorageException Versioned α) :
    Fallible StorageException (WalletBoxStorage β τ) α :=
  onPart WalletBoxStorage.storage (fun storage s => { s with storage := storage }) x

def update (b : Backend) (version : Bytes) (walletBoxUpdateList : List (WalletBox β)) (boxIdsRemoveList : List Bytes) :
    Fallible StorageException (WalletBoxStorage β τ) Unit := do
  let removeList := boxIdsRemoveList.map (calculateKey β)
  let updateList := walletBoxUpdateList.map fun wb => (keyOf wb, toBytes wb)
  onStorage (Versioned.update b version updateList removeList)
  modify fun s => { s with cache := removeList.foldl removeBox s.cache }
  modify fun s => { s with cache := walletBoxUpdateList.foldl addBox s.cache }

def rollback (version : Bytes) : Fallible StorageException (WalletBoxStorage β τ) Unit := do
  onStorage (Versioned.rollback version)
  modify fun s => { s with cache := loadWalletBoxes s.storage.current s.cache }

/-- opened on an empty storage -/
def empty : WalletBoxStorage β τ where
  storage := ⟨∅, []⟩
  cache := loadWalletBoxes ∅ ⟨∅, ∅, ∅⟩

end WalletBoxStorage

end SidechainsSdk.Utxo
