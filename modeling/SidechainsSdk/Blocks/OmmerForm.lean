/-
A block and its ommer form (`SidechainBlockBase.verifyDataConsistency`, `Ommer`).

- Both checks compare the roots of the header with those of the body. The block has its references data, the ommer the root
  over them alone, and none where there were no references; the ommer does not check whether that tree was mutated.
- `Ommer.verifyDataConsistency` goes down into the ommers of an ommer, as the serializer does.
- What the type of the block adds (its name in messages, the check of its transactions) are fields of `SidechainBlockBase`.
- An ommer that has an empty root is parsed as one without a root; `equals` takes the two as equal. `normal` is what is parsed.
- `parse` takes a bound for the depth of the nesting. Each level takes at least a byte, so the length of the input is enough.

`verifyMainchainData_ok` and `verifyOmmersRoot_ok` say when a check passes in terms of the same two roots, `reads_parse` is
the round trip by induction on the nesting, `ommer_form` has both for UTXO and account blocks.
-/
import Mathlib.Tactic
import SidechainsSdk.Blocks.BlockHeaders
import SidechainsSdk.Core.Fallible
import SidechainsSdk.Utils.MerkleRoots

namespace SidechainsSdk.Blocks

open Fallible (failIf)
open Reader
open Utils

structure Ommer (H : Type) where
  header : H
  /-- Empty if no mainchainBlockReferencesData present in block. -/
  mainchainReferencesDataMerkleRootHashOption : Option Bytes
  mainchainHeaders : List MainchainHeader
  ommers : List (Ommer H)

inductive ConsistencyException where
  /-- `Ommer <id> <problem>` -/
  | inconsistentOmmerData (id : Bytes) (problem : String)
  /-- `<name of the class> <id> <problem>` -/
  | inconsistentSidechainBlockData (simpleName : String) (id : Bytes) (problem : String)
  | illegalArgument (e : MerkleError)

structure SidechainBlockBase (H : Type) where
  simpleName : String
  header : H
  /-- `mainchainBlockReferencesData.map(_.headerHash)` -/
  headerHashes : List Bytes
  mainchainHeaders : List MainchainHeader
  ommers : List (Ommer H)
  verifyTransactionsDataConsistency : Except ConsistencyException Unit

def ZEROS_HASH : Bytes := List.replicate SHA256_LENGTH 0

section Roots

variable (doubleSHA256 : Bytes → Bytes)

def createTree (leaves : List Bytes) : Except ConsistencyException MerkleTree :=
  (createMerkleTree doubleSHA256 leaves).mapError .illegalArgument

/-- zeros without leaves; a mutated tree is thrown as `mutated` -/
def checkedRoot (mutated : ConsistencyException) (leaves : List Bytes) : Except ConsistencyException Bytes :=
  if leaves.isEmpty then pure ZEROS_HASH
  else do
    let merkleTree ← createTree doubleSHA256 leaves
    failIf (merkleTree.isMutated = true) mutated
    pure merkleTree.rootHash

/-! ## The checks -/

variable {H : Type} (format : HeaderFormat H)

namespace Ommer

def id (ommer : Ommer H) : Bytes := format.id ommer.header

def exception (header : H) (problem : String) : ConsistencyException :=
  .inconsistentOmmerData (format.id header) problem

def verifyMainchainData (header : H) (mainchainReferencesDataMerkleRootHashOption : Option Bytes)
    (mainchainHeaders : List MainchainHeader) : Except ConsistencyException Unit :=
  if mainchainHeaders.isEmpty ∧ mainchainReferencesDataMerkleRootHashOption.isNone then
    failIf (format.mainchainMerkleRootHash header ≠ ZEROS_HASH)
      (exception format header "contains inconsistent Mainchain data.")
  else do
    let mainchainReferencesDataMerkleRootHash := mainchainReferencesDataMerkleRootHashOption.getD ZEROS_HASH
    let mainchainHeadersMerkleRootHash ← checkedRoot doubleSHA256
      (exception format header "MainchainHeaders lead to mutated MerkleTree.") (mainchainHeaders.map (·.hash doubleSHA256))
    let merkleTree ← createTree doubleSHA256 [mainchainReferencesDataMerkleRootHash, mainchainHeadersMerkleRootHash]
    failIf (format.mainchainMerkleRootHash header ≠ merkleTree.rootHash)
      (exception format header "contains inconsistent Mainchain data.")

def verifyOmmersRoot (header : H) (ommers : List (Ommer H)) : Except ConsistencyException Unit :=
  if ommers.isEmpty then
    failIf (format.ommersMerkleRootHash header ≠ ZEROS_HASH) (exception format header "contains inconsistent Subommers.")
  else do
    let merkleTree ← createTree doubleSHA256 (ommers.map (id format))
    failIf (format.ommersMerkleRootHash header ≠ merkleTree.rootHash)
      (exception format header "contains inconsistent Ommers.")
    failIf (merkleTree.isMutated = true) (exception format header "Ommers lead to mutated MerkleTree.")

mutual

def verifyDataConsistency : Ommer H → Except ConsistencyException Unit
  | ⟨header, rootOption, mainchainHeaders, ommers⟩ => do
    verifyMainchainData doubleSHA256 format header rootOption mainchainHeaders
    verifyOmmersRoot doubleSHA256 format header ommers
    verifyEach ommers

/-- `for(ommer <- ommers)`: the first failure is thrown -/
def verifyEach : List (Ommer H) → Except ConsistencyException Unit
  | [] => pure ()
  | ommer :: ommers => do
    verifyDataConsistency ommer
    verifyEach ommers

end

end Ommer

namespace SidechainBlockBase

variable (block : SidechainBlockBase H)

def exception (problem : String) : ConsistencyException :=
  .inconsistentSidechainBlockData block.simpleName (format.id block.header) problem

def verifyMainchainData : Except ConsistencyException Unit :=
  if block.mainchainHeaders.isEmpty ∧ block.headerHashes.isEmpty then
    failIf (format.mainchainMerkleRootHash block.header ≠ ZEROS_HASH)
      (block.exception format "contains inconsistent Mainchain data.")
  else do
    let mainchainReferencesDataMerkleRootHash ← checkedRoot doubleSHA256
      (block.exception format "MainchainBlockReferencesData leads to mutated MerkleTree.") block.headerHashes
    let mainchainHeadersMerkleRootHash ← checkedRoot doubleSHA256
      (block.exception format "MainchainHeaders lead to mutated MerkleTree.")
      (block.mainchainHeaders.map (·.hash doubleSHA256))
    let merkleTree ← createTree doubleSHA256 [mainchainReferencesDataMerkleRootHash, mainchainHeadersMerkleRootHash]
    failIf (format.mainchainMerkleRootHash block.header ≠ merkleTree.rootHash)
      (block.exception format "contains inconsistent Mainchain data.")

def verifyOmmersRoot : Except ConsistencyException Unit :=
  if block.ommers.isEmpty then
    failIf (format.ommersMerkleRootHash block.header ≠ ZEROS_HASH)
      (block.exception format "contains inconsistent Ommers.")
  else do
    let merkleTree ← createTree doubleSHA256 (block.ommers.map (Ommer.id format))
    failIf (format.ommersMerkleRootHash block.header ≠ merkleTree.rootHash)
      (block.exception format "contains inconsistent Ommers.")
    failIf (merkleTree.isMutated = true) (block.exception format "Ommers lead to mutated MerkleTree.")

def verifyDataConsistency : Except ConsistencyException Unit := do
  block.verifyTransactionsDataConsistency
  block.verifyMainchainData doubleSHA256 format
  block.verifyOmmersRoot doubleSHA256 format
  Ommer.verifyEach doubleSHA256 format block.ommers

/-- `Ommer.toOmmer` -/
def toOmmer : Except ConsistencyException (Ommer H) := do
  let mainchainReferencesDataMerkleRootHashOption ←
    if block.headerHashes.isEmpty then pure none
    else do
      let merkleTree ← createTree doubleSHA256 block.headerHashes
      pure (some merkleTree.rootHash)
  pure ⟨block.header, mainchainReferencesDataMerkleRootHashOption, block.mainchainHeaders, block.ommers⟩

end SidechainBlockBase

/-- zeros without leaves -/
def calculateRoot (leaves : List Bytes) : Except ConsistencyException Bytes :=
  if leaves.isEmpty then pure ZEROS_HASH
  else do
    let merkleTree ← createTree doubleSHA256 leaves
    pure merkleTree.rootHash

/-- what a forger puts into the header for the references data and the mainchain headers of a block -/
def calculateMainchainMerkleRootHash (headerHashes : List Bytes) (mainchainHeaders : List MainchainHeader) :
    Except ConsistencyException Bytes :=
  if headerHashes.isEmpty ∧ mainchainHeaders.isEmpty then pure ZEROS_HASH
  else do
    let mainchainReferencesDataMerkleRootHash ← calculateRoot doubleSHA256 headerHashes
    let mainchainHeadersMerkleRootHash ← calculateRoot doubleSHA256 (mainchainHeaders.map (·.hash doubleSHA256))
    let merkleTree ← createTree doubleSHA256 [mainchainReferencesDataMerkleRootHash, mainchainHeadersMerkleRootHash]
    pure merkleTree.rootHash

def calculateOmmersMerkleRootHash (ommers : List (Ommer H)) : Except ConsistencyException Bytes :=
  calculateRoot doubleSHA256 (ommers.map (Ommer.id format))

end Roots

/-! ## The roots that are compared -/

section Compared

variable {doubleSHA256 : Bytes → Bytes} {H : Type} {format : HeaderFormat H}

theorem createTree_eq {leaves : List Bytes} (h : leaves ≠ []) :
    createTree doubleSHA256 leaves = .ok (treeOf doubleSHA256 leaves) := by
  obtain ⟨tree, htree, -⟩ := createMerkleTree_spec doubleSHA256 h
  rw [createTree, treeOf, htree]
  rfl

/-- zeros without leaves -/
def merkleRoot (doubleSHA256 : Bytes → Bytes) (leaves : List Bytes) : Bytes :=
  if leaves.isEmpty then ZEROS_HASH else (treeOf doubleSHA256 leaves).rootHash

/-- the root over the references data of a block, if it has any -/
def rootOption (doubleSHA256 : Bytes → Bytes) (headerHashes : List Bytes) : Option Bytes :=
  if headerHashes.isEmpty then none else some (treeOf doubleSHA256 headerHashes).rootHash

/-- the root over the mainchain data -/
def mainchainRoot (doubleSHA256 : Bytes → Bytes) (rootOption : Option Bytes) (mainchainHeaders : List MainchainHeader) :
    Bytes :=
  if mainchainHeaders.isEmpty ∧ rootOption.isNone then ZEROS_HASH
  else merkleRoot doubleSHA256
    [rootOption.getD ZEROS_HASH, merkleRoot doubleSHA256 (mainchainHeaders.map (·.hash doubleSHA256))]

def Unmutated (doubleSHA256 : Bytes → Bytes) (leaves : List Bytes) : Prop := (treeOf doubleSHA256 leaves).isMutated = false

theorem rootOption_getD (headerHashes : List Bytes) :
    (rootOption doubleSHA256 headerHashes).getD ZEROS_HASH = merkleRoot doubleSHA256 headerHashes := by
  unfold rootOption merkleRoot
  split_ifs <;> rfl

theorem rootOption_isNone (headerHashes : List Bytes) :
    (rootOption doubleSHA256 headerHashes).isNone = headerHashes.isEmpty := by
  unfold rootOption
  split_ifs with h
  · exact h.symm
  · simpa using h

theorem unmutated_nil : Unmutated doubleSHA256 [] := rfl

theorem checkedRoot_ok {mutated : ConsistencyException} {leaves : List Bytes} {root : Bytes} :
    checkedRoot doubleSHA256 mutated leaves = .ok root ↔
      Unmutated doubleSHA256 leaves ∧ merkleRoot doubleSHA256 leaves = root := by
  unfold checkedRoot merkleRoot
  by_cases h : leaves.isEmpty = true
  · rw [if_pos h, if_pos h, List.isEmpty_iff.1 h, and_iff_right unmutated_nil]
    exact iff_of_eq (Except.ok.injEq _ _)
  · rw [if_neg h, if_neg h, createTree_eq (mt List.isEmpty_iff.2 h)]
    show (failIf _ _ >>= _) = _ ↔ _
    rw [Fallible.failIf_bind_ok, Bool.not_eq_true]
    exact and_congr_right' (iff_of_eq (Except.ok.injEq _ _))

/-- the mainchain headers and the last comparison, with the root over the references data -/
theorem compare_ok {header : H} {mutated inconsistent : ConsistencyException} {left : Bytes} {leaves : List Bytes} :
    (checkedRoot doubleSHA256 mutated leaves >>= fun right => createTree doubleSHA256 [left, right] >>= fun merkleTree =>
      failIf (format.mainchainMerkleRootHash header ≠ merkleTree.rootHash) inconsistent) = .ok () ↔
      format.mainchainMerkleRootHash header = merkleRoot doubleSHA256 [left, merkleRoot doubleSHA256 leaves] ∧
        Unmutated doubleSHA256 leaves := by
  have hlast : ∀ right, (createTree doubleSHA256 [left, right] >>= fun merkleTree =>
      failIf (format.mainchainMerkleRootHash header ≠ merkleTree.rootHash) inconsistent) = .ok () ↔
      format.mainchainMerkleRootHash header = merkleRoot doubleSHA256 [left, right] := by
    intro right
    rw [createTree_eq (List.cons_ne_nil _ _)]
    show failIf _ _ = _ ↔ _
    rw [Fallible.failIf_ok, not_not]
    rfl
  rw [Fallible.bind_ok_iff]
  constructor
  · rintro ⟨right, hright, hcompared⟩
    obtain ⟨hmutated, rfl⟩ := checkedRoot_ok.1 hright
    exact ⟨(hlast _).1 hcompared, hmutated⟩
  · rintro ⟨hroot, hmutated⟩
    exact ⟨_, checkedRoot_ok.2 ⟨hmutated, rfl⟩, (hlast _).2 hroot⟩

theorem Ommer.verifyMainchainData_ok {header : H} {rootOption : Option Bytes} {mainchainHeaders : List MainchainHeader} :
    verifyMainchainData doubleSHA256 format header rootOption mainchainHeaders = .ok () ↔
      format.mainchainMerkleRootHash header = mainchainRoot doubleSHA256 rootOption mainchainHeaders ∧
        Unmutated doubleSHA256 (mainchainHeaders.map (·.hash doubleSHA256)) := by
  unfold verifyMainchainData mainchainRoot
  by_cases h : mainchainHeaders.isEmpty = true ∧ rootOption.isNone = true
  · rw [if_pos h, if_pos h, Fallible.failIf_ok, not_not, List.isEmpty_iff.1 h.1]
    exact (and_iff_left unmutated_nil).symm
  · rw [if_neg h, if_neg h]
    exact compare_ok

theorem SidechainBlockBase.verifyMainchainData_ok {block : SidechainBlockBase H} :
    block.verifyMainchainData doubleSHA256 format = .ok () ↔
      (format.mainchainMerkleRootHash block.header =
          mainchainRoot doubleSHA256 (rootOption doubleSHA256 block.headerHashes) block.mainchainHeaders ∧
        Unmutated doubleSHA256 (block.mainchainHeaders.map (·.hash doubleSHA256))) ∧
      Unmutated doubleSHA256 block.headerHashes := by
  unfold verifyMainchainData mainchainRoot
  rw [rootOption_isNone, rootOption_getD]
  by_cases h : block.mainchainHeaders.isEmpty = true ∧ block.headerHashes.isEmpty = true
  · rw [if_pos h, if_pos h, Fallible.failIf_ok, not_not, List.isEmpty_iff.1 h.1, List.isEmpty_iff.1 h.2, List.map_nil,
      and_iff_left unmutated_nil, and_iff_left unmutated_nil]
  · rw [if_neg h, if_neg h, Fallible.bind_ok_iff]
    constructor
    · rintro ⟨left, hleft, hcompared⟩
      obtain ⟨hmutated, rfl⟩ := checkedRoot_ok.1 hleft
      exact ⟨compare_ok.1 hcompared, hmutated⟩
    · rintro ⟨hcompared, hmutated⟩
      exact ⟨_, checkedRoot_ok.2 ⟨hmutated, rfl⟩, compare_ok.2 hcompared⟩

/-- the ommers' root and its tree; `empty` is thrown where there are no ommers -/
theorem ommersRoot_ok {header : H} {ommers : List (Ommer H)} {empty inconsistent mutated : ConsistencyException} :
    (if ommers.isEmpty then failIf (format.ommersMerkleRootHash header ≠ ZEROS_HASH) empty
      else do
        let merkleTree ← createTree doubleSHA256 (ommers.map (Ommer.id format))
        failIf (format.ommersMerkleRootHash header ≠ merkleTree.rootHash) inconsistent
        failIf (merkleTree.isMutated = true) mutated) = .ok () ↔
      format.ommersMerkleRootHash header = merkleRoot doubleSHA256 (ommers.map (Ommer.id format)) ∧
        Unmutated doubleSHA256 (ommers.map (Ommer.id format)) := by
  by_cases h : ommers.isEmpty = true
  · rw [if_pos h, Fallible.failIf_ok, not_not, List.isEmpty_iff.1 h, List.map_nil]
    exact (and_iff_left unmutated_nil).symm
  · have hids : ommers.map (Ommer.id format) ≠ [] := by simpa using h
    rw [if_neg h, createTree_eq hids, merkleRoot, if_neg (mt List.isEmpty_iff.1 hids)]
    show (failIf _ _ >>= fun _ => failIf _ _) = _ ↔ _
    rw [Fallible.failIf_bind_ok, Fallible.failIf_ok, not_not, Bool.not_eq_true]
    rfl

theorem Ommer.verifyOmmersRoot_ok {header : H} {ommers : List (Ommer H)} :
    verifyOmmersRoot doubleSHA256 format header ommers = .ok () ↔
      format.ommersMerkleRootHash header = merkleRoot doubleSHA256 (ommers.map (Ommer.id format)) ∧
        Unmutated doubleSHA256 (ommers.map (Ommer.id format)) := ommersRoot_ok

theorem SidechainBlockBase.verifyOmmersRoot_ok {block : SidechainBlockBase H} :
    block.verifyOmmersRoot doubleSHA256 format = .ok () ↔
      format.ommersMerkleRootHash block.header = merkleRoot doubleSHA256 (block.ommers.map (Ommer.id format)) ∧
        Unmutated doubleSHA256 (block.ommers.map (Ommer.id format)) := ommersRoot_ok

/-! ## A block and its ommer -/

theorem bind_unit_ok {ε : Type} {x y : Except ε Unit} : (do x; y) = .ok () ↔ x = .ok () ∧ y = .ok () := by
  cases x with
  | error e => simp [bind, Except.bind]
  | ok u => simp [bind, Except.bind]

theorem Ommer.verifyDataConsistency_ok {ommer : Ommer H} :
    ommer.verifyDataConsistency doubleSHA256 format = .ok () ↔
      verifyMainchainData doubleSHA256 format ommer.header ommer.mainchainReferencesDataMerkleRootHashOption
          ommer.mainchainHeaders = .ok () ∧
        verifyOmmersRoot doubleSHA256 format ommer.header ommer.ommers = .ok () ∧
        verifyEach doubleSHA256 format ommer.ommers = .ok () := by
  obtain ⟨header, rootOption, mainchainHeaders, ommers⟩ := ommer
  rw [verifyDataConsistency, bind_unit_ok, bind_unit_ok]

theorem SidechainBlockBase.verifyDataConsistency_ok {block : SidechainBlockBase H} :
    block.verifyDataConsistency doubleSHA256 format = .ok () ↔
      block.verifyTransactionsDataConsistency = .ok () ∧ block.verifyMainchainData doubleSHA256 format = .ok () ∧
        block.verifyOmmersRoot doubleSHA256 format = .ok () ∧
        Ommer.verifyEach doubleSHA256 format block.ommers = .ok () := by
  rw [verifyDataConsistency, bind_unit_ok, bind_unit_ok, bind_unit_ok]

theorem toOmmer_eq (block : SidechainBlockBase H) :
    block.toOmmer doubleSHA256 =
      .ok ⟨block.header, rootOption doubleSHA256 block.headerHashes, block.mainchainHeaders, block.ommers⟩ := by
  unfold SidechainBlockBase.toOmmer rootOption
  by_cases h : block.headerHashes.isEmpty = true
  · rw [if_pos h, if_pos h]
    rfl
  · rw [if_neg h, if_neg h, createTree_eq (mt List.isEmpty_iff.2 h)]
    rfl

theorem calculateRoot_eq (leaves : List Bytes) :
    calculateRoot doubleSHA256 leaves = .ok (merkleRoot doubleSHA256 leaves) := by
  unfold calculateRoot merkleRoot
  by_cases h : leaves.isEmpty = true
  · rw [if_pos h, if_pos h]
    rfl
  · rw [if_neg h, if_neg h, createTree_eq (mt List.isEmpty_iff.2 h)]
    rfl

theorem calculateMainchainMerkleRootHash_eq (headerHashes : List Bytes) (mainchainHeaders : List MainchainHeader) :
    calculateMainchainMerkleRootHash doubleSHA256 headerHashes mainchainHeaders =
      .ok (mainchainRoot doubleSHA256 (rootOption doubleSHA256 headerHashes) mainchainHeaders) := by
  unfold calculateMainchainMerkleRootHash mainchainRoot
  rw [rootOption_isNone, rootOption_getD]
  by_cases h : headerHashes.isEmpty = true ∧ mainchainHeaders.isEmpty = true
  · rw [if_pos h, if_pos h.symm]
    rfl
  · rw [if_neg h, if_neg (mt And.symm h), calculateRoot_eq, calculateRoot_eq]
    have htree := @createTree_eq doubleSHA256 [merkleRoot doubleSHA256 headerHashes,
      merkleRoot doubleSHA256 (mainchainHeaders.map (·.hash doubleSHA256))] (List.cons_ne_nil _ _)
    exact congrArg (· >>= fun merkleTree => pure merkleTree.rootHash) htree

theorem SidechainBlockBase.ommer_ok {block : SidechainBlockBase H} {ommer : Ommer H}
    (hommer : block.toOmmer doubleSHA256 = .ok ommer) (h : block.verifyDataConsistency doubleSHA256 format = .ok ()) :
    ommer.verifyDataConsistency doubleSHA256 format = .ok () := by
  rw [toOmmer_eq] at hommer
  obtain rfl := Except.ok.inj hommer
  obtain ⟨-, hmainchain, hommers, heach⟩ := verifyDataConsistency_ok.1 h
  exact Ommer.verifyDataConsistency_ok.2 ⟨Ommer.verifyMainchainData_ok.2 (verifyMainchainData_ok.1 hmainchain).1,
    Ommer.verifyOmmersRoot_ok.2 (verifyOmmersRoot_ok.1 hommers), heach⟩

end Compared

/-! ## The serializer -/

section Serializer

variable (vlq : VLQ) {H : Type} (format : HeaderFormat H)

namespace ListSerializer

def serialize {α : Type} (item : α → Bytes) (objectsList : List α) : Bytes :=
  vlq.putInt objectsList.length ++ objectsList.flatMap item

def parse {α : Type} (item : Reader α) : Reader (List α) := do
  let objectsCount ← vlq.getInt
  if objectsCount < 0 then failure else repeated item objectsCount.toNat

theorem reads_parse {α β : Type} {item : Reader β} {enc : α → Bytes} {g : α → β} {l : List α}
    (hlength : l.length < 2 ^ 31)
    (h : ∀ a ∈ l, Reads item (enc a) (g a)) : Reads (parse vlq item) (serialize vlq enc l) (l.map g) := by
  refine (vlq.reads_length hlength).bind ?_
  rw [if_neg (by omega), Int.toNat_natCast]
  exact reads_repeated_map h

end ListSerializer

def putRoot : Option Bytes → Bytes
  | some rootHash => vlq.putInt rootHash.length ++ rootHash
  | none => vlq.putInt 0

def getRoot : Reader (Option Bytes) := do
  let referencesDataHashLength ← vlq.getInt
  if referencesDataHashLength = 0 then pure none
  else do
    let rootHash ← bytes referencesDataHashLength
    pure (some rootHash)

namespace Ommer

mutual

def serialize : Ommer H → Bytes
  | ⟨header, rootOption, mainchainHeaders, ommers⟩ =>
    format.serialize header ++ (putRoot vlq rootOption ++
      (ListSerializer.serialize vlq (MainchainHeader.serialize vlq) mainchainHeaders ++
        (vlq.putInt ommers.length ++ serializeAll ommers)))

def serializeAll : List (Ommer H) → Bytes
  | [] => []
  | ommer :: ommers => serialize ommer ++ serializeAll ommers

end

def parse : ℕ → Reader (Ommer H)
  | 0 => failure
  | depth + 1 => do
    let header ← format.parse
    let mainchainReferencesDataMerkleRootHashOption ← getRoot vlq
    let mainchainHeaders ← ListSerializer.parse vlq (MainchainHeader.parse vlq)
    let ommers ← ListSerializer.parse vlq (parse depth)
    pure ⟨header, mainchainReferencesDataMerkleRootHashOption, mainchainHeaders, ommers⟩

mutual

def equals (doubleSHA256 : Bytes → Bytes) : Ommer H → Ommer H → Bool
  | ⟨header, rootOption, mainchainHeaders, ommers⟩, ommer =>
    format.id header = id format ommer &&
      mainchainHeaders.isEqv ommer.mainchainHeaders (MainchainHeader.equals doubleSHA256) &&
      equalsAll doubleSHA256 ommers ommer.ommers &&
      rootOption.getD [] = ommer.mainchainReferencesDataMerkleRootHashOption.getD []

def equalsAll (doubleSHA256 : Bytes → Bytes) : List (Ommer H) → List (Ommer H) → Bool
  | [], [] => true
  | ommer :: ommers, ommer' :: ommers' => equals doubleSHA256 ommer ommer' && equalsAll doubleSHA256 ommers ommers'
  | _, _ => false

end

mutual

/-- what is parsed: nothing for an empty root -/
def normal : Ommer H → Ommer H
  | ⟨header, rootOption, mainchainHeaders, ommers⟩ =>
    ⟨header, rootOption.filter (· ≠ []), mainchainHeaders, normalAll ommers⟩

def normalAll : List (Ommer H) → List (Ommer H)
  | [] => []
  | ommer :: ommers => normal ommer :: normalAll ommers

end

/-- the lengths of arrays and lists are `Int`s -/
inductive Sized : Ommer H → Prop
  | mk {ommer : Ommer H} (header : format.Sized ommer.header)
      (root : ∀ rootHash ∈ ommer.mainchainReferencesDataMerkleRootHashOption, rootHash.length < 2 ^ 31)
      (mainchainHeaders : ommer.mainchainHeaders.length < 2 ^ 31)
      (headerBytes : ∀ mainchainHeader ∈ ommer.mainchainHeaders, mainchainHeader.mainchainHeaderBytes.length < 2 ^ 31)
      (ommers : ommer.ommers.length < 2 ^ 31) (each : ∀ subommer ∈ ommer.ommers, Sized subommer) : Sized ommer

variable {vlq format}

theorem serializeAll_eq (ommers : List (Ommer H)) : serializeAll vlq format ommers = ommers.flatMap (serialize vlq format) := by
  induction ommers with
  | nil => rfl
  | cons ommer ommers ih => rw [serializeAll, ih, List.flatMap_cons]

theorem normalAll_eq (ommers : List (Ommer H)) : normalAll ommers = ommers.map normal := by
  induction ommers with
  | nil => rfl
  | cons ommer ommers ih => rw [normalAll, ih, List.map_cons]

theorem reads_getRoot {rootOption : Option Bytes} (h : ∀ rootHash ∈ rootOption, rootHash.length < 2 ^ 31) :
    Reads (getRoot vlq) (putRoot vlq rootOption) (rootOption.filter (· ≠ [])) := by
  have hzero : Reads vlq.getInt (vlq.putInt 0) 0 := vlq.reads_putInt 0 ⟨by norm_num, by norm_num⟩
  rcases rootOption with _ | rootHash
  · exact hzero.check (reads_pure none)
  · rcases rootHash with _ | ⟨b, rootHash⟩
    · exact hzero.bind (reads_pure none)
    · have hlength := h (b :: rootHash) rfl
      refine (vlq.reads_length hlength).bind ?_
      rw [if_neg (by rw [List.length_cons]; omega)]
      exact (reads_bytes (b :: rootHash)).map some

theorem serialize_eq (ommer : Ommer H) :
    serialize vlq format ommer =
      format.serialize ommer.header ++ (putRoot vlq ommer.mainchainReferencesDataMerkleRootHashOption ++
        (ListSerializer.serialize vlq (MainchainHeader.serialize vlq) ommer.mainchainHeaders ++
          ListSerializer.serialize vlq (serialize vlq format) ommer.ommers)) := by
  obtain ⟨header, rootOption, mainchainHeaders, ommers⟩ := ommer
  rw [serialize, serializeAll_eq]
  rfl

/-- a level takes at least a byte, besides those of its ommers -/
theorem length_serialize (ommer : Ommer H) :
    (ommer.ommers.flatMap (serialize vlq format)).length < (serialize vlq format ommer).length := by
  have hheader := List.length_pos_iff.2 (format.nonempty ommer.header)
  rw [serialize_eq]
  simp only [ListSerializer.serialize, List.length_append]
  omega

theorem length_subommer {ommer subommer : Ommer H} (h : subommer ∈ ommer.ommers) :
    (serialize vlq format subommer).length < (serialize vlq format ommer).length := by
  have hsub : (serialize vlq format subommer).Sublist (ommer.ommers.flatMap (serialize vlq format)) := by
    rw [List.flatMap_def]
    exact List.sublist_flatten_of_mem (List.mem_map_of_mem h)
  exact hsub.length_le.trans_lt (length_serialize ommer)

theorem reads_parse {ommer : Ommer H} (h : Sized format ommer) {depth : ℕ}
    (hdepth : (serialize vlq format ommer).length ≤ depth) :
    Reads (parse vlq format depth) (serialize vlq format ommer) (normal ommer) := by
  induction h generalizing depth with
  | @mk ommer hheader hroot hcount hbytes hommers _ ih =>
    cases depth with
    | zero => exact absurd hdepth (Nat.not_le.2 (Nat.zero_lt_of_lt (length_serialize ommer)))
    | succ depth =>
      have hheaders := ListSerializer.reads_parse vlq (g := fun mainchainHeader => mainchainHeader) hcount
        fun mainchainHeader hmem => MainchainHeader.reads_parse vlq (hbytes mainchainHeader hmem)
      have hsubommer : ∀ subommer ∈ ommer.ommers,
          Reads (parse vlq format depth) (serialize vlq format subommer) (normal subommer) := fun subommer hmem =>
        ih subommer hmem (Nat.le_of_lt_succ ((length_subommer hmem).trans_le hdepth))
      have hsub := ListSerializer.reads_parse vlq hommers hsubommer
      rw [List.map_id'] at hheaders
      rw [serialize_eq]
      obtain ⟨header, rootOption, mainchainHeaders, ommers⟩ := ommer
      rw [normal, normalAll_eq]
      exact (format.reads header hheader).bind ((reads_getRoot hroot).bind (hheaders.bind (hsub.map _)))

/-! ### What is parsed equals what was serialized -/

theorem isEqv_equals (doubleSHA256 : Bytes → Bytes) (mainchainHeaders : List MainchainHeader) :
    mainchainHeaders.isEqv mainchainHeaders (MainchainHeader.equals doubleSHA256) = true := by
  induction mainchainHeaders with
  | nil => rfl
  | cons header mainchainHeaders ih =>
    have hself : header.equals doubleSHA256 header = true := decide_eq_true rfl
    rw [List.isEqv_cons_cons, hself, ih]
    rfl

theorem filter_getD (rootOption : Option Bytes) : (rootOption.filter (· ≠ [])).getD [] = rootOption.getD [] := by
  rcases rootOption with _ | (_ | ⟨b, rootHash⟩)
  · rfl
  · rfl
  · rfl

mutual

theorem normal_equals (doubleSHA256 : Bytes → Bytes) : ∀ ommer : Ommer H,
    equals format doubleSHA256 (normal ommer) ommer = true ∧ equals format doubleSHA256 ommer (normal ommer) = true
  | ⟨header, rootOption, mainchainHeaders, ommers⟩ => by
    obtain ⟨hleft, hright⟩ := normalAll_equals doubleSHA256 ommers
    rw [normal]
    simp only [equals, id, isEqv_equals, filter_getD, hleft, hright, decide_true, Bool.and_true, and_self]

theorem normalAll_equals (doubleSHA256 : Bytes → Bytes) : ∀ ommers : List (Ommer H),
    equalsAll format doubleSHA256 (normalAll ommers) ommers = true ∧
      equalsAll format doubleSHA256 ommers (normalAll ommers) = true
  | [] => ⟨rfl, rfl⟩
  | ommer :: ommers => by
    obtain ⟨hleft, hright⟩ := normal_equals doubleSHA256 ommer
    obtain ⟨hlefts, hrights⟩ := normalAll_equals doubleSHA256 ommers
    rw [normalAll, equalsAll, equalsAll, hleft, hright, hlefts, hrights]
    exact ⟨rfl, rfl⟩

end

end Ommer

end Serializer

/-! ## Both for every block -/

theorem Ommer.verifyEach_ok {doubleSHA256 : Bytes → Bytes} {H : Type} {format : HeaderFormat H} {ommers : List (Ommer H)} :
    verifyEach doubleSHA256 format ommers = .ok () ↔
      ∀ ommer ∈ ommers, ommer.verifyDataConsistency doubleSHA256 format = .ok () := by
  induction ommers with
  | nil => exact iff_of_true rfl (List.forall_mem_nil _)
  | cons ommer ommers ih => rw [verifyEach, bind_unit_ok, ih, List.forall_mem_cons]

section OmmerForm

variable (doubleSHA256 : Bytes → Bytes) (vlq : VLQ) {H : Type} (format : HeaderFormat H)

/-- the mainchain data and the ommers of a block are those of its header's roots, the ommers with theirs -/
def SidechainBlockBase.MatchesRoots (block : SidechainBlockBase H) : Prop :=
  calculateMainchainMerkleRootHash doubleSHA256 block.headerHashes block.mainchainHeaders =
      .ok (format.mainchainMerkleRootHash block.header) ∧
    calculateOmmersMerkleRootHash doubleSHA256 format block.ommers = .ok (format.ommersMerkleRootHash block.header) ∧
    ∀ ommer ∈ block.ommers, ommer.verifyDataConsistency doubleSHA256 format = .ok ()

structure OmmerForm : Prop where
  total : ∀ block : SidechainBlockBase H, ∃ ommer, block.toOmmer doubleSHA256 = .ok ommer
  passes : ∀ (block : SidechainBlockBase H) (ommer : Ommer H), block.toOmmer doubleSHA256 = .ok ommer →
    block.verifyDataConsistency doubleSHA256 format = .ok () → ommer.verifyDataConsistency doubleSHA256 format = .ok ()
  fails : ∀ (block : SidechainBlockBase H) (ommer : Ommer H), block.toOmmer doubleSHA256 = .ok ommer →
    ¬ block.MatchesRoots doubleSHA256 format → ∃ e, ommer.verifyDataConsistency doubleSHA256 format = .error e
  parsed : ∀ ommer : Ommer H, ommer.Sized format → ∀ depth, (ommer.serialize vlq format).length ≤ depth → ∀ rest,
    ∃ parsed, (Ommer.parse vlq format depth).run (ommer.serialize vlq format ++ rest) = some (parsed, rest) ∧
      parsed.equals format doubleSHA256 ommer = true ∧ ommer.equals format doubleSHA256 parsed = true

variable {doubleSHA256 format}

/-- an ommer that passes has the roots of its block's body in its header -/
theorem SidechainBlockBase.matchesRoots {block : SidechainBlockBase H} {ommer : Ommer H}
    (hommer : block.toOmmer doubleSHA256 = .ok ommer) (h : ommer.verifyDataConsistency doubleSHA256 format = .ok ()) :
    block.MatchesRoots doubleSHA256 format := by
  rw [toOmmer_eq] at hommer
  obtain rfl := Except.ok.inj hommer
  obtain ⟨hmainchain, hommers, heach⟩ := Ommer.verifyDataConsistency_ok.1 h
  obtain ⟨hmainchainRoot, -⟩ := Ommer.verifyMainchainData_ok.1 hmainchain
  obtain ⟨hommersRoot, -⟩ := Ommer.verifyOmmersRoot_ok.1 hommers
  exact ⟨(calculateMainchainMerkleRootHash_eq _ _).trans (congrArg Except.ok hmainchainRoot.symm),
    (calculateRoot_eq _).trans (congrArg Except.ok hommersRoot.symm), Ommer.verifyEach_ok.1 heach⟩

theorem ommerForm_format : OmmerForm doubleSHA256 vlq format where
  total := fun block => ⟨_, toOmmer_eq block⟩
  passes := fun _ _ => SidechainBlockBase.ommer_ok
  fails := by
    intro block ommer hommer hroots
    cases hverified : ommer.verifyDataConsistency doubleSHA256 format with
    | ok => exact absurd (SidechainBlockBase.matchesRoots hommer hverified) hroots
    | error e => exact ⟨e, rfl⟩
  parsed := by
    intro ommer hsized depth hdepth rest
    obtain ⟨hleft, hright⟩ := @Ommer.normal_equals _ format doubleSHA256 ommer
    exact ⟨ommer.normal, Ommer.reads_parse hsized hdepth rest, hleft, hright⟩

end OmmerForm

/-- **The ommer form of a block.** For UTXO and for account blocks, with any mainchain headers, references data and nested
ommers: the ommer of a block passes its check whenever the block passes its own, and fails whenever the header's roots are
not those of the body; and an ommer is parsed, at any depth, as one that equals what was serialized. -/
theorem ommer_form (lib : CryptoLib) (vlq : VLQ) :
    OmmerForm lib.doubleSHA256 vlq (sidechainFormat lib vlq) ∧ OmmerForm lib.doubleSHA256 vlq (accountFormat lib vlq) :=
  ⟨ommerForm_format vlq, ommerForm_format vlq⟩

/-! ### A block with an ommer -/

def zeros (n : ℕ) : FixedBytes n := ⟨List.replicate n 0, List.length_replicate⟩

/-! The genesis header of the mainchain's regression test network is in the block, with the references data of another
header; the ommer has only references data, of the same header. -/

deriving instance DecidableEq for HeaderFields

def regTestBits : Bytes := [0x0f, 0x0f, 0x0f, 0x20]

def genesisHash : Bytes :=
  [0xee, 0x0e, 0x7e, 0xa2, 0x44, 0x11, 0xe7, 0xee, 0xb5, 0x3c, 0x64, 0xef, 0x9e, 0x30, 0x3f, 0x15, 0x3b, 0x05, 0xbe, 0xdc,
   0x36, 0x69, 0x12, 0x36, 0x91, 0x4e, 0x80, 0xc0, 0x92, 0x68, 0xf8, 0x0e]

def genesisBytes : Bytes :=
  [1, 0, 0, 0] ++ List.replicate 96 0 ++ [0x68, 0x10, 0, 0] ++ regTestBits ++ [7] ++ List.replicate 32 0

def genesisHeader : MainchainHeader where
  mainchainHeaderBytes := genesisBytes
  version := 1
  hashPrevBlock := List.replicate 32 0
  hashMerkleRoot := List.replicate 32 0
  hashScTxsCommitment := List.replicate 32 0
  time := 28 * 150
  bits := 0x200f0f0f
  nonce := List.replicate 31 0 ++ [7]
  solution := []
  created := by decide +kernel

/-- the hash of the other header -/
def referencedHash : Bytes := List.replicate 32 1

/-- the double SHA-256 of the stake of the ommer's forger -/
def sampleStakeHash : Bytes :=
  [0x64, 0x90, 0xc4, 0xb2, 0x15, 0x3f, 0x7a, 0x9d, 0x52, 0x96, 0xd8, 0x18, 0x49, 0xaa, 0xea, 0xd9, 0xba, 0x5d, 0x19,
   0xfc, 0x93, 0xeb, 0x28, 0xbf, 0x28, 0xca, 0xf5, 0x9f, 0x60, 0x09, 0x03, 0xac]

/-- the double SHA-256 of `referencedHash` and zeros -/
def sampleOmmerNode : Bytes :=
  [0xf5, 0x4e, 0x74, 0xea, 0x7e, 0x51, 0xd5, 0xc4, 0x63, 0xd4, 0x77, 0xd3, 0x6a, 0x5d, 0xe9, 0x94, 0x34, 0xb4, 0x87,
   0x90, 0x7d, 0x9e, 0xa2, 0x04, 0xd4, 0xb6, 0x2a, 0x4a, 0x7f, 0x8f, 0x39, 0x44]

/-- the double SHA-256 of `referencedHash` and `genesisHash` -/
def sampleBlockNode : Bytes :=
  [0x81, 0x0b, 0x8b, 0x10, 0xab, 0x2d, 0x39, 0x29, 0xd7, 0x17, 0x52, 0xf2, 0x34, 0x7a, 0xab, 0xc8, 0xa9, 0x9e, 0x85,
   0x05, 0x7f, 0x1e, 0x6f, 0x5f, 0x7e, 0x1e, 0x6d, 0x41, 0x96, 0xd7, 0x82, 0xae]

def ommerMainchainRoot : FixedBytes hashLength := ⟨reverseBytes sampleOmmerNode, rfl⟩

def blockMainchainRoot : FixedBytes hashLength := ⟨reverseBytes sampleBlockNode, rfl⟩

/-- the Blake2b-256 of the ommer's header -/
def sampleOmmerId : FixedBytes hashLength :=
  ⟨[0x7a, 0x79, 0xbe, 0x9e, 0x39, 0xfe, 0x41, 0x27, 0xfb, 0x3d, 0xe1, 0xf0, 0xec, 0x7e, 0x70, 0x74, 0x6c, 0x40, 0x1c,
    0xbd, 0x99, 0x4e, 0x12, 0xe7, 0xcc, 0xea, 0x18, 0x13, 0x48, 0xf2, 0xa5, 0x4d], rfl⟩

def sampleHeaderBytes : Bytes :=
  [1] ++ List.replicate 39 0 ++ [1] ++ sampleStakeHash ++ List.replicate 130 0 ++ ommerMainchainRoot.toBytes ++
    List.replicate 136 0

/-- no other hashes are computed for the block -/
def sampleLib : CryptoLib where
  publicKeyLength := 32
  vrfPublicKeyLength := 33
  vrfProofLength := 97
  vrfOutputLength := 32
  signatureLength := 64
  doubleSHA256 := fun bytes =>
    if bytes = List.replicate 72 0 ++ [10] then sampleStakeHash
    else if bytes = genesisBytes then genesisHash
    else if bytes = referencedHash ++ List.replicate 32 0 then sampleOmmerNode
    else if bytes = referencedHash ++ genesisHash then sampleBlockNode
    else List.replicate 32 0
  blake2b256 := fun bytes => if bytes = sampleHeaderBytes then sampleOmmerId.toBytes else List.replicate 32 0

def sampleVLQ : VLQ where
  putInt := fun n => Storage.putULong 9 (Storage.zigZag n)
  getInt := Storage.getULong 9 >>= fun n => pure (Storage.unZigZag n)
  putLong := fun n => Storage.putULong 9 (Storage.zigZag n.toInt)
  getLong := Storage.getULong 9 >>= fun n => pure (Int64.ofInt (Storage.unZigZag n))
  reads_putInt := Utils.intCodec_zigZag.reads_putInt
  reads_putLong := by
    intro n
    have hread := (Storage.reads_zigZag n.le_toInt n.toInt_lt).map Int64.ofInt
    rw [Int64.ofInt_toInt, bind_assoc] at hread
    simpa only [pure_bind] using hread

def sampleHeader (timestamp : Int64) (mainchainRoot ommersRoot : FixedBytes hashLength) :
    SidechainBlockHeader sampleLib where
  version := 1
  parentId := zeros _
  timestamp := timestamp
  forgingStakeInfo := ⟨zeros _, zeros _, 10, by decide⟩
  forgingStakeMerklePath := ⟨[], by simp⟩
  vrfProof := zeros _
  sidechainTransactionsMerkleRootHash := zeros _
  mainchainMerkleRootHash := mainchainRoot
  ommersMerkleRootHash := ommersRoot
  ommersCumulativeScore := 0
  feePaymentsHash := zeros _
  signature := zeros _
  version_eq := rfl

def sampleOmmer : Ommer (SidechainBlockHeader sampleLib) :=
  ⟨sampleHeader 1 ommerMainchainRoot (zeros _), some referencedHash, [], []⟩

def sampleBlock : SidechainBlockBase (SidechainBlockHeader sampleLib) where
  simpleName := "SidechainBlock"
  header := sampleHeader 2 blockMainchainRoot sampleOmmerId
  headerHashes := [referencedHash]
  mainchainHeaders := [genesisHeader]
  ommers := [sampleOmmer]
  verifyTransactionsDataConsistency := .ok ()

theorem id_sampleOmmer : sampleOmmer.id (sidechainFormat sampleLib sampleVLQ) = sampleOmmerId.toBytes := by decide +kernel

theorem sampleOmmer_ok :
    sampleOmmer.verifyDataConsistency sampleLib.doubleSHA256 (sidechainFormat sampleLib sampleVLQ) = .ok () := by
  refine Ommer.verifyDataConsistency_ok.2 ⟨Ommer.verifyMainchainData_ok.2 ⟨?_, rfl⟩, ?_, rfl⟩
  · decide +kernel
  · exact Ommer.verifyOmmersRoot_ok.2 ⟨rfl, rfl⟩

theorem sampleBlock_ok :
    sampleBlock.verifyDataConsistency sampleLib.doubleSHA256 (sidechainFormat sampleLib sampleVLQ) = .ok () := by
  have hids : sampleBlock.ommers.map (Ommer.id (sidechainFormat sampleLib sampleVLQ)) = [sampleOmmerId.toBytes] :=
    congrArg (fun ommerId => [ommerId]) id_sampleOmmer
  refine SidechainBlockBase.verifyDataConsistency_ok.2 ⟨rfl,
    SidechainBlockBase.verifyMainchainData_ok.2 ⟨⟨?_, rfl⟩, rfl⟩, SidechainBlockBase.verifyOmmersRoot_ok.2 ?_,
    Ommer.verifyEach_ok.2 ?_⟩
  · decide +kernel
  · rw [hids]
    exact ⟨rfl, rfl⟩
  · exact List.forall_mem_singleton.2 sampleOmmer_ok

theorem sized_sampleOmmer : sampleOmmer.Sized (sidechainFormat sampleLib sampleVLQ) := by
  refine ⟨?_, ?_, ?_, ?_, ?_, ?_⟩
  · exact Nat.pow_pos (by norm_num)
  · rintro _ ⟨⟩
    decide
  · exact Nat.pow_pos (by norm_num)
  · exact fun _ h => nomatch h
  · exact Nat.pow_pos (by norm_num)
  · exact fun _ h => nomatch h

/-- the block and its ommer pass, and the ommer with its own ommer is read back -/
theorem ommer_form_nested :
    ∃ ommer, sampleBlock.toOmmer sampleLib.doubleSHA256 = .ok ommer ∧
      ommer.verifyDataConsistency sampleLib.doubleSHA256 (sidechainFormat sampleLib sampleVLQ) = .ok () ∧
      ∃ parsed, (Ommer.parse sampleVLQ (sidechainFormat sampleLib sampleVLQ)
          (ommer.serialize sampleVLQ (sidechainFormat sampleLib sampleVLQ)).length).run
            (ommer.serialize sampleVLQ (sidechainFormat sampleLib sampleVLQ) ++ []) = some (parsed, []) ∧
        parsed.equals (sidechainFormat sampleLib sampleVLQ) sampleLib.doubleSHA256 ommer = true := by
  have hform := (ommer_form sampleLib sampleVLQ).1
  have hommer := @toOmmer_eq sampleLib.doubleSHA256 _ sampleBlock
  have hsized : Ommer.Sized (sidechainFormat sampleLib sampleVLQ)
      ⟨sampleBlock.header, some referencedHash, sampleBlock.mainchainHeaders, sampleBlock.ommers⟩ := by
    obtain ⟨header, root, -, -, -, -⟩ := sized_sampleOmmer
    refine ⟨header, root, ?_, ?_, ?_, ?_⟩
    · exact Nat.one_lt_two_pow (by norm_num)
    · exact List.forall_mem_singleton.2 (by decide +kernel)
    · exact Nat.one_lt_two_pow (by norm_num)
    · exact List.forall_mem_singleton.2 sized_sampleOmmer
  obtain ⟨parsed, hparsed, hequal, -⟩ := hform.parsed _ hsized _ le_rfl []
  exact ⟨_, hommer, hform.passes sampleBlock _ hommer sampleBlock_ok, parsed, hparsed, hequal⟩

end SidechainsSdk.Blocks
