/-
`MerkleTree` and `MerklePath`. All nodes of a tree are in one list, level after level; the code finds a node by the offset
of its level. The double hash of a concatenation is a parameter, of which only the length of its result is used.

- `buildLevels_spec`: the list holds the levels of the hash tree over the leaves, the root last, and the flag tells that
  one of them ends with two equal nodes.
- `pathLoop_eq`: what is read from the list for a leaf is its path in the hash tree.
- `merkle_path`: so a path leads to the root, tells the index of its leaf, and whether it is the first or the last.
-/
import SidechainsSdk.Core.HashTree
import SidechainsSdk.Core.MachineInt
import SidechainsSdk.Storage.ChangeSet

namespace SidechainsSdk.Utils

open HashTree MachineInt Reader

inductive MerkleError where
  /-- Non leaves provided. Merkle Tree can not be calculated. -/
  | noLeaves
  /-- Leaf index is out of bound. Merkle Path can not be calculated. -/
  | leafIndexOutOfBound
  /-- Some of merkle path nodes contains broken bytes. Bytes expected to be SHA256 hash of length 32. -/
  | brokenBytes

def SHA256_LENGTH : ℕ := 32

def reverseBytes (bytes : Bytes) : Bytes := bytes.reverse

/-! ## Paths -/

/-- key 0 for a node to concatenate on the left, 1 for one on the right -/
structure MerklePath where
  merklePath : List (UInt8 × Bytes)
  wellFormed : ∀ pair ∈ merklePath, pair.2.length = SHA256_LENGTH

/-- the constructor -/
def MerklePath.make (merklePath : List (UInt8 × Bytes)) : Except MerkleError MerklePath :=
  if h : ∀ pair ∈ merklePath, pair.2.length = SHA256_LENGTH then .ok ⟨merklePath, h⟩ else .error .brokenBytes

section Hash

variable (doubleSHA256 : Bytes → Bytes)

def doubleSHA256HashOfConcatenation (bytes1 bytes2 : Bytes) : Bytes := doubleSHA256 (bytes1 ++ bytes2)

/-- the node over two nodes -/
def hashNodes (left right : Bytes) : Bytes :=
  reverseBytes (doubleSHA256HashOfConcatenation doubleSHA256 (reverseBytes left) (reverseBytes right))

def MerklePath.apply (path : MerklePath) (leaf : Bytes) : Bytes :=
  path.merklePath.foldl (fun tmp node =>
    if node.1 = 0 then hashNodes doubleSHA256 node.2 tmp else hashNodes doubleSHA256 tmp node.2) leaf

def MerklePath.isLeftmost (path : MerklePath) : Bool := path.merklePath.all fun neighbour => neighbour.1 = 1

/-- the loop of `isRightmost` -/
def rightmostLoop : Bytes → List (UInt8 × Bytes) → Bool
  | _, [] => true
  | currentNode, neighbour :: merklePath =>
    if neighbour.1 = 0 then rightmostLoop (hashNodes doubleSHA256 neighbour.2 currentNode) merklePath
    else if currentNode ≠ neighbour.2 then false
    else rightmostLoop (hashNodes doubleSHA256 currentNode neighbour.2) merklePath

def MerklePath.isRightmost (path : MerklePath) (leaf : Bytes) : Bool := rightmostLoop doubleSHA256 leaf path.merklePath

end Hash

/-- from the last node of the path to the first -/
def MerklePath.leafIndex (path : MerklePath) : ℤ :=
  path.merklePath.foldr (fun node index =>
    let index := intOf (2 * index)
    if node.1 = 0 then intOf (index + 1) else index) 0

/-! ## Trees -/

structure MerkleTree where
  leavesNumber : ℕ
  merkleTree : List Bytes
  isMutated : Bool

/-- an entry of the list; the index is always one of the list -/
def nodeAt (merkleTree : List Bytes) (index : ℕ) : Bytes := merkleTree.getD index []

section Trees

variable (doubleSHA256 : Bytes → Bytes)

/-- one pass of the inner loop, for the node at `left` and the one behind it -/
def hashPair (offset levelSize : ℕ) (state : List Bytes × Bool) (left : ℕ) : List Bytes × Bool :=
  let right := min (left + 1) (levelSize - 1)
  let leftBytes := reverseBytes (nodeAt state.1 (offset + left))
  let rightBytes := reverseBytes (nodeAt state.1 (offset + right))
  let isMutated :=
    if right = left + 1 ∧ right + 1 = levelSize ∧ leftBytes = rightBytes then true else state.2
  (state.1 ++ [reverseBytes (doubleSHA256HashOfConcatenation doubleSHA256 leftBytes rightBytes)], isMutated)

/-- the values of `left`: 0, 2, 4 and so on below the size of the level -/
def lefts (levelSize : ℕ) : List ℕ := (List.range ((levelSize + 1) / 2)).map fun k => 2 * k

/-- the outer loop, for at most `passes` levels -/
def buildLevels : ℕ → ℕ → ℕ → List Bytes × Bool → List Bytes × Bool
  | 0, _, _, state => state
  | passes + 1, offset, levelSize, state =>
    if 1 < levelSize then
      buildLevels passes (offset + levelSize) ((levelSize + 1) / 2)
        ((lefts levelSize).foldl (hashPair doubleSHA256 offset levelSize) state)
    else state

/-- each level is smaller than the one before, so there are not more than leaves -/
def createMerkleTree (leavesHashes : List Bytes) : Except MerkleError MerkleTree :=
  if leavesHashes.length = 0 then .error .noLeaves
  else
    let (merkleTree, isMutated) := buildLevels doubleSHA256 leavesHashes.length 0 leavesHashes.length (leavesHashes, false)
    .ok { leavesNumber := leavesHashes.length, merkleTree, isMutated }

end Trees

def MerkleTree.rootHash (tree : MerkleTree) : Bytes := nodeAt tree.merkleTree (tree.merkleTree.length - 1)

/-- the loop of `getMerklePathForLeaf` -/
def pathLoop (merkleTree : List Bytes) : ℕ → ℕ → ℕ → ℕ → List (UInt8 × Bytes)
  | 0, _, _, _ => []
  | passes + 1, offset, levelSize, idxOnLevel =>
    if 1 < levelSize then
      (if levelSize % 2 = 1 ∧ idxOnLevel = levelSize - 1 then (1, nodeAt merkleTree (offset + idxOnLevel))
        else if idxOnLevel % 2 = 1 then (0, nodeAt merkleTree (offset + idxOnLevel - 1))
        else (1, nodeAt merkleTree (offset + idxOnLevel + 1))) ::
        pathLoop merkleTree passes (offset + levelSize) ((levelSize + 1) / 2) (idxOnLevel / 2)
    else []

def MerkleTree.getMerklePathForLeaf (tree : MerkleTree) (leafIdx : ℤ) : Except MerkleError MerklePath :=
  if leafIdx < 0 ∨ tree.leavesNumber ≤ leafIdx then .error .leafIndexOutOfBound
  else MerklePath.make (pathLoop tree.merkleTree tree.leavesNumber 0 tree.leavesNumber leafIdx.toNat)

/-! ## The serializer of paths -/

/-- the integers of the writer and the reader -/
structure IntCodec (putInt : ℤ → Bytes) (getInt : Reader ℤ) : Prop where
  reads_putInt : ∀ n, IsInt n → Reads getInt (putInt n) n

section Serializer

variable (putInt : ℤ → Bytes) (getInt : Reader ℤ)

def serialize (path : MerklePath) : Bytes :=
  putInt path.merklePath.length ++ path.merklePath.flatMap fun pair => [pair.1] ++ pair.2

def getPair : Reader (UInt8 × Bytes) := do
  let key ← byte
  let value ← bytes SHA256_LENGTH
  pure (UInt8.ofNat key, value)

def parse : Reader MerklePath := do
  let size ← getInt
  if size < 0 then failure
  else
    let merklePath ← repeated getPair size.toNat
    match MerklePath.make merklePath with
    | .ok path => pure path
    | .error _ => failure

end Serializer

/-! ## Paths as those of a hash tree -/

/-- a sibling as an entry of a path -/
def entry : Side × Bytes → UInt8 × Bytes
  | (.left, y) => (0, y)
  | (.right, y) => (1, y)

theorem one_ne_zero_key : ¬ (1 : UInt8) = 0 := by decide

section Entries

variable (doubleSHA256 : Bytes → Bytes) (p : List (Side × Bytes))

theorem apply_entries (x : Bytes) (h : ∀ pair ∈ p.map entry, pair.2.length = SHA256_LENGTH) :
    MerklePath.apply doubleSHA256 ⟨p.map entry, h⟩ x = recompute (hashNodes doubleSHA256) x p := by
  rw [MerklePath.apply, List.foldl_map, recompute]
  congr 1
  funext tmp e
  rcases e with ⟨_ | _, y⟩ <;> rfl

theorem isLeftmost_entries (h : ∀ pair ∈ p.map entry, pair.2.length = SHA256_LENGTH) :
    MerklePath.isLeftmost ⟨p.map entry, h⟩ = true ↔ OnLeft p := by
  have hkey : ∀ e : Side × Bytes, (entry e).1 = 1 ↔ e.1 = .right := by
    rintro ⟨_ | _, y⟩
    · simp [entry]
    · simp [entry]
  simp [MerklePath.isLeftmost, OnLeft, hkey]

theorem rightmostLoop_entries (x : Bytes) :
    rightmostLoop doubleSHA256 x (p.map entry) = true ↔ OnRight (hashNodes doubleSHA256) x p := by
  induction p generalizing x with
  | nil => exact iff_of_true rfl trivial
  | cons e p ih =>
    rcases e with ⟨_ | _, y⟩
    · rw [List.map_cons, entry, rightmostLoop, if_pos rfl, ih, OnRight, combine]
      simp
    · rw [List.map_cons, entry, rightmostLoop, if_neg one_ne_zero_key, OnRight, combine]
      by_cases hxy : x = y
      · rw [if_neg (not_not.2 hxy), ih]
        simp [hxy]
      · rw [if_pos hxy]
        simp [hxy]

theorem leafIndex_entries (h : ∀ pair ∈ p.map entry, pair.2.length = SHA256_LENGTH) :
    MerklePath.leafIndex ⟨p.map entry, h⟩ = intOf (index p) := by
  have hfold : ∀ q : List (Side × Bytes), (q.map entry).foldr (fun node index =>
      let index := intOf (2 * index)
      if node.1 = 0 then intOf (index + 1) else index) 0 = intOf (index q) := by
    intro q
    induction q with
    | nil => rfl
    | cons e q ih =>
      have hdouble : intOf (2 * intOf (index q)) = intOf (2 * index q) := by rw [mul_comm, intOf_mul_intOf, mul_comm]
      rw [List.map_cons, List.foldr_cons, ih]
      rcases e with ⟨_ | _, y⟩
      · have hone : intOf (intOf (2 * index q) + 1) = intOf (2 * index q + 1) := by
          rw [add_comm, intOf_add_intOf, add_comm]
        simp only [entry, if_pos, hdouble, hone, index, Nat.cast_add, Nat.cast_mul, Nat.cast_ofNat, Nat.cast_one]
      · simp only [entry, if_neg one_ne_zero_key, hdouble, index, reduceCtorEq, if_false, Nat.cast_mul, Nat.cast_ofNat,
          Nat.add_zero]
  exact hfold p

end Entries

/-! ## The list of nodes -/

section Levels

variable {doubleSHA256 : Bytes → Bytes} {tree ext : List Bytes} {offset passes : ℕ} {l : Level Bytes} {m : Bool}

/-- the nodes of `l` are in the list from `offset` on -/
def Holds (tree : List Bytes) (offset : ℕ) (l : Level Bytes) : Prop :=
  offset + l.size ≤ tree.length ∧ ∀ k < l.size, nodeAt tree (offset + k) = l.node k

theorem Holds.append (h : Holds tree offset l) : Holds (tree ++ ext) offset l := by
  obtain ⟨hle, hnode⟩ := h
  refine ⟨by rw [List.length_append]; omega, fun k hk => ?_⟩
  rw [← hnode k hk, nodeAt, nodeAt, List.getD_eq_getElem?_getD, List.getD_eq_getElem?_getD,
    List.getElem?_append_left (by omega)]

/-- the node over `left` -/
def overLeft (doubleSHA256 : Bytes → Bytes) (l : Level Bytes) (left : ℕ) : Bytes :=
  hashNodes doubleSHA256 (l.node left) (l.node (min (left + 1) (l.size - 1)))

theorem hashPair_eq (h : Holds tree offset l) {left : ℕ} (hleft : left < l.size) :
    hashPair doubleSHA256 offset l.size (tree ++ ext, m) left =
      (tree ++ ext ++ [overLeft doubleSHA256 l left],
        if left + 2 = l.size ∧ l.node left = l.node (left + 1) then true else m) := by
  obtain ⟨-, hnode⟩ : Holds (tree ++ ext) offset l := h.append
  have hright : min (left + 1) (l.size - 1) < l.size := by omega
  have hlast : (min (left + 1) (l.size - 1) = left + 1 ∧ min (left + 1) (l.size - 1) + 1 = l.size ∧
      reverseBytes (l.node left) = reverseBytes (l.node (min (left + 1) (l.size - 1)))) ↔
      left + 2 = l.size ∧ l.node left = l.node (left + 1) := by
    constructor
    · rintro ⟨h1, h2, heq⟩
      rw [h1] at h2 heq
      exact ⟨h2, List.reverse_injective heq⟩
    · rintro ⟨h1, heq⟩
      have hmin : min (left + 1) (l.size - 1) = left + 1 := by omega
      rw [hmin]
      exact ⟨rfl, h1, congrArg reverseBytes heq⟩
  simp only [hashPair, hnode left hleft, hnode _ hright, hlast]
  rfl

/-- the inner loop adds the nodes over all pairs, and looks for an equal pair at the end -/
theorem foldl_hashPair (h : Holds tree offset l) {ls : List ℕ} (hls : ∀ left ∈ ls, left < l.size) :
    (ls.foldl (hashPair doubleSHA256 offset l.size) (tree ++ ext, m)).1 =
        tree ++ (ext ++ ls.map (overLeft doubleSHA256 l)) ∧
      ((ls.foldl (hashPair doubleSHA256 offset l.size) (tree ++ ext, m)).2 = true ↔
        m = true ∨ ∃ left ∈ ls, left + 2 = l.size ∧ l.node left = l.node (left + 1)) := by
  induction ls generalizing ext m with
  | nil => simp
  | cons left ls ih =>
    obtain ⟨hleft, hls⟩ := List.forall_mem_cons.1 hls
    rw [List.foldl_cons, hashPair_eq h hleft, List.append_assoc]
    obtain ⟨htree, hflag⟩ := @ih (ext ++ [overLeft doubleSHA256 l left])
      (if left + 2 = l.size ∧ l.node left = l.node (left + 1) then true else m) hls
    constructor
    · rw [htree]
      simp
    · rw [hflag, List.exists_mem_cons_iff]
      by_cases hend : left + 2 = l.size ∧ l.node left = l.node (left + 1)
      · simp [hend]
      · simp [hend]

theorem mem_lefts {levelSize left : ℕ} : left ∈ lefts levelSize ↔ left % 2 = 0 ∧ left < levelSize := by
  simp only [lefts, List.mem_map, List.mem_range]
  constructor
  · rintro ⟨k, hk, rfl⟩
    omega
  · rintro ⟨heven, hlt⟩
    exact ⟨left / 2, by omega, by omega⟩

variable (doubleSHA256 m) in
theorem hashLevel_spec (h : Holds tree offset l) (hlen : tree.length = offset + l.size) (hsize : 1 < l.size) :
    ∃ tree' m', (lefts l.size).foldl (hashPair doubleSHA256 offset l.size) (tree, m) = (tree', m') ∧
      (∃ ext, tree' = tree ++ ext) ∧ tree'.length = offset + l.size + (l.next (hashNodes doubleSHA256)).size ∧
      Holds tree' (offset + l.size) (l.next (hashNodes doubleSHA256)) ∧
      (m' = true ↔ m = true ∨ (l.size % 2 = 0 ∧ l.node (l.size - 2) = l.node (l.size - 1))) := by
  obtain ⟨htree, hflag⟩ := @foldl_hashPair doubleSHA256 tree [] offset l m h _
    fun left hleft => (mem_lefts.1 hleft).2
  rw [List.append_nil, List.nil_append] at htree
  rw [List.append_nil] at hflag
  have hcount : ((lefts l.size).map (overLeft doubleSHA256 l)).length = (l.size + 1) / 2 := by simp [lefts]
  refine ⟨_, _, rfl, ⟨_, htree⟩, ?_, ⟨?_, fun k hk => ?_⟩, ?_⟩
  · rw [htree, List.length_append, hcount, hlen, size_next]
  · rw [htree, List.length_append, hcount, hlen, size_next]
  · rw [size_next] at hk
    rw [htree, nodeAt, List.getD_eq_getElem?_getD, List.getElem?_append_right (by omega)]
    have hindex : offset + l.size + k - tree.length = k := by omega
    rw [hindex, List.getElem?_eq_getElem (by omega)]
    simp [lefts, overLeft, Level.next]
  · rw [hflag]
    refine or_congr_right ⟨?_, ?_⟩
    · rintro ⟨left, hleft, hend, heq⟩
      obtain ⟨heven, -⟩ := mem_lefts.1 hleft
      have h2 : l.size - 2 = left := by omega
      have h1 : l.size - 1 = left + 1 := by omega
      rw [h2, h1]
      exact ⟨by omega, heq⟩
    · rintro ⟨heven, heq⟩
      have h1 : l.size - 2 + 1 = l.size - 1 := by omega
      exact ⟨l.size - 2, mem_lefts.2 ⟨by omega, by omega⟩, by omega, by rw [h1]; exact heq⟩

/-- the nodes of `l` and of the levels above it, one level behind the other -/
def HoldsLevels (doubleSHA256 : Bytes → Bytes) (tree : List Bytes) : ℕ → ℕ → Level Bytes → Prop
  | 0, offset, l => Holds tree offset l
  | passes + 1, offset, l => Holds tree offset l ∧
    (1 < l.size → HoldsLevels doubleSHA256 tree passes (offset + l.size) (l.next (hashNodes doubleSHA256)))

theorem HoldsLevels.holds (h : HoldsLevels doubleSHA256 tree passes offset l) : Holds tree offset l := by
  cases passes with
  | zero => exact h
  | succ passes => exact h.1

theorem nodeAt_last (h : Holds tree offset l) (hlen : tree.length = offset + l.size) (hsize : l.size = 1) :
    nodeAt tree (tree.length - 1) = l.node 0 := by
  rw [← h.2 0 (by omega)]
  congr 1
  omega

theorem buildLevels_spec (h : Holds tree offset l) (hlen : tree.length = offset + l.size) (hpos : 0 < l.size)
    (hpasses : l.size ≤ passes + 1) :
    ∃ tree' m', buildLevels doubleSHA256 passes offset l.size (tree, m) = (tree', m') ∧ (∃ ext, tree' = tree ++ ext) ∧
      HoldsLevels doubleSHA256 tree' passes offset l ∧
      nodeAt tree' (tree'.length - 1) = root (hashNodes doubleSHA256) passes l ∧
      (m' = true ↔ m = true ∨ Repeated (hashNodes doubleSHA256) passes l) := by
  induction passes generalizing tree offset l m with
  | zero =>
    exact ⟨tree, m, rfl, ⟨[], by simp⟩, h, nodeAt_last h hlen (by omega), by simp [Repeated]⟩
  | succ passes ih =>
    by_cases hsize : 1 < l.size
    · obtain ⟨tree₁, m₁, hfold, ⟨ext, hext⟩, hlen₁, hholds₁, hm₁⟩ :=
        hashLevel_spec doubleSHA256 m h hlen hsize
      obtain ⟨tree₂, m₂, hbuild, ⟨ext₂, hext₂⟩, hlevels, hroot, hm₂⟩ :=
        @ih tree₁ (offset + l.size) _ m₁ hholds₁ hlen₁ (by rw [size_next]; omega) (by rw [size_next]; omega)
      refine ⟨tree₂, m₂, ?_, ⟨ext ++ ext₂, ?_⟩, ⟨?_, fun _ => hlevels⟩, ?_, ?_⟩
      · rw [buildLevels, if_pos hsize, hfold]
        exact hbuild
      · rw [hext₂, hext, List.append_assoc]
      · rw [hext₂, hext, List.append_assoc]
        exact h.append
      · rw [hroot, root, if_pos hsize]
      · rw [hm₂, hm₁, or_assoc, Repeated, and_iff_right hsize]
    · refine ⟨tree, m, ?_, ⟨[], by simp⟩, ⟨h, fun hlt => absurd hlt hsize⟩, ?_, by simp [Repeated, hsize]⟩
      · rw [buildLevels, if_neg hsize]
      · rw [root, if_neg hsize]
        exact nodeAt_last h hlen (by omega)

/-- what is read from the list is the path in the hash tree -/
theorem pathLoop_eq (h : HoldsLevels doubleSHA256 tree passes offset l) {i : ℕ} (hi : i < l.size) :
    pathLoop tree passes offset l.size i = (path (hashNodes doubleSHA256) passes l i).map entry := by
  induction passes generalizing offset l i with
  | zero => rfl
  | succ passes ih =>
    obtain ⟨⟨-, hnode⟩, habove⟩ := h
    by_cases hsize : 1 < l.size
    · have hrest := ih (habove hsize) (next_index_lt hi)
      rw [size_next] at hrest
      rw [pathLoop, path, if_pos hsize, if_pos hsize, hrest, List.map_cons]
      congr 1
      unfold sibling
      split_ifs
      · rw [hnode i hi]
        rfl
      · rw [Nat.add_sub_assoc (by omega), hnode (i - 1) (by omega)]
        rfl
      · rw [Nat.add_assoc, hnode (i + 1) (by omega)]
        rfl
    · rw [pathLoop, path, if_neg hsize, if_neg hsize]
      rfl

end Levels

/-! ## What a path proves -/

theorem MerklePath.make_ok (path : MerklePath) : MerklePath.make path.merklePath = .ok path := dif_pos path.wellFormed

section Parse

variable {putInt : ℤ → Bytes} {getInt : Reader ℤ}

theorem reads_getPair {pair : UInt8 × Bytes} (h : pair.2.length = SHA256_LENGTH) :
    Reads getPair ([pair.1] ++ pair.2) pair := by
  obtain ⟨key, value⟩ := pair
  have hkey : Reads byte [key] key.toNat := by
    have hbyte := reads_byte key.toNat (UInt8.toNat_lt key)
    rwa [UInt8.ofNat_toNat] at hbyte
  have hvalue : Reads (bytes SHA256_LENGTH) value value := by
    have hbytes := reads_bytes value
    rwa [show value.length = SHA256_LENGTH from h] at hbytes
  refine hkey.bind ?_
  simp only [UInt8.ofNat_toNat]
  exact hvalue.map fun v => (key, v)

theorem reads_parse (hcodec : IntCodec putInt getInt) (path : MerklePath) (hsize : path.merklePath.length < 2 ^ 31) :
    Reads (parse getInt) (serialize putInt path) path := by
  have hint := hcodec.reads_putInt path.merklePath.length ⟨by omega, by omega⟩
  have hpairs := reads_repeated fun pair hpair => reads_getPair (path.wellFormed pair hpair)
  refine hint.bind fun rest => ?_
  rw [if_neg (by omega), Int.toNat_natCast, StateT.run_bind, hpairs]
  simp only [MerklePath.make_ok, Option.bind_eq_bind, Option.bind_some]
  rfl

end Parse

/-- the level of the leaves -/
def leafLevel (leaves : List Bytes) : Level Bytes := ⟨leaves.length, nodeAt leaves⟩

theorem holds_leafLevel (leaves : List Bytes) : Holds leaves 0 (leafLevel leaves) :=
  ⟨by rw [leafLevel, Nat.zero_add], fun k _ => by rw [Nat.zero_add]; rfl⟩

theorem nodeAt_eq_getElem {leaves : List Bytes} {i : ℕ} (hi : i < leaves.length) : nodeAt leaves i = leaves[i] := by
  rw [nodeAt, List.getD_eq_getElem?_getD, List.getElem?_eq_getElem hi, Option.getD_some]

/-- the path of a leaf as it is read from the list of nodes: that of the hash tree -/
theorem createMerkleTree_spec (doubleSHA256 : Bytes → Bytes) {leaves : List Bytes} (hne : leaves ≠ []) :
    ∃ tree, createMerkleTree doubleSHA256 leaves = .ok tree ∧ tree.leavesNumber = leaves.length ∧
      tree.rootHash = root (hashNodes doubleSHA256) leaves.length (leafLevel leaves) ∧
      (tree.isMutated = true ↔ Repeated (hashNodes doubleSHA256) leaves.length (leafLevel leaves)) ∧
      ∀ i < leaves.length, pathLoop tree.merkleTree leaves.length 0 leaves.length i =
        (path (hashNodes doubleSHA256) leaves.length (leafLevel leaves) i).map entry := by
  have hpos := List.length_pos_iff.2 hne
  obtain ⟨tree, m, hbuild, -, hlevels, hroot, hm⟩ := @buildLevels_spec doubleSHA256 leaves 0 leaves.length _ false
    (holds_leafLevel leaves) (by rw [leafLevel, Nat.zero_add]) hpos (Nat.le_succ _)
  refine ⟨⟨leaves.length, tree, m⟩, ?_, rfl, hroot, by simpa using hm, fun i hi => pathLoop_eq hlevels hi⟩
  rw [createMerkleTree, if_neg (by omega)]
  exact congrArg (fun r => Except.ok (⟨leaves.length, r.1, r.2⟩ : MerkleTree)) hbuild

/-- For every list of leaves of 32 bytes and each of them: the path leads from the leaf to the root and tells its index,
it is leftmost for the first leaf alone, and if the tree is not mutated rightmost for the last one alone; written and
parsed it is the same path. -/
theorem merkle_path (doubleSHA256 : Bytes → Bytes) (hhash : ∀ bytes, (doubleSHA256 bytes).length = SHA256_LENGTH)
    {putInt : ℤ → Bytes} {getInt : Reader ℤ} (hcodec : IntCodec putInt getInt) (leaves : List Bytes)
    (hleaves : ∀ leaf ∈ leaves, leaf.length = SHA256_LENGTH) (hsize : leaves.length < 2 ^ 31) (i : ℕ)
    (hi : i < leaves.length) :
    ∃ tree path, createMerkleTree doubleSHA256 leaves = .ok tree ∧ tree.getMerklePathForLeaf i = .ok path ∧
      path.apply doubleSHA256 leaves[i] = tree.rootHash ∧
      path.leafIndex = i ∧
      (path.isLeftmost = true ↔ i = 0) ∧
      (tree.isMutated = false → (path.isRightmost doubleSHA256 leaves[i] = true ↔ i = leaves.length - 1)) ∧
      Reads (parse getInt) (serialize putInt path) path := by
  obtain ⟨tree, htree, hnumber, hroot, hmutated, hpath⟩ :=
    createMerkleTree_spec doubleSHA256 (List.ne_nil_of_length_pos (Nat.zero_lt_of_lt hi))
  have hheight : (leafLevel leaves).size ≤ leaves.length + 1 := Nat.le_succ _
  have hlevel : i < (leafLevel leaves).size := hi
  have hnode : (leafLevel leaves).node i = leaves[i] := nodeAt_eq_getElem hi
  have hentries : ∀ pair ∈ (path (hashNodes doubleSHA256) leaves.length (leafLevel leaves) i).map entry,
      pair.2.length = SHA256_LENGTH := by
    have hnodes : ∀ k < (leafLevel leaves).size, ((leafLevel leaves).node k).length = SHA256_LENGTH := fun k hk => by
      change (nodeAt leaves k).length = SHA256_LENGTH
      rw [nodeAt_eq_getElem hk]
      exact hleaves _ (List.getElem_mem hk)
    refine List.forall_mem_map.2 fun e he => ?_
    have hnext : ∀ x y : Bytes, (hashNodes doubleSHA256 x y).length = SHA256_LENGTH := fun x y =>
      List.length_reverse.trans (hhash _)
    have hlen := forall_mem_path (P := fun b : Bytes => b.length = SHA256_LENGTH) hnext hnodes hlevel e he
    rcases e with ⟨_ | _, y⟩ <;> exact hlen
  have hget : tree.getMerklePathForLeaf i = .ok ⟨_, hentries⟩ := by
    rw [MerkleTree.getMerklePathForLeaf, hnumber, if_neg (by omega), Int.toNat_natCast, hpath i hi]
    exact MerklePath.make_ok ⟨_, hentries⟩
  refine ⟨tree, ⟨_, hentries⟩, htree, hget, ?_, ?_, ?_, ?_, reads_parse hcodec _ ?_⟩
  · rw [apply_entries, hroot]
    exact hnode ▸ recompute_path hheight hlevel
  · rw [leafIndex_entries, index_path hheight hlevel]
    exact intOf_eq ⟨by omega, by omega⟩
  · rw [isLeftmost_entries]
    exact onLeft_path hheight hlevel
  · intro hnot
    rw [MerklePath.isRightmost, rightmostLoop_entries]
    exact hnode ▸ onRight_path hheight hlevel (by rw [← hmutated, hnot]; decide)
  · rw [List.length_map]
    exact length_path_le.trans_lt hsize

/-- leaves of one repeated byte -/
def sampleLeaf (b : UInt8) : Bytes := List.replicate 32 b

/-- the double SHA-256 of the bytes of leaves 1 and 2, of leaf 3 twice, and of these two hashes -/
def sampleHash12 : Bytes :=
  [0x39, 0xce, 0x20, 0xbe, 0xde, 0x82, 0xc9, 0x6b, 0x89, 0x08, 0xbe, 0xc4, 0xa1, 0x57, 0xb0, 0x9c, 0x54, 0x9b,
   0x3d, 0xb9, 0x0b, 0x9b, 0x47, 0x4b, 0xda, 0x9a, 0xe9, 0xb9, 0x03, 0x03, 0x10, 0xb4]

def sampleHash33 : Bytes :=
  [0x64, 0x3d, 0x4b, 0x7e, 0x36, 0x99, 0xd2, 0xb3, 0xd8, 0xc9, 0x37, 0x4b, 0x36, 0x00, 0xbd, 0xf1, 0xf5, 0x73,
   0xb7, 0x99, 0xd2, 0xa5, 0x68, 0x86, 0x23, 0x65, 0x51, 0xa0, 0x16, 0xb4, 0x2d, 0xdf]

def sampleRoot : Bytes :=
  [0x22, 0x3e, 0x02, 0x3f, 0xad, 0xf1, 0xf0, 0x53, 0xdf, 0x26, 0x98, 0x88, 0x71, 0xf8, 0x93, 0xc8, 0x21, 0xc2,
   0x8e, 0xdf, 0x77, 0xd6, 0x4a, 0x95, 0x5e, 0x6c, 0x2a, 0x02, 0xd5, 0x47, 0xbd, 0xac]

/-- the double SHA-256; no other hashes occur with these leaves -/
def sampleHash (bytes : Bytes) : Bytes :=
  if bytes = sampleLeaf 1 ++ sampleLeaf 2 then sampleHash12
  else if bytes = sampleLeaf 3 ++ sampleLeaf 3 then sampleHash33
  else if bytes = sampleHash12 ++ sampleHash33 then sampleRoot
  else List.replicate 32 0

theorem length_sampleHash (bytes : Bytes) : (sampleHash bytes).length = SHA256_LENGTH := by
  unfold sampleHash
  split_ifs <;> rfl

theorem intCodec_zigZag : IntCodec (fun n => Storage.putULong 9 (Storage.zigZag n))
    (Storage.getULong 9 >>= fun n => pure (Storage.unZigZag n)) where
  reads_putInt n hn := by
    obtain ⟨hlow, hhigh⟩ := hn
    exact Storage.reads_zigZag (by omega) (by omega)

/-- the last of three leaves, which is paired with itself -/
theorem merkle_path_three :
    ∃ tree path, createMerkleTree sampleHash [sampleLeaf 1, sampleLeaf 2, sampleLeaf 3] = .ok tree ∧
      tree.getMerklePathForLeaf 2 = .ok path ∧ path.apply sampleHash (sampleLeaf 3) = tree.rootHash ∧
      path.leafIndex = 2 ∧ tree.isMutated = false ∧ path.isRightmost sampleHash (sampleLeaf 3) = true := by
  obtain ⟨tree, path, htree, hpath, hroot, hindex, -, hrightmost, -⟩ :=
    merkle_path sampleHash length_sampleHash intCodec_zigZag [sampleLeaf 1, sampleLeaf 2, sampleLeaf 3] (by decide)
      (by decide) 2 (by decide)
  have hmutated : tree.isMutated = false := by
    have hflag : (createMerkleTree sampleHash [sampleLeaf 1, sampleLeaf 2, sampleLeaf 3]).map MerkleTree.isMutated =
        .ok false := by
      rfl
    rw [htree] at hflag
    exact Except.ok.inj hflag
  exact ⟨tree, path, htree, hpath, hroot, hindex, hmutated, (hrightmost hmutated).2 rfl⟩

end SidechainsSdk.Utils
