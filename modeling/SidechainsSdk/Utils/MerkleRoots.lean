/-
What a Merkle root says about the leaves (`MerkleTree.createMerkleTree`).

A level of odd size hashes its last node with itself, so a list of leaves and the same list with a copy of its last leaves
behind it can have the same root. The tree is called mutated where a level ends with two equal nodes.

- `CollisionFree`: no two pairs of nodes that are hashed in two trees have the same double hash.
- `collisionFree_of_strings`: for leaves and hashes of one length it is enough that no two strings have the same hash.
- `merkle_roots`: two trees of the same number of levels and the same root. If neither is mutated they have the same leaves,
  and a list that continues the other one has a mutated tree.
-/
import Mathlib.Tactic
import SidechainsSdk.Utils.MerkleTree

namespace SidechainsSdk.Utils

open HashTree

/-- the passes of the outer loop of `createMerkleTree`: the levels above the leaves -/
def levelsAbove : ℕ → ℕ → ℕ
  | 0, _ => 0
  | passes + 1, levelSize => if 1 < levelSize then levelsAbove passes ((levelSize + 1) / 2) + 1 else 0

def MerkleTree.numberOfLevels (tree : MerkleTree) : ℕ := levelsAbove tree.leavesNumber tree.leavesNumber + 1

section Collisions

variable (doubleSHA256 : Bytes → Bytes)

/-- the pairs of bytes whose double hash is computed for the tree over the leaves -/
def concatenated (leaves : List Bytes) : List (Bytes × Bytes) :=
  (hashedPairs (hashNodes doubleSHA256) leaves.length (leafLevel leaves)).map fun pair =>
    (reverseBytes pair.1, reverseBytes pair.2)

/-- the double hash of a concatenation has no collision between the two trees -/
def CollisionFree (leaves leaves' : List Bytes) : Prop :=
  ∀ p ∈ concatenated doubleSHA256 leaves, ∀ q ∈ concatenated doubleSHA256 leaves',
    doubleSHA256HashOfConcatenation doubleSHA256 p.1 p.2 = doubleSHA256HashOfConcatenation doubleSHA256 q.1 q.2 → p = q

end Collisions

variable {doubleSHA256 : Bytes → Bytes} {leaves leaves' : List Bytes}

theorem levelsAbove_eq (passes levelSize : ℕ) : levelsAbove passes levelSize = levels passes levelSize := by
  induction passes generalizing levelSize with
  | zero => rfl
  | succ passes ih => rw [levelsAbove, levels, ih]

theorem CollisionFree.nodes (h : CollisionFree doubleSHA256 leaves leaves') :
    ∀ p ∈ hashedPairs (hashNodes doubleSHA256) leaves.length (leafLevel leaves),
    ∀ q ∈ hashedPairs (hashNodes doubleSHA256) leaves'.length (leafLevel leaves'),
      hashNodes doubleSHA256 p.1 p.2 = hashNodes doubleSHA256 q.1 q.2 → p = q := by
  intro p hp q hq heq
  have hpair := h (reverseBytes p.1, reverseBytes p.2) (List.mem_map.2 ⟨p, hp, rfl⟩) (reverseBytes q.1, reverseBytes q.2)
    (List.mem_map.2 ⟨q, hq, rfl⟩) (List.reverse_injective heq)
  obtain ⟨hleft, hright⟩ := Prod.mk.inj hpair
  exact Prod.ext (List.reverse_injective hleft) (List.reverse_injective hright)

/-- every node that is hashed has the length of a hash -/
theorem length_of_mem_concatenated (hhash : ∀ bytes, (doubleSHA256 bytes).length = SHA256_LENGTH)
    (hleaves : ∀ leaf ∈ leaves, leaf.length = SHA256_LENGTH) :
    ∀ p ∈ concatenated doubleSHA256 leaves, p.1.length = SHA256_LENGTH ∧ p.2.length = SHA256_LENGTH := by
  have hnodes : ∀ (height : ℕ) (l : Level Bytes), (∀ k < l.size, (l.node k).length = SHA256_LENGTH) →
      ∀ p ∈ hashedPairs (hashNodes doubleSHA256) height l, p.1.length = SHA256_LENGTH ∧ p.2.length = SHA256_LENGTH := by
    intro height
    induction height with
    | zero =>
      intro l _ p hp
      cases hp
    | succ height ih =>
      intro l hl p hp
      rw [hashedPairs] at hp
      split_ifs at hp with hsize
      · rcases List.mem_append.1 hp with hp | hp
        · obtain ⟨k, hk, rfl⟩ := List.mem_map.1 hp
          rw [List.mem_range, size_next] at hk
          exact ⟨hl _ (by omega), hl _ (by omega)⟩
        · refine ih _ ?_ p hp
          intro k _
          exact List.length_reverse.trans (hhash _)
      · cases hp
  intro p hp
  obtain ⟨q, hq, rfl⟩ := List.mem_map.1 hp
  have hlevel : ∀ k < (leafLevel leaves).size, ((leafLevel leaves).node k).length = SHA256_LENGTH := by
    intro k hk
    show (nodeAt leaves k).length = SHA256_LENGTH
    rw [nodeAt_eq_getElem hk]
    exact hleaves _ (List.getElem_mem hk)
  obtain ⟨hleft, hright⟩ := hnodes leaves.length (leafLevel leaves) hlevel q hq
  exact ⟨List.length_reverse.trans hleft, List.length_reverse.trans hright⟩

theorem collisionFree_of_strings (hhash : ∀ bytes, (doubleSHA256 bytes).length = SHA256_LENGTH)
    (hleaves : ∀ leaf ∈ leaves, leaf.length = SHA256_LENGTH) (hleaves' : ∀ leaf ∈ leaves', leaf.length = SHA256_LENGTH)
    (hfree : ∀ p ∈ concatenated doubleSHA256 leaves, ∀ q ∈ concatenated doubleSHA256 leaves',
      doubleSHA256 (p.1 ++ p.2) = doubleSHA256 (q.1 ++ q.2) → p.1 ++ p.2 = q.1 ++ q.2) :
    CollisionFree doubleSHA256 leaves leaves' := by
  intro p hp q hq heq
  have hp1 := (length_of_mem_concatenated hhash hleaves p hp).1
  have hq1 := (length_of_mem_concatenated hhash hleaves' q hq).1
  obtain ⟨hleft, hright⟩ := List.append_inj (hfree p hp q hq heq) (hp1.trans hq1.symm)
  exact Prod.ext hleft hright

/-- the shorter list of the two begins the other one, unless its tree is mutated -/
theorem prefix_of_rootHash_eq {tree tree' : MerkleTree} (htree : createMerkleTree doubleSHA256 leaves = .ok tree)
    (htree' : createMerkleTree doubleSHA256 leaves' = .ok tree') (hlevels : tree.numberOfLevels = tree'.numberOfLevels)
    (hfree : CollisionFree doubleSHA256 leaves leaves') (hroot : tree.rootHash = tree'.rootHash)
    (hmutated : tree'.isMutated = false) : leaves' <+: leaves := by
  have hne : ∀ {ls : List Bytes} {t : MerkleTree}, createMerkleTree doubleSHA256 ls = .ok t → ls ≠ [] := by
    rintro ls t hls rfl
    cases hls
  obtain ⟨t, ht, hnumber, hroot₁, -, -⟩ := createMerkleTree_spec doubleSHA256 (hne htree)
  obtain ⟨t', ht', hnumber', hroot₁', hmutated', -⟩ := createMerkleTree_spec doubleSHA256 (hne htree')
  obtain rfl := Except.ok.inj (htree.symm.trans ht)
  obtain rfl := Except.ok.inj (htree'.symm.trans ht')
  have hrepeated : ¬ Repeated (hashNodes doubleSHA256) leaves'.length (leafLevel leaves') := by
    rw [← hmutated', hmutated]
    decide
  have hcount : levels leaves.length leaves.length = levels leaves'.length leaves'.length := by
    rw [MerkleTree.numberOfLevels, MerkleTree.numberOfLevels, hnumber, hnumber', levelsAbove_eq, levelsAbove_eq] at hlevels
    exact Nat.succ_injective hlevels
  obtain ⟨hle, hnodes⟩ := @nodes_eq_of_root_eq _ _ (leafLevel leaves) (leafLevel leaves') leaves.length leaves'.length
    (Nat.le_succ _) (Nat.le_succ _) (List.length_pos_iff.2 (hne htree)) hcount hfree.nodes (hroot₁ ▸ hroot₁' ▸ hroot)
      hrepeated
  have hlength : leaves'.length ≤ leaves.length := hle
  rw [List.prefix_iff_eq_take]
  refine List.ext_getElem (by rw [List.length_take]; omega) fun k hk _ => ?_
  have hnode : nodeAt leaves k = nodeAt leaves' k := hnodes k hk
  rw [nodeAt_eq_getElem hk, nodeAt_eq_getElem (hk.trans_le hlength)] at hnode
  rw [List.getElem_take, hnode]

/-- **Unmutated roots.** For any two lists of leaves whose trees have the same number of levels and the same root, where the
double hash of a concatenation has no collision: if neither tree is mutated the leaves are the same, and if one list is
longer by leaves behind the other one, as with a copy of the last leaves, its tree is mutated. -/
theorem merkle_roots (doubleSHA256 : Bytes → Bytes) (leaves leaves' : List Bytes) (tree tree' : MerkleTree)
    (htree : createMerkleTree doubleSHA256 leaves = .ok tree) (htree' : createMerkleTree doubleSHA256 leaves' = .ok tree')
    (hlevels : tree.numberOfLevels = tree'.numberOfLevels) (hfree : CollisionFree doubleSHA256 leaves leaves')
    (hroot : tree.rootHash = tree'.rootHash) :
    (tree.isMutated = false → tree'.isMutated = false → leaves = leaves') ∧
      ∀ copy, copy ≠ [] → leaves' = leaves ++ copy → tree'.isMutated = true := by
  have hbegins : tree'.isMutated = false → leaves' <+: leaves := fun hmutated =>
    prefix_of_rootHash_eq htree htree' hlevels hfree hroot hmutated
  constructor
  · intro hmutated hmutated'
    have hfree' : CollisionFree doubleSHA256 leaves' leaves := fun p hp q hq heq => (hfree q hq p hp heq.symm).symm
    have hbegins' := prefix_of_rootHash_eq htree' htree hlevels.symm hfree' hroot.symm hmutated
    exact hbegins'.eq_of_length_le (hbegins hmutated').length_le
  · intro copy hcopy happend
    by_contra hnot
    have hle := (hbegins (by simpa using hnot)).length_le
    rw [happend, List.length_append] at hle
    exact hcopy (List.eq_nil_of_length_eq_zero (by omega))

/-- the tree over the leaves -/
def treeOf (doubleSHA256 : Bytes → Bytes) (leaves : List Bytes) : MerkleTree :=
  ((createMerkleTree doubleSHA256 leaves).toOption).getD ⟨0, [], false⟩

/-- three leaves, and the same with a copy of the last one: the same root, and the second tree is mutated -/
theorem merkle_roots_copy :
    (treeOf sampleHash [sampleLeaf 1, sampleLeaf 2, sampleLeaf 3]).rootHash =
        (treeOf sampleHash [sampleLeaf 1, sampleLeaf 2, sampleLeaf 3, sampleLeaf 3]).rootHash ∧
      (treeOf sampleHash [sampleLeaf 1, sampleLeaf 2, sampleLeaf 3, sampleLeaf 3]).isMutated = true := by
  have hroot : (treeOf sampleHash [sampleLeaf 1, sampleLeaf 2, sampleLeaf 3]).rootHash =
      (treeOf sampleHash [sampleLeaf 1, sampleLeaf 2, sampleLeaf 3, sampleLeaf 3]).rootHash := by
    decide +kernel
  have hfree : CollisionFree sampleHash [sampleLeaf 1, sampleLeaf 2, sampleLeaf 3]
      [sampleLeaf 1, sampleLeaf 2, sampleLeaf 3, sampleLeaf 3] :=
    collisionFree_of_strings length_sampleHash (by decide) (by decide) (by decide +kernel)
  exact ⟨hroot, (merkle_roots sampleHash [sampleLeaf 1, sampleLeaf 2, sampleLeaf 3]
    [sampleLeaf 1, sampleLeaf 2, sampleLeaf 3, sampleLeaf 3] _ _ rfl rfl (by decide +kernel) hfree hroot).2
    [sampleLeaf 3] (by simp) rfl⟩

end SidechainsSdk.Utils
