/-
Hash trees whose odd levels repeat their last node, over any node hash.

A level is its size and its nodes. The next level hashes the nodes in pairs; the last node of an odd level is hashed with
itself. A path holds for each level the sibling and its side.

- `recompute_path`, `index_path`, `onLeft_path`: a path leads from its node to the root and tells the index.
- `onRight_path`: that all siblings on the right repeat the node itself tells the last node, if no level ends with a pair
  of equal nodes.
- `nodes_eq_of_root_eq`: two trees of the same number of levels and the same root; one whose levels do not end with a pair
  of equal nodes is the smaller one, and its nodes are the first ones of the other.
-/
import Mathlib.Tactic

namespace SidechainsSdk.HashTree

variable {α : Type}

structure Level (α : Type) where
  size : ℕ
  node : ℕ → α

/-- where the sibling of a node stands -/
inductive Side where
  | left
  | right
  deriving DecidableEq

variable (hash : α → α → α)

/-- the level above -/
def Level.next (l : Level α) : Level α where
  size := (l.size + 1) / 2
  node k := hash (l.node (2 * k)) (l.node (min (2 * k + 1) (l.size - 1)))

/-- the root over a level, of at most `height` levels above it -/
def root : ℕ → Level α → α
  | 0, l => l.node 0
  | height + 1, l => if 1 < l.size then root height (l.next hash) else l.node 0

/-- the sibling of a node; the last node of an odd level is its own -/
def sibling (l : Level α) (i : ℕ) : Side × α :=
  if l.size % 2 = 1 ∧ i = l.size - 1 then (.right, l.node i)
  else if i % 2 = 1 then (.left, l.node (i - 1))
  else (.right, l.node (i + 1))

/-- the siblings from a node up to the root -/
def path : ℕ → Level α → ℕ → List (Side × α)
  | 0, _, _ => []
  | height + 1, l, i => if 1 < l.size then sibling l i :: path height (l.next hash) (i / 2) else []

/-- a level, or one above it, ends with a pair of equal nodes -/
def Repeated : ℕ → Level α → Prop
  | 0, _ => False
  | height + 1, l =>
    1 < l.size ∧ (l.size % 2 = 0 ∧ l.node (l.size - 2) = l.node (l.size - 1) ∨ Repeated height (l.next hash))

/-- the levels above a level of some size -/
def levels : ℕ → ℕ → ℕ
  | 0, _ => 0
  | height + 1, size => if 1 < size then levels height ((size + 1) / 2) + 1 else 0

/-- the two nodes below a node -/
def Level.below (l : Level α) (k : ℕ) : α × α := (l.node (2 * k), l.node (min (2 * k + 1) (l.size - 1)))

/-- all pairs of nodes that are hashed on the way to the root -/
def hashedPairs : ℕ → Level α → List (α × α)
  | 0, _ => []
  | height + 1, l =>
    if 1 < l.size then (List.range (l.next hash).size).map l.below ++ hashedPairs height (l.next hash) else []

/-- the node above, from a node and its sibling -/
def combine (x : α) : Side × α → α
  | (.left, y) => hash y x
  | (.right, y) => hash x y

def recompute (x : α) (p : List (Side × α)) : α := p.foldl (combine hash) x

/-- the index in binary, the lowest digit first: one for a sibling on the left -/
def index : List (Side × α) → ℕ
  | [] => 0
  | (side, _) :: p => 2 * index p + if side = .left then 1 else 0

def OnLeft (p : List (Side × α)) : Prop := ∀ e ∈ p, e.1 = .right

/-- each sibling on the right is the node itself -/
def OnRight : α → List (Side × α) → Prop
  | _, [] => True
  | x, e :: p => (e.1 = .right → x = e.2) ∧ OnRight (combine hash x e) p

section Path

variable {hash} {l : Level α} {i height : ℕ}

theorem size_next : (l.next hash).size = (l.size + 1) / 2 := rfl

/-- a node and its sibling are hashed to the node above them -/
theorem combine_sibling (hi : i < l.size) : combine hash (l.node i) (sibling l i) = (l.next hash).node (i / 2) := by
  unfold sibling Level.next
  split_ifs with hlast hodd
  · have hleft : 2 * (i / 2) = i := by omega
    have hright : min (i + 1) (l.size - 1) = i := by omega
    simp only [combine, hleft, hright]
  · have hleft : 2 * (i / 2) = i - 1 := by omega
    have hright : min (i - 1 + 1) (l.size - 1) = i := by omega
    simp only [combine, hleft, hright]
  · have hleft : 2 * (i / 2) = i := by omega
    have hright : min (i + 1) (l.size - 1) = i + 1 := by omega
    simp only [combine, hleft, hright]

theorem next_index_lt (hi : i < l.size) : i / 2 < (l.next hash).size := by
  rw [size_next]
  omega

theorem recompute_path (hheight : l.size ≤ height + 1) (hi : i < l.size) :
    recompute hash (l.node i) (path hash height l i) = root hash height l := by
  induction height generalizing l i with
  | zero =>
    obtain rfl : i = 0 := by omega
    rfl
  | succ height ih =>
    by_cases hsize : 1 < l.size
    · rw [path, root, if_pos hsize, if_pos hsize, recompute, List.foldl_cons, combine_sibling hi]
      refine ih ?_ (next_index_lt hi)
      rw [size_next]
      omega
    · obtain rfl : i = 0 := by omega
      rw [path, root, if_neg hsize, if_neg hsize]
      rfl

theorem sibling_side : (sibling l i).1 = .left ↔ i % 2 = 1 := by
  unfold sibling
  split_ifs with hlast hodd
  · simp
    omega
  · simp [hodd]
  · simp [hodd]

theorem index_path (hheight : l.size ≤ height + 1) (hi : i < l.size) : index (path hash height l i) = i := by
  induction height generalizing l i with
  | zero =>
    obtain rfl : i = 0 := by omega
    rfl
  | succ height ih =>
    by_cases hsize : 1 < l.size
    · have hrest : index (path hash height (l.next hash) (i / 2)) = i / 2 :=
        ih (by rw [size_next]; omega) (next_index_lt hi)
      rw [path, if_pos hsize, index, hrest, if_congr (sibling_side) rfl rfl]
      split_ifs <;> omega
    · obtain rfl : i = 0 := by omega
      rw [path, if_neg hsize, index]

theorem index_eq_zero (p : List (Side × α)) : index p = 0 ↔ OnLeft p := by
  induction p with
  | nil => simp [index, OnLeft]
  | cons e p ih =>
    obtain ⟨side, y⟩ := e
    have hcons : OnLeft ((side, y) :: p) ↔ side = .right ∧ OnLeft p := List.forall_mem_cons
    rw [index, hcons, ← ih]
    cases side <;> simp

theorem onLeft_path (hheight : l.size ≤ height + 1) (hi : i < l.size) : OnLeft (path hash height l i) ↔ i = 0 := by
  rw [← index_eq_zero, index_path hheight hi]

theorem onRight_path (hheight : l.size ≤ height + 1) (hi : i < l.size) (hrepeated : ¬ Repeated hash height l) :
    OnRight hash (l.node i) (path hash height l i) ↔ i = l.size - 1 := by
  induction height generalizing l i with
  | zero =>
    rw [path]
    exact iff_of_true trivial (by omega)
  | succ height ih =>
    by_cases hsize : 1 < l.size
    · have hnext : ¬ Repeated hash height (l.next hash) := fun h => hrepeated ⟨hsize, .inr h⟩
      have hrest : OnRight hash ((l.next hash).node (i / 2)) (path hash height (l.next hash) (i / 2)) ↔
          i / 2 = (l.next hash).size - 1 := ih (by rw [size_next]; omega) (next_index_lt hi) hnext
      rw [path, if_pos hsize, OnRight, combine_sibling hi, hrest, size_next]
      constructor
      · rintro ⟨hself, habove⟩
        by_contra hne
        -- the node is a left child below the last node of the next level: its sibling is the last of this one
        have heven : i = l.size - 2 ∧ l.size % 2 = 0 := by omega
        have hsib : sibling l i = (.right, l.node (l.size - 1)) := by
          rw [sibling, if_neg (by omega), if_neg (by omega)]
          congr 2
          omega
        rw [hsib, heven.1] at hself
        exact hrepeated ⟨hsize, .inl ⟨heven.2, hself rfl⟩⟩
      · intro hlast
        refine ⟨fun hside => ?_, by omega⟩
        by_cases hodd : l.size % 2 = 1
        · rw [sibling, if_pos ⟨hodd, hlast⟩]
        · have hleft : (sibling l i).1 = .left := sibling_side.2 (by omega)
          rw [hleft] at hside
          cases hside
    · rw [path, if_neg hsize]
      exact iff_of_true trivial (by omega)

/-- what holds of the nodes of a level and of every hash holds of the siblings on a path -/
theorem forall_mem_path {P : α → Prop} (hhash : ∀ x y, P (hash x y)) (hnode : ∀ k < l.size, P (l.node k))
    (hi : i < l.size) : ∀ e ∈ path hash height l i, P e.2 := by
  induction height generalizing l i with
  | zero => simp [path]
  | succ height ih =>
    by_cases hsize : 1 < l.size
    · rw [path, if_pos hsize, List.forall_mem_cons]
      refine ⟨?_, ih (fun k _ => hhash _ _) (next_index_lt hi)⟩
      unfold sibling
      split_ifs
      · exact hnode i hi
      · exact hnode (i - 1) (by omega)
      · exact hnode (i + 1) (by omega)
    · simp [path, hsize]

theorem length_path_le : (path hash height l i).length ≤ height := by
  induction height generalizing l i with
  | zero => rfl
  | succ height ih =>
    rw [path]
    split_ifs
    · exact Nat.succ_le_succ ih
    · exact Nat.zero_le _

end Path

/-! ## Roots -/

section Root

variable {hash} {l l' : Level α} {height height' : ℕ}

/-- one level down: where two nodes above are equal, so are the nodes below them -/
theorem below_eq (hsize : 1 < l.size) (hsize' : 1 < l'.size)
    (hfree : ∀ p ∈ hashedPairs hash (height + 1) l, ∀ q ∈ hashedPairs hash (height' + 1) l',
      hash p.1 p.2 = hash q.1 q.2 → p = q) {k : ℕ} (hk : k < (l.next hash).size) (hk' : k < (l'.next hash).size)
    (h : (l.next hash).node k = (l'.next hash).node k) : l.below k = l'.below k := by
  refine hfree _ ?_ _ ?_ h
  · rw [hashedPairs, if_pos hsize]
    exact List.mem_append_left _ (List.mem_map_of_mem (List.mem_range.2 hk))
  · rw [hashedPairs, if_pos hsize']
    exact List.mem_append_left _ (List.mem_map_of_mem (List.mem_range.2 hk'))

theorem nodes_eq_of_next (hrepeated : ¬ (l'.size % 2 = 0 ∧ l'.node (l'.size - 2) = l'.node (l'.size - 1)))
    (hsize : 1 < l.size) (hsize' : 1 < l'.size) (hle : (l'.next hash).size ≤ (l.next hash).size)
    (hbelow : ∀ k < (l'.next hash).size, l.below k = l'.below k) :
    l'.size ≤ l.size ∧ ∀ k < l'.size, l.node k = l'.node k := by
  rw [size_next] at hle hbelow
  rw [size_next] at hle
  have hleft : ∀ k < (l'.size + 1) / 2, l.node (2 * k) = l'.node (2 * k) := fun k hk => congrArg Prod.fst (hbelow k hk)
  have hright : ∀ k < (l'.size + 1) / 2,
      l.node (min (2 * k + 1) (l.size - 1)) = l'.node (min (2 * k + 1) (l'.size - 1)) :=
    fun k hk => congrArg Prod.snd (hbelow k hk)
  have hsizes : l'.size ≤ l.size := by
    by_contra hgt
    -- the last node of `l` is its own sibling, so the last two of `l'` are equal
    have hodd : l.size + 1 = l'.size ∧ l'.size % 2 = 0 := by omega
    have hlast := hleft (l'.size / 2 - 1) (by omega)
    have hself := hright (l'.size / 2 - 1) (by omega)
    have h2 : 2 * (l'.size / 2 - 1) = l'.size - 2 := by omega
    have hmin : min (l'.size - 2 + 1) (l.size - 1) = l'.size - 2 := by omega
    have hmin' : min (l'.size - 2 + 1) (l'.size - 1) = l'.size - 1 := by omega
    rw [h2] at hlast
    rw [h2, hmin, hmin'] at hself
    exact hrepeated ⟨hodd.2, hlast.symm.trans hself⟩
  refine ⟨hsizes, fun k hk => ?_⟩
  rcases Nat.even_or_odd' k with ⟨j, rfl | rfl⟩
  · exact hleft j (by omega)
  · have hnode := hright j (by omega)
    rwa [min_eq_left (by omega), min_eq_left (by omega)] at hnode

theorem levels_eq_zero {size : ℕ} (h : size ≤ height + 1) : levels height size = 0 ↔ size ≤ 1 := by
  cases height with
  | zero => exact iff_of_true rfl (by omega)
  | succ height =>
    rw [levels]
    by_cases hsize : 1 < size
    · rw [if_pos hsize]
      exact iff_of_false (Nat.succ_ne_zero _) (by omega)
    · rw [if_neg hsize]
      exact iff_of_true rfl (by omega)

theorem root_of_size_le (h : l.size ≤ 1) : root hash height l = l.node 0 := by
  cases height with
  | zero => rfl
  | succ height => rw [root, if_neg (by omega)]

/-- at the root -/
theorem nodes_eq_of_size_le (hsize : l.size ≤ 1) (hheight : l.size ≤ height + 1) (hheight' : l'.size ≤ height' + 1)
    (hpos : 0 < l.size) (hlevels : levels height l.size = levels height' l'.size)
    (hroot : root hash height l = root hash height' l') : l'.size ≤ l.size ∧ ∀ k < l'.size, l.node k = l'.node k := by
  have hsize' : l'.size ≤ 1 := by
    rw [← levels_eq_zero hheight', ← hlevels]
    exact (levels_eq_zero hheight).2 hsize
  rw [root_of_size_le hsize, root_of_size_le hsize'] at hroot
  refine ⟨by omega, fun k hk => ?_⟩
  obtain rfl : k = 0 := by omega
  exact hroot

/-- from the root down, as long as no two pairs have the same hash -/
theorem nodes_eq_of_root_eq (hheight : l.size ≤ height + 1) (hheight' : l'.size ≤ height' + 1) (hpos : 0 < l.size)
    (hlevels : levels height l.size = levels height' l'.size)
    (hfree : ∀ p ∈ hashedPairs hash height l, ∀ q ∈ hashedPairs hash height' l', hash p.1 p.2 = hash q.1 q.2 → p = q)
    (hroot : root hash height l = root hash height' l') (hrepeated : ¬ Repeated hash height' l') :
    l'.size ≤ l.size ∧ ∀ k < l'.size, l.node k = l'.node k := by
  induction height generalizing l l' height' with
  | zero => exact nodes_eq_of_size_le (by omega) hheight hheight' hpos hlevels hroot
  | succ height ih =>
    by_cases hsize : 1 < l.size
    · have hsize' : 1 < l'.size := by
        have hzero := levels_eq_zero hheight
        rw [hlevels, levels_eq_zero hheight'] at hzero
        omega
      obtain ⟨height', rfl⟩ : ∃ n, height' = n + 1 := ⟨height' - 1, by omega⟩
      rw [levels, levels, if_pos hsize, if_pos hsize'] at hlevels
      rw [root, root, if_pos hsize, if_pos hsize'] at hroot
      rw [Repeated, and_iff_right hsize', not_or] at hrepeated
      have habove : ∀ p ∈ hashedPairs hash height (l.next hash), ∀ q ∈ hashedPairs hash height' (l'.next hash),
          hash p.1 p.2 = hash q.1 q.2 → p = q := by
        intro p hp q hq
        refine hfree p ?_ q ?_
        · rw [hashedPairs, if_pos hsize]
          exact List.mem_append_right _ hp
        · rw [hashedPairs, if_pos hsize']
          exact List.mem_append_right _ hq
      obtain ⟨hle, hnext⟩ := @ih (l.next hash) (l'.next hash) height' (by rw [size_next]; omega)
        (by rw [size_next]; omega) (by rw [size_next]; omega) (Nat.succ_injective hlevels) habove hroot hrepeated.2
      exact nodes_eq_of_next hrepeated.1 hsize hsize' hle fun k hk =>
        below_eq hsize hsize' hfree (hk.trans_le hle) hk (hnext k hk)
    · exact nodes_eq_of_size_le (by omega) hheight hheight' hpos hlevels hroot

end Root

end SidechainsSdk.HashTree
