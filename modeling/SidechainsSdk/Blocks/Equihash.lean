/-
The Equihash solution of a mainchain header (`Equihash.checkEquihashSolution`).

A solution has `2 ^ K` indices. The code makes a row of every index, with the bits of its hash and the index itself, and merges
the rows two by two, in place: the hashes by exclusive or, without the bits that are zero now, and the indices one after the
other, until one row is left.

- `IsSolution`: the definition. The exclusive or over every block of `2 ^ r` indices is zero in its first `r` groups of bits, and
  over all of them it is zero; the two halves of a block are in order; no index comes twice.
- `Represents`: what a row of the code is about: a block of indices, with the groups of bits that are left of its hash.
- `mergePairs_spec`, `rounds_spec`: a round either fails for a reason that the definition gives, or leaves the rows of the blocks
  twice as long.
- `equihash_solution`: the check is the definition. No assertion and no array access fails.

The hash function of the library is a parameter. `none` stands for a failing assertion or array access.
-/
import Mathlib.Tactic
import SidechainsSdk.Blocks.MainchainHeader
import SidechainsSdk.Blocks.MinimalIndices

namespace SidechainsSdk.Blocks

/-- `N` and `K`, with the divisions of the source that have no remainder -/
structure Equihash where
  N : ℕ
  K : ℕ
  eight_dvd : 8 ∣ N
  groups_dvd : K + 1 ∣ N
  le_groupBits : 8 ≤ N / (K + 1)
  groupBits_le : N / (K + 1) ≤ 24
  N_le : N ≤ 512
  K_ge : 3 ≤ K
  K_le : K ≤ 24

namespace Equihash

open BitGroups
open Utils (reverseBytes)

/-! ## The code -/

section Code

variable (params : Equihash)

def IndicesPerHashOutput : ℕ := 512 / params.N

def HashOutputLength : ℕ := params.IndicesPerHashOutput * params.N / 8

def CollisionBitLength : ℕ := params.N / (params.K + 1)

def CollisionByteLength : ℕ := (params.CollisionBitLength + 7) / 8

def HashLength : ℕ := (params.K + 1) * params.CollisionByteLength

def SolutionWidth : ℕ := 2 ^ params.K * (params.CollisionBitLength + 1) / 8

def FinalFullWidth : ℕ := 2 * params.CollisionByteLength + 4 * 2 ^ params.K

/-- `Array.copy` -/
def arrayCopy (src : Bytes) (srcPos : ℕ) (dst : Bytes) (dstPos len : ℕ) : Option Bytes :=
  if src.length < srcPos + len ∨ dst.length < dstPos + len then none
  else some (dst.take dstPos ++ (src.drop srcPos).take len ++ dst.drop (dstPos + len))

/-- the hash of a `FullStepRow`, which holds the indices as well -/
abbrev FullStepRow := Bytes

def FullStepRow.ofHash (hashIn : Bytes) (hashOutLen bitLen : ℕ) (index : ℤ) : Option FullStepRow := do
  if hashOutLen + 3 ≤ params.FinalFullWidth then
    let expanded ← expandArray hashIn hashOutLen bitLen 0
    let hash ← arrayCopy expanded 0 (List.replicate params.FinalFullWidth 0) 0 hashOutLen
    arrayCopy (toByteArray index) 0 hash hashOutLen 4
  else none

/-- the loop of `indicesBefore` over so many indices from the position `i` on -/
def indicesBefore (a b : FullStepRow) : ℕ → ℕ → Option Bool
  | 0, _ => some false
  | count + 1, i => do
    let current ← getInt a i
    let before ← getInt b i
    if current < before then return true
    else if current > before then return false
    else indicesBefore a b count (i + 4)

/-- the inner loop of `distinctIndices` -/
def notAmong (x : ℤ) (b : FullStepRow) : ℕ → ℕ → Option Bool
  | 0, _ => some true
  | count + 1, j => do
    let y ← getInt b j
    if x = y then return false
    else notAmong x b count (j + 4)

/-- the outer loop of `distinctIndices`, with what is left of it; the indices of `b` begin at `len` -/
def distinctIndices (a b : FullStepRow) (len lenIndices : ℕ) : ℕ → ℕ → Option Bool
  | 0, _ => some true
  | count + 1, i => do
    let x ← getInt a i
    if ← notAmong x b (lenIndices / 4) len then distinctIndices a b len lenIndices count (i + 4)
    else return false

/-- Checks if first 'len' bytes of hash are equal -/
def hasCollision (a b : FullStepRow) (len : ℕ) : Bool := a.take len = b.take len

def isZero (row : FullStepRow) (len : ℕ) : Bool := (row.take len).all fun byte => byte = 0

def FullStepRow.merge (a b : FullStepRow) (len lenIndices trim : ℕ) : Option FullStepRow := do
  if len + lenIndices ≤ params.FinalFullWidth ∧ len - trim + 2 * lenIndices ≤ params.FinalFullWidth then
    let hash ← arrayCopy (List.zipWith (· ^^^ ·) (a.drop trim) (b.drop trim)) 0 a 0 (len - trim)
    if ← indicesBefore a b (lenIndices / 4) len then
      let hash ← arrayCopy a len hash (len - trim) lenIndices
      arrayCopy b len hash (len - trim + lenIndices) lenIndices
    else
      let hash ← arrayCopy b len hash (len - trim) lenIndices
      arrayCopy a len hash (len - trim + lenIndices) lenIndices
  else none

/-- one round over the rows; `some none` where the source returns `false` -/
def mergePairs (hashLen lenIndices : ℕ) : List FullStepRow → Option (Option (List FullStepRow))
  | [] => some (some [])
  | [_] => none
  | a :: b :: rest => do
    if ¬ hasCollision a b params.CollisionByteLength then return none
    else if ← indicesBefore b a (lenIndices / 4) hashLen then return none
    else if !(← distinctIndices a b hashLen lenIndices (lenIndices / 4) hashLen) then return none
    else
      let row ← FullStepRow.merge params a b hashLen lenIndices params.CollisionByteLength
      let merged ← mergePairs hashLen lenIndices rest
      return merged.map (row :: ·)

/-- the rounds; `none` also when there are more of them -/
def rounds : ℕ → List FullStepRow → ℕ → ℕ → Option Bool
  | 0, _, _, _ => none
  | fuel + 1, X, hashLen, lenIndices =>
    if X.length > 1 then do
      match ← mergePairs params hashLen lenIndices X with
      | none => return false
      | some Xc => rounds fuel Xc (hashLen - params.CollisionByteLength) (lenIndices * 2)
    else X.head?.map fun row => isZero row hashLen

/-- "ZcashPoW" and the parameters -/
def personalization : Bytes :=
  [0x5a, 0x63, 0x61, 0x73, 0x68, 0x50, 0x6f, 0x57] ++ reverseBytes (toByteArray params.N) ++ reverseBytes (toByteArray params.K)

-- Blake2b with a length and a personalization
variable (blake2b : ℕ → Bytes → Bytes → Bytes) (msgBytes : Bytes)

def generateHash (index : ℤ) : Bytes :=
  blake2b params.HashOutputLength params.personalization (msgBytes ++ reverseBytes (toByteArray index))

/-- the row of an index -/
def rowOf (i : ℤ) : Option FullStepRow :=
  let hashOutput := params.generateHash blake2b msgBytes (i.tdiv params.IndicesPerHashOutput)
  let inStartingPos := (i.tmod params.IndicesPerHashOutput).toNat * params.N / 8
  FullStepRow.ofHash params (slice hashOutput inStartingPos (inStartingPos + params.N / 8)) params.HashLength
    params.CollisionBitLength i

def rowsOf : List ℤ → Option (List FullStepRow)
  | [] => some []
  | i :: indices => do
    let row ← params.rowOf blake2b msgBytes i
    let rows ← rowsOf indices
    return row :: rows

def checkEquihashSolution (solution : Bytes) : Option Bool :=
  if solution.length ≠ params.SolutionWidth then some false
  else do
    let indices ← getIndicesFromMinimal solution params.CollisionBitLength
    let X ← params.rowsOf blake2b msgBytes indices
    params.rounds (params.K + 1) X params.HashLength 4

end Code

/-! ## The definition -/

section Definition

variable (params : Equihash) (blake2b : ℕ → Bytes → Bytes → Bytes) (msgBytes : Bytes)

/-- the `N` bits of an index: several indices share a hash -/
def hashOf (i : ℕ) : ℕ :=
  let output := params.generateHash blake2b msgBytes (i / params.IndicesPerHashOutput : ℕ)
  BigEndian.value ((output.drop (i % params.IndicesPerHashOutput * (params.N / 8))).take (params.N / 8))

def xorOf (X : ℕ → ℕ) (indices : List ℕ) : ℕ := indices.foldr (fun i acc => X i ^^^ acc) 0

/-- the `j`-th block of `2 ^ r` indices -/
def block (r j : ℕ) (indices : List ℕ) : List ℕ := (indices.drop (j * 2 ^ r)).take (2 ^ r)

structure IsSolution (X : ℕ → ℕ) (indices : List ℕ) : Prop where
  length : indices.length = 2 ^ params.K
  distinct : indices.Nodup
  collisions : ∀ r < params.K, ∀ j < 2 ^ (params.K - (r + 1)),
    xorOf X (block (r + 1) j indices) < 2 ^ (params.CollisionBitLength * (params.K - r))
  ordered : ∀ r < params.K, ∀ j < 2 ^ (params.K - (r + 1)), block r (2 * j) indices < block r (2 * j + 1) indices
  zero : xorOf X indices = 0

end Definition

/-! ## Rows -/

section Rows

variable {params : Equihash} {X : ℕ → ℕ}

theorem xorOf_append (indices indices' : List ℕ) : xorOf X (indices ++ indices') = xorOf X indices ^^^ xorOf X indices' := by
  induction indices with
  | nil => simp [xorOf]
  | cons i indices ih =>
    have hcons : ∀ l, xorOf X (i :: l) = X i ^^^ xorOf X l := fun l => rfl
    rw [List.cons_append, hcons, hcons, ih, Nat.xor_assoc]

/-- the number of bytes of the hash that are left, and of the indices, after `r` rounds -/
def hashLen (params : Equihash) (r : ℕ) : ℕ := (params.K + 1 - r) * params.CollisionByteLength

/-- the groups of bits that are left of a number after `r` rounds, each in whole bytes -/
def groups (params : Equihash) (r n : ℕ) : Bytes :=
  (group params.CollisionBitLength (params.K + 1 - r) n).flatMap (BigEndian.fixed params.CollisionByteLength)

/-- a row after `r` rounds: what is left of the exclusive or over its indices, and the indices -/
structure Represents (params : Equihash) (X : ℕ → ℕ) (r : ℕ) (row : FullStepRow) (indices : List ℕ) : Prop where
  length_row : row.length = params.FinalFullWidth
  hash : row.take (params.hashLen r) = params.groups r (xorOf X indices)
  row_indices : (row.drop (params.hashLen r)).take (4 * 2 ^ r) = indices.flatMap (BigEndian.fixed 4)
  length : indices.length = 2 ^ r
  isInt : ∀ i ∈ indices, i < 2 ^ 31
  xor_lt : xorOf X indices < 2 ^ (params.CollisionBitLength * (params.K + 1 - r))

theorem le_groupBits' (params : Equihash) : 8 ≤ params.CollisionBitLength := params.le_groupBits

theorem groupBits_le' (params : Equihash) : params.CollisionBitLength ≤ 24 := params.groupBits_le

theorem length_groups (params : Equihash) (r n : ℕ) : (params.groups r n).length = params.hashLen r := by
  rw [groups, hashLen, List.length_flatMap]
  simp

theorem two_pow_le_bytes : 2 ^ params.CollisionBitLength ≤ 256 ^ params.CollisionByteLength := by
  have hpow : 256 ^ params.CollisionByteLength = 2 ^ (8 * params.CollisionByteLength) := by rw [pow_mul]; norm_num
  rw [hpow]
  apply Nat.pow_le_pow_right (by norm_num)
  unfold CollisionByteLength
  omega

theorem hashLen_succ {r : ℕ} (hr : r < params.K) : params.hashLen r = params.CollisionByteLength + params.hashLen (r + 1) := by
  have hsub : params.K + 1 - r = params.K + 1 - (r + 1) + 1 := by omega
  rw [hashLen, hashLen, hsub, Nat.succ_mul, Nat.add_comm]

/-- the first group, and the others -/
theorem groups_cons {r : ℕ} (hr : r < params.K) (n : ℕ) :
    params.groups r n = BigEndian.fixed params.CollisionByteLength
        (n / 2 ^ (params.CollisionBitLength * (params.K - r)) % 2 ^ params.CollisionBitLength) ++ params.groups (r + 1) n := by
  have hsub : params.K + 1 - r = params.K - r + 1 := by omega
  have hsub' : params.K + 1 - (r + 1) = params.K - r := by omega
  rw [groups, groups, hsub, hsub', group_succ, List.flatMap_cons]

theorem zipWith_groups (r n n' : ℕ) :
    List.zipWith (· ^^^ ·) (params.groups r n) (params.groups r n') = params.groups r (n ^^^ n') := by
  have hflatMap : ∀ {digits digits' : List ℕ}, digits.length = digits'.length →
      List.zipWith (· ^^^ ·) (digits.flatMap (BigEndian.fixed params.CollisionByteLength))
        (digits'.flatMap (BigEndian.fixed params.CollisionByteLength)) =
      (List.zipWith (· ^^^ ·) digits digits').flatMap (BigEndian.fixed params.CollisionByteLength) := by
    intro digits
    induction digits with
    | nil =>
      intro digits' hlength
      obtain rfl := List.length_eq_zero_iff.1 hlength.symm
      rfl
    | cons d digits ih =>
      intro digits' hlength
      obtain _ | ⟨d', digits'⟩ := digits'
      · cases hlength
      · rw [List.flatMap_cons, List.flatMap_cons, List.zipWith_append (by simp), ih (Nat.succ.inj hlength), fixed_xor]
        rfl
  rw [groups, groups, hflatMap (by simp), ← group_xor]
  rfl

/-! ### The indices of a row -/

/-- a row has these indices from the position `i` on -/
def IndicesAt (row : FullStepRow) (i : ℕ) (indices : List ℕ) : Prop :=
  (∀ x ∈ indices, x < 2 ^ 31) ∧ ∃ rest, row.drop i = indices.flatMap (BigEndian.fixed 4) ++ rest

theorem IndicesAt.cons {row : FullStepRow} {i x : ℕ} {indices : List ℕ} (h : IndicesAt row i (x :: indices)) :
    getInt row i = some (x : ℤ) ∧ IndicesAt row (i + 4) indices := by
  obtain ⟨hint, rest, hdrop⟩ := h
  rw [List.flatMap_cons, List.append_assoc] at hdrop
  refine ⟨getInt_fixed (hint x (by simp)) hdrop, fun y hy => hint y (List.mem_cons_of_mem _ hy), rest, ?_⟩
  rw [← List.drop_drop, hdrop, List.drop_left' (by simp)]

theorem indicesBefore_eq {a b : FullStepRow} {i : ℕ} {as bs : List ℕ} (ha : IndicesAt a i as) (hb : IndicesAt b i bs)
    (hlength : as.length = bs.length) : indicesBefore a b as.length i = some (decide (as < bs)) := by
  induction as generalizing bs i with
  | nil =>
    obtain rfl := List.length_eq_zero_iff.1 hlength.symm
    simp [indicesBefore]
  | cons x as ih =>
    obtain _ | ⟨y, bs⟩ := bs
    · cases hlength
    · obtain ⟨hx, ha⟩ := ha.cons
      obtain ⟨hy, hb⟩ := hb.cons
      rw [List.length_cons, indicesBefore, hx, hy, Option.bind_eq_bind, Option.bind_some, Option.bind_some,
        ih ha hb (Nat.succ.inj hlength)]
      rcases Nat.lt_trichotomy x y with hlt | rfl | hgt
      · simp [hlt, List.cons_lt_cons_iff]
      · simp
      · have hne : ¬ x < y := by omega
        have hne' : x ≠ y := by omega
        simp [hgt, hne, hne', List.cons_lt_cons_iff]

theorem notAmong_eq {b : FullStepRow} {j x : ℕ} {bs : List ℕ} (hb : IndicesAt b j bs) :
    notAmong x b bs.length j = some (decide (x ∉ bs)) := by
  induction bs generalizing j with
  | nil => simp [notAmong]
  | cons y bs ih =>
    obtain ⟨hy, hb⟩ := hb.cons
    rw [List.length_cons, notAmong, hy, Option.bind_eq_bind, Option.bind_some, ih hb]
    by_cases heq : x = y
    · simp [heq]
    · have hcast : (x : ℤ) ≠ y := by exact_mod_cast heq
      simp [hcast, heq]

theorem distinctIndices_eq {a b : FullStepRow} {len i : ℕ} {as bs : List ℕ} (ha : IndicesAt a i as)
    (hb : IndicesAt b len bs) :
    distinctIndices a b len (4 * bs.length) as.length i = some (decide (∀ x ∈ as, x ∉ bs)) := by
  induction as generalizing i with
  | nil => simp [distinctIndices]
  | cons x as ih =>
    obtain ⟨hx, ha⟩ := ha.cons
    have hcount : 4 * bs.length / 4 = bs.length := by omega
    rw [List.length_cons, distinctIndices, hx, Option.bind_eq_bind, Option.bind_some, hcount, notAmong_eq hb, Option.bind_eq_bind,
      Option.bind_some, ih ha]
    by_cases hmem : x ∈ bs
    · simp [hmem]
    · simp [hmem]

theorem Represents.indicesAt {r : ℕ} {row : FullStepRow} {indices : List ℕ} (h : Represents params X r row indices) :
    IndicesAt row (params.hashLen r) indices := by
  refine ⟨h.isInt, (row.drop (params.hashLen r)).drop (4 * 2 ^ r), ?_⟩
  rw [← h.row_indices, List.take_append_drop]

/-! ### A copy -/

theorem arrayCopy_spec (src : Bytes) (srcPos : ℕ) (dst : Bytes) (dstPos len : ℕ) (hsrc : srcPos + len ≤ src.length)
    (hdst : dstPos + len ≤ dst.length) :
    ∃ row, arrayCopy src srcPos dst dstPos len = some row ∧ row.length = dst.length ∧
      row.take (dstPos + len) = dst.take dstPos ++ (src.drop srcPos).take len := by
  refine ⟨dst.take dstPos ++ (src.drop srcPos).take len ++ dst.drop (dstPos + len), ?_, ?_, ?_⟩
  · rw [arrayCopy, if_neg (by omega)]
  · simp only [List.length_append, List.length_take, List.length_drop]
    omega
  · refine List.take_left' ?_
    simp only [List.length_append, List.length_take, List.length_drop]
    omega

/-- every position that is written is in the row -/
theorem widths {r : ℕ} (hr : r < params.K) :
    params.hashLen r + 4 * 2 ^ r ≤ params.FinalFullWidth ∧
      params.hashLen (r + 1) + 2 * (4 * 2 ^ r) ≤ params.FinalFullWidth := by
  have hbytes : params.CollisionByteLength ≤ 3 := by
    have := groupBits_le' params
    unfold CollisionByteLength
    omega
  obtain ⟨d, hd⟩ : ∃ d, params.K = r + d + 1 := ⟨params.K - r - 1, by omega⟩
  have hpow : 2 ^ params.K = 2 * (2 ^ r * 2 ^ d) := by
    rw [hd, pow_succ, pow_add]
    ring
  have hd' : d + 1 ≤ 2 ^ d := Nat.lt_two_pow_self
  have hr' : 1 ≤ 2 ^ r := Nat.one_le_two_pow
  have hmul : 2 ^ r + d ≤ 2 ^ r * 2 ^ d := by
    obtain ⟨e, he⟩ := Nat.exists_eq_add_of_le hd'
    rw [he, Nat.mul_add, Nat.mul_add, Nat.mul_one]
    have := Nat.le_mul_of_pos_left d hr'
    omega
  have hmul_bytes : d * params.CollisionByteLength ≤ d * 3 := Nat.mul_le_mul_left d hbytes
  rw [hashLen, hashLen, FinalFullWidth, hpow, show params.K + 1 - r = d + 2 by omega,
    show params.K + 1 - (r + 1) = d + 1 by omega,
    Nat.add_mul, Nat.add_mul]
  constructor <;> omega

/-! ### Two rows -/

variable {r : ℕ} {a b : FullStepRow} {as bs : List ℕ}

theorem hasCollision_eq (hr : r < params.K) (ha : Represents params X r a as) (hb : Represents params X r b bs) :
    hasCollision a b params.CollisionByteLength =
      decide (xorOf X (as ++ bs) < 2 ^ (params.CollisionBitLength * (params.K - r))) := by
  have hfirst : ∀ {row indices}, Represents params X r row indices → row.take params.CollisionByteLength =
      BigEndian.fixed params.CollisionByteLength (xorOf X indices / 2 ^ (params.CollisionBitLength * (params.K - r))) ∧
      xorOf X indices / 2 ^ (params.CollisionBitLength * (params.K - r)) < 256 ^ params.CollisionByteLength := by
    intro row indices h
    have hsub : params.K + 1 - r = params.K - r + 1 := by omega
    have hlt : xorOf X indices / 2 ^ (params.CollisionBitLength * (params.K - r)) < 2 ^ params.CollisionBitLength := by
      rw [Nat.div_lt_iff_lt_mul (by positivity), ← pow_add, Nat.add_comm, ← Nat.mul_succ, Nat.succ_eq_add_one, ← hsub]
      exact h.xor_lt
    have htake : row.take params.CollisionByteLength = (row.take (params.hashLen r)).take params.CollisionByteLength := by
      rw [List.take_take, min_eq_left (by rw [hashLen_succ hr]; omega)]
    refine ⟨?_, hlt.trans_le two_pow_le_bytes⟩
    rw [htake, h.hash, groups_cons hr, Nat.mod_eq_of_lt hlt, List.take_left' (by simp)]
  obtain ⟨hrow, hlt⟩ := hfirst ha
  obtain ⟨hrow', hlt'⟩ := hfirst hb
  unfold hasCollision
  rw [decide_eq_decide, hrow, hrow', xorOf_append, xor_lt_iff]
  constructor
  · intro heq
    have hvalue := congrArg BigEndian.value heq
    rwa [BigEndian.value_fixed, BigEndian.value_fixed, Nat.mod_eq_of_lt hlt, Nat.mod_eq_of_lt hlt'] at hvalue
  · intro heq
    rw [heq]

/-- the rest of the hash, after the first group -/
theorem Represents.rest (hr : r < params.K) (h : Represents params X r a as) :
    (a.drop params.CollisionByteLength).take (params.hashLen (r + 1)) = params.groups (r + 1) (xorOf X as) := by
  rw [List.take_drop, ← hashLen_succ hr, h.hash, groups_cons hr, List.drop_left' (by simp)]

/-- two rows in order are merged to the row of both -/
theorem merge_spec (hr : r < params.K) (ha : Represents params X r a as) (hb : Represents params X r b bs) (hlt : as < bs)
    (hcollision : xorOf X (as ++ bs) < 2 ^ (params.CollisionBitLength * (params.K - r))) :
    ∃ row, FullStepRow.merge params a b (params.hashLen r) (4 * 2 ^ r) params.CollisionByteLength = some row ∧
      Represents params X (r + 1) row (as ++ bs) := by
  obtain ⟨hwidth, hwidth'⟩ := widths hr
  have hlen := hashLen_succ hr
  have hsub : params.hashLen r - params.CollisionByteLength = params.hashLen (r + 1) := by omega
  have hbefore : indicesBefore a b (4 * 2 ^ r / 4) (params.hashLen r) = some true := by
    rw [Nat.mul_div_cancel_left _ (by norm_num), ← ha.length,
      indicesBefore_eq ha.indicesAt hb.indicesAt (ha.length.trans hb.length.symm), decide_eq_true hlt]
  have hxor : (List.zipWith (· ^^^ ·) (a.drop params.CollisionByteLength) (b.drop params.CollisionByteLength)).take
      (params.hashLen (r + 1)) = params.groups (r + 1) (xorOf X (as ++ bs)) := by
    rw [List.take_zipWith, ha.rest hr, hb.rest hr, zipWith_groups, xorOf_append]
  have hrow := ha.length_row
  have hrow' := hb.length_row
  obtain ⟨hash, hcopy, hlength, htake⟩ := arrayCopy_spec
    (List.zipWith (· ^^^ ·) (a.drop params.CollisionByteLength) (b.drop params.CollisionByteLength)) 0 a 0
      (params.hashLen (r + 1))
    (by simp only [List.length_zipWith, List.length_drop]; omega) (by omega)
  obtain ⟨hash', hcopy', hlength', htake'⟩ := arrayCopy_spec a (params.hashLen r) hash (params.hashLen (r + 1)) (4 * 2 ^ r)
    (by omega) (by omega)
  obtain ⟨row, hcopy'', hlength'', htake''⟩ := arrayCopy_spec b (params.hashLen r) hash'
    (params.hashLen (r + 1) + 4 * 2 ^ r) (4 * 2 ^ r) (by omega) (by omega)
  rw [Nat.zero_add, List.take_zero, List.nil_append, List.drop_zero, hxor] at htake
  rw [htake, ha.row_indices] at htake'
  rw [htake', hb.row_indices, List.append_assoc, ← List.flatMap_append] at htake''
  have hgroups := length_groups params (r + 1) (xorOf X (as ++ bs))
  have hpow : params.hashLen (r + 1) + 4 * 2 ^ r + 4 * 2 ^ r = params.hashLen (r + 1) + 4 * 2 ^ (r + 1) := by
    rw [pow_succ]
    ring
  refine ⟨row, ?_, ?_, ?_, ?_, ?_, ?_, ?_⟩
  · unfold FullStepRow.merge
    rw [hsub, if_pos ⟨hwidth, hwidth'⟩, hcopy, Option.bind_eq_bind, Option.bind_some, hbefore, Option.bind_eq_bind,
      Option.bind_some,
      if_pos rfl, hcopy', Option.bind_some, hcopy'']
  · omega
  · have htake_row := congrArg (List.take (params.hashLen (r + 1))) htake''
    rwa [List.take_take, min_eq_left (by omega), List.take_left' hgroups] at htake_row
  · have hdrop_row := congrArg (List.drop (params.hashLen (r + 1))) htake''
    rw [hpow, List.drop_left' hgroups] at hdrop_row
    rw [List.take_drop]
    exact hdrop_row
  · rw [List.length_append, ha.length, hb.length, pow_succ]
    ring
  · intro i hi
    rcases List.mem_append.1 hi with hi | hi
    · exact ha.isInt i hi
    · exact hb.isInt i hi
  · rw [show params.K + 1 - (r + 1) = params.K - r by omega]
    exact hcollision

end Rows

/-! ## Rounds -/

section Rounds

variable {params : Equihash} {X : ℕ → ℕ} {r : ℕ}

/-- what a round checks of two blocks -/
def Joined (params : Equihash) (X : ℕ → ℕ) (r : ℕ) (as bs : List ℕ) : Prop :=
  xorOf X (as ++ bs) < 2 ^ (params.CollisionBitLength * (params.K - r)) ∧ ¬ bs < as ∧ ∀ x ∈ as, x ∉ bs

/-- blocks without a common index are not equal -/
theorem Joined.lt {as bs : List ℕ} (h : Joined params X r as bs) (hlength : as.length = 2 ^ r) : as < bs := by
  obtain ⟨-, hnot, hdisjoint⟩ := h
  rcases lt_trichotomy as bs with hlt | rfl | hgt
  · exact hlt
  · obtain _ | ⟨x, as⟩ := as
    · exact absurd hlength.symm (Nat.two_pow_pos r).ne'
    · exact absurd (by simp) (hdisjoint x (by simp))
  · exact absurd hgt hnot

/-- the checks of two rows, and the row they are merged to -/
theorem mergePairs_cons (hr : r < params.K) {a b : FullStepRow} {as bs : List ℕ} (ha : Represents params X r a as)
    (hb : Represents params X r b bs) (rest : List FullStepRow) :
    (¬ Joined params X r as bs ∧ mergePairs params (params.hashLen r) (4 * 2 ^ r) (a :: b :: rest) = some none) ∨
      (Joined params X r as bs ∧ ∃ row, Represents params X (r + 1) row (as ++ bs) ∧
        mergePairs params (params.hashLen r) (4 * 2 ^ r) (a :: b :: rest) =
          (mergePairs params (params.hashLen r) (4 * 2 ^ r) rest).map fun merged => merged.map (row :: ·)) := by
  have hcount : 4 * 2 ^ r / 4 = bs.length := by rw [hb.length, Nat.mul_div_cancel_left _ (by norm_num)]
  have hlength := ha.length.trans hb.length.symm
  have hbefore : indicesBefore b a (4 * 2 ^ r / 4) (params.hashLen r) = some (decide (bs < as)) := by
    rw [hcount]
    exact indicesBefore_eq hb.indicesAt ha.indicesAt hlength.symm
  have hdistinct : distinctIndices a b (params.hashLen r) (4 * 2 ^ r) (4 * 2 ^ r / 4) (params.hashLen r) =
      some (decide (∀ x ∈ as, x ∉ bs)) := by
    rw [hcount, ← hb.length]
    have h := distinctIndices_eq ha.indicesAt hb.indicesAt
    rwa [hlength] at h
  rw [mergePairs, hasCollision_eq hr ha hb, hbefore, hdistinct]
  by_cases hjoined : Joined params X r as bs
  · obtain ⟨row, hmerge, hrow⟩ := merge_spec hr ha hb (hjoined.lt ha.length) hjoined.1
    refine .inr ⟨hjoined, row, hrow, ?_⟩
    obtain ⟨hcollision, hnot, hdisjoint⟩ := hjoined
    simp only [decide_eq_true hcollision, decide_eq_false hnot, decide_eq_true hdisjoint, hmerge, Option.bind_eq_bind,
      Option.bind_some]
    cases mergePairs params (params.hashLen r) (4 * 2 ^ r) rest <;> rfl
  · refine .inl ⟨hjoined, ?_⟩
    by_cases hcollision : xorOf X (as ++ bs) < 2 ^ (params.CollisionBitLength * (params.K - r))
    · by_cases hbefore : bs < as
      · simp [hcollision, hbefore]
      · have hshared : ¬ ∀ x ∈ as, x ∉ bs := fun hdisjoint => hjoined ⟨hcollision, hbefore, hdisjoint⟩
        simp only [decide_eq_true hcollision, decide_eq_false hbefore, decide_eq_false hshared, Option.bind_eq_bind,
          Option.bind_some]
        rfl
    · simp [hcollision]

/-- **A round** over the rows of so many pairs of blocks. -/
theorem mergePairs_spec (hr : r < params.K) {n : ℕ} {row : ℕ → FullStepRow} {blocks : ℕ → List ℕ}
    (h : ∀ i < 2 * n, Represents params X r (row i) (blocks i)) :
    ((¬ ∀ j < n, Joined params X r (blocks (2 * j)) (blocks (2 * j + 1))) ∧
        mergePairs params (params.hashLen r) (4 * 2 ^ r) ((List.range (2 * n)).map row) = some none) ∨
      ((∀ j < n, Joined params X r (blocks (2 * j)) (blocks (2 * j + 1))) ∧
        ∃ merged : ℕ → FullStepRow, mergePairs params (params.hashLen r) (4 * 2 ^ r) ((List.range (2 * n)).map row) =
            some (some ((List.range n).map merged)) ∧
          ∀ j < n, Represents params X (r + 1) (merged j) (blocks (2 * j) ++ blocks (2 * j + 1))) := by
  induction n generalizing row blocks with
  | zero => exact .inr ⟨fun j hj => absurd hj (Nat.not_lt_zero j), row, rfl, fun j hj => absurd hj (Nat.not_lt_zero j)⟩
  | succ n ih =>
    have hrange : (List.range (2 * (n + 1))).map row = row 0 :: row 1 :: (List.range (2 * n)).map fun i => row (i + 2) := by
      rw [Nat.mul_succ, List.range_succ_eq_map, List.range_succ_eq_map, List.map_cons, List.map_map, List.map_cons, List.map_map]
      rfl
    have hpairs : (∀ j < n + 1, Joined params X r (blocks (2 * j)) (blocks (2 * j + 1))) ↔
        Joined params X r (blocks 0) (blocks 1) ∧ ∀ j < n, Joined params X r (blocks (2 * j + 2))
          (blocks (2 * j + 1 + 2)) := by
      constructor
      · intro hall
        exact ⟨hall 0 (by omega), fun j hj => hall (j + 1) (by omega)⟩
      · rintro ⟨hfirst, hothers⟩ (_ | j) hj
        · exact hfirst
        · exact hothers j (by omega)
    rw [hrange, hpairs]
    have hothers : ∀ i < 2 * n, Represents params X r (row (i + 2)) (blocks (i + 2)) := fun i hi => h (i + 2) (by omega)
    rcases mergePairs_cons hr (h 0 (by omega)) (h 1 (by omega)) ((List.range (2 * n)).map fun i => row (i + 2)) with
      ⟨hnot, hmerge⟩ | ⟨hjoined, first, hfirst, hmerge⟩
    · exact .inl ⟨fun hall => hnot hall.1, hmerge⟩
    · rw [hmerge]
      rcases ih hothers with ⟨hnot, hrest⟩ | ⟨hall, merged, hrest, hmerged⟩
      · exact .inl ⟨fun hall => hnot hall.2, by rw [hrest]; rfl⟩
      · refine .inr ⟨⟨hjoined, hall⟩, fun j => j.casesOn first merged, ?_, ?_⟩
        · rw [hrest, List.range_succ_eq_map, List.map_cons, List.map_map]
          rfl
        · rintro (_ | j) hj
          · exact hfirst
          · exact hmerged j (by omega)

theorem block_append (r j : ℕ) (indices : List ℕ) :
    block r (2 * j) indices ++ block r (2 * j + 1) indices = block (r + 1) j indices := by
  have hstart : (2 * j + 1) * 2 ^ r = 2 * j * 2 ^ r + 2 ^ r := by ring
  have hstart' : j * 2 ^ (r + 1) = 2 * j * 2 ^ r := by rw [pow_succ]; ring
  have hlen : 2 ^ (r + 1) = 2 ^ r + 2 ^ r := by rw [pow_succ]; ring
  rw [block, block, block, hstart, hstart', hlen, List.take_add, List.drop_drop]

theorem isZero_eq {row : FullStepRow} {indices : List ℕ} (h : Represents params X params.K row indices) :
    isZero row (params.hashLen params.K) = decide (xorOf X indices = 0) := by
  have hlt := h.xor_lt
  rw [show params.K + 1 - params.K = 1 by omega, Nat.mul_one] at hlt
  have hsmall := hlt.trans_le two_pow_le_bytes
  have hrow : row.take (params.hashLen params.K) = BigEndian.fixed params.CollisionByteLength (xorOf X indices) := by
    rw [h.hash, groups, show params.K + 1 - params.K = 0 + 1 by omega, group_succ, Nat.mul_zero, pow_zero, Nat.div_one,
      Nat.mod_eq_of_lt hlt]
    simp [group]
  rw [isZero, hrow]
  by_cases hzero : xorOf X indices = 0
  · simp [hzero, fixed_zero]
  · rw [decide_eq_false hzero, Bool.eq_false_iff]
    intro hall
    have hrep : BigEndian.fixed params.CollisionByteLength (xorOf X indices) = List.replicate params.CollisionByteLength 0 := by
      rw [List.eq_replicate_iff]
      exact ⟨BigEndian.length_fixed _ _, fun byte hbyte => by simpa using List.all_eq_true.1 hall byte hbyte⟩
    apply hzero
    rw [← Nat.mod_eq_of_lt hsmall, ← BigEndian.value_fixed, hrep, value_zeros]

/-- **All rounds**, from the blocks of `2 ^ r` indices on. -/
theorem rounds_spec {indices : List ℕ} (hlength : indices.length = 2 ^ params.K) {n : ℕ} (hr : r + n = params.K)
    {row : ℕ → FullStepRow} (h : ∀ i < 2 ^ n, Represents params X r (row i) (block r i indices)) :
    ∃ valid, params.rounds (n + 1) ((List.range (2 ^ n)).map row) (params.hashLen r) (4 * 2 ^ r) = some valid ∧
      (valid = true ↔ (∀ r', r ≤ r' → r' < params.K → ∀ j < 2 ^ (params.K - (r' + 1)),
        Joined params X r' (block r' (2 * j) indices) (block r' (2 * j + 1) indices)) ∧ xorOf X indices = 0) := by
  induction n generalizing r row with
  | zero =>
    obtain rfl : r = params.K := hr
    have hblock : block params.K 0 indices = indices := by
      rw [block, Nat.zero_mul, List.drop_zero, List.take_of_length_le hlength.le]
    have hrow := h 0 (by norm_num)
    rw [hblock] at hrow
    refine ⟨isZero (row 0) (params.hashLen params.K), rfl, ?_⟩
    rw [isZero_eq hrow, decide_eq_true_eq]
    exact ⟨fun hzero => ⟨fun r' hle hlt => absurd hle (by omega), hzero⟩, And.right⟩
  | succ n ih =>
    have hlt : r < params.K := by omega
    have hpow : 2 ^ (n + 1) = 2 * 2 ^ n := by rw [pow_succ, Nat.mul_comm]
    have hmany : ((List.range (2 ^ (n + 1))).map row).length > 1 := by
      rw [List.length_map, List.length_range, hpow]
      have := Nat.two_pow_pos n
      omega
    have hpairs : params.K - (r + 1) = n := by omega
    -- this round, and the others
    have hsplit : (∀ r', r ≤ r' → r' < params.K → ∀ j < 2 ^ (params.K - (r' + 1)),
          Joined params X r' (block r' (2 * j) indices) (block r' (2 * j + 1) indices)) ↔
        (∀ j < 2 ^ n, Joined params X r (block r (2 * j) indices) (block r (2 * j + 1) indices)) ∧
          ∀ r', r + 1 ≤ r' → r' < params.K → ∀ j < 2 ^ (params.K - (r' + 1)),
            Joined params X r' (block r' (2 * j) indices) (block r' (2 * j + 1) indices) := by
      constructor
      · intro hall
        refine ⟨?_, fun r' hle => hall r' (by omega)⟩
        rw [← hpairs]
        exact hall r le_rfl hlt
      · rintro ⟨hthis, hothers⟩ r' hle
        obtain rfl | hle := eq_or_lt_of_le hle
        · intro _
          rw [hpairs]
          exact hthis
        · exact hothers r' hle
    rw [hsplit, rounds, if_pos hmany, hpow]
    rw [hpow] at h
    rcases mergePairs_spec hlt h with ⟨hnot, hmerge⟩ | ⟨hall, merged, hmerge, hmerged⟩
    · refine ⟨false, ?_, ?_⟩
      · rw [hmerge]
        rfl
      · simp [hnot]
    · have hsub : params.hashLen r - params.CollisionByteLength = params.hashLen (r + 1) := by
        rw [hashLen_succ hlt]
        omega
      have hindices : 4 * 2 ^ r * 2 = 4 * 2 ^ (r + 1) := by rw [pow_succ]; ring
      have hmerged' : ∀ j < 2 ^ n, Represents params X (r + 1) (merged j) (block (r + 1) j indices) := by
        intro j hj
        rw [← block_append]
        exact hmerged j hj
      obtain ⟨valid, hrounds, hvalid⟩ := ih (show r + 1 + n = params.K by omega) hmerged'
      refine ⟨valid, ?_, ?_⟩
      · rw [hmerge, Option.bind_eq_bind, Option.bind_some, hsub, hindices]
        exact hrounds
      · rw [hvalid, and_assoc]
        exact ⟨fun hrest => ⟨hall, hrest⟩, And.right⟩

end Rounds

/-! ## The check -/

section Check

variable {params : Equihash} {blake2b : ℕ → Bytes → Bytes → Bytes} (msgBytes : Bytes)

theorem mul_groupBits (params : Equihash) : params.CollisionBitLength * (params.K + 1) = params.N :=
  Nat.div_mul_cancel params.groups_dvd

/-- the bits of an index lie within a hash -/
theorem length_hashIn
    (hlength : ∀ m, (blake2b params.HashOutputLength params.personalization m).length = params.HashOutputLength)
    (i : ℕ) : ((params.generateHash blake2b msgBytes (i / params.IndicesPerHashOutput : ℕ)).drop
      (i % params.IndicesPerHashOutput * (params.N / 8)) |>.take (params.N / 8)).length = params.N / 8 := by
  have hN : 0 < params.N := by
    by_contra hzero
    have hle := params.le_groupBits
    rw [show params.N = 0 by omega, Nat.zero_div] at hle
    omega
  have hpos : 0 < params.IndicesPerHashOutput := Nat.div_pos params.N_le hN
  have houtput : params.HashOutputLength = params.IndicesPerHashOutput * (params.N / 8) := Nat.mul_div_assoc _ params.eight_dvd
  have hmod : i % params.IndicesPerHashOutput + 1 ≤ params.IndicesPerHashOutput := Nat.mod_lt _ hpos
  have hend := Nat.mul_le_mul_right (params.N / 8) hmod
  rw [Nat.succ_mul] at hend
  rw [List.length_take, List.length_drop, generateHash, hlength, houtput]
  omega

/-- the row of an index -/
theorem rowOf_spec (hlength : ∀ m, (blake2b params.HashOutputLength params.personalization m).length = params.HashOutputLength)
    {i : ℕ} (hi : i < 2 ^ 31) :
    ∃ row, params.rowOf blake2b msgBytes i = some row ∧ Represents params (params.hashOf blake2b msgBytes) 0 row [i] := by
  have hbytes := length_hashIn msgBytes hlength i
  have hstart : i % params.IndicesPerHashOutput * params.N / 8 = i % params.IndicesPerHashOutput * (params.N / 8) :=
    Nat.mul_div_assoc _ params.eight_dvd
  have hslice : ∀ (bytes : Bytes) (start : ℕ), slice bytes start (start + params.N / 8) = (bytes.drop start).take
      (params.N / 8) := by
    intro bytes start
    rw [slice, ← List.take_drop]
  have hbits : 8 * ((params.generateHash blake2b msgBytes (i / params.IndicesPerHashOutput : ℕ)).drop
      (i % params.IndicesPerHashOutput * (params.N / 8)) |>.take (params.N / 8)).length =
        params.CollisionBitLength * (params.K + 1) := by
    rw [hbytes, mul_groupBits, Nat.mul_div_cancel' params.eight_dvd]
  have hgroups := groupBits_le' params
  have hgroups' := le_groupBits' params
  have hfits : 8 * ((params.CollisionBitLength + 7) / 8 + 0) * ((params.generateHash blake2b msgBytes
      (i / params.IndicesPerHashOutput : ℕ)).drop (i % params.IndicesPerHashOutput * (params.N / 8)) |>.take
        (params.N / 8)).length <
        2 ^ 31 := by
    have hN := params.N_le
    have hproduct : 8 * ((params.CollisionBitLength + 7) / 8 + 0) * (params.N / 8) ≤ 8 * 3 * 64 :=
      Nat.mul_le_mul (by omega) (by omega)
    rw [hbytes]
    omega
  have hexpand := expandArray_eq 0 hgroups' (by omega) hbits hfits
  have hwidth : (params.CollisionBitLength + 7) / 8 + 0 = params.CollisionByteLength := rfl
  have hlen : params.CollisionByteLength * (params.K + 1) = params.HashLength := Nat.mul_comm _ _
  have hlen' : params.hashLen 0 = params.HashLength := rfl
  rw [hwidth, hlen] at hexpand
  obtain ⟨hfit, -⟩ := widths (show 0 < params.K by have := params.K_ge; omega)
  have hwritten : (params.groups 0 (params.hashOf blake2b msgBytes i)).length = params.HashLength := length_groups params 0 _
  obtain ⟨hash, hcopy, hlengthHash, htake⟩ := arrayCopy_spec (params.groups 0 (params.hashOf blake2b msgBytes i)) 0
    (List.replicate params.FinalFullWidth 0) 0 (params.HashLength) (by omega) (by rw [List.length_replicate]; omega)
  obtain ⟨row, hcopy', hlengthRow, htake'⟩ := arrayCopy_spec (BigEndian.fixed 4 i) 0 hash params.HashLength 4 (by simp)
    (by rw [hlengthHash, List.length_replicate]; omega)
  have hall : (params.groups 0 (params.hashOf blake2b msgBytes i)).take params.HashLength = params.groups 0
      (params.hashOf blake2b msgBytes i) :=
    List.take_of_length_le (by omega)
  have hindex : (BigEndian.fixed 4 i).take 4 = BigEndian.fixed 4 i := List.take_of_length_le (by simp)
  rw [Nat.zero_add, List.take_zero, List.nil_append, List.drop_zero, hall] at htake
  rw [htake, List.drop_zero, hindex] at htake'
  have hxor : xorOf (params.hashOf blake2b msgBytes) [i] = params.hashOf blake2b msgBytes i := by simp [xorOf]
  refine ⟨row, ?_, ?_, ?_, ?_, ?_, ?_, ?_⟩
  · have htdiv : (i : ℤ).tdiv params.IndicesPerHashOutput = (i / params.IndicesPerHashOutput : ℕ) := rfl
    have htmod : ((i : ℤ).tmod params.IndicesPerHashOutput).toNat = i % params.IndicesPerHashOutput := rfl
    unfold rowOf FullStepRow.ofHash
    dsimp only
    rw [htdiv, htmod, hstart, hslice, hexpand, if_pos (by omega), toByteArray_natCast hi, Option.bind_eq_bind, Option.bind_some]
    exact (congrArg (fun x => Option.bind x _) hcopy).trans hcopy'
  · rw [hlengthRow, hlengthHash, List.length_replicate]
  · have htake_row := congrArg (List.take params.HashLength) htake'
    rw [List.take_take, min_eq_left (by omega), List.take_left' hwritten] at htake_row
    rw [hxor]
    exact htake_row
  · have hdrop_row := congrArg (List.drop params.HashLength) htake'
    rw [List.drop_left' hwritten] at hdrop_row
    rw [hlen', List.take_drop]
    simpa using hdrop_row
  · rfl
  · exact List.forall_mem_singleton.2 hi
  · rw [hxor, Nat.sub_zero, mul_groupBits]
    have hvalue := BigEndian.value_lt ((params.generateHash blake2b msgBytes (i / params.IndicesPerHashOutput : ℕ)).drop
      (i % params.IndicesPerHashOutput * (params.N / 8)) |>.take (params.N / 8))
    rw [hbytes, show 256 = 2 ^ 8 from rfl, ← pow_mul, Nat.mul_div_cancel' params.eight_dvd] at hvalue
    exact hvalue

theorem rowsOf_spec (hlength : ∀ m, (blake2b params.HashOutputLength params.personalization m).length = params.HashOutputLength)
    {indices : List ℕ} (hindices : ∀ i ∈ indices, i < 2 ^ 31) :
    ∃ row : ℕ → FullStepRow, params.rowsOf blake2b msgBytes (indices.map (Nat.cast : ℕ → ℤ)) =
        some ((List.range indices.length).map row) ∧
      ∀ j < indices.length, Represents params (params.hashOf blake2b msgBytes) 0 (row j) (block 0 j indices) := by
  induction indices with
  | nil => exact ⟨fun _ => [], rfl, fun j hj => absurd hj (Nat.not_lt_zero j)⟩
  | cons i indices ih =>
    obtain ⟨first, hfirst, hrepresents⟩ := rowOf_spec msgBytes hlength (hindices i (by simp))
    obtain ⟨row, hrows, hothers⟩ := ih fun x hx => hindices x (List.mem_cons_of_mem _ hx)
    refine ⟨fun j => j.casesOn first row, ?_, ?_⟩
    · rw [List.map_cons, rowsOf, hfirst, hrows, List.length_cons, List.range_succ_eq_map, List.map_cons, List.map_map]
      rfl
    · rintro (_ | j) hj
      · exact hrepresents
      · have hblock : block 0 (j + 1) (i :: indices) = block 0 j indices := by simp [block]
        rw [hblock]
        exact hothers j (by simpa using hj)

/-! ### The definition, round by round -/

theorem length_block {indices : List ℕ} (hlength : indices.length = 2 ^ params.K) {r j : ℕ} (hr : r ≤ params.K)
    (hj : j < 2 ^ (params.K - r)) : (block r j indices).length = 2 ^ r := by
  have hpow : 2 ^ params.K = 2 ^ (params.K - r) * 2 ^ r := by rw [← pow_add, Nat.sub_add_cancel hr]
  have hend : (j + 1) * 2 ^ r ≤ 2 ^ (params.K - r) * 2 ^ r := Nat.mul_le_mul_right _ hj
  rw [Nat.succ_mul] at hend
  rw [block, List.length_take, List.length_drop, hlength, hpow]
  omega

/-- no index twice in the halves of any block, and so not in any block -/
theorem nodup_block {indices : List ℕ} {X : ℕ → ℕ}
    (h : ∀ r < params.K, ∀ j < 2 ^ (params.K - (r + 1)), Joined params X r (block r (2 * j) indices)
      (block r (2 * j + 1) indices))
    {r : ℕ} (hr : r ≤ params.K) {j : ℕ} (hj : j < 2 ^ (params.K - r)) : (block r j indices).Nodup := by
  induction r generalizing j with
  | zero =>
    have hshort : (block 0 j indices).length ≤ 1 := by
      rw [block, List.length_take]
      exact min_le_left _ _
    rcases hblock : block 0 j indices with _ | ⟨x, _ | ⟨y, rest⟩⟩
    · exact List.nodup_nil
    · exact List.nodup_singleton x
    · rw [hblock] at hshort
      simp at hshort
  | succ r ih =>
    have hpow : 2 ^ (params.K - r) = 2 * 2 ^ (params.K - (r + 1)) := by
      rw [show params.K - r = params.K - (r + 1) + 1 by omega, pow_succ, Nat.mul_comm]
    obtain ⟨-, -, hdisjoint⟩ := h r (by omega) j hj
    rw [← block_append, List.nodup_append']
    exact ⟨ih (by omega) (by omega), ih (by omega) (by omega), fun x hx hx' => hdisjoint x hx hx'⟩

theorem isSolution_iff {indices : List ℕ} {X : ℕ → ℕ} (hlength : indices.length = 2 ^ params.K) :
    IsSolution params X indices ↔
      (∀ r, 0 ≤ r → r < params.K → ∀ j < 2 ^ (params.K - (r + 1)),
        Joined params X r (block r (2 * j) indices) (block r (2 * j + 1) indices)) ∧ xorOf X indices = 0 := by
  constructor
  · intro h
    refine ⟨fun r _ hr j hj => ⟨?_, ?_, ?_⟩, h.zero⟩
    · rw [block_append]
      exact h.collisions r hr j hj
    · exact lt_asymm (h.ordered r hr j hj)
    · have hnodup : (block (r + 1) j indices).Nodup :=
        h.distinct.sublist ((List.take_sublist _ _).trans (List.drop_sublist _ _))
      rw [← block_append, List.nodup_append'] at hnodup
      exact fun x hx hx' => hnodup.2.2 hx hx'
  · rintro ⟨hjoined, hzero⟩
    have hjoined' := fun r hr => hjoined r (Nat.zero_le r) hr
    refine ⟨hlength, ?_, ?_, ?_, hzero⟩
    · have hnodup := nodup_block hjoined' le_rfl (show 0 < 2 ^ (params.K - params.K) by positivity)
      rwa [block, Nat.zero_mul, List.drop_zero, List.take_of_length_le hlength.le] at hnodup
    · intro r hr j hj
      have hcollision := (hjoined' r hr j hj).1
      rwa [block_append] at hcollision
    · intro r hr j hj
      have hpow : 2 ^ (params.K - r) = 2 * 2 ^ (params.K - (r + 1)) := by
        rw [show params.K - r = params.K - (r + 1) + 1 by omega, pow_succ, Nat.mul_comm]
      exact (hjoined' r hr j hj).lt (length_block hlength hr.le (by omega))

/-- the indices fill the solution -/
theorem solutionWidth_eq (params : Equihash) : 8 * params.SolutionWidth = (params.CollisionBitLength + 1) * 2 ^ params.K := by
  obtain ⟨k, hk⟩ := Nat.exists_eq_add_of_le params.K_ge
  have hdvd : 8 ∣ 2 ^ params.K * (params.CollisionBitLength + 1) :=
    ⟨2 ^ k * (params.CollisionBitLength + 1), by rw [hk, pow_add]; ring⟩
  rw [SolutionWidth, Nat.mul_div_cancel' hdvd, Nat.mul_comm]

/-- four times its bits are an `Int` -/
theorem solutionWidth_fits (params : Equihash) {solution : Bytes} (hwidth : solution.length = params.SolutionWidth) :
    8 * 4 * solution.length < 2 ^ 31 := by
  have hbits : params.CollisionBitLength + 1 ≤ 25 := Nat.succ_le_succ (groupBits_le' params)
  have hcount : 2 ^ params.K ≤ 2 ^ 24 := Nat.pow_le_pow_right (by norm_num) params.K_le
  have hproduct := Nat.mul_le_mul hbits hcount
  rw [← solutionWidth_eq, ← hwidth] at hproduct
  omega

/-- **Equihash.** For all parameters within the bounds of the source, every hash function of the right length, every message and
every solution: the check ends without a failing assertion or access. It succeeds exactly if the solution has its
length and its indices are a solution by the definition. -/
theorem equihash_solution (params : Equihash)
    (hlength : ∀ m, (blake2b params.HashOutputLength params.personalization m).length = params.HashOutputLength)
    (solution : Bytes) :
    ∃ valid, params.checkEquihashSolution blake2b msgBytes solution = some valid ∧
      (valid = true ↔ solution.length = params.SolutionWidth ∧
        IsSolution params (params.hashOf blake2b msgBytes) (indicesOf params.CollisionBitLength solution (2 ^ params.K))) := by
  unfold checkEquihashSolution
  by_cases hwidth : solution.length = params.SolutionWidth
  · have hbits : 8 * solution.length = (params.CollisionBitLength + 1) * 2 ^ params.K := by rw [hwidth, solutionWidth_eq]
    have hgroups := groupBits_le' params
    have hgroups' := le_groupBits' params
    have hcount : (indicesOf params.CollisionBitLength solution (2 ^ params.K)).length = 2 ^ params.K := length_group _ _
    have hint : ∀ i ∈ indicesOf params.CollisionBitLength solution (2 ^ params.K), i < 2 ^ 31 :=
      fun i hi => (group_lt hi).trans_le (Nat.pow_le_pow_right (by norm_num) (by omega))
    obtain ⟨row, hrows, hrepresents⟩ := rowsOf_spec msgBytes hlength hint
    rw [hcount] at hrows hrepresents
    obtain ⟨valid, hrounds, hvalid⟩ := rounds_spec hcount (Nat.zero_add params.K) hrepresents
    refine ⟨valid, ?_, ?_⟩
    · rw [if_neg (not_not.2 hwidth), getIndicesFromMinimal_eq (by omega) hgroups hbits (solutionWidth_fits params hwidth),
        Option.bind_eq_bind, Option.bind_some, hrows]
      exact hrounds
    · rw [hvalid, isSolution_iff hcount]
      exact ⟨fun h => ⟨hwidth, h⟩, And.right⟩
  · refine ⟨false, if_pos hwidth, ?_⟩
    simp [hwidth]

end Check

/-! ### A solution of eight indices -/

def eightIndices : Equihash where
  N := 32
  K := 3
  eight_dvd := by decide
  groups_dvd := by decide
  le_groupBits := by decide
  groupBits_le := by decide
  N_le := by decide
  K_ge := by decide
  K_le := by decide

/-- Blake2b, with this length and personalization, of the message `109` and the numbers of the hashes that are read -/
def sampleBlake2b (length : ℕ) (_ : Bytes) (message : Bytes) : Bytes :=
  BigEndian.fixed length
    (if message = [109, 0, 0, 0, 0] then
      0x3e69e8bb782362895746eae5ae1d6bb07ea7941c4008dcbe52cafd950864b68c * 2 ^ 256 +
        0x7ab50330eba211f674546b86d4c66d7d0ea55a56587f2022adfa500daf98a955
    else if message = [109, 1, 0, 0, 0] then
      0x36f180b7a90a9771da4900425505579f52a56d36de6135bf6b649d7df75eb493 * 2 ^ 256 +
        0xbe8a08e39270f39bad4da440704a18f32941ab9ed5f470dd184044d1317636c7
    else if message = [109, 10, 0, 0, 0] then
      0xf7caae793094d05d2be37ef8900bca912887a0a1784bee7e9281dd1f0e713cca * 2 ^ 256 +
        0xcce321428137029245e844ed6fba3afc0dc5de99f699aaf660a73269512803e7
    else if message = [109, 24, 0, 0, 0] then
      0x217ba01b8c6d7b50bf76b6f6d7e82b20cac4fc3b08af37d9637caa06d5e67f28 * 2 ^ 256 +
        0xd4371881c8865e750afe92b2c87b18c297261120c0ab988f5efdf102797950d8
    else if message = [109, 26, 0, 0, 0] then
      0x2a54384c599591e1b7d147f328a3a798cd5bb8c26fd2ed73ece20f0983022829 * 2 ^ 256 +
        0x9dce890db5bf95dfebf8da85239c49e22a8b34720619cd0bf97c65dd1b943df4
    else 0)

/-- the indices 1, 165, 171, 421, 11, 392, 25 and 166 in nine bits each -/
def sampleSolution : Bytes := [0, 169, 85, 122, 80, 94, 32, 50, 166]

theorem length_sampleBlake2b (length : ℕ) (personal message : Bytes) :
    (sampleBlake2b length personal message).length = length :=
  BigEndian.length_fixed _ _

theorem isSolution_sampleSolution :
    IsSolution eightIndices (eightIndices.hashOf sampleBlake2b [109]) (indicesOf 8 sampleSolution 8) where
  length := rfl
  distinct := by decide +kernel
  collisions := by decide +kernel
  ordered := by decide +kernel
  zero := by decide +kernel

theorem equihash_solution_eight : eightIndices.checkEquihashSolution sampleBlake2b [109] sampleSolution = some true := by
  obtain ⟨valid, hcheck, hvalid⟩ := equihash_solution [109] eightIndices (fun m => length_sampleBlake2b _ _ m) sampleSolution
  have hsolution := hvalid.2 ⟨rfl, isSolution_sampleSolution⟩
  rw [hsolution] at hcheck
  exact hcheck

end Equihash

end SidechainsSdk.Blocks
