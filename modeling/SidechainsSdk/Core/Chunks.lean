/-
Lists cut into chunks of a fixed length, the last one filled up, and put together again.

- `chunk n pad l i`: the `i`-th chunk of `l`. Every index has one; from the end of `l` on it is all padding
  (`chunk_beyond`).
- `overwrite`: the part of an array from an index on, replaced as far as both reach.
- `assemble`: the first `k` chunks, written one after the other into an array of the length of `l`. With enough chunks that
  is `l` (`assemble_all`), whether or not `l` ends in padding itself.
-/
import Mathlib.Tactic

namespace SidechainsSdk.Chunks

variable {α : Type}

/-- filled up at the end -/
def padTo (n : ℕ) (pad : α) (l : List α) : List α := l ++ List.replicate (n - l.length) pad

def chunk (n : ℕ) (pad : α) (l : List α) (i : ℕ) : List α := padTo n pad ((l.drop (i * n)).take n)

/-- `data` with `src` from `start` on; what does not fit is cut off -/
def overwrite (src data : List α) (start : ℕ) : List α :=
  data.take start ++ src.take (data.length - start) ++ data.drop (start + src.length)

/-- the chunks below `k`, one after the other -/
def assemble (n : ℕ) (chunkAt : ℕ → List α) (data : List α) (k : ℕ) : List α :=
  (List.range k).foldl (fun data i => overwrite (chunkAt i) data (i * n)) data

theorem length_chunk (n : ℕ) (pad : α) (l : List α) (i : ℕ) : (chunk n pad l i).length = n := by
  rw [chunk, padTo, List.length_append, List.length_replicate, List.length_take]
  omega

theorem chunk_beyond {n : ℕ} (pad : α) {l : List α} {i : ℕ} (h : l.length ≤ i * n) :
    chunk n pad l i = List.replicate n pad := by
  rw [chunk, List.drop_eq_nil_of_le h, List.take_nil]
  rfl

theorem length_overwrite (src data : List α) (start : ℕ) : (overwrite src data start).length = data.length := by
  simp only [overwrite, List.length_append, List.length_take, List.length_drop]
  omega

/-- of a chunk the part that belongs to the list -/
theorem take_chunk (n : ℕ) (pad : α) (l : List α) (i : ℕ) :
    (chunk n pad l i).take (l.length - i * n) = (l.drop (i * n)).take n := by
  have hlength : ((l.drop (i * n)).take n).length = min n (l.length - i * n) := by simp
  rw [chunk, padTo]
  by_cases hfull : n ≤ l.length - i * n
  · rw [hlength, min_eq_left hfull, Nat.sub_self, List.replicate_zero, List.append_nil]
    exact List.take_of_length_le (by omega)
  · rw [List.take_append_of_le_length (by omega)]
    exact List.take_of_length_le (by omega)

/-- **One more chunk** in place. -/
theorem overwrite_chunk (n : ℕ) (pad : α) (l : List α) (k : ℕ) :
    overwrite (chunk n pad l k) (l.take (k * n) ++ List.replicate (l.length - k * n) pad) (k * n) =
      l.take ((k + 1) * n) ++ List.replicate (l.length - (k + 1) * n) pad := by
  have hlength : (l.take (k * n) ++ List.replicate (l.length - k * n) pad).length = l.length := by
    rw [List.length_append, List.length_take, List.length_replicate]
    omega
  rw [overwrite, hlength, take_chunk, length_chunk, Nat.add_mul, Nat.one_mul, List.take_add]
  by_cases hin : k * n ≤ l.length
  · have hfront : (l.take (k * n)).length = k * n := List.length_take_of_le hin
    have htake : (l.take (k * n) ++ List.replicate (l.length - k * n) pad).take (k * n) = l.take (k * n) := by
      rw [List.take_append_of_le_length hfront.ge, List.take_of_length_le hfront.le]
    have hdrop : (l.take (k * n) ++ List.replicate (l.length - k * n) pad).drop (k * n + n) =
        List.replicate (l.length - (k * n + n)) pad := by
      rw [List.drop_append, hfront, List.drop_eq_nil_of_le (by omega), List.nil_append, List.drop_replicate]
      congr 1
      omega
    rw [htake, hdrop]
  · -- the list has ended before
    have hrest : l.length - k * n = 0 := by omega
    have hrest' : l.length - (k * n + n) = 0 := by omega
    have htake : l.take (k * n) = l := List.take_of_length_le (by omega)
    have hnil : l.drop (k * n) = [] := List.drop_eq_nil_of_le (by omega)
    have hnil' : l.drop (k * n + n) = [] := List.drop_eq_nil_of_le (by omega)
    rw [hrest, hrest', List.replicate_zero, List.append_nil, htake, hnil, hnil', htake]

theorem assemble_chunks (n : ℕ) (pad : α) (l : List α) (k : ℕ) :
    assemble n (chunk n pad l) (List.replicate l.length pad) k =
      l.take (k * n) ++ List.replicate (l.length - k * n) pad := by
  induction k with
  | zero => simp [assemble]
  | succ k ih =>
    rw [assemble, List.range_succ, List.foldl_append, ← assemble, ih]
    exact overwrite_chunk n pad l k

/-- **The list again**, from enough of its chunks. -/
theorem assemble_all {n : ℕ} (pad : α) {l : List α} {k : ℕ} (h : l.length ≤ k * n) :
    assemble n (chunk n pad l) (List.replicate l.length pad) k = l := by
  rw [assemble_chunks, List.take_of_length_le h, Nat.sub_eq_zero_of_le h, List.replicate_zero, List.append_nil]

/-- only the chunks below `k` count -/
theorem assemble_congr {n : ℕ} {f g : ℕ → List α} {k : ℕ} (h : ∀ i < k, f i = g i) (data : List α) :
    assemble n f data k = assemble n g data k := by
  induction k with
  | zero => rfl
  | succ k ih =>
    rw [assemble, assemble, List.range_succ, List.foldl_append, List.foldl_append, ← assemble, ← assemble,
      ih fun i hi => h i (by omega), List.foldl_cons, List.foldl_cons, h k (by omega)]
    rfl

end SidechainsSdk.Chunks
