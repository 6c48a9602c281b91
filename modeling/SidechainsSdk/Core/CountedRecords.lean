/-
Families of numbered records in a key-value store: a counter key holds the number of the last record, the records have the
numbers from zero on, and without a counter there are none.

- `Holds.append`: one more record, with the next number, is one more in the list.
- `Holds.of_no_counter`: without a counter the list is empty, whatever is left under the record keys.
- `Holds.congr`: writes to other keys do not matter.
- `Holds.read`: reading up to the counter gives the list, and no record is missing.
-/
import Mathlib.Tactic

namespace SidechainsSdk.CountedRecords

/-- `0 to n` -/
def rangeTo (n : ℤ) : List ℤ := (List.range (n + 1).toNat).map fun i : ℕ => (i : ℤ)

theorem mem_rangeTo {n c : ℤ} : c ∈ rangeTo n ↔ 0 ≤ c ∧ c ≤ n := by
  simp only [rangeTo, List.mem_map, List.mem_range]
  constructor
  · rintro ⟨i, hi, rfl⟩
    omega
  · rintro ⟨hlow, hhigh⟩
    exact ⟨c.toNat, by omega, by omega⟩

/-- where the records are, and how a counter and a record are written -/
structure Family (κ ν ρ : Type) where
  counterKey : κ
  recordKey : ℤ → κ
  counter : ℤ → ν
  record : ρ → ν

variable {κ ν ρ : Type}

/-- the records of the family in the store -/
structure Holds (f : Family κ ν ρ) (data : κ → Option ν) (rs : List ρ) : Prop where
  counter : data f.counterKey = if rs = [] then none else some (f.counter (rs.length - 1))
  records : ∀ (i : ℕ) (h : i < rs.length), data (f.recordKey i) = some (f.record rs[i])

namespace Holds

variable {f : Family κ ν ρ} {data data' : κ → Option ν} {rs : List ρ}

theorem of_no_counter (h : data f.counterKey = none) : Holds f data [] := ⟨by simpa using h, by simp⟩

theorem congr (h : Holds f data rs) (hcounter : data' f.counterKey = data f.counterKey)
    (hrecords : ∀ c, data' (f.recordKey c) = data (f.recordKey c)) : Holds f data' rs :=
  ⟨hcounter.trans h.counter, fun i hi => (hrecords i).trans (h.records i hi)⟩

theorem append (h : Holds f data rs) {r : ρ} (hcounter : data' f.counterKey = some (f.counter rs.length))
    (hrecord : data' (f.recordKey rs.length) = some (f.record r))
    (hrecords : ∀ i < rs.length, data' (f.recordKey i) = data (f.recordKey i)) : Holds f data' (rs ++ [r]) := by
  refine ⟨?_, ?_⟩
  · rw [hcounter, if_neg (by simp), List.length_append, List.length_singleton]
    congr 2
    push_cast
    ring
  · intro i hi
    rw [List.length_append, List.length_singleton] at hi
    rcases Nat.lt_succ_iff_lt_or_eq.1 hi with hlt | rfl
    · rw [hrecords i hlt, h.records i hlt, List.getElem_append_left hlt]
    · rw [hrecord, List.getElem_concat_length rfl]

/-- reading up to the counter -/
theorem read {ε : Type} (h : Holds f data rs) {get : ℤ → Except ε ρ}
    (hget : ∀ (c : ℤ) (r : ρ), data (f.recordKey c) = some (f.record r) → get c = .ok r) :
    (rangeTo ((rs.length : ℤ) - 1)).mapM get = .ok rs := by
  have hprefix : ∀ n ≤ rs.length, ((List.range n).map fun i : ℕ => (i : ℤ)).mapM get = .ok (rs.take n) := by
    intro n hn
    induction n with
    | zero => rfl
    | succ n ih =>
      have hlast : get n = .ok rs[n] := hget n rs[n] (h.records n hn)
      rw [List.range_succ, List.map_append, List.mapM_append, ih (by omega), ← List.take_append_getElem hn]
      simp only [List.map_cons, List.map_nil, List.mapM_cons, List.mapM_nil, hlast]
      rfl
  have hlength : ((rs.length : ℤ) - 1 + 1).toNat = rs.length := by omega
  rw [rangeTo, hlength, hprefix rs.length le_rfl, List.take_length]

end Holds

end SidechainsSdk.CountedRecords
