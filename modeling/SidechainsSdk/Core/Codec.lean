/-
Readers of byte strings. `Reads r bs a`: from anything that starts with `bs`, the reader `r` takes `bs` off and returns
`a`. The rules follow the way a serializer is put together: one part after the other, and a counted list of parts.
-/
import Mathlib.Tactic

namespace SidechainsSdk

abbrev Bytes := List UInt8

instance decidableMemBytes (a : Bytes) (l : List Bytes) : Decidable (a ∈ l) := List.instDecidableMemOfLawfulBEq a l

/-- takes bytes off the front, or fails -/
abbrev Reader (α : Type) := StateT Bytes Option α

namespace Reader

variable {α β : Type}

/-- one byte, as a number -/
def byte : Reader ℕ
  | [] => none
  | b :: rest => some (b.toNat, rest)

/-- the next `n` bytes; fails when there are fewer, or for a negative `n` -/
def bytes (n : ℤ) : Reader Bytes := fun bs =>
  if 0 ≤ n ∧ n.toNat ≤ bs.length then some (bs.take n.toNat, bs.drop n.toNat) else none

/-- `n` times the same part -/
def repeated (item : Reader α) : ℕ → Reader (List α)
  | 0 => pure []
  | n + 1 => do
    let a ← item
    let l ← repeated item n
    pure (a :: l)

/-- reads back `a` from `bs`, and leaves what follows -/
def Reads (r : Reader α) (bs : Bytes) (a : α) : Prop := ∀ rest, r.run (bs ++ rest) = some (a, rest)

theorem reads_pure (a : α) : Reads (pure a) [] a := fun _ => rfl

theorem Reads.bind {x : Reader α} {f : α → Reader β} {b₁ b₂ : Bytes} {a : α} {b : β} (hx : Reads x b₁ a)
    (hf : Reads (f a) b₂ b) : Reads (x >>= f) (b₁ ++ b₂) b := by
  intro rest
  rw [StateT.run_bind, List.append_assoc, hx]
  exact hf rest

/-- a part followed by nothing -/
theorem Reads.map {x : Reader α} {bs : Bytes} {a : α} (hx : Reads x bs a) (g : α → β) :
    Reads (x >>= fun a => pure (g a)) bs (g a) := by
  have h := hx.bind (f := fun a => pure (g a)) (reads_pure (g a))
  rwa [List.append_nil] at h

/-- a part followed by a check that takes nothing off -/
theorem Reads.check {x : Reader α} {f : α → Reader β} {bs : Bytes} {a : α} {b : β} (hx : Reads x bs a)
    (hf : Reads (f a) [] b) : Reads (x >>= f) bs b := by
  have h := hx.bind hf
  rwa [List.append_nil] at h

theorem reads_byte (n : ℕ) (hn : n < 256) : Reads byte [UInt8.ofNat n] n := by
  intro rest
  have hval : (UInt8.ofNat n).toNat = n := UInt8.toNat_ofNat_of_lt hn
  exact congrArg (fun m => some (m, rest)) hval

theorem reads_bytes (bs : Bytes) : Reads (bytes bs.length) bs bs := by
  intro rest
  have hle : (0 : ℤ) ≤ bs.length ∧ (bs.length : ℤ).toNat ≤ (bs ++ rest).length := by simp
  change bytes bs.length (bs ++ rest) = some (bs, rest)
  rw [bytes, if_pos hle]
  simp

/-- a list of parts, each read as what `g` makes of it -/
theorem reads_repeated_map {item : Reader β} {enc : α → Bytes} {g : α → β} {l : List α}
    (h : ∀ a ∈ l, Reads item (enc a) (g a)) : Reads (repeated item l.length) (l.flatMap enc) (l.map g) := by
  induction l with
  | nil => exact reads_pure []
  | cons a l ih =>
    have htail := (ih fun b hb => h b (List.mem_cons_of_mem _ hb)).map (g a :: ·)
    exact (h a List.mem_cons_self).bind htail

theorem reads_repeated {item : Reader α} {enc : α → Bytes} {l : List α} (h : ∀ a ∈ l, Reads item (enc a) a) :
    Reads (repeated item l.length) (l.flatMap enc) l := by
  have hmap := reads_repeated_map (g := id) h
  rwa [List.map_id] at hmap

end Reader

end SidechainsSdk
