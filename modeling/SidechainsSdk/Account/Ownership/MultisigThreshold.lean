/-
The threshold of a multisig address (`verifySignaturesWithThreshold`). A signature takes the first key that it is valid for and
that no signature before it has taken. Keys may be repeated, so there is a choice; but a signature recovers one key, so the
signatures that are valid for a key are valid for the same positions, and no choice is wrong.

- `findPubKey_spec`: a free position is found whenever there is one.
- `verifySignatures_enough_iff`: the loop counts up to the threshold if and only if that many signatures have positions of
  their own, wherever it stands.
- `threshold_reached_iff`: the same for the call.
-/
import Mathlib.Tactic
import SidechainsSdk.Core.GreedyMatching
import SidechainsSdk.Account.Ownership.Lists

namespace SidechainsSdk.Account.McAddrOwnership

open Fallible
open GreedyMatching

section Threshold

variable {ρ : Type} {valid : SignatureSecp256k1 → Octets → Bool} {pubKeys : List Octets}
  {isValid : SignatureSecp256k1 → Octets → Except Exc Bool} {thresholdSignatureValue : ℕ}

/-- the signature is valid for the key at the position -/
def ValidAt (valid : SignatureSecp256k1 → Octets → Bool) (pubKeys : List Octets) (signature : SignatureSecp256k1) (i : ℕ) :
    Prop :=
  ∃ key, pubKeys[i]? = some key ∧ valid signature key = true

/-- a signature is valid for one key only -/
def RecoversOne (valid : SignatureSecp256k1 → Octets → Bool) : Prop :=
  ∀ signature key key', valid signature key = true → valid signature key' = true → key = key'

theorem RecoversOne.difunctional (h : RecoversOne valid) (pubKeys : List Octets) : Difunctional (ValidAt valid pubKeys) := by
  rintro s s' i j ⟨key, hkey, hs⟩ ⟨key', hkey', hs'⟩ ⟨other, hother, hs2⟩
  obtain rfl := h s other key hs2 hs
  obtain rfl : other = key' := by
    rw [hkey] at hkey'
    exact Option.some.inj hkey'
  exact ⟨other, hother, hs'⟩

theorem findPubKey_spec {P : Octets → Bool} {check : Octets → Except Exc Bool} (verified : List ℕ)
    {pubKeys : List (Octets × ℕ)}
    (hcheck : ∀ key ∈ pubKeys, check key.1 = .ok (P key.1)) :
    (findPubKey check verified pubKeys = .ok none ∧ ∀ key ∈ pubKeys, P key.1 = true → key.2 ∈ verified) ∨
      ∃ key ∈ pubKeys, findPubKey check verified pubKeys = .ok (some key.2) ∧ P key.1 = true ∧ key.2 ∉ verified := by
  induction pubKeys with
  | nil => exact .inl ⟨rfl, fun key hkey => by cases hkey⟩
  | cons first rest ih =>
    obtain ⟨pubKey, index⟩ := first
    have hrest := ih fun key hkey => hcheck key (List.mem_cons_of_mem _ hkey)
    have hfirst := hcheck _ List.mem_cons_self
    rw [findPubKey]
    -- the first key is passed over when it is used, and when the signature is not valid for it
    have hskip (hnot : P pubKey = true → index ∈ verified) :
        (findPubKey check verified rest = .ok none ∧ ∀ key ∈ (pubKey, index) :: rest, P key.1 = true →
          key.2 ∈ verified) ∨
          ∃ key ∈ (pubKey, index) :: rest, findPubKey check verified rest = .ok (some key.2) ∧ P key.1 = true ∧
            key.2 ∉ verified := by
      rcases hrest with ⟨hnone, hall⟩ | ⟨key, hkey, hsome⟩
      · refine .inl ⟨hnone, fun key hkey => ?_⟩
        rcases List.mem_cons.1 hkey with rfl | hkey
        · exact hnot
        · exact hall key hkey
      · exact .inr ⟨key, List.mem_cons_of_mem _ hkey, hsome⟩
    split_ifs with hused
    · exact hskip fun _ => hused
    · rw [hfirst]
      cases hP : P pubKey with
      | true => exact .inr ⟨_, List.mem_cons_self, rfl, hP, hused⟩
      | false => exact hskip fun htrue => by rw [hP] at htrue; cases htrue

/-- as many signatures from the start as the threshold, each with a position of its own -/
def Enough (valid : SignatureSecp256k1 → Octets → Bool) (pubKeys : List Octets) (signatures : List SignatureSecp256k1)
    (thresholdSignatureValue : ℕ) : Prop :=
  ∃ indexes, indexes.length = thresholdSignatureValue ∧
    Matches (ValidAt valid pubKeys) (signatures.take thresholdSignatureValue) indexes

/-- by induction on the signatures that are left, with the positions of those before them in the order the code has them -/
theorem verifySignatures_enough_iff (hone : RecoversOne valid) {done rest : List SignatureSecp256k1} {verified : List ℕ}
    (n : ℕ)
    (hvalid : ∀ signature ∈ rest, ∀ key ∈ pubKeys, isValid signature key = .ok (valid signature key))
    (hdone : Matches (ValidAt valid pubKeys) done.reverse verified) (hlt : verified.length < thresholdSignatureValue) :
    (∃ score, verifySignatures isValid pubKeys.zipIdx thresholdSignatureValue (rest.zipIdx n) verified = .ok score ∧
        thresholdSignatureValue ≤ score) ↔ Enough valid pubKeys (done ++ rest) thresholdSignatureValue := by
  have hlength : done.length = verified.length := by rw [← hdone.length_eq, List.length_reverse]
  induction rest generalizing done verified n with
  | nil =>
    constructor
    · rintro ⟨score, hscore, hle⟩
      obtain rfl := Except.ok.inj hscore
      omega
    · rintro ⟨indexes, hindexes, hmatch⟩
      have hlen := hmatch.length_eq
      rw [List.append_nil, List.length_take] at hlen
      omega
  | cons signature rest ih =>
    rw [List.zipIdx_cons, verifySignatures]
    have hcheck : ∀ key ∈ pubKeys.zipIdx, isValid signature key.1 = .ok (valid signature key.1) := by
      intro key hkey
      exact hvalid signature List.mem_cons_self key.1 (List.fst_mem_of_mem_zipIdx hkey)
    rcases findPubKey_spec verified hcheck with ⟨hnone, hall⟩ | ⟨key, hkey, hsome, hvalidKey, hnew⟩
    · rw [hnone]
      constructor
      · rintro ⟨score, hscore, -⟩
        cases hscore
      · rintro ⟨indexes, hindexes, hmatch⟩
        have htake : (done ++ signature :: rest).take thresholdSignatureValue =
            done ++ signature :: rest.take (thresholdSignatureValue - done.length - 1) := by
          obtain ⟨k, hk⟩ : ∃ k, thresholdSignatureValue - done.length = k + 1 :=
            ⟨thresholdSignatureValue - done.length - 1, by omega⟩
          rw [List.take_append, List.take_of_length_le (by omega), hk, List.take_succ_cons, Nat.add_sub_cancel]
        rw [htake] at hmatch
        have hused : Matches (ValidAt valid pubKeys) done verified.reverse := by simpa using hdone.reverse
        obtain ⟨i, ⟨key, hkey, hi⟩, hunused⟩ := hmatch.exists_unused (hone.difunctional pubKeys) hused
        exact absurd (hall (key, i) (List.mem_zipIdx_iff_getElem?.2 hkey) hi) (by simpa using hunused)
    · rw [hsome]
      have hnext : Matches (ValidAt valid pubKeys) (done ++ [signature]).reverse (key.2 :: verified) := by
        rw [List.reverse_append, List.reverse_singleton]
        exact hdone.cons ⟨key.1, List.mem_zipIdx_iff_getElem?.1 hkey, hvalidKey⟩ hnew
      show (∃ score, (if thresholdSignatureValue ≤ verified.length + 1 then _ else _) = _ ∧ _) ↔ _
      split_ifs with hreached
      · refine ⟨fun _ => ⟨(key.2 :: verified).reverse, ?_, ?_⟩, fun _ => ⟨_, rfl, hreached⟩⟩
        · rw [List.length_reverse, List.length_cons]
          omega
        · have hdoneLength : done.length + 1 = thresholdSignatureValue := by omega
          have htake : (done ++ signature :: rest).take thresholdSignatureValue = done ++ [signature] := by
            rw [← hdoneLength, List.take_length_add_append]
            rfl
          rw [htake]
          simpa using hnext.reverse
      · have hmore : (key.2 :: verified).length < thresholdSignatureValue := not_le.1 hreached
        have hrest := ih (n + 1) (fun s hs => hvalid s (List.mem_cons_of_mem _ hs)) hnext hmore
          (by rw [List.length_append, List.length_cons, hlength]; rfl)
        rw [List.append_assoc] at hrest
        exact hrest

/-- **Threshold.** With signatures that are valid for one key only, the call returns at least the threshold if and only if that
many signatures from the start of the list can be matched one to one with positions of keys that they are valid for. -/
theorem threshold_reached_iff (env : Externals ρ) (senderScAddress : Address) (mcMultisigAddress : String)
    (pubKeys : List Octets) (signatures : List SignatureSecp256k1) (thresholdSignatureValue : ℕ)
    (valid : SignatureSecp256k1 → Octets → Bool) (hone : RecoversOne valid)
    (hvalid : ∀ signature ∈ signatures, ∀ key ∈ pubKeys,
      isValidOwnershipMultisigSignature env senderScAddress mcMultisigAddress key signature = .ok (valid signature key))
    (hthreshold : 1 ≤ thresholdSignatureValue) :
    (∃ score, verifySignaturesWithThreshold env senderScAddress mcMultisigAddress pubKeys signatures thresholdSignatureValue =
        .ok score ∧ thresholdSignatureValue ≤ score) ↔ Enough valid pubKeys signatures thresholdSignatureValue := by
  have hnil : Matches (ValidAt valid pubKeys) ([] : List SignatureSecp256k1).reverse [] := Matches.nil
  exact verifySignatures_enough_iff hone 0 hvalid hnil hthreshold

/-! A repeated key, and two signatures of it. -/

def sampleKey : Octets := 0x04 :: (List.replicate 63 0 ++ [1])

theorem repeatedKey_enough :
    Enough (fun _ key => decide (key = sampleKey)) [sampleKey, sampleKey] [⟨27, 1, 1⟩, ⟨27, 1, 1⟩] 2 := by
  have hone : RecoversOne fun _ key => decide (key = sampleKey) := by
    intro _ key key' h h'
    rw [of_decide_eq_true h, of_decide_eq_true h']
  have hvalid : ∀ signature ∈ [(⟨27, 1, 1⟩ : SignatureSecp256k1), ⟨27, 1, 1⟩], ∀ key ∈ [sampleKey, sampleKey],
      isValidOwnershipMultisigSignature sampleExternals 2 sampleAddress key signature = .ok (decide (key = sampleKey)) := by
    decide +kernel
  exact (threshold_reached_iff sampleExternals 2 sampleAddress _ _ 2 _ hone hvalid (by decide)).1
    ⟨2, by decide +kernel, le_rfl⟩

end Threshold

end SidechainsSdk.Account.McAddrOwnership
