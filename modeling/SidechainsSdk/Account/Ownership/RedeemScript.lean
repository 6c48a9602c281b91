/-
Redeem scripts of the ownership contract (`checkMcRedeemScriptForMultisig`): what the parser accepts, and how it fails.

The parser trusts the number of keys that the script declares and moves a position over it. It checks the total length at its
end, so what it has accepted is a multisig script. But the size of a key is read before that, and the position may be beyond the
script then: this is not the exception that the caller traps.

- `multisigScript`, `IsMultisig`: the scripts that are meant.
- `readPubKeys_sound`, `readPubKeys_complete`: the keys that are read are those that the script is made of.
- `redeemScript_parsed_iff`: the parser returns the threshold and the keys of exactly the multisig scripts.
- `redeemScript_parsedOrReverted_iff`: on all other input it fails as the caller expects if and only if the sizes are inside.
-/
import Mathlib.Tactic
import SidechainsSdk.Account.Ownership.UserInput

namespace SidechainsSdk.Account.McAddrOwnership

open Fallible
open NativeContract

/-! ## Scripts -/

/-- `OP_1` to `OP_16` -/
def opN (n : ℕ) : BitVec 8 := BitVec.ofNat 8 (0x50 + n)

def pushKey (key : Octets) : Octets := BitVec.ofNat 8 key.length :: key

def multisigScript (threshold : ℕ) (keys : List Octets) : Octets :=
  opN threshold :: (keys.flatMap pushKey ++ [opN keys.length, OP_CHECKMULTISIG])

def KeyLength (n : ℕ) : Prop := n = HORIZEN_COMPRESSED_PUBLIC_KEY_LENGTH ∨ n = HORIZEN_UNCOMPRESSED_PUBLIC_KEY_LENGTH

structure IsMultisig (script : Octets) (threshold : ℕ) (keys : List Octets) : Prop where
  script : script = multisigScript threshold keys
  pos : 1 ≤ threshold
  le : threshold ≤ keys.length
  max : keys.length ≤ 16
  lengths : ∀ key ∈ keys, KeyLength key.length

theorem KeyLength.pushed {key : Octets} (h : KeyLength key.length) : (BitVec.ofNat 8 key.length).toNat = key.length := by
  unfold KeyLength HORIZEN_COMPRESSED_PUBLIC_KEY_LENGTH HORIZEN_UNCOMPRESSED_PUBLIC_KEY_LENGTH at h
  rw [BitVec.toNat_ofNat]
  omega

theorem isOpN_opN : ∀ n < 17, 1 ≤ n → IsOpN (opN n) ∧ opNumber (opN n) = n := by decide

theorem opN_opNumber : ∀ b : BitVec 8, IsOpN b → 1 ≤ opNumber b ∧ opNumber b ≤ 16 ∧ opN (opNumber b) = b := by decide

/-! ## Keys -/

/-- the keys that were read, when all of them are inside the script -/
theorem readPubKeys_sound {script : Octets} {remaining n pos stop : ℕ} {keys : List Octets}
    (hok : readPubKeys script remaining n pos = .ok (keys, stop)) (hstop : stop ≤ script.length) :
    script.drop pos = keys.flatMap pushKey ++ script.drop stop ∧ keys.length = remaining ∧
      ∀ key ∈ keys, KeyLength key.length := by
  induction remaining generalizing n pos keys with
  | zero =>
    obtain ⟨rfl, rfl⟩ := Prod.mk.inj (Except.ok.inj hok)
    simp
  | succ remaining ih =>
    simp only [readPubKeys, bind_ok_iff, byteAt_ok, failIf_ok] at hok
    obtain ⟨size, hsize, ⟨⟩, hvalid, ⟨rest, stop'⟩, hrest, hkeys⟩ := hok
    obtain ⟨rfl, rfl⟩ := Prod.mk.inj (Except.ok.inj hkeys)
    obtain ⟨hdrop, hlength, hlengths⟩ := ih hrest
    have hle := (readPubKeys_ok hrest).2.1
    have hkey : ((script.drop (pos + 1)).take size.toNat).length = size.toNat := by
      rw [List.length_take, List.length_drop]
      omega
    refine ⟨?_, by rw [List.length_cons, hlength], ?_⟩
    · rw [List.flatMap_cons, pushKey, hkey, BitVec.ofNat_toNat, BitVec.setWidth_eq, List.append_assoc, ← hdrop]
      obtain ⟨hpos, hget⟩ := List.getElem?_eq_some_iff.1 hsize
      have hsplit : script.drop (pos + 1 + size.toNat) = (script.drop (pos + 1)).drop size.toNat := List.drop_drop.symm
      rw [List.drop_eq_getElem_cons hpos, hget, List.cons_append, hsplit, List.take_append_drop]
    · intro key hmem
      rcases List.mem_cons.1 hmem with rfl | hmem
      · rw [hkey]
        unfold KeyLength
        tauto
      · exact hlengths key hmem

/-- a script that goes on with keys is read up to them -/
theorem readPubKeys_complete {script rest : Octets} {keys : List Octets} (n : ℕ) {pos : ℕ}
    (hdrop : script.drop pos = keys.flatMap pushKey ++ rest) (hlengths : ∀ key ∈ keys, KeyLength key.length) :
    readPubKeys script keys.length n pos = .ok (keys, pos + (keys.flatMap pushKey).length) := by
  induction keys generalizing n pos with
  | nil => rfl
  | cons key keys ih =>
    have hlength := hlengths key List.mem_cons_self
    have hcons : script.drop pos = BitVec.ofNat 8 key.length :: (key ++ (keys.flatMap pushKey ++ rest)) := by
      rw [hdrop, List.flatMap_cons, pushKey, List.append_assoc, List.cons_append]
    have hsize : script[pos]? = some (BitVec.ofNat 8 key.length) := by
      rw [← List.head?_drop, hcons, List.head?_cons]
    have hnext : script.drop (pos + 1) = key ++ (keys.flatMap pushKey ++ rest) := by
      rw [← List.drop_drop, hcons, List.drop_one, List.tail_cons]
    have hafter : script.drop (pos + 1 + key.length) = keys.flatMap pushKey ++ rest := by
      rw [← List.drop_drop, hnext, List.drop_left]
    have hread := ih (n + 1) hafter fun key' hkey' => hlengths key' (List.mem_cons_of_mem key hkey')
    simp only [List.length_cons, readPubKeys, bind_ok_iff, byteAt_ok, failIf_ok]
    refine ⟨_, hsize, (), ?_, ?_⟩
    · rw [hlength.pushed]
      unfold KeyLength at hlength
      tauto
    · rw [hlength.pushed]
      refine ⟨_, hread, ?_⟩
      rw [hnext, List.take_left, List.flatMap_cons, pushKey, List.length_append, List.length_cons]
      have hstop : pos + 1 + key.length + (keys.flatMap pushKey).length = pos +
          (key.length + 1 + (keys.flatMap pushKey).length) := by
        omega
      rw [hstop]
      rfl

/-! ## Accepted scripts -/

section Parser

variable {ρ : Type} {env : Externals ρ} {redeemScript : String} {script : Octets}

theorem IsMultisig.shape {threshold : ℕ} {keys : List Octets} (h : IsMultisig script threshold keys) :
    script.length = (keys.flatMap pushKey).length + 3 ∧ script[0]? = some (opN threshold) ∧
      script[(keys.flatMap pushKey).length + 1]? = some (opN keys.length) ∧
      script[(keys.flatMap pushKey).length + 2]? = some OP_CHECKMULTISIG ∧
      script.drop 1 = keys.flatMap pushKey ++ [opN keys.length, OP_CHECKMULTISIG] := by
  rw [h.script, multisigScript]
  refine ⟨by simp, rfl, ?_, ?_, rfl⟩
  · rw [List.getElem?_cons_succ, List.getElem?_append_right le_rfl, Nat.sub_self]
    rfl
  · rw [List.getElem?_cons_succ, List.getElem?_append_right (Nat.le_add_right _ 1), Nat.add_sub_cancel_left]
    rfl

theorem multisig_of_parsed (hscript : env.fromHexString redeemScript = .ok script) {threshold : ℕ} {keys : List Octets}
    (hok : checkMcRedeemScriptForMultisig env redeemScript = .ok (threshold, keys)) : IsMultisig script threshold keys := by
  simp only [checkMcRedeemScriptForMultisig, hscript, bind_ok_iff, byteAt_ok, failIf_ok] at hok
  obtain ⟨_, hbytes, ⟨⟩, hmin, last, hlast, ⟨⟩, hmultisig, num, hnum, ⟨⟩, hnumOp, first, hfirst, ⟨⟩, hfirstOp,
    ⟨⟩, hle,
    ⟨keys', stop⟩, hkeys, ⟨⟩, hlen, hresult⟩ := hok
  obtain rfl := Except.ok.inj hbytes
  obtain ⟨rfl, rfl⟩ := Prod.mk.inj (Except.ok.inj hresult)
  obtain ⟨hfirstPos, -, hfirstEq⟩ := opN_opNumber first (not_not.1 hfirstOp)
  obtain ⟨-, hnumMax, hnumEq⟩ := opN_opNumber num (not_not.1 hnumOp)
  have hlen : script.length = 2 + stop := not_not.1 hlen
  obtain ⟨hdrop, hlength, hlengths⟩ := readPubKeys_sound hkeys (by omega)
  -- behind the keys are the last two bytes
  have htail : script.drop stop = [num, last] := by
    obtain ⟨hnumPos, hnumGet⟩ := List.getElem?_eq_some_iff.1 hnum
    obtain ⟨hlastPos, hlastGet⟩ := List.getElem?_eq_some_iff.1 hlast
    have hstop : stop = script.length - 2 := by omega
    have hnext : stop + 1 = script.length - 1 := by omega
    have hend : script.length - 1 + 1 = script.length := by omega
    rw [List.drop_eq_getElem_cons (by omega), List.drop_eq_getElem_cons (by omega)]
    simp only [hnext, hend, List.drop_length, hlastGet]
    simp only [hstop, hnumGet]
  refine ⟨?_, hfirstPos, ?_, ?_, hlengths⟩
  · obtain ⟨hpos, hget⟩ := List.getElem?_eq_some_iff.1 hfirst
    have hhead : script = first :: script.drop 1 := by
      rw [← hget, ← List.drop_eq_getElem_cons hpos, List.drop_zero]
    rw [hhead, hdrop, htail, multisigScript, hlength]
    show _ = opN (opNumber first) :: (_ ++ [opN (opNumber num), OP_CHECKMULTISIG])
    rw [hfirstEq, hnumEq, not_not.1 hmultisig]
  · rw [hlength]
    exact not_lt.1 hle
  · rw [hlength]
    exact hnumMax

theorem parsed_of_multisig (hscript : env.fromHexString redeemScript = .ok script) {threshold : ℕ} {keys : List Octets}
    (h : IsMultisig script threshold keys) : checkMcRedeemScriptForMultisig env redeemScript = .ok (threshold, keys) := by
  obtain ⟨hlen, hfirst, hnum, hlast, hdrop⟩ := h.shape
  have hmax := h.max
  have hpos := h.pos
  have hle := h.le
  obtain ⟨hfirstOp, hfirstEq⟩ := isOpN_opN threshold (by omega) hpos
  obtain ⟨hnumOp, hnumEq⟩ := isOpN_opN keys.length (by omega) (by omega)
  have hread := readPubKeys_complete 0 hdrop h.lengths
  simp only [checkMcRedeemScriptForMultisig, hscript, bind_ok_iff, byteAt_ok, failIf_ok]
  refine ⟨script, rfl, (), by omega, OP_CHECKMULTISIG, ?_, (), not_not.2 rfl, opN keys.length, ?_, (), not_not.2 hnumOp,
    opN threshold, hfirst, (), not_not.2 hfirstOp, (), ?_, (keys, 1 + (keys.flatMap pushKey).length), ?_, (), ?_, ?_⟩
  · rw [hlen]
    exact hlast
  · rw [hlen]
    exact hnum
  · show ¬ opNumber (opN keys.length) < opNumber (opN threshold)
    omega
  · show readPubKeys script (opNumber (opN keys.length)) 0 1 = _
    rw [hnumEq, hread]
  · omega
  · show Except.ok (opNumber (opN threshold), keys) = _
    rw [hfirstEq]

/-- the parser accepts exactly the multisig scripts, with the threshold and the keys they are made of -/
theorem redeemScript_parsed_iff (hscript : env.fromHexString redeemScript = .ok script) (threshold : ℕ) (keys : List Octets) :
    checkMcRedeemScriptForMultisig env redeemScript = .ok (threshold, keys) ↔ IsMultisig script threshold keys :=
  ⟨multisig_of_parsed hscript, parsed_of_multisig hscript⟩

/-! ## Refused scripts -/

theorem failIf_unhandled {c : Prop} [Decidable c] {message : String} : Unhandled (failIf c (.illegalArgument message)) := by
  unfold failIf
  split_ifs <;> trivial

theorem readPubKeys_unhandled (remaining n pos : ℕ) : Unhandled (readPubKeys script remaining n pos) := by
  induction remaining generalizing n pos with
  | zero => trivial
  | succ remaining ih =>
    refine (byteAt_unhandled script pos).bind fun size _ => failIf_unhandled.bind fun _ _ => ?_
    exact (ih _ _).bind fun _ _ => trivial

theorem parser_unhandled (hscript : env.fromHexString redeemScript = .ok script) :
    Unhandled (checkMcRedeemScriptForMultisig env redeemScript) := by
  rw [checkMcRedeemScriptForMultisig, hscript]
  refine failIf_unhandled.bind fun _ _ => (byteAt_unhandled _ _).bind fun _ _ => failIf_unhandled.bind fun _ _ => ?_
  refine (byteAt_unhandled _ _).bind fun _ _ => failIf_unhandled.bind fun _ _ => ?_
  refine (byteAt_unhandled _ _).bind fun _ _ => failIf_unhandled.bind fun _ _ => failIf_unhandled.bind fun _ _ => ?_
  exact (readPubKeys_unhandled _ _ _).bind fun _ _ => failIf_unhandled.bind fun _ _ => trivial

/-- what is not accepted ends with the exception that the caller traps, when it ends with one that is handled at all -/
theorem refused_of_handled (hscript : env.fromHexString redeemScript = .ok script)
    (hhandled : Handled (checkRedeemScript env redeemScript)) (hno : ∀ threshold keys, ¬ IsMultisig script threshold keys) :
    ∃ message, checkMcRedeemScriptForMultisig env redeemScript = .error (.illegalArgument message) := by
  have hunhandled := parser_unhandled hscript
  rw [checkRedeemScript_handled_iff] at hhandled
  cases hparsed : checkMcRedeemScriptForMultisig env redeemScript with
  | ok result => exact absurd ((redeemScript_parsed_iff hscript _ _).1 hparsed) (hno result.1 result.2)
  | error e =>
    rw [hparsed] at hhandled hunhandled
    have hother : e.isExecutionFailed = false := hunhandled
    cases e with
    | illegalArgument message => exact ⟨message, rfl⟩
    | _ =>
      have hhandled : Exc.isExecutionFailed _ = true := hhandled
      rw [hother] at hhandled
      cases hhandled

/-- what is expected of a redeem script: the multisig scripts are accepted with their parts, and all others are refused by a
failed requirement, which the caller turns into a revert -/
def ParsedOrReverted (env : Externals ρ) (redeemScript : String) (script : Octets) : Prop :=
  (∀ threshold keys, checkMcRedeemScriptForMultisig env redeemScript = .ok (threshold, keys) ↔
    IsMultisig script threshold keys) ∧
    ((∀ threshold keys, ¬ IsMultisig script threshold keys) →
      ∃ message, checkMcRedeemScriptForMultisig env redeemScript = .error (.illegalArgument message)) ∧
    Handled (checkRedeemScript env redeemScript)

/-- **Redeem scripts.** For every hex string, the parser accepts exactly the multisig scripts, and refuses all others in the way
that the caller expects, if and only if every size of a key that it gets to is inside the script. -/
theorem redeemScript_parsedOrReverted_iff (env : Externals ρ) (redeemScript : String) (script : Octets)
    (hscript : env.fromHexString redeemScript = .ok script) :
    ParsedOrReverted env redeemScript script ↔ ScriptInside script := by
  rw [← checkRedeemScript_handled hscript]
  constructor
  · exact fun h => h.2.2
  · exact fun h => ⟨redeemScript_parsed_iff hscript, refused_of_handled hscript h, h⟩

end Parser

/-! A script with one key; and one that ends after the size of its first key of two, which is the size of a long key. -/

section Sample

def sampleScriptText : String := "512102070707070707070707070707070707070707070707070707070707070707070751ae"

def truncatedScriptText : String := "514152ae"

def scriptExternals : Externals Unit :=
  { sampleExternals with
    fromHexString := fun s =>
      if s = sampleScriptText then .ok (multisigScript 1 [2 :: List.replicate 32 7])
      else if s = truncatedScriptText then .ok [0x51, 0x41, 0x52, 0xAE] else .error (.illegalArgument "") }

theorem sampleScript_parsedOrReverted :
    ParsedOrReverted scriptExternals sampleScriptText (multisigScript 1 [2 :: List.replicate 32 7]) := by
  have hscript : scriptExternals.fromHexString sampleScriptText = .ok (multisigScript 1 [2 :: List.replicate 32 7]) := rfl
  have hhandled : Handled (checkRedeemScript scriptExternals sampleScriptText) := by decide +kernel
  exact (redeemScript_parsedOrReverted_iff scriptExternals sampleScriptText _ hscript).2
    ((checkRedeemScript_handled hscript).1 hhandled)

/-- an `ArrayIndexOutOfBoundsException` -/
theorem truncatedScript_not_reverted :
    scriptExternals.fromHexString truncatedScriptText = .ok [0x51, 0x41, 0x52, 0xAE] ∧
      ¬ ParsedOrReverted scriptExternals truncatedScriptText [0x51, 0x41, 0x52, 0xAE] := by
  have hunhandled : ¬ Handled (checkRedeemScript scriptExternals truncatedScriptText) := by decide +kernel
  exact ⟨by decide, fun h => hunhandled h.2.2⟩

end Sample

end SidechainsSdk.Account.McAddrOwnership
