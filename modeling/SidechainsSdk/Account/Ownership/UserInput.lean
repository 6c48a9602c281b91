/-
User input of the ownership contract and exceptions. Decoding errors are trapped, but after that signatures and scripts are
read by library calls with exceptions of their own, and most of these are not: such a message is not included with a failed
receipt, it is invalid as a whole.

- `SignatureReadable`, `RecoversPoint`, `ComparableInTurn`, `KeySizesInside`: what these parts of an input need to be like. A
  signature may recover the point at infinity, which the library gives as the key 0, and this does not decode as a point.
- `ownership_handled`: in every reachable state a message ends with a result or an execution failure if and only if its input
  is well formed (`WellFormed`).
- `user_input_handled`: with the command that opens the list of forgers.
-/
import Mathlib.Tactic
import SidechainsSdk.Account.Ownership.Lists
import SidechainsSdk.Account.Stakes.OpenForgerList

namespace SidechainsSdk.Account.McAddrOwnership

open Fallible
open SidechainsSdk.Account.StateTransition (StateDb Invocation Machine)
open NativeContract
open NativeLinkedList
open ForgerStakeV2 (METHOD_ID_LENGTH getArgumentsFromData)
open WithdrawalRequests (getFunctionSignature)
open OpenForgerList (handled_getArgumentsFromData)

variable {ρ : Type} {env : Externals ρ}

/-- what is documented of the libraries: the exceptions are their own, and keys, hashes and texts have their lengths -/
structure LibraryLaws (env : Externals ρ) : Prop where
  base64 : ∀ s e, env.base64Decode s = .error e → e.isExecutionFailed = false
  recovery : ∀ hash signature e, env.signedMessageHashToKey hash signature = .error e → e.isExecutionFailed = false
  key_length : ∀ hash signature key, env.signedMessageHashToKey hash signature = .ok key → key < 256 ^ PUBLIC_KEY_SIZE
  compress : ∀ bytes e, env.compressPoint bytes = .error e → e.isExecutionFailed = false
  hash_length : ∀ bytes, (env.Ripemd160Sha256Hash bytes).length = HORIZEN_ADDRESS_HASH_LENGTH
  text_length : ∀ mc sc, mc.length ≤ HORIZEN_MC_TRANSPARENT_ADDRESS_BASE_58_LENGTH →
    (env.utf8Bytes (mc ++ env.toChecksumAddress sc)).length ≤ 256

/-! ## Signatures -/

/-- `r` of a signature with a header byte -/
def signatureR (bytes : Octets) : ℤ := toUnsigned ((bytes.drop 1).take 32)

/-- `s`, with zeros after the end -/
def signatureS (bytes : Octets) : ℤ := toUnsigned ((bytes.drop 33).take 32 ++ List.replicate (65 - bytes.length) 0)

/-- the header byte for an uncompressed key, and two numbers in the range of the curve -/
def SignatureBytesOk (bytes : Octets) : Prop :=
  33 ≤ bytes.length ∧ (∃ first, bytes[0]? = some first ∧ (first.toInt = 31 ∨ first.toInt = 32)) ∧
    (0 < signatureR bytes ∧ signatureR bytes < secp256k1N) ∧ 0 < signatureS bytes ∧ signatureS bytes ≤ secp256k1halfN

/-- the text is Base64 of such bytes -/
def SignatureReadable (env : Externals ρ) (mcSignature : String) : Prop :=
  ∃ bytes, env.base64Decode mcSignature = .ok bytes ∧ SignatureBytesOk bytes

theorem newSignature_ok_iff {v r s : ℤ} :
    (∃ signature, newSignature v r s = .ok signature) ↔
      (v = 27 ∨ v = 28) ∧ (0 < r ∧ r < secp256k1N) ∧ 0 < s ∧ s ≤ secp256k1halfN := by
  simp only [newSignature, failIf_bind_ok]
  constructor
  · rintro ⟨signature, hpos, -, hv, hs, hr, -⟩
    omega
  · rintro ⟨hv, ⟨hrpos, hr⟩, hspos, hs⟩
    exact ⟨⟨v, r, s⟩, by omega, by omega, by omega, by omega, by omega, rfl⟩

theorem newSignature_unhandled (v r s : ℤ) : Unhandled (newSignature v r s) := by
  unfold newSignature failIf
  split_ifs <;> trivial

theorem byteAt_ok {bytes : Octets} {i : ℕ} {b : BitVec 8} : byteAt bytes i = .ok b ↔ bytes[i]? = some b := by
  unfold byteAt
  cases bytes[i]? with
  | none => simp
  | some b' => simp

theorem byteAt_unhandled (bytes : Octets) (i : ℕ) : Unhandled (byteAt bytes i) := by
  unfold byteAt
  cases bytes[i]? <;> trivial

theorem copyOfRange_ok {bytes range : Octets} {start stop : ℕ} (h : start ≤ stop) :
    copyOfRange bytes start stop = .ok range ↔
      start ≤ bytes.length ∧ range = (bytes.drop start).take (stop - start) ++ List.replicate (stop - bytes.length) 0 := by
  unfold copyOfRange
  rw [if_neg (not_lt.2 h)]
  split_ifs with hlt
  · simp [hlt]
  · simp [not_lt.1 hlt, eq_comm]

theorem copyOfRange_unhandled (bytes : Octets) (start stop : ℕ) : Unhandled (copyOfRange bytes start stop) := by
  unfold copyOfRange
  split_ifs <;> trivial

/-- a library call whose exceptions are its own -/
theorem unhandled_of_laws {α : Type} {r : Except Exc α} (h : ∀ e, r = .error e → e.isExecutionFailed = false) :
    Unhandled r := by
  cases hr : r with
  | ok a => trivial
  | error e => exact h e hr

theorem getMcSignature_unhandled (hlib : LibraryLaws env) (mcSignature : String) :
    Unhandled (getMcSignature env mcSignature) := by
  refine (unhandled_of_laws (hlib.base64 mcSignature)).bind fun bytes _ => ?_
  refine (byteAt_unhandled bytes 0).bind fun first _ => ?_
  refine (copyOfRange_unhandled bytes 1 33).bind fun r _ => ?_
  exact (copyOfRange_unhandled bytes 33 65).bind fun s _ => newSignature_unhandled _ _ _

theorem getMcSignature_ok_iff (mcSignature : String) :
    (∃ signature, getMcSignature env mcSignature = .ok signature) ↔ SignatureReadable env mcSignature := by
  have hlow : 1 ≤ 33 := by norm_num
  have hhigh : 33 ≤ 65 := by norm_num
  simp only [getMcSignature, bind_ok_iff, byteAt_ok, copyOfRange_ok hlow, copyOfRange_ok hhigh]
  constructor
  · rintro ⟨signature, bytes, hdecode, first, hfirst, r, ⟨-, rfl⟩, s, ⟨hlen, rfl⟩, hsig⟩
    have hpad : 33 - bytes.length = 0 := by omega
    obtain ⟨hv, hr, hs⟩ := newSignature_ok_iff.1 ⟨signature, hsig⟩
    rw [hpad, List.replicate_zero, List.append_nil] at hr
    exact ⟨bytes, hdecode, hlen, ⟨first, hfirst, by omega⟩, hr, hs⟩
  · rintro ⟨bytes, hdecode, hlen, ⟨first, hfirst, hv⟩, hr, hs⟩
    have hpad : 33 - bytes.length = 0 := by omega
    have hone : 1 ≤ bytes.length := by omega
    have hv' : first.toInt - 4 = 27 ∨ first.toInt - 4 = 28 := by omega
    obtain ⟨signature, hsig⟩ := newSignature_ok_iff.2 ⟨hv', hr, hs⟩
    refine ⟨signature, bytes, hdecode, first, hfirst, _, ⟨hone, rfl⟩, _, ⟨hlen, rfl⟩, ?_⟩
    rw [hpad, List.replicate_zero, List.append_nil]
    exact hsig

theorem getMcSignature_handled (hlib : LibraryLaws env) (mcSignature : String) :
    Handled (getMcSignature env mcSignature) ↔ SignatureReadable env mcSignature := by
  rw [(getMcSignature_unhandled hlib mcSignature).handled_iff]
  exact getMcSignature_ok_iff mcSignature

/-! ## Recovery -/

/-- what is signed -/
def mcHash (env : Externals ρ) (text : String) : Octets :=
  env.doubleSHA256Hash (getMagicBytes env ++ (BitVec.ofNat 8 (env.utf8Bytes text).length :: env.utf8Bytes text))

/-- a public key can be recovered from the signature of a text -/
def Recoverable (env : Externals ρ) (text : String) (signature : SignatureSecp256k1) : Prop :=
  ∃ key, env.signedMessageHashToKey (mcHash env text) signature = .ok key

/-- and it decodes as a point of the curve -/
def RecoversPoint (env : Externals ρ) (text : String) (signature : SignatureSecp256k1) : Prop :=
  ∃ key bytes compressed, env.signedMessageHashToKey (mcHash env text) signature = .ok key ∧
    toBytesPadded key PUBLIC_KEY_SIZE = .ok bytes ∧ env.compressPoint (0x04 :: bytes) = .ok compressed

/-- only a key in compressed form is compared with a point -/
def Comparable (env : Externals ρ) (text : String) (signature : SignatureSecp256k1) (pubKey : Octets) : Prop :=
  if pubKey.head? = some 0x04 then Recoverable env text signature else RecoversPoint env text signature

theorem recoverUncompressedPubKey_unhandled (hlib : LibraryLaws env) (text : String) (signature : SignatureSecp256k1) :
    Unhandled (recoverUncompressedPubKey env text signature) := by
  have hhash : Unhandled (getMcHashedMsg env text) := by
    refine Unhandled.bind ?_ fun _ _ => trivial
    unfold failIf
    split_ifs <;> trivial
  refine hhash.bind fun hash _ => (unhandled_of_laws (hlib.recovery hash signature)).bind fun key _ => ?_
  unfold toBytesPadded
  split_ifs <;> trivial

theorem recoverUncompressedPubKey_ok {text : String} (htext : (env.utf8Bytes text).length ≤ 256)
    (signature : SignatureSecp256k1) (bytes : Octets) :
    recoverUncompressedPubKey env text signature = .ok bytes ↔
      ∃ key padded, env.signedMessageHashToKey (mcHash env text) signature = .ok key ∧
        toBytesPadded key PUBLIC_KEY_SIZE = .ok padded ∧ 0x04 :: padded = bytes := by
  have hhash : getMcHashedMsg env text = .ok (mcHash env text) := by
    rw [getMcHashedMsg, failIf, if_neg (not_lt.2 htext)]
    rfl
  simp only [recoverUncompressedPubKey, hhash, bind_ok_iff, Except.ok.injEq, exists_eq_left', pure, Except.pure]
  constructor
  · rintro ⟨key, hkey, padded, hpadded, heq⟩
    exact ⟨key, padded, hkey, hpadded, heq⟩
  · rintro ⟨key, padded, hkey, hpadded, heq⟩
    exact ⟨key, hkey, padded, hpadded, heq⟩

theorem recovered_iff (hlib : LibraryLaws env) {text : String} (htext : (env.utf8Bytes text).length ≤ 256)
    (signature : SignatureSecp256k1) :
    (∃ bytes, recoverUncompressedPubKey env text signature = .ok bytes) ↔ Recoverable env text signature := by
  simp only [recoverUncompressedPubKey_ok htext]
  constructor
  · rintro ⟨_, key, _, hkey, -⟩
    exact ⟨key, hkey⟩
  · rintro ⟨key, hkey⟩
    have hpadded : toBytesPadded key PUBLIC_KEY_SIZE = .ok ((List.range PUBLIC_KEY_SIZE).reverse.map fun i =>
        BitVec.ofNat 8 (key / 256 ^ i)) := by
      rw [toBytesPadded, if_neg (not_le.2 (hlib.key_length _ _ _ hkey))]
    exact ⟨_, key, _, hkey, hpadded, rfl⟩

theorem recoveredPoint_iff {text : String} (htext : (env.utf8Bytes text).length ≤ 256)
    (signature : SignatureSecp256k1) :
    (∃ bytes compressed, recoverUncompressedPubKey env text signature = .ok bytes ∧
      env.compressPoint bytes = .ok compressed) ↔
      RecoversPoint env text signature := by
  simp only [recoverUncompressedPubKey_ok htext]
  constructor
  · rintro ⟨_, compressed, ⟨key, padded, hkey, hpadded, rfl⟩, hpoint⟩
    exact ⟨key, padded, compressed, hkey, hpadded, hpoint⟩
  · rintro ⟨key, padded, compressed, hkey, hpadded, hpoint⟩
    exact ⟨_, compressed, ⟨key, padded, hkey, hpadded, rfl⟩, hpoint⟩

theorem toHorizenPublicKeyAddress_ok (hlib : LibraryLaws env) (bytes : Octets) :
    ∃ address, toHorizenPublicKeyAddress env (env.Ripemd160Sha256Hash bytes) = .ok address := by
  have hlen := hlib.hash_length bytes
  simp only [toHorizenPublicKeyAddress, failIf_ok, bind_ok_iff, copyOfRange_ok (Nat.zero_le _), not_not]
  exact ⟨_, (), hlen, _, ⟨Nat.zero_le _, rfl⟩, rfl⟩

theorem isValidOwnershipSignature_handled (hlib : LibraryLaws env) (sc : Address) (mc : String) (signature : SignatureSecp256k1) :
    Handled (isValidOwnershipSignature env sc mc signature) ↔ RecoversPoint env (env.toChecksumAddress sc) signature := by
  have htext : (env.utf8Bytes (env.toChecksumAddress sc)).length ≤ 256 := by
    have htext := hlib.text_length "" sc (by decide)
    rwa [String.empty_append] at htext
  have hunhandled : Unhandled (isValidOwnershipSignature env sc mc signature) := by
    refine (recoverUncompressedPubKey_unhandled hlib _ signature).bind fun bytes _ => ?_
    refine (unhandled_of_laws (hlib.compress bytes)).bind fun compressed _ => ?_
    obtain ⟨address, haddress⟩ := toHorizenPublicKeyAddress_ok hlib compressed
    rw [haddress]
    trivial
  rw [hunhandled.handled_iff, ← recoveredPoint_iff htext]
  simp only [isValidOwnershipSignature, bind_ok_iff]
  constructor
  · rintro ⟨_, bytes, hbytes, compressed, hpoint, -⟩
    exact ⟨bytes, compressed, hbytes, hpoint⟩
  · rintro ⟨bytes, compressed, hbytes, hpoint⟩
    obtain ⟨address, haddress⟩ := toHorizenPublicKeyAddress_ok hlib compressed
    exact ⟨_, bytes, hbytes, compressed, hpoint, address, haddress, rfl⟩

theorem isValidOwnershipMultisigSignature_unhandled (hlib : LibraryLaws env) (sc : Address) (mc : String) (pubKey : Octets)
    (signature : SignatureSecp256k1) : Unhandled (isValidOwnershipMultisigSignature env sc mc pubKey signature) := by
  refine (recoverUncompressedPubKey_unhandled hlib _ signature).bind fun bytes _ => ?_
  have hhead : Unhandled (pubKey.head?.elim (.error (.other "next on empty iterator")) .ok : Except Exc (BitVec 8)) := by
    cases pubKey <;> trivial
  refine hhead.bind fun head _ => ?_
  split_ifs
  · trivial
  · exact (unhandled_of_laws (hlib.compress bytes)).bind fun _ _ => trivial

/-- the key that a signature is compared with must not be empty -/
theorem isValidOwnershipMultisigSignature_ok (hlib : LibraryLaws env) {sc : Address} {mc : String} {pubKey : Octets}
    (hmc : mc.length ≤ HORIZEN_MC_TRANSPARENT_ADDRESS_BASE_58_LENGTH) (hkey : pubKey ≠ []) (signature : SignatureSecp256k1) :
    (∃ valid, isValidOwnershipMultisigSignature env sc mc pubKey signature = .ok valid) ↔
      Comparable env (mc ++ env.toChecksumAddress sc) signature pubKey := by
  have htext := hlib.text_length mc sc hmc
  obtain ⟨head, tail, rfl⟩ := List.exists_cons_of_ne_nil hkey
  simp only [isValidOwnershipMultisigSignature, Comparable, List.head?_cons, Option.some.injEq, Option.elim_some, bind_ok_iff,
    Except.ok.injEq, exists_eq_left']
  by_cases hhead : head = 0x04
  · simp only [if_pos hhead, ← recovered_iff hlib htext]
    constructor
    · rintro ⟨_, bytes, hbytes, -⟩
      exact ⟨bytes, hbytes⟩
    · rintro ⟨bytes, hbytes⟩
      exact ⟨_, bytes, hbytes, rfl⟩
  · simp only [if_neg hhead, ← recoveredPoint_iff htext, bind_ok_iff]
    constructor
    · rintro ⟨_, bytes, hbytes, compressed, hpoint, -⟩
      exact ⟨bytes, compressed, hbytes, hpoint⟩
    · rintro ⟨bytes, compressed, hbytes, hpoint⟩
      exact ⟨_, bytes, hbytes, compressed, hpoint, rfl⟩

/-! ## Multisig -/

section Loop

variable (comparable : SignatureSecp256k1 → Octets → Prop) (isValid : SignatureSecp256k1 → Octets → Except Exc Bool)
  (pubKeys : List (Octets × ℕ)) (thresholdSignatureValue : ℕ)

/-- a signature can be compared with the keys that are not used yet, up to the first that it is valid for -/
def KeysComparable (signature : SignatureSecp256k1) (verified : List ℕ) : List (Octets × ℕ) → Prop
  | [] => True
  | (pubKey, index) :: rest =>
    if index ∈ verified then KeysComparable signature verified rest
    else comparable signature pubKey ∧ (isValid signature pubKey = .ok false → KeysComparable signature verified rest)

/-- so can those that the loop gets to: it stops at one that fits no key, and when there are enough -/
def ComparableInTurn : List (SignatureSecp256k1 × ℕ) → List ℕ → Prop
  | [], _ => True
  | (signature, _) :: rest, verified => KeysComparable comparable isValid signature verified pubKeys ∧ ∀ index,
      findPubKey (isValid signature) verified pubKeys = .ok (some index) → verified.length + 1 < thresholdSignatureValue →
        ComparableInTurn rest (index :: verified)

variable {comparable isValid pubKeys thresholdSignatureValue}

/-- the search for a key ends with an exception when a comparison does -/
theorem findPubKey_handled {signature : SignatureSecp256k1} (verified : List ℕ)
    (hunhandled : ∀ key, Unhandled (isValid signature key))
    (hvalid : ∀ key ∈ pubKeys, (∃ valid, isValid signature key.1 = .ok valid) ↔ comparable signature key.1) :
    Handled (findPubKey (isValid signature) verified pubKeys) ↔
      KeysComparable comparable isValid signature verified pubKeys := by
  induction pubKeys with
  | nil => exact ⟨fun _ => trivial, fun _ => handled_ok _⟩
  | cons key pubKeys ih =>
    obtain ⟨pubKey, index⟩ := key
    have hrest := ih fun key hkey => hvalid key (List.mem_cons_of_mem _ hkey)
    have hfirst := hvalid _ List.mem_cons_self
    rw [findPubKey, KeysComparable]
    split_ifs with hused
    · exact hrest
    · rw [handled_bind, (hunhandled pubKey).handled_iff, hfirst, ← hrest]
      refine and_congr_right fun _ => ⟨fun h hfalse => h false hfalse, ?_⟩
      intro h valid hok
      cases valid with
      | true => exact handled_ok _
      | false => exact h hok

theorem verifySignatures_handled (hunhandled : ∀ signature key, Unhandled (isValid signature key))
    (hvalid : ∀ signature, ∀ key ∈ pubKeys, (∃ valid, isValid signature key.1 = .ok valid) ↔ comparable signature key.1)
    (signatures : List (SignatureSecp256k1 × ℕ)) (verified : List ℕ) :
    Handled (verifySignatures isValid pubKeys thresholdSignatureValue signatures verified) ↔
      ComparableInTurn comparable isValid pubKeys thresholdSignatureValue signatures verified := by
  induction signatures generalizing verified with
  | nil => exact ⟨fun _ => trivial, fun _ => handled_ok _⟩
  | cons pair rest ih =>
    obtain ⟨signature, position⟩ := pair
    rw [verifySignatures, ComparableInTurn, handled_bind, findPubKey_handled verified (hunhandled signature) (hvalid signature)]
    refine and_congr_right fun _ => ?_
    constructor
    · intro h index hindex hmore
      have hnext := h (some index) hindex
      dsimp only at hnext
      rw [if_neg (not_le.2 hmore), ih (index :: verified)] at hnext
      exact hnext
    · intro h found hfound
      cases found with
      | none => exact handled_reverted _ _
      | some index =>
        dsimp only
        split_ifs with hdone
        · exact handled_ok _
        · rw [ih (index :: verified)]
          exact h index hfound (not_le.1 hdone)

end Loop

/-! ## Scripts -/

/-- what is trapped around the reading of a script -/
def Trapped : Exc → Prop
  | .illegalArgument _ => True
  | e => e.isExecutionFailed = true

/-- every byte with the size of a key is inside the script, as far as the sizes before it are those of keys -/
def KeySizesInside (script : Octets) : ℕ → ℕ → Prop
  | 0, _ => True
  | remaining + 1, pos => ∃ size, script[pos]? = some size ∧
      ((size.toNat = HORIZEN_COMPRESSED_PUBLIC_KEY_LENGTH ∨ size.toNat = HORIZEN_UNCOMPRESSED_PUBLIC_KEY_LENGTH) →
        KeySizesInside script remaining (pos + 1 + size.toNat))

/-- the number that `OP_1` to `OP_16` stand for -/
def opNumber (b : BitVec 8) : ℕ := (b.toInt - OFFSET_FOR_OP_N).toNat

/-- the sizes of the keys of a script whose other bytes are as they should be -/
def ScriptInside (script : Octets) : Prop :=
  2 < script.length → script[script.length - 1]? = some OP_CHECKMULTISIG →
    ∀ numOfPubKeyByte, script[script.length - 2]? = some numOfPubKeyByte → IsOpN numOfPubKeyByte →
      ∀ thresholdByte, script[0]? = some thresholdByte → IsOpN thresholdByte →
        opNumber thresholdByte ≤ opNumber numOfPubKeyByte →
        KeySizesInside script (opNumber numOfPubKeyByte) 1

theorem checkRedeemScript_handled_iff (redeemScript : String) :
    Handled (checkRedeemScript env redeemScript) ↔ FailsOnly Trapped (checkMcRedeemScriptForMultisig env redeemScript) := by
  unfold checkRedeemScript
  cases checkMcRedeemScriptForMultisig env redeemScript with
  | ok result => simp
  | error e => cases e <;> simp [handled_error, Trapped, Exc.isExecutionFailed]

theorem byteAt_trapped {bytes : Octets} {i : ℕ} : FailsOnly Trapped (byteAt bytes i) ↔ i < bytes.length := by
  unfold byteAt
  by_cases hi : i < bytes.length
  · rw [List.getElem?_eq_getElem hi]
    simp [hi]
  · rw [List.getElem?_eq_none (not_lt.1 hi)]
    simp [hi, Trapped, Exc.isExecutionFailed]

theorem readPubKeys_trapped (script : Octets) (remaining n pos : ℕ) :
    FailsOnly Trapped (readPubKeys script remaining n pos) ↔ KeySizesInside script remaining pos := by
  induction remaining generalizing n pos with
  | zero => simp [readPubKeys, KeySizesInside]
  | succ remaining ih =>
    rw [readPubKeys, KeySizesInside, failsOnly_bind, byteAt_trapped]
    by_cases hpos : pos < script.length
    · have hsize : script[pos]? = some script[pos] := List.getElem?_eq_getElem hpos
      simp only [hpos, true_and, byteAt_ok, hsize, Option.some.injEq, forall_eq', exists_eq_left']
      rw [failsOnly_failIf_bind (by trivial), failsOnly_bind, ih]
      have hguard : ¬ (script[pos].toNat ≠ HORIZEN_COMPRESSED_PUBLIC_KEY_LENGTH ∧
          script[pos].toNat ≠ HORIZEN_UNCOMPRESSED_PUBLIC_KEY_LENGTH) ↔
          (script[pos].toNat = HORIZEN_COMPRESSED_PUBLIC_KEY_LENGTH ∨
            script[pos].toNat = HORIZEN_UNCOMPRESSED_PUBLIC_KEY_LENGTH) := by
        tauto
      rw [hguard]
      refine imp_congr_right fun _ => ⟨fun h => h.1, fun h => ⟨h, fun _ _ => trivial⟩⟩
    · simp [hpos]

theorem byteAt_bind_trapped {α : Type} {bytes : Octets} {i : ℕ} {f : BitVec 8 → Except Exc α} (hi : i < bytes.length) :
    FailsOnly Trapped (byteAt bytes i >>= f) ↔ ∀ b, bytes[i]? = some b → FailsOnly Trapped (f b) := by
  rw [failsOnly_bind, byteAt_trapped]
  simp only [hi, true_and, byteAt_ok]

/-- a requirement inside the reading of a script -/
theorem require_bind_trapped {α : Type} {c : Prop} [Decidable c] {message : String} {f : Unit → Except Exc α} :
    FailsOnly Trapped (failIf c (.illegalArgument message) >>= f) ↔ (¬ c → FailsOnly Trapped (f ())) :=
  failsOnly_failIf_bind trivial

theorem readPubKeys_bind_trapped {α : Type} {script : Octets} {remaining n pos : ℕ}
    {f : List Octets × ℕ → Except Exc α} :
    FailsOnly Trapped (readPubKeys script remaining n pos >>= f) ↔ KeySizesInside script remaining pos ∧
      ∀ result, readPubKeys script remaining n pos = .ok result → FailsOnly Trapped (f result) := by
  rw [failsOnly_bind, readPubKeys_trapped]

theorem checkRedeemScript_handled {redeemScript : String} {script : Octets}
    (hscript : env.fromHexString redeemScript = .ok script) :
    Handled (checkRedeemScript env redeemScript) ↔ ScriptInside script := by
  rw [checkRedeemScript_handled_iff, checkMcRedeemScriptForMultisig, hscript]
  show FailsOnly Trapped (failIf _ _ >>= _) ↔ _
  rw [require_bind_trapped]
  unfold ScriptInside
  rw [not_le]
  refine imp_congr_right fun hlen => ?_
  have hlast : script.length - 1 < script.length := by omega
  have hnum : script.length - 2 < script.length := by omega
  have hfirst : 0 < script.length := by omega
  rw [byteAt_bind_trapped hlast]
  simp only [require_bind_trapped, byteAt_bind_trapped hnum, byteAt_bind_trapped hfirst, readPubKeys_bind_trapped, not_not,
    not_lt, ne_eq]
  constructor
  · intro h hmultisig num hnumByte hop threshold hthreshold hopt hle
    exact (h _ hmultisig rfl num hnumByte hop threshold hthreshold hopt hle).1
  · rintro h last hmultisig rfl num hnumByte hop threshold hthreshold hopt hle
    refine ⟨h hmultisig num hnumByte hop threshold hthreshold hopt hle, ?_⟩
    rintro ⟨pubKeys, pos⟩ -
    exact fun _ => failsOnly_ok _

/-- the keys of a script are as many as asked for, and none is empty if all of them are inside the script -/
theorem readPubKeys_ok {script : Octets} {remaining n pos stop : ℕ} {pubKeys : List Octets}
    (hok : readPubKeys script remaining n pos = .ok (pubKeys, stop)) :
    pubKeys.length = remaining ∧ pos ≤ stop ∧ (stop ≤ script.length → ∀ key ∈ pubKeys, key ≠ []) := by
  induction remaining generalizing n pos pubKeys with
  | zero =>
    obtain ⟨rfl, rfl⟩ := Prod.mk.inj (Except.ok.inj hok)
    simp
  | succ remaining ih =>
    simp only [readPubKeys, bind_ok_iff, byteAt_ok, failIf_ok] at hok
    obtain ⟨size, -, ⟨⟩, hsize, ⟨rest, stop'⟩, hrest, hkeys⟩ := hok
    obtain ⟨rfl, rfl⟩ := Prod.mk.inj (Except.ok.inj hkeys)
    obtain ⟨hlength, hle, hne⟩ := ih hrest
    have hpositive : 0 < size.toNat := by
      unfold HORIZEN_COMPRESSED_PUBLIC_KEY_LENGTH HORIZEN_UNCOMPRESSED_PUBLIC_KEY_LENGTH at hsize
      omega
    refine ⟨by simp [hlength], by omega, ?_⟩
    intro hstop key hkey
    rcases List.mem_cons.1 hkey with rfl | hmem
    · rw [← List.length_pos_iff, List.length_take, List.length_drop]
      omega
    · exact hne hstop key hmem

theorem checkRedeemScript_ok {redeemScript : String} {threshold : ℕ} {pubKeys : List Octets}
    (hok : checkRedeemScript env redeemScript = .ok (threshold, pubKeys)) :
    0 < threshold ∧ threshold ≤ pubKeys.length ∧ ∀ key ∈ pubKeys, key ≠ [] := by
  have hcheck : checkMcRedeemScriptForMultisig env redeemScript = .ok (threshold, pubKeys) := by
    unfold checkRedeemScript at hok
    split at hok
    · cases hok
    · exact hok
  simp only [checkMcRedeemScriptForMultisig, bind_ok_iff, byteAt_ok, failIf_ok] at hcheck
  obtain ⟨script, -, ⟨⟩, -, last, -, ⟨⟩, -, num, -, ⟨⟩, hnum, first, -, ⟨⟩, hfirst, ⟨⟩, hle,
    ⟨keys, stop⟩, hkeys, ⟨⟩, hlen, hresult⟩ := hcheck
  obtain ⟨rfl, rfl⟩ := Prod.mk.inj (Except.ok.inj hresult)
  obtain ⟨hlength, -, hne⟩ := readPubKeys_ok hkeys
  have hop := (not_not.1 hfirst).1
  unfold OP_1 at hop
  unfold OFFSET_FOR_OP_N at hle ⊢
  refine ⟨by omega, ?_, hne (by omega)⟩
  rw [hlength]
  unfold OFFSET_FOR_OP_N
  omega

/-! ## Commands -/

section Commands

variable {db : Db ρ} {msg : Message} {assoc : List McAddrOwnershipData} {owners : List Address}

theorem getExistingAssociation_handled (s : Storage) (ownershipId : Key) : Handled (getExistingAssociation s ownershipId) := by
  unfold getExistingAssociation getOwnershipData
  split
  · exact handled_ok _
  · exact handled_ok _
  · exact handled_reverted _ _

/-- a command on the storage that succeeds -/
theorem exec_onStorage {α : Type} {x : StorageCommand α} {a : α} {s' : Storage} (h : exec x db.rest.storage = (.ok a, s')) :
    ∃ db', exec (onStorage x) db = (.ok a, db') := by
  refine ⟨{ db with rest := { db.rest with storage := s' } }, ?_⟩
  rw [onStorage, exec_onPart, h]

theorem addOwnership_handled (h : Inv db.rest.storage (listsOf assoc owners)) {sc : Address} {mc : String}
    (hlength : mc.length = HORIZEN_MC_TRANSPARENT_ADDRESS_BASE_58_LENGTH) : Handled (exec (addOwnership env sc mc) db).1 := by
  unfold addOwnership checkNotAssociated
  simp only [bind_assoc, exec_get_bind, handled_orThrow_bind, handled_throwIf_bind]
  refine ⟨getExistingAssociation_handled _ _, fun existing hexisting hnone => ?_⟩
  have hnone : existing = none := by simpa using hnone
  have hnew : mc ∉ assoc.map McAddrOwnershipData.mcTransparentAddress := by
    intro hmem
    obtain ⟨d, hd, rfl⟩ := List.mem_map.1 hmem
    rw [(getExistingAssociation_eq h.all).2 hd, hnone] at hexisting
    cases hexisting
  obtain ⟨s', hexec, -⟩ := h.add_association hnew hlength sc
  obtain ⟨db', hexec'⟩ := exec_onStorage hexec
  rw [exec_bind_of_ok hexec']
  exact handled_ok _

/-- the signature of a text can be read and a point recovered from it -/
def SignatureOk (env : Externals ρ) (text mcSignature : String) : Prop :=
  SignatureReadable env mcSignature ∧
    ∀ signature, getMcSignature env mcSignature = .ok signature → RecoversPoint env text signature

/-- the input of `sendKeysOwnership` -/
def AddInputOk (env : Externals ρ) (db : Db ρ) (msg : Message) : Prop :=
  msg.inv.value.sign = 0 → env.accountExists db msg.sender = true →
    ∀ inputParams, getArgumentsFromData msg.inv.input = .ok inputParams →
      ∀ cmdInput, decodeInput env.decodeAddNewOwnership inputParams = .ok cmdInput →
        SignatureOk env (env.toChecksumAddress msg.sender) cmdInput.mcSignature

theorem doAddNewOwnershipCmd_handled (hlib : LibraryLaws env) (h : Inv db.rest.storage (listsOf assoc owners)) :
    Handled (exec (doAddNewOwnershipCmd env msg) db).1 ↔ AddInputOk env db msg := by
  unfold doAddNewOwnershipCmd AddInputOk SignatureOk
  simp only [handled_throwIf_bind, handled_orThrow_bind, exec_get_bind, handled_decodeInput, handled_getArgumentsFromData,
    getMcSignature_handled hlib, isValidOwnershipSignature_handled hlib, not_not, ne_eq, true_and]
  refine imp_congr_right fun _ => imp_congr_right fun _ => forall_congr' fun inputParams => imp_congr_right fun _ => ?_
  refine forall_congr' fun cmdInput => imp_congr_right fun _ => and_congr_right fun _ => ?_
  refine forall_congr' fun signature => imp_congr_right fun _ => ⟨fun hall => hall.1, fun hrec => ⟨hrec, fun _ _ _ => ?_⟩⟩
  exact addOwnership_handled h cmdInput.address_length

/-- the signatures for a script that was read -/
def SignaturesOk (env : Externals ρ) (sender : Address) (cmdInput : AddNewMultisigOwnershipCmdInput) (threshold : ℕ)
    (pubKeys : List Octets) : Prop :=
  (∀ mcSignature ∈ cmdInput.mcSignatures, SignatureReadable env mcSignature) ∧
    ∀ signatures, cmdInput.mcSignatures.mapM (getMcSignature env) = .ok signatures →
      ComparableInTurn (Comparable env (cmdInput.mcTransparentAddress ++ env.toChecksumAddress sender))
        (fun signature pubKey => isValidOwnershipMultisigSignature env sender cmdInput.mcTransparentAddress pubKey signature)
        pubKeys.zipIdx threshold signatures.zipIdx []

/-- the script of an address that belongs to it, and then the signatures if there are enough -/
def ScriptOk (env : Externals ρ) (sender : Address) (cmdInput : AddNewMultisigOwnershipCmdInput) : Prop :=
  checkMultisigAddress env cmdInput.mcTransparentAddress cmdInput.redeemScript = true →
    (∀ script, env.fromHexString cmdInput.redeemScript = .ok script → ScriptInside script) ∧
      ∀ threshold pubKeys, checkRedeemScript env cmdInput.redeemScript = .ok (threshold, pubKeys) →
        threshold ≤ cmdInput.mcSignatures.length → SignaturesOk env sender cmdInput threshold pubKeys

/-- the input of `sendMultisigKeysOwnership` -/
def AddMultisigInputOk (env : Externals ρ) (db : Db ρ) (msg : Message) : Prop :=
  msg.inv.value.sign = 0 → env.accountExists db msg.sender = true →
    ∀ inputParams, getArgumentsFromData msg.inv.input = .ok inputParams →
      ∀ cmdInput, decodeInput env.decodeAddNewMultisigOwnership inputParams = .ok cmdInput → ScriptOk env msg.sender cmdInput

theorem checkMultisigAddress_script {mc redeemScript : String} (h : checkMultisigAddress env mc redeemScript = true) :
    ∃ script, env.fromHexString redeemScript = .ok script := by
  unfold checkMultisigAddress at h
  dsimp only at h
  split at h
  · rename_i equal hchecked
    simp only [bind_ok_iff] at hchecked
    obtain ⟨_, -, script, hscript, -⟩ := hchecked
    exact ⟨script, hscript⟩
  · cases h

theorem mapM_getMcSignature_handled (hlib : LibraryLaws env) (mcSignatures : List String) :
    Handled (mcSignatures.mapM (getMcSignature env)) ↔ ∀ s ∈ mcSignatures, SignatureReadable env s := by
  induction mcSignatures with
  | nil => simp [pure, Except.pure]
  | cons s rest ih =>
    rw [List.mapM_cons, handled_bind, getMcSignature_handled hlib, List.forall_mem_cons]
    refine and_congr_right fun hreadable => ?_
    obtain ⟨signature, hsig⟩ := (getMcSignature_ok_iff s).2 hreadable
    constructor
    · intro hrest
      have hbind := hrest signature hsig
      rw [handled_bind, ih] at hbind
      exact hbind.1
    · intro hrest signature _
      rw [handled_bind, ih]
      exact ⟨hrest, fun _ _ => handled_ok _⟩

theorem verifySignaturesWithThreshold_handled (hlib : LibraryLaws env) {sc : Address} {mc : String} {pubKeys : List Octets}
    {signatures : List SignatureSecp256k1} {threshold : ℕ} (hmc : mc.length ≤ HORIZEN_MC_TRANSPARENT_ADDRESS_BASE_58_LENGTH)
    (hkeys : ∀ key ∈ pubKeys, key ≠ []) :
    Handled (verifySignaturesWithThreshold env sc mc pubKeys signatures threshold) ↔
      ComparableInTurn (Comparable env (mc ++ env.toChecksumAddress sc))
        (fun signature pubKey => isValidOwnershipMultisigSignature env sc mc pubKey signature) pubKeys.zipIdx threshold
        signatures.zipIdx [] := by
  apply verifySignatures_handled
  · intro signature key
    exact isValidOwnershipMultisigSignature_unhandled hlib sc mc key signature
  · intro signature key hkey
    exact isValidOwnershipMultisigSignature_ok hlib hmc (hkeys _ (List.fst_mem_of_mem_zipIdx hkey)) signature

theorem doAddNewMultisigOwnershipCmd_handled (hlib : LibraryLaws env) (h : Inv db.rest.storage (listsOf assoc owners)) :
    Handled (exec (doAddNewMultisigOwnershipCmd env msg) db).1 ↔ AddMultisigInputOk env db msg := by
  unfold doAddNewMultisigOwnershipCmd AddMultisigInputOk ScriptOk SignaturesOk
  simp only [handled_throwIf_bind, handled_orThrow_bind, exec_get_bind, handled_decodeInput, handled_getArgumentsFromData,
    mapM_getMcSignature_handled hlib, not_not, ne_eq, true_and, not_lt, Bool.not_eq_false]
  refine imp_congr_right fun _ => imp_congr_right fun _ => forall_congr' fun inputParams => imp_congr_right fun _ => ?_
  refine forall_congr' fun cmdInput => imp_congr_right fun _ => ?_
  have hcount : cmdInput.mcSignatures.length ≤ MAX_NUM_OF_PUBKEYS_IN_MULTISIG := cmdInput.signatures_count
  simp only [hcount, true_imp_iff]
  refine imp_congr_right fun haddress => ?_
  obtain ⟨script, hscript⟩ := checkMultisigAddress_script haddress
  have hinside : (∀ script, env.fromHexString cmdInput.redeemScript = .ok script → ScriptInside script) ↔
      ScriptInside script := by
    simp only [hscript, Except.ok.injEq, forall_eq']
  rw [checkRedeemScript_handled hscript, hinside]
  refine and_congr_right fun _ => ?_
  rw [Prod.forall]
  refine forall_congr' fun threshold => forall_congr' fun pubKeys => imp_congr_right fun hcheck => imp_congr_right fun _ => ?_
  obtain ⟨-, -, hkeys⟩ := checkRedeemScript_ok hcheck
  refine and_congr_right fun _ => forall_congr' fun signatures => imp_congr_right fun _ => ?_
  rw [verifySignaturesWithThreshold_handled hlib (le_of_eq cmdInput.address_length) hkeys]
  exact ⟨fun hall => hall.1, fun hrec => ⟨hrec, fun _ _ _ => addOwnership_handled h cmdInput.address_length⟩⟩

theorem doRemoveOwnershipCmd_handled (h : Inv db.rest.storage (listsOf assoc owners)) :
    Handled (exec (doRemoveOwnershipCmd env msg) db).1 := by
  unfold doRemoveOwnershipCmd
  simp only [handled_throwIf_bind, handled_orThrow_bind, exec_get_bind, handled_decodeInput, handled_getArgumentsFromData,
    getExistingAssociation_handled, true_and]
  intro _ _ inputParams _ mc _ existing hexisting
  cases existing with
  | none =>
    rw [exec_getOrThrow_none_bind]
    exact handled_reverted _ _
  | some scAddr =>
    rw [exec_getOrThrow_some_bind, handled_throwIf_bind, not_not]
    intro hsender
    rw [← hsender] at hexisting
    obtain ⟨s', hexec, -⟩ := h.remove_association ((getExistingAssociation_eq h.all).1 hexisting)
    obtain ⟨db', hexec'⟩ := exec_onStorage hexec
    rw [exec_bind_of_ok hexec']
    exact handled_ok _

theorem doGetListOfOwnershipsCmd_handled (h : Inv db.rest.storage (listsOf assoc owners)) :
    Handled (exec (doGetListOfOwnershipsCmd env msg) db).1 := by
  unfold doGetListOfOwnershipsCmd
  simp only [handled_throwIf_bind, handled_orThrow_bind, handled_decodeInput, handled_getArgumentsFromData, true_and]
  intro _ inputParams _ sc _
  obtain ⟨s', hexec, -⟩ := getScAddrListOfMcAddrOwnerships_spec h sc
  obtain ⟨db', hexec'⟩ := exec_onStorage hexec
  rw [exec_bind_of_ok hexec']
  exact handled_ok _

/-- the queries without arguments -/
theorem noArguments_handled {α : Type} {read : Storage → Except Exc α} {a : α} (hread : read db.rest.storage = .ok a)
    (encode : α → Octets) : Handled (exec (do
      checkNoArguments msg
      let items ← orThrow (read (← get).rest.storage)
      return encode items : Command ρ Octets) db).1 := by
  unfold checkNoArguments
  simp only [bind_assoc, handled_throwIf_bind, handled_orThrow_bind, handled_getArgumentsFromData, true_and, exec_get_bind, hread]
  exact fun _ _ _ _ => ⟨handled_ok _, fun _ _ => handled_ok _⟩

/-- **Well-formed inputs.** What the inputs of the commands with signatures need to be like, when they get to them. -/
structure WellFormed (env : Externals ρ) (db : Db ρ) (msg : Message) : Prop where
  add : env.isForkActive msg.consensusEpochNumber = true → getFunctionSignature msg.inv.input = .ok AddNewOwnershipCmd →
    AddInputOk env db msg
  addMultisig : env.isForkActive msg.consensusEpochNumber = true →
    getFunctionSignature msg.inv.input = .ok AddNewMultisigOwnershipCmd →
    env.isMultisigForkActive msg.consensusEpochNumber = true → AddMultisigInputOk env db msg

theorem getFunctionSignature_handled (data : Octets) : Handled (getFunctionSignature data) := by
  unfold getFunctionSignature
  split_ifs
  · exact handled_reverted _ _
  · exact handled_ok _

theorem length_ne_zero_of_signature {data sig : Octets} (h : getFunctionSignature data = .ok sig) : ¬ data.length = 0 := by
  intro hzero
  rw [getFunctionSignature, if_pos (by rw [hzero]; decide)] at h
  cases h

theorem process_handled (hlib : LibraryLaws env) (h : Inv db.rest.storage (listsOf assoc owners)) :
    Handled (exec (process env msg) db).1 ↔ WellFormed env db msg := by
  have htip : db.rest.storage.words OwnershipsLinkedListTipKey ≠ .zero :=
    Holds.tip_ne_zero h.all.holds (by exact Key.noConfusion)
  unfold process
  simp only [handled_throwIf_bind, handled_orThrow_bind, exec_get_bind, getFunctionSignature_handled, true_and, Bool.not_eq_false]
  constructor
  · intro hall
    refine ⟨fun hfork hsig => ?_, fun hfork hsig hmultisig => ?_⟩
    · have hcmd := hall hfork htip (length_ne_zero_of_signature hsig) _ hsig
      rw [if_neg (by decide), if_pos rfl] at hcmd
      exact (doAddNewOwnershipCmd_handled hlib h).1 hcmd
    · have hcmd := hall hfork htip (length_ne_zero_of_signature hsig) _ hsig
      rw [if_pos rfl, if_pos hmultisig] at hcmd
      exact (doAddNewMultisigOwnershipCmd_handled hlib h).1 hcmd
  · intro hwell hfork _ _ functionSig hsig
    split_ifs with hmulti hmultisig hadd hremove hall howned howners
    · subst hmulti
      exact (doAddNewMultisigOwnershipCmd_handled hlib h).2 (hwell.addMultisig hfork hsig hmultisig)
    · exact handled_reverted _ _
    · subst hadd
      exact (doAddNewOwnershipCmd_handled hlib h).2 (hwell.add hfork hsig)
    · exact doRemoveOwnershipCmd_handled h
    · exact noArguments_handled (getListOfMcAddrOwnerships_eq h.all) env.encodeOwnerships
    · exact doGetListOfOwnershipsCmd_handled h
    · exact noArguments_handled (getListOfOwnerScAddresses_eq h.owners) env.encodeOwners
    · exact handled_reverted _ _

end Commands

/-! ## Both contracts -/

section Contracts

variable {σ : Type} (params : OpenForgerList.NetworkParams) (env : Externals ρ) (forgerEnv : OpenForgerList.Externals σ)

/-- **User input.** In every state that messages reach, a message to the ownership contract ends with a result or an execution
failure if and only if its input is well formed; and a message with a method id of `openStakeForgerList` if and only if it does
not get to that command, or its index is not the last `Int` and it has a nonce when the index is one of an allowed forger. -/
theorem user_input_handled (hlib : LibraryLaws env) (m : Machine (ContractDb ρ))
    (hstart : m.view.stateDb.rest.storage = initialStorage) (msgs : List Message) (msg : Message)
    (fm : Machine (OpenForgerList.ContractDb σ)) (hflags : fm.view.stateDb.rest.restrictForgerList = none)
    (fmsgs : List OpenForgerList.Message) (fmsg : OpenForgerList.Message)
    (hsig : getFunctionSignature fmsg.inv.input = .ok OpenForgerList.OpenStakeForgerListCmd ∨
      getFunctionSignature fmsg.inv.input = .ok OpenForgerList.OpenStakeForgerListCmdCorrect) :
    (Handled (exec (process env msg) (run (toRequest env) m msgs).view.stateDb).1 ↔
        WellFormed env (run (toRequest env) m msgs).view.stateDb msg) ∧
      (Handled (exec (OpenForgerList.process params forgerEnv fmsg)
          (run (OpenForgerList.toRequest params forgerEnv) fm fmsgs).view.stateDb).1 ↔
        (OpenForgerList.Reaches forgerEnv (run (OpenForgerList.toRequest params forgerEnv) fm fmsgs).view.stateDb fmsg →
          OpenForgerList.InputOk params forgerEnv fmsg)) := by
  constructor
  · obtain ⟨owners, hinv, -⟩ := run_stored env hstart msgs
    exact process_handled hlib hinv
  · have hstart' : OpenForgerList.FlagsOk params fm.view.stateDb := by
      intro flags hsome
      rw [hflags] at hsome
      cases hsome
    exact OpenForgerList.openStakeForgerList_handled (OpenForgerList.flags_length params forgerEnv hstart' fmsgs) hsig

end Contracts

/-! The owner of a mainchain address signs, and what the libraries compute on that. -/

section Sample

/-- big-endian -/
def octets (length value : ℕ) : Octets := (List.range length).reverse.map fun i => BitVec.ofNat 8 (value / 256 ^ i)

def ascii (s : String) : Octets := s.toList.map fun c => BitVec.ofNat 8 c.toNat

def asciiText (bytes : Octets) : String := String.ofList (bytes.map fun b => Char.ofNat b.toNat)

def base64Alphabet : String := "ABCDEFGHIJKLMNOPQRSTUVWXYZabcdefghijklmnopqrstuvwxyz0123456789+/"

def base58Alphabet : String := "123456789ABCDEFGHJKLMNPQRSTUVWXYZabcdefghijkmnopqrstuvwxyz"

def base64 (s : String) : Except Exc Octets :=
  match (s.toList.filter (· ≠ '=')).mapM (base64Alphabet.toList.idxOf? ·) with
  | none => .error (.illegalArgument "Illegal base64 character")
  | some digits => .ok (octets (6 * digits.length / 8) (digits.foldl (fun n d => n * 64 + d) 0 / 2 ^ (6 * digits.length % 8)))

/-- of an address -/
def base58 (bytes : Octets) : String :=
  String.ofList ((List.range HORIZEN_MC_TRANSPARENT_ADDRESS_BASE_58_LENGTH).reverse.map fun i =>
    base58Alphabet.toList.getD ((toUnsigned bytes).toNat / 58 ^ i % 58) '1')

def secp256k1P : ℤ := 2 ^ 256 - 2 ^ 32 - 977

/-- an uncompressed key as a point, and back in compressed form -/
def compressed (bytes : Octets) : Except Exc Octets :=
  let x := toUnsigned ((bytes.drop 1).take 32)
  let y := toUnsigned (bytes.drop 33)
  if bytes.length ≠ 65 then .error (.illegalArgument "Incorrect length for uncompressed encoding")
  else if secp256k1P ≤ x ∨ secp256k1P ≤ y ∨ y * y % secp256k1P ≠ (x * x * x + 7) % secp256k1P then
    .error (.illegalArgument "Invalid point coordinates")
  else .ok ((if y % 2 = 0 then 0x02 else 0x03) :: (bytes.drop 1).take 32)

/-- two words for the address and three for the signature, with zeros behind the first of each -/
def decodeOwnership (args : Octets) : Except String AddNewOwnershipCmdInput :=
  let mcAddress := asciiText (args.take 3 ++ (args.drop 32).take 32)
  let signature := asciiText ((args.drop 64).take 24 ++ (args.drop 96).take 64)
  if h : mcAddress.length = HORIZEN_MC_TRANSPARENT_ADDRESS_BASE_58_LENGTH ∧
      signature.length = HORIZEN_MC_SIGNATURE_BASE_64_LENGTH then .ok ⟨mcAddress, signature, h.1, h.2⟩
  else .error "Invalid mc address or signature length"

def ownerAddress : Address := 0x00c8f107a09cd4f463afc2f1e6e5bf6022ad4600

def ownerMcAddress : String := "ztZzTK8meAb3Be1XXN36Zu9NEAMCkYdiXXi"

def ownerSignature : SignatureSecp256k1 where
  v := 27
  r := 0x76165d425ba603f57304f842ec80afd25255e8553d6a55f38d56d19bff193adf
  s := 0x7dad497f01eadf80a33356394d65b3f36bed5327dd3e1e8af638c92360ca63c1

/-- of the generator, with an `s` that makes the recovered point the one at infinity -/
def infinitySignature : SignatureSecp256k1 where
  v := 28
  r := 0x79be667ef9dcbbac55a06295ce870b07029bfcdb2dce28d959f2815b16f81798
  s := 0x6a35b211eb4d4d9d7c565ef80da42a32cef2d5362fb571e2c2c0b27fe1fec539

def ownerKey : ℕ :=
  0xf366638c5bb9915feed255bbf6f07cbc5e758eed3e57220de762a3c36da70257 * 2 ^ 256 +
    0x17fee455bc2a184656eead53f01da2115373846a7048812a1b134e42039e4b51

/-- the hash of the text that the owner signs -/
def ownerHash : Octets := octets 32 0x95ca4dee14b2b26283a9a107f25bd5cbebbc07b07f932e58fd11ac0cee377c08

/-- the libraries on the address, the key and the signatures of the owner -/
def ownerExternals : Externals Unit where
  isForkActive _ := true
  isMultisigForkActive _ := true
  accountExists db address := 0 < db.balance address
  decodeAddNewOwnership := decodeOwnership
  decodeAddNewMultisigOwnership _ := .error "not used"
  decodeRemoveOwnership args := .ok (asciiText (args.take 3 ++ (args.drop 32).take 32))
  decodeGetOwnerships args := .ok (BitVec.ofNat 160 (ForgerStakeV2.wordOf args 0))
  encodeOwnerships items := ForgerStakeV2.bytesOf items.length
  encodeOwners items := ForgerStakeV2.bytesOf items.length
  keccakBytes s :=
    if s = ownerMcAddress then octets 32 0xe61a83fc513c8cdad1ae6eaf0aff8b4442c823af00668efa8674575659893482
    else List.replicate 32 0
  utf8Bytes := ascii
  toChecksumAddress sc :=
    if sc = ownerAddress then "0x00C8F107a09cd4f463AFc2f1E6E5bF6022Ad4600" else "0x" ++ toStringNoPrefix sc
  mainNet := false
  base58Encode := base58
  base58Decode _ := .error (.illegalArgument "not used")
  base64Decode := base64
  fromHexString _ := .error (.illegalArgument "not used")
  doubleSHA256Hash bytes :=
    if bytes = 22 :: ascii "Zcash Signed Message:\n" ++ 42 :: ascii "0x00C8F107a09cd4f463AFc2f1E6E5bF6022Ad4600" then ownerHash
    else if bytes = octets 22 0x20984afc8e494975800d12ac70c8e1b227b25fede44f then
      octets 32 0x979b30756efadd8f59cd1927b3a1ad79a568689e9396e7620f5966d8d7c4d617
    else List.replicate 32 0
  Ripemd160Sha256Hash bytes :=
    if bytes = octets 33 0x03f366638c5bb9915feed255bbf6f07cbc5e758eed3e57220de762a3c36da70257 then
      octets 20 0x4afc8e494975800d12ac70c8e1b227b25fede44f
    else List.replicate 20 0
  signedMessageHashToKey hash signature :=
    if hash = ownerHash ∧ signature = ownerSignature then .ok ownerKey
    else if hash = ownerHash ∧ signature = infinitySignature then .ok 0
    else .error (.other "Could not recover public key from signature")
  compressPoint := compressed
  gasCost _ _ := 50000

theorem compressed_error {bytes : Octets} {e : Exc} (h : compressed bytes = .error e) : e.isExecutionFailed = false := by
  unfold compressed at h
  dsimp only at h
  split_ifs at h
  · cases h
    rfl
  · cases h
    rfl

theorem base64_error {s : String} {e : Exc} (h : base64 s = .error e) : e.isExecutionFailed = false := by
  unfold base64 at h
  split at h
  · cases h
    rfl
  · cases h

theorem octets_length (length value : ℕ) : (octets length value).length = length := by
  rw [octets, List.length_map, List.length_reverse, List.length_range]

theorem ownerExternals_laws : LibraryLaws ownerExternals where
  base64 _ _ h := base64_error h
  recovery hash signature e h := by
    dsimp only [ownerExternals] at h
    split_ifs at h
    obtain rfl := Except.error.inj h
    rfl
  key_length hash signature key h := by
    dsimp only [ownerExternals] at h
    split_ifs at h
    · obtain rfl := Except.ok.inj h
      norm_num [ownerKey, PUBLIC_KEY_SIZE]
    · obtain rfl := Except.ok.inj h
      norm_num [PUBLIC_KEY_SIZE]
  compress _ _ h := compressed_error h
  hash_length bytes := by
    dsimp only [ownerExternals]
    split_ifs
    · exact octets_length _ _
    · exact List.length_replicate
  text_length mc sc hmc := by
    have hsc : (ownerExternals.toChecksumAddress sc).length ≤ 42 := by
      dsimp only [ownerExternals]
      split_ifs
      · decide
      · simp only [toStringNoPrefix, String.length_append, String.length_ofList, List.length_map, List.length_reverse,
          List.length_range]
        decide
    have hlen : (ascii (mc ++ ownerExternals.toChecksumAddress sc)).length =
        mc.length + (ownerExternals.toChecksumAddress sc).length := by
      rw [ascii, List.length_map, String.length_toList, String.length_append]
    unfold HORIZEN_MC_TRANSPARENT_ADDRESS_BASE_58_LENGTH at hmc
    show (ascii _).length ≤ 256
    omega

/-- the owner has some coins -/
def ownerMachine : Machine (ContractDb Unit) where
  view := ⟨⟨Function.update (fun _ => 0) ownerAddress (10 ^ 18), fun _ => 0, fun _ => true, 0,
    ⟨initialStorage, [], ()⟩⟩, false⟩
  blockGasPool := GasPool.new 30000000
  invocationStack := []
  depth := 0
  gasTrace := []

/-- the owner sends a signature for its mainchain address -/
def ownerMessage (signature : String) : Message :=
  let address := ascii ownerMcAddress
  let bytes := ascii signature
  let args := address.take 3 ++ List.replicate 29 0 ++ address.drop 3 ++ (bytes.take 24 ++ List.replicate 8 0 ++ bytes.drop 24)
  ⟨⟨⟨ownerAddress, some 0x88888888888888888888, 0, AddNewOwnershipCmd ++ args, false⟩, GasPool.new 100000⟩,
    ownerAddress, 70⟩

def signed : Message := ownerMessage "H3YWXUJbpgP1cwT4QuyAr9JSVehVPWpV841W0Zv/GTrffa1JfwHq34CjM1Y5TWWz82vtUyfdPh6K9jjJI2DKY8E="

/-- the signature of the point at infinity -/
def signedInfinity : Message :=
  ownerMessage "IHm+Zn753LusVaBilc6HCwcCm/zbLc4o2VnygVsW+BeYajWyEetNTZ18Vl74DaQqMs7y1TYvtXHiwsCyf+H+xTk="

def notBase64 : Message :=
  ownerMessage "!!!!!!!!!!!!!!!!!!!!!!!!!!!!!!!!!!!!!!!!!!!!!!!!!!!!!!!!!!!!!!!!!!!!!!!!!!!!!!!!!!!!!!!!"

theorem sample_inputs_well_formed :
    WellFormed ownerExternals (run (toRequest ownerExternals) ownerMachine [signed]).view.stateDb signed ∧
      OpenForgerList.InputOk OpenForgerList.sampleParams OpenForgerList.sampleExternals (OpenForgerList.sampleMessage 0) := by
  have hsig : getFunctionSignature
      (OpenForgerList.sampleMessage 0).inv.input = .ok OpenForgerList.OpenStakeForgerListCmdCorrect := by
    decide +kernel
  have hboth := user_input_handled OpenForgerList.sampleParams ownerExternals OpenForgerList.sampleExternals ownerExternals_laws
    ownerMachine rfl [signed] signed OpenForgerList.sampleMachine rfl [] (OpenForgerList.sampleMessage 0) (.inr hsig)
  exact ⟨hboth.1.1 (by decide +kernel), hboth.2.1 (by decide +kernel) (.inr ⟨hsig, rfl⟩)⟩

/-- exceptions that leave no failed receipt: a signature that is not Base64, one that recovers the point at infinity, and the
last `Int` as an index -/
theorem malformed_inputs_unhandled :
    ¬ Handled (exec (process ownerExternals notBase64) ownerMachine.view.stateDb).1 ∧
      ¬ Handled (exec (process ownerExternals signedInfinity) ownerMachine.view.stateDb).1 ∧
      ¬ Handled (exec (OpenForgerList.process OpenForgerList.sampleParams OpenForgerList.sampleExternals
        (OpenForgerList.sampleMessage (2 ^ 31 - 1))) OpenForgerList.sampleMachine.view.stateDb).1 := by
  decide +kernel

end Sample

end SidechainsSdk.Account.McAddrOwnership
