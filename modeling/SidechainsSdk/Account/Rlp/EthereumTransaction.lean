/-
`EthereumTransaction` and its wire formats: legacy and EIP-155 transactions are an RLP list of nine values, EIP-1559
transactions the byte 2 and a list of twelve. The chain id and the recovery id of a signature share the value v of the
first format.

How `RlpString.create` writes an integer is not part of this code. The encoder takes it as a parameter, and what is used
of it is `RlpInteger`: it writes the big-endian bytes of a number that is not negative, without leading zeros.
-/
import SidechainsSdk.Core.MachineInt
import SidechainsSdk.Account.Rlp.Decoder

namespace SidechainsSdk.Account.TransactionCodec

open BigEndian Fallible MachineInt Rlp

inductive CodecError where
  | rlp (cause : Rlp.DecodeError)
  /-- Spurious bytes found in byte stream after obj parsing -/
  | spuriousBytes (trailingBytes : Bytes)
  /-- unexpected number of values in rlp list -/
  | unexpectedNumberOfValues (size : ℕ)
  /-- value has leading zero in rlp encoding -/
  | leadingZero (fieldName : String) (rawValueBytes : Bytes)
  /-- Bit size exceeds the limit of 256 -/
  | bitSize (value : ℕ)
  /-- Access list is not supported -/
  | accessList
  /-- Incorrect address length -/
  | addressLength (found : ℕ)
  /-- Non positive v/r/s obj passed in signature data -/
  | nonPositive
  /-- Too large a v obj passed in signature data -/
  | tooLargeV
  /-- Invalid v obj passed in signature data -/
  | invalidV (v : ℤ)
  /-- Invalid s obj passed in signature data -/
  | invalidS
  /-- Invalid signature r/s obj passed in signature data -/
  | invalidRS
  /-- Unsupported v parameter -/
  | unsupportedV (v : ℤ)
  /-- the exception of `longValueExact` -/
  | outOfLongRange
  /-- the exception of a cast to `RlpString` or `RlpList` -/
  | classCast
  /-- the exceptions of a list without its first element, and of a reader without bytes -/
  | indexOutOfBounds

/-! ## Signatures -/

def LOWER_REAL_V : ℤ := 27

def CHAIN_ID_INC : ℤ := 35

def REAL_V_REPLAY_PROTECTED : ℤ := 35

def secp256k1N : ℤ := 0xfffffffffffffffffffffffffffffffebaaedce6af48a03bbfd25e8cd0364141

def secp256k1halfN : ℤ := secp256k1N / 2

def verifySignatureData (v r s : ℤ) : Except CodecError Unit := do
  failIf (v ≤ 0 ∨ r ≤ 0 ∨ s ≤ 0) .nonPositive
  failIf (2 ^ 8 ≤ v) .tooLargeV
  failIf (v ≠ 27 ∧ v ≠ 28) (.invalidV v)
  failIf (secp256k1halfN < s) .invalidS
  failIf (secp256k1N ≤ r) .invalidRS

/-- only with values that pass the check of the constructor -/
structure SignatureSecp256k1 where
  v : ℤ
  r : ℤ
  s : ℤ
  verified : verifySignatureData v r s = .ok ()

/-- the constructor -/
def SignatureSecp256k1.make (v r s : ℤ) : Except CodecError SignatureSecp256k1 :=
  match h : verifySignatureData v r s with
  | .ok () => .ok ⟨v, r, s, h⟩
  | .error e => .error e

/-! ## Transactions -/

abbrev AddressProposition := { address : Bytes // address.length = 20 }

/-- what the three constructors differ in: the chain id is null in a legacy transaction that is not EIP-155 -/
inductive Pricing where
  | legacy (chainId : Option ℤ) (gasPrice : ℤ)
  | dynamicFee (chainId maxPriorityFeePerGas maxFeePerGas : ℤ)

structure EthereumTransaction where
  pricing : Pricing
  nonce : ℤ
  optTo : Option AddressProposition
  gasLimit : ℤ
  value : ℤ
  data : Bytes
  signature : Option SignatureSecp256k1

/-! ## The encoder -/

/-- `RlpString.create` for integers -/
structure RlpInteger (create : ℤ → Bytes) : Prop where
  value_create : ∀ n : ℕ, value (create n) = n
  noLeadingZero_create : ∀ n : ℕ, NoLeadingZero (create n)

section Encoder

variable (create : ℤ → Bytes)

def createEip155v (v chainId : ℤ) : ℤ := v - LOWER_REAL_V + chainId * 2 + CHAIN_ID_INC

def getRecId (v chainId : ℤ) : Except CodecError ℤ :=
  if v ≠ LOWER_REAL_V ∧ v ≠ LOWER_REAL_V + 1 then
    if REAL_V_REPLAY_PROTECTED ≤ v then .ok (intOf (v - chainId * 2 - CHAIN_ID_INC)) else .error (.unsupportedV v)
  else .ok (v - LOWER_REAL_V)

def createInt (n : ℤ) : RlpType := .rlpString (create n)

def createTo (optTo : Option AddressProposition) : RlpType := .rlpString ((optTo.map Subtype.val).getD [])

/-- the v of a signed legacy transaction -/
def signedV (chainId : Option ℤ) (v : ℤ) : ℤ :=
  match chainId with
  | some chainId => createEip155v v chainId
  | none => v

/-- v, r and s of a legacy transaction -/
def legacySignature (chainId : Option ℤ) : Option SignatureSecp256k1 → List RlpType
  | some signature =>
    [createInt create (signedV chainId signature.v), createInt create signature.r, createInt create signature.s]
  | none => [createInt create (chainId.getD 0), createInt create 0, createInt create 0]

def LegacyTransaction2RlpList (tx : EthereumTransaction) (chainId : Option ℤ) (gasPrice : ℤ)
    (accountSignature : Bool) : List RlpType :=
  [createInt create tx.nonce, createInt create gasPrice, createInt create tx.gasLimit, createTo tx.optTo,
    createInt create tx.value, .rlpString tx.data] ++
    if accountSignature then legacySignature create chainId tx.signature
    else match chainId with
      | some chainId => [createInt create chainId, createInt create 0, createInt create 0]
      | none => []

def EIP1559Transaction2RlpList (tx : EthereumTransaction) (chainId maxPriorityFeePerGas maxFeePerGas : ℤ)
    (accountSignature : Bool) : Except CodecError (List RlpType) := do
  let values := [createInt create chainId, createInt create tx.nonce, createInt create maxPriorityFeePerGas,
    createInt create maxFeePerGas, createInt create tx.gasLimit, createTo tx.optTo, createInt create tx.value,
    .rlpString tx.data, .rlpList []]
  if accountSignature then
    match tx.signature with
    | some signature =>
      let recId ← getRecId signature.v chainId
      pure (values ++ [createInt create recId, createInt create signature.r, createInt create signature.s])
    | none => pure (values ++ [createInt create chainId, createInt create 0, createInt create 0])
  else
    pure values

def encodeAsRlpValues (tx : EthereumTransaction) (accountSignature : Bool) : Except CodecError Bytes :=
  match tx.pricing with
  | .dynamicFee chainId maxPriorityFeePerGas maxFeePerGas => do
    let rlpList ← EIP1559Transaction2RlpList create tx chainId maxPriorityFeePerGas maxFeePerGas accountSignature
    pure (2 :: encode (.rlpList rlpList))
  | .legacy chainId gasPrice =>
    .ok (encode (.rlpList (LegacyTransaction2RlpList create tx chainId gasPrice accountSignature)))

end Encoder

/-! ## The decoder -/

def asString : RlpType → Except CodecError Bytes
  | .rlpString bytes => .ok bytes
  | .rlpList _ => .error .classCast

def asList : RlpType → Except CodecError (List RlpType)
  | .rlpString _ => .error .classCast
  | .rlpList values => .ok values

/-- `BigIntegerUInt256` -/
def bigIntegerUInt256 (bytes : Bytes) : Except CodecError ℤ := do
  failIf (2 ^ 256 ≤ value bytes) (.bitSize (value bytes))
  pure (value bytes)

def getCheckedValue (rawValueString : RlpType) (fieldName : String) : Except CodecError ℤ := do
  let rawValueBytes ← asString rawValueString
  failIf (1 < rawValueBytes.length ∧ rawValueBytes.head? = some 0) (.leadingZero fieldName rawValueBytes)
  bigIntegerUInt256 rawValueBytes

def getToAddressFromBytes (addressBytes : Bytes) : Except CodecError (Option AddressProposition) :=
  if addressBytes = [] then .ok none
  else if h : addressBytes.length = 20 then .ok (some ⟨addressBytes, h⟩)
  else .error (.addressLength addressBytes.length)

def longValueExact (n : ℤ) : Except CodecError ℤ :=
  if -2 ^ 63 ≤ n ∧ n < 2 ^ 63 then .ok n else .error .outOfLongRange

def getRealV (bv : ℤ) : ℤ :=
  let v := bv.bmod (2 ^ 64)
  if v = LOWER_REAL_V ∨ v = LOWER_REAL_V + 1 then bv
  else LOWER_REAL_V + if (intOf v).tmod 2 = 0 then 1 else 0

def decodeEip155ChainId (bv : ℤ) : Except CodecError ℤ := do
  let v ← longValueExact bv
  if v = LOWER_REAL_V ∨ v = LOWER_REAL_V + 1 then pure 0
  else pure ((v - CHAIN_ID_INC).tdiv 2)

def getVFromRecId (recId : ℤ) : ℤ := recId + LOWER_REAL_V

/-- chain id and signature of a legacy transaction; without r and s it is unsigned, and v is the chain id -/
def decodeLegacySignature (v r s : ℤ) : Except CodecError (ℤ × Option SignatureSecp256k1) :=
  if r = 0 ∧ s = 0 then do
    let chainId ← longValueExact v
    pure (chainId, none)
  else do
    let chainId ← decodeEip155ChainId v
    let signature ← SignatureSecp256k1.make (getRealV v) r s
    pure (chainId, some signature)

/-- the signature of an EIP-1559 transaction, none without r and s -/
def decodeSignature (vOrig r s : ℤ) : Except CodecError (Option SignatureSecp256k1) :=
  if r = 0 ∧ s = 0 then pure none
  else do
    let signature ← SignatureSecp256k1.make (getVFromRecId vOrig) r s
    pure (some signature)

def RlpList2LegacyTransaction : List RlpType → Except CodecError EthereumTransaction
  | [v0, v1, v2, v3, v4, v5, v6, v7, v8] => do
    let nonce ← getCheckedValue v0 "gasNonce"
    let gasPrice ← getCheckedValue v1 "gasPrice"
    let gasLimit ← getCheckedValue v2 "gasLimit"
    let toBytes ← asString v3
    let optTo ← getToAddressFromBytes toBytes
    let value ← getCheckedValue v4 "value"
    let data ← asString v5
    let v ← getCheckedValue v6 "sig_v"
    let r ← getCheckedValue v7 "sig_r"
    let s ← getCheckedValue v8 "sig_s"
    let (chainId, signature) ← decodeLegacySignature v r s
    pure { pricing := .legacy (if chainId ≠ 0 then some chainId else none) gasPrice,
           nonce, optTo, gasLimit, value, data, signature }
  | values => .error (.unexpectedNumberOfValues values.length)

def RlpList2EIP1559Transaction : List RlpType → Except CodecError EthereumTransaction
  | [v0, v1, v2, v3, v4, v5, v6, v7, v8, v9, v10, v11] => do
    let chainId ← getCheckedValue v0 "chainId" >>= longValueExact
    let nonce ← getCheckedValue v1 "gasNonce"
    let maxPriorityFeePerGas ← getCheckedValue v2 "maxPriorityFeePerGas"
    let maxFeePerGas ← getCheckedValue v3 "maxFeePerGas"
    let gasLimit ← getCheckedValue v4 "gasLimit"
    let toBytes ← asString v5
    let optTo ← getToAddressFromBytes toBytes
    let value ← getCheckedValue v6 "value"
    let data ← asString v7
    let accessList ← asList v8
    failIf (0 < accessList.length) .accessList
    let vOrig ← getCheckedValue v9 "sig_v"
    let r ← getCheckedValue v10 "sig_r"
    let s ← getCheckedValue v11 "sig_s"
    let signature ← decodeSignature vOrig r s
    pure { pricing := .dynamicFee chainId maxPriorityFeePerGas maxFeePerGas,
           nonce, optTo, gasLimit, value, data, signature }
  | values => .error (.unexpectedNumberOfValues values.length)

/-- the list at the reader, made a transaction; no bytes may follow -/
def decodeList (convert : List RlpType → Except CodecError EthereumTransaction) (reader : ByteReader) :
    Except CodecError EthereumTransaction :=
  match exec Rlp.decode reader with
  | (.error e, _) => .error (.rlp e)
  | (.ok [], _) => .error .indexOutOfBounds
  | (.ok (rlpList :: _), reader') => do
    let values ← asList rlpList
    let tx ← convert values
    failIf (0 < reader'.remaining) (.spuriousBytes reader'.rest)
    pure tx

def decode : Bytes → Except CodecError EthereumTransaction
  | [] => .error .indexOutOfBounds
  | firstByte :: bytes =>
    if firstByte = 2 then decodeList RlpList2EIP1559Transaction ⟨1, bytes⟩
    else decodeList RlpList2LegacyTransaction ⟨0, firstByte :: bytes⟩

/-! ## Signatures and integers -/

theorem verifySignatureData_ok {v r s : ℤ} : verifySignatureData v r s = .ok () ↔
    (v = 27 ∨ v = 28) ∧ 0 < r ∧ r < secp256k1N ∧ 0 < s ∧ s ≤ secp256k1halfN := by
  simp only [verifySignatureData, failIf_bind_ok, failIf_ok]
  omega

theorem SignatureSecp256k1.bounds (signature : SignatureSecp256k1) :
    (signature.v = 27 ∨ signature.v = 28) ∧ 0 < signature.r ∧ signature.r < secp256k1N ∧ 0 < signature.s ∧
      signature.s ≤ secp256k1halfN := verifySignatureData_ok.1 signature.verified

theorem SignatureSecp256k1.make_ok {v r s : ℤ} {signature : SignatureSecp256k1} :
    SignatureSecp256k1.make v r s = .ok signature ↔ signature.v = v ∧ signature.r = r ∧ signature.s = s := by
  unfold SignatureSecp256k1.make
  constructor
  · intro h
    split at h
    · cases h
      exact ⟨rfl, rfl, rfl⟩
    · cases h
  · rintro ⟨rfl, rfl, rfl⟩
    split
    · rfl
    · next e he => cases signature.verified.symm.trans he

/-- truncated division by two -/
theorem tdiv_two (n : ℤ) : n.tdiv 2 = if 0 ≤ n ∨ n % 2 = 0 then n / 2 else n / 2 + 1 := by
  have hdvd : 2 ∣ n ↔ n % 2 = 0 := Int.dvd_iff_emod_eq_zero
  rw [Int.tdiv_eq_ediv]
  by_cases h : 0 ≤ n ∨ n % 2 = 0
  · rw [if_pos h, if_pos (h.imp_right hdvd.2), add_zero]
  · rw [if_neg h, if_neg fun hd => h (hd.imp_right hdvd.1)]
    rfl

/-- the recovery v of a long: other values than 27 and 28 count by their parity only -/
theorem getRealV_eq {v : ℤ} (h : -2 ^ 63 ≤ v ∧ v < 2 ^ 63) :
    getRealV v = if v = 27 ∨ v = 28 then v else if v % 2 = 0 then 28 else 27 := by
  have hlong : v.bmod (2 ^ 64) = v := by rw [Int.bmod_eq_of_le] <;> norm_num <;> omega
  have hparity : (intOf v).tmod 2 = 0 ↔ v % 2 = 0 := by
    obtain ⟨k, hk⟩ := intOf_eq_sub v
    rw [← Int.dvd_iff_tmod_eq_zero, Int.dvd_iff_emod_eq_zero, hk]
    omega
  simp only [getRealV, hlong, hparity, LOWER_REAL_V]
  split_ifs <;> omega

theorem longValueExact_ok {n m : ℤ} : longValueExact n = .ok m ↔ (-2 ^ 63 ≤ n ∧ n < 2 ^ 63) ∧ m = n := by
  unfold longValueExact
  split_ifs with h
  · constructor
    · intro hok
      cases hok
      exact ⟨h, rfl⟩
    · rintro ⟨-, rfl⟩
      rfl
  · constructor
    · intro hok
      cases hok
    · rintro ⟨hrange, -⟩
      exact absurd hrange h

/-- the chain id in a v that is a long -/
theorem decodeEip155ChainId_ok {v chainId : ℤ} : decodeEip155ChainId v = .ok chainId ↔
    (-2 ^ 63 ≤ v ∧ v < 2 ^ 63) ∧ chainId = if v = 27 ∨ v = 28 then 0 else (v - 35).tdiv 2 := by
  rw [decodeEip155ChainId, bind_ok_iff]
  constructor
  · rintro ⟨n, hn, h⟩
    obtain ⟨hrange, rfl⟩ := longValueExact_ok.1 hn
    refine ⟨hrange, ?_⟩
    by_cases hv : n = 27 ∨ n = 28
    · rw [if_pos hv]
      rw [if_pos (show n = LOWER_REAL_V ∨ n = LOWER_REAL_V + 1 from hv)] at h
      cases h
      rfl
    · rw [if_neg hv]
      rw [if_neg (show ¬ (n = LOWER_REAL_V ∨ n = LOWER_REAL_V + 1) from hv)] at h
      cases h
      rfl
  · rintro ⟨hrange, rfl⟩
    refine ⟨v, longValueExact_ok.2 ⟨hrange, rfl⟩, ?_⟩
    by_cases hv : v = 27 ∨ v = 28
    · rw [if_pos hv, if_pos (show v = LOWER_REAL_V ∨ v = LOWER_REAL_V + 1 from hv)]
      rfl
    · rw [if_neg hv, if_neg (show ¬ (v = LOWER_REAL_V ∨ v = LOWER_REAL_V + 1) from hv)]
      rfl

/-- an integer as it is accepted: up to 256 bits, and no leading zero before another byte -/
def CheckedInt (raw : Bytes) : Prop := (1 < raw.length → NoLeadingZero raw) ∧ value raw < 2 ^ 256

theorem asString_ok {rlp : RlpType} {bytes : Bytes} : asString rlp = .ok bytes ↔ rlp = .rlpString bytes := by
  cases rlp <;> simp [asString]

theorem asList_ok {rlp : RlpType} {values : List RlpType} : asList rlp = .ok values ↔ rlp = .rlpList values := by
  cases rlp <;> simp [asList]

theorem getCheckedValue_ok {rlp : RlpType} {fieldName : String} {n : ℤ} : getCheckedValue rlp fieldName = .ok n ↔
    ∃ raw, rlp = .rlpString raw ∧ CheckedInt raw ∧ n = value raw := by
  rw [getCheckedValue, bind_ok_iff]
  constructor
  · rintro ⟨raw, hraw, h⟩
    obtain ⟨hzero, h⟩ := failIf_bind_ok.1 h
    obtain ⟨hsize, h⟩ := failIf_bind_ok.1 h
    cases h
    exact ⟨raw, asString_ok.1 hraw, ⟨fun hlen hhead => hzero ⟨hlen, hhead⟩, not_le.1 hsize⟩, rfl⟩
  · rintro ⟨raw, rfl, ⟨hzero, hsize⟩, rfl⟩
    refine ⟨raw, rfl, failIf_bind_ok.2 ⟨fun h => hzero h.1 h.2, ?_⟩⟩
    exact failIf_bind_ok.2 ⟨not_le.2 hsize, rfl⟩

theorem getToAddressFromBytes_ok {bytes : Bytes} {optTo : Option AddressProposition} :
    getToAddressFromBytes bytes = .ok optTo ↔ createTo optTo = .rlpString bytes := by
  rw [createTo, RlpType.rlpString.injEq]
  unfold getToAddressFromBytes
  split_ifs with hnil hlen
  · subst hnil
    match optTo with
    | none => simp
    | some ⟨address, haddress⟩ =>
      have hne : address ≠ [] := by
        rintro rfl
        cases haddress
      simp [hne]
  · match optTo with
    | none => simp [@eq_comm _ _ bytes, hnil]
    | some ⟨address, haddress⟩ => simp [eq_comm]
  · match optTo with
    | none => simp [@eq_comm _ _ bytes, hnil]
    | some ⟨address, haddress⟩ =>
      have hne : address ≠ bytes := by
        rintro rfl
        exact hlen haddress
      simp [hne]

section Create

variable {create : ℤ → Bytes} (hcreate : RlpInteger create)
include hcreate

/-- an accepted integer is the one the encoder writes unless it is the zero byte -/
theorem create_eq_iff {n : ℤ} (hn : 0 ≤ n) {raw : Bytes} (hraw : CheckedInt raw) :
    create n = raw ↔ n = value raw ∧ raw ≠ [0] := by
  obtain ⟨n, rfl⟩ := Int.eq_ofNat_of_zero_le hn
  have hv := hcreate.value_create n
  have hz := hcreate.noLeadingZero_create n
  constructor
  · rintro rfl
    refine ⟨by rw [hv], fun hzero => hz (by rw [hzero]; rfl)⟩
  · rintro ⟨hvalue, hne⟩
    have hno : NoLeadingZero raw := by
      by_cases hlen : 1 < raw.length
      · exact hraw.1 hlen
      · match raw with
        | [] => decide
        | [b] =>
          intro hb
          exact hne (by simpa using hb)
        | _ :: _ :: _ => simp at hlen
    exact noLeadingZero_unique hz hno (by rw [hv]; exact_mod_cast hvalue)

theorem checkedInt_create {n : ℤ} (hn : 0 ≤ n) (h256 : n < 2 ^ 256) : CheckedInt (create n) ∧ n = value (create n) := by
  obtain ⟨n, rfl⟩ := Int.eq_ofNat_of_zero_le hn
  rw [CheckedInt, hcreate.value_create n]
  exact ⟨⟨fun _ => hcreate.noLeadingZero_create n, by exact_mod_cast h256⟩, rfl⟩

end Create

end SidechainsSdk.Account.TransactionCodec
