/-
The codec of transactions, field by field.

- `legacy_ok`, `eip1559_ok`: what the decoder makes of a list of values, with the checks on each of them.
- `legacySignature_ok`: chain id and recovery id come back out of v.
- `transaction_round_trip`: what the encoder writes of a transaction is decoded to this transaction, so that different
  transactions have different encodings.
-/
import SidechainsSdk.Account.Rlp.EthereumTransaction

namespace SidechainsSdk.Account.TransactionCodec

open BigEndian Fallible MachineInt Rlp

/-! ## The values of a list -/

/-- the values of a legacy transaction, as bytes -/
structure LegacyValues where
  nonce : Bytes
  gasPrice : Bytes
  gasLimit : Bytes
  optTo : Bytes
  value : Bytes
  data : Bytes
  v : Bytes
  r : Bytes
  s : Bytes

namespace LegacyValues

def rlpList (f : LegacyValues) : List RlpType :=
  [.rlpString f.nonce, .rlpString f.gasPrice, .rlpString f.gasLimit, .rlpString f.optTo, .rlpString f.value,
    .rlpString f.data, .rlpString f.v, .rlpString f.r, .rlpString f.s]

/-- the values that are integers -/
def integers (f : LegacyValues) : List Bytes := [f.nonce, f.gasPrice, f.gasLimit, f.value, f.v, f.r, f.s]

/-- the chain id of a decoded transaction: zero stands for none -/
def chainOf (chainId : ℤ) : Option ℤ := if chainId ≠ 0 then some chainId else none

/-- the values pass the checks, and `tx` is made of them -/
def Becomes (f : LegacyValues) (tx : EthereumTransaction) : Prop :=
  (∀ raw ∈ f.integers, CheckedInt raw) ∧ createTo tx.optTo = .rlpString f.optTo ∧
    ∃ chainId, decodeLegacySignature (BigEndian.value f.v) (BigEndian.value f.r) (BigEndian.value f.s) =
        .ok (chainId, tx.signature) ∧
      tx = { pricing := .legacy (chainOf chainId) (BigEndian.value f.gasPrice), nonce := BigEndian.value f.nonce,
             optTo := tx.optTo, gasLimit := BigEndian.value f.gasLimit, value := BigEndian.value f.value, data := f.data,
             signature := tx.signature }

end LegacyValues

theorem legacy_ok {values : List RlpType} {tx : EthereumTransaction} :
    RlpList2LegacyTransaction values = .ok tx ↔ ∃ f : LegacyValues, values = f.rlpList ∧ f.Becomes tx := by
  constructor
  · intro h
    unfold RlpList2LegacyTransaction at h
    split at h
    · obtain ⟨nonce, h0, h⟩ := bind_ok h
      obtain ⟨gasPrice, h1, h⟩ := bind_ok h
      obtain ⟨gasLimit, h2, h⟩ := bind_ok h
      obtain ⟨toBytes, h3, h⟩ := bind_ok h
      obtain ⟨optTo, hto, h⟩ := bind_ok h
      obtain ⟨value, h4, h⟩ := bind_ok h
      obtain ⟨data, h5, h⟩ := bind_ok h
      obtain ⟨v, h6, h⟩ := bind_ok h
      obtain ⟨r, h7, h⟩ := bind_ok h
      obtain ⟨s, h8, h⟩ := bind_ok h
      obtain ⟨⟨chainId, signature⟩, hsig, h⟩ := bind_ok h
      cases h
      obtain ⟨b0, rfl, c0, rfl⟩ := getCheckedValue_ok.1 h0
      obtain ⟨b1, rfl, c1, rfl⟩ := getCheckedValue_ok.1 h1
      obtain ⟨b2, rfl, c2, rfl⟩ := getCheckedValue_ok.1 h2
      obtain ⟨b4, rfl, c4, rfl⟩ := getCheckedValue_ok.1 h4
      obtain ⟨b6, rfl, c6, rfl⟩ := getCheckedValue_ok.1 h6
      obtain ⟨b7, rfl, c7, rfl⟩ := getCheckedValue_ok.1 h7
      obtain ⟨b8, rfl, c8, rfl⟩ := getCheckedValue_ok.1 h8
      obtain rfl := asString_ok.1 h3
      obtain rfl := asString_ok.1 h5
      refine ⟨⟨b0, b1, b2, toBytes, b4, data, b6, b7, b8⟩, rfl, ?_, getToAddressFromBytes_ok.1 hto, chainId, hsig, rfl⟩
      simp [LegacyValues.integers, c0, c1, c2, c4, c6, c7, c8]
    · cases h
  · rintro ⟨f, rfl, hchecked, hto, chainId, hsig, htx⟩
    have hint : ∀ raw ∈ f.integers, ∀ name, getCheckedValue (.rlpString raw) name = .ok (BigEndian.value raw : ℤ) :=
      fun raw hraw name => getCheckedValue_ok.2 ⟨raw, rfl, hchecked raw hraw, rfl⟩
    simp only [LegacyValues.integers, List.forall_mem_cons] at hint
    obtain ⟨h0, h1, h2, h4, h6, h7, h8, -⟩ := hint
    simp only [LegacyValues.rlpList, RlpList2LegacyTransaction, bind_ok_iff]
    refine ⟨_, h0 _, _, h1 _, _, h2 _, f.optTo, rfl, tx.optTo, getToAddressFromBytes_ok.2 hto, _, h4 _, f.data, rfl, _,
      h6 _, _, h7 _, _, h8 _, (chainId, tx.signature), hsig, ?_⟩
    exact congrArg Except.ok htx.symm

/-- the values of an EIP-1559 transaction but its access list, as bytes -/
structure Eip1559Values where
  chainId : Bytes
  nonce : Bytes
  maxPriorityFeePerGas : Bytes
  maxFeePerGas : Bytes
  gasLimit : Bytes
  optTo : Bytes
  value : Bytes
  data : Bytes
  v : Bytes
  r : Bytes
  s : Bytes

namespace Eip1559Values

def rlpList (f : Eip1559Values) : List RlpType :=
  [.rlpString f.chainId, .rlpString f.nonce, .rlpString f.maxPriorityFeePerGas, .rlpString f.maxFeePerGas,
    .rlpString f.gasLimit, .rlpString f.optTo, .rlpString f.value, .rlpString f.data, .rlpList [], .rlpString f.v,
    .rlpString f.r, .rlpString f.s]

def integers (f : Eip1559Values) : List Bytes :=
  [f.chainId, f.nonce, f.maxPriorityFeePerGas, f.maxFeePerGas, f.gasLimit, f.value, f.v, f.r, f.s]

def Becomes (f : Eip1559Values) (tx : EthereumTransaction) : Prop :=
  (∀ raw ∈ f.integers, CheckedInt raw) ∧ createTo tx.optTo = .rlpString f.optTo ∧ BigEndian.value f.chainId < 2 ^ 63 ∧
    decodeSignature (BigEndian.value f.v) (BigEndian.value f.r) (BigEndian.value f.s) = .ok tx.signature ∧
    tx = { pricing := .dynamicFee (BigEndian.value f.chainId) (BigEndian.value f.maxPriorityFeePerGas)
             (BigEndian.value f.maxFeePerGas),
           nonce := BigEndian.value f.nonce, optTo := tx.optTo, gasLimit := BigEndian.value f.gasLimit,
           value := BigEndian.value f.value, data := f.data, signature := tx.signature }

end Eip1559Values

theorem longValueExact_value {bytes : Bytes} {n : ℤ} :
    longValueExact (BigEndian.value bytes) = .ok n ↔ BigEndian.value bytes < 2 ^ 63 ∧ n = BigEndian.value bytes := by
  rw [longValueExact_ok]
  constructor
  · rintro ⟨⟨-, hlt⟩, rfl⟩
    exact ⟨by exact_mod_cast hlt, rfl⟩
  · rintro ⟨hlt, rfl⟩
    exact ⟨⟨by omega, by exact_mod_cast hlt⟩, rfl⟩

theorem eip1559_ok {values : List RlpType} {tx : EthereumTransaction} :
    RlpList2EIP1559Transaction values = .ok tx ↔ ∃ f : Eip1559Values, values = f.rlpList ∧ f.Becomes tx := by
  constructor
  · intro h
    unfold RlpList2EIP1559Transaction at h
    split at h
    · obtain ⟨chainId, hchain, h⟩ := bind_ok h
      obtain ⟨nonce, h1, h⟩ := bind_ok h
      obtain ⟨maxPriorityFeePerGas, h2, h⟩ := bind_ok h
      obtain ⟨maxFeePerGas, h3, h⟩ := bind_ok h
      obtain ⟨gasLimit, h4, h⟩ := bind_ok h
      obtain ⟨toBytes, h5, h⟩ := bind_ok h
      obtain ⟨optTo, hto, h⟩ := bind_ok h
      obtain ⟨value, h6, h⟩ := bind_ok h
      obtain ⟨data, h7, h⟩ := bind_ok h
      obtain ⟨accessList, h8, h⟩ := bind_ok h
      obtain ⟨hempty, h⟩ := failIf_bind_ok.1 h
      obtain ⟨vOrig, h9, h⟩ := bind_ok h
      obtain ⟨r, h10, h⟩ := bind_ok h
      obtain ⟨s, h11, h⟩ := bind_ok h
      obtain ⟨signature, hsig, h⟩ := bind_ok h
      cases h
      obtain ⟨chainValue, h0, hlong⟩ := bind_ok hchain
      obtain ⟨b0, rfl, c0, rfl⟩ := getCheckedValue_ok.1 h0
      obtain ⟨b1, rfl, c1, rfl⟩ := getCheckedValue_ok.1 h1
      obtain ⟨b2, rfl, c2, rfl⟩ := getCheckedValue_ok.1 h2
      obtain ⟨b3, rfl, c3, rfl⟩ := getCheckedValue_ok.1 h3
      obtain ⟨b4, rfl, c4, rfl⟩ := getCheckedValue_ok.1 h4
      obtain ⟨b6, rfl, c6, rfl⟩ := getCheckedValue_ok.1 h6
      obtain ⟨b9, rfl, c9, rfl⟩ := getCheckedValue_ok.1 h9
      obtain ⟨b10, rfl, c10, rfl⟩ := getCheckedValue_ok.1 h10
      obtain ⟨b11, rfl, c11, rfl⟩ := getCheckedValue_ok.1 h11
      obtain rfl := asString_ok.1 h5
      obtain rfl := asString_ok.1 h7
      obtain rfl := asList_ok.1 h8
      obtain rfl : accessList = [] := List.length_eq_zero_iff.1 (by omega)
      obtain ⟨hlt, rfl⟩ := longValueExact_value.1 hlong
      refine ⟨⟨b0, b1, b2, b3, b4, toBytes, b6, data, b9, b10, b11⟩, rfl, ?_, getToAddressFromBytes_ok.1 hto, hlt, hsig,
        rfl⟩
      simp [Eip1559Values.integers, c0, c1, c2, c3, c4, c6, c9, c10, c11]
    · cases h
  · rintro ⟨f, rfl, hchecked, hto, hlt, hsig, htx⟩
    have hint : ∀ raw ∈ f.integers, ∀ name, getCheckedValue (.rlpString raw) name = .ok (BigEndian.value raw : ℤ) :=
      fun raw hraw name => getCheckedValue_ok.2 ⟨raw, rfl, hchecked raw hraw, rfl⟩
    simp only [Eip1559Values.integers, List.forall_mem_cons] at hint
    obtain ⟨h0, h1, h2, h3, h4, h6, h9, h10, h11, -⟩ := hint
    have hlong := longValueExact_value.2 ⟨hlt, rfl⟩
    simp only [Eip1559Values.rlpList, RlpList2EIP1559Transaction, bind_ok_iff, failIf_ok]
    refine ⟨_, ⟨_, h0 _, hlong⟩, _, h1 _, _, h2 _, _, h3 _, _, h4 _, f.optTo, rfl, tx.optTo,
      getToAddressFromBytes_ok.2 hto, _, h6 _, f.data, rfl, [], rfl, (), by simp, _, h9 _, _, h10 _, _, h11 _,
      tx.signature, hsig, ?_⟩
    exact congrArg Except.ok htx.symm

/-! ## Chain id and recovery id -/

/-- v, r and s as they are encoded in a legacy transaction -/
def signatureIntegers (chainId : Option ℤ) : Option SignatureSecp256k1 → ℤ × ℤ × ℤ
  | some signature => (signedV chainId signature.v, signature.r, signature.s)
  | none => (chainId.getD 0, 0, 0)

theorem legacySignature_eq (create : ℤ → Bytes) {chainId : Option ℤ} {signature : Option SignatureSecp256k1} {v r s : ℤ}
    (h : signatureIntegers chainId signature = (v, r, s)) :
    legacySignature create chainId signature = [createInt create v, createInt create r, createInt create s] := by
  cases signature <;> cases h <;> rfl

/-- the values of v that a chain id and a recovery id give -/
def ReproducedV (v : ℤ) : Prop := v = 28 ∨ (v % 2 = 1 ∧ v ≠ 35) ∨ 36 < v

theorem signedV_chainOf {v chainId : ℤ} (hv : 0 ≤ v) (h : decodeEip155ChainId v = .ok chainId) :
    0 ≤ signedV (LegacyValues.chainOf chainId) (getRealV v) ∧
      (signedV (LegacyValues.chainOf chainId) (getRealV v) = v ↔ ReproducedV v) := by
  obtain ⟨hrange, hchain⟩ := decodeEip155ChainId_ok.1 h
  rw [tdiv_two] at hchain
  rw [getRealV_eq hrange]
  by_cases hzero : chainId = 0
  · have hnone : LegacyValues.chainOf chainId = none := if_neg (not_not.2 hzero)
    rw [hnone, signedV, ReproducedV]
    split_ifs at hchain ⊢ <;> omega
  · have hsome : LegacyValues.chainOf chainId = some chainId := if_pos hzero
    rw [hsome, signedV, createEip155v, LOWER_REAL_V, CHAIN_ID_INC, ReproducedV]
    split_ifs at hchain ⊢ <;> omega

/-- the decoded chain id and signature give r and s back, and v where it is one of those the encoder writes -/
theorem legacySignature_ok {v r s chainId : ℤ} {signature : Option SignatureSecp256k1} (hv : 0 ≤ v)
    (h : decodeLegacySignature v r s = .ok (chainId, signature)) :
    0 ≤ (signatureIntegers (LegacyValues.chainOf chainId) signature).1 ∧
      (signatureIntegers (LegacyValues.chainOf chainId) signature).2 = (r, s) ∧
      ((signatureIntegers (LegacyValues.chainOf chainId) signature).1 = v ↔ (r = 0 ∧ s = 0) ∨ ReproducedV v) := by
  unfold decodeLegacySignature at h
  split_ifs at h with hrs
  · obtain ⟨n, hlong, h⟩ := bind_ok h
    cases h
    obtain ⟨-, rfl⟩ := longValueExact_ok.1 hlong
    have hget : (LegacyValues.chainOf chainId).getD 0 = chainId := by
      unfold LegacyValues.chainOf
      split_ifs with hzero
      · rfl
      · exact (not_not.1 hzero).symm
    simp [signatureIntegers, hget, hrs, hv]
  · obtain ⟨n, hchain, h⟩ := bind_ok h
    obtain ⟨g, hmake, h⟩ := bind_ok h
    cases h
    obtain ⟨hgv, rfl, rfl⟩ := SignatureSecp256k1.make_ok.1 hmake
    obtain ⟨hpos, hiff⟩ := signedV_chainOf hv hchain
    rw [signatureIntegers, hgv, hiff]
    exact ⟨hpos, rfl, by simp [hrs]⟩

theorem getRecId_signature (signature : SignatureSecp256k1) (chainId : ℤ) :
    getRecId signature.v chainId = .ok (signature.v - 27) := by
  have hv := signature.bounds.1
  rw [getRecId, LOWER_REAL_V, if_neg (by omega)]

theorem decodeSignature_ok {vOrig r s : ℤ} {signature : Option SignatureSecp256k1} :
    decodeSignature vOrig r s = .ok signature ↔
      if r = 0 ∧ s = 0 then signature = none
      else ∃ g, signature = some g ∧ g.v = vOrig + 27 ∧ g.r = r ∧ g.s = s := by
  unfold decodeSignature
  split_ifs with hrs
  · exact ⟨fun h => (Except.ok.inj h).symm, fun h => congrArg Except.ok h.symm⟩
  · rw [bind_ok_iff]
    constructor
    · rintro ⟨g, hmake, h⟩
      cases h
      exact ⟨g, rfl, SignatureSecp256k1.make_ok.1 hmake⟩
    · rintro ⟨g, rfl, hg⟩
      exact ⟨g, SignatureSecp256k1.make_ok.2 hg, rfl⟩

/-- chain id and signature come back out of what is encoded of them -/
theorem decodeLegacySignature_encoded {chainId : Option ℤ} (hchain : ∀ c ∈ chainId, 1 ≤ c ∧ c ≤ 2 ^ 61)
    (signature : Option SignatureSecp256k1) {v r s : ℤ} (h : signatureIntegers chainId signature = (v, r, s)) :
    decodeLegacySignature v r s = .ok (chainId.getD 0, signature) ∧
      (0 ≤ v ∧ v < 2 ^ 256) ∧ (0 ≤ r ∧ r < 2 ^ 256) ∧ 0 ≤ s ∧ s < 2 ^ 256 := by
  cases signature with
  | none =>
    cases h
    have hbounds : 0 ≤ chainId.getD 0 ∧ chainId.getD 0 ≤ 2 ^ 61 := by
      cases chainId with
      | none => norm_num
      | some c =>
        have hc := hchain c rfl
        exact ⟨by simp; omega, by simpa using hc.2⟩
    refine ⟨?_, by omega, by norm_num, by norm_num⟩
    rw [decodeLegacySignature, if_pos ⟨rfl, rfl⟩, longValueExact, if_pos (by omega)]
    rfl
  | some g =>
    cases h
    obtain ⟨hv, hr, hrN, hs, hsN⟩ := g.bounds
    have hN : secp256k1N < 2 ^ 256 := by decide
    have hhalf : secp256k1halfN < 2 ^ 256 := by decide
    have hbounds : 0 ≤ signedV chainId g.v ∧ signedV chainId g.v < 2 ^ 63 ∧
        decodeEip155ChainId (signedV chainId g.v) = .ok (chainId.getD 0) ∧ getRealV (signedV chainId g.v) = g.v := by
      cases chainId with
      | none =>
        have hrange : -2 ^ 63 ≤ g.v ∧ g.v < 2 ^ 63 := by omega
        refine ⟨by rw [signedV]; omega, hrange.2, decodeEip155ChainId_ok.2 ⟨hrange, ?_⟩, ?_⟩
        · rw [signedV, if_pos hv, Option.getD_none]
        · rw [signedV, getRealV_eq hrange, if_pos hv]
      | some c =>
        have hc := hchain c rfl
        rw [signedV, createEip155v, LOWER_REAL_V, CHAIN_ID_INC]
        have hrange : -2 ^ 63 ≤ g.v - 27 + c * 2 + 35 ∧ g.v - 27 + c * 2 + 35 < 2 ^ 63 := by omega
        refine ⟨by omega, hrange.2, decodeEip155ChainId_ok.2 ⟨hrange, ?_⟩, ?_⟩
        · rw [if_neg (by omega), tdiv_two, if_pos (by omega), Option.getD_some]
          omega
        · rw [getRealV_eq hrange, if_neg (by omega)]
          split_ifs <;> omega
    obtain ⟨hpos, hlt, hchainId, hreal⟩ := hbounds
    refine ⟨?_, by omega, by omega, by omega, by omega⟩
    rw [decodeLegacySignature, if_neg (by omega), hchainId, hreal]
    have hmake : SignatureSecp256k1.make g.v g.r g.s = .ok g := SignatureSecp256k1.make_ok.2 ⟨rfl, rfl, rfl⟩
    exact bind_ok_iff.2 ⟨_, rfl, bind_ok_iff.2 ⟨g, hmake, rfl⟩⟩

/-! ## The bytes -/

theorem header_ne_two {n : ℕ} (hlow : OFFSET_SHORT_LIST ≤ n) (hn : n < 256) : UInt8.ofNat n ≠ 2 := by
  intro h
  have hval : n = 2 := (toNat_header hn).symm.trans (congrArg UInt8.toNat h)
  have hoffset : OFFSET_SHORT_LIST = 192 := rfl
  omega

/-- the first byte of a list is not the one of an EIP-1559 transaction -/
theorem encode_list_head (values : List RlpType) : ∃ b bytes, encode (.rlpList values) = b :: bytes ∧ b ≠ 2 := by
  have hoffset : OFFSET_SHORT_LIST = 192 := rfl
  rw [encode_list_eq, encodeNestedList]
  by_cases hshort : (values.flatMap encode).length ≤ 55
  · rw [header_short hshort]
    exact ⟨_, _, rfl, header_ne_two (by omega) (by omega)⟩
  · have h4 := length_toMinimalByteArray_le (values.flatMap encode).length
    rw [header_long (by omega)]
    exact ⟨_, _, rfl, header_ne_two (by omega) (by omega)⟩

theorem decodeList_encoded {convert : List RlpType → Except CodecError EthereumTransaction} {values : List RlpType}
    {tx : EthereumTransaction} {p : ℕ} (hsize : (encode (.rlpList values)).length < 2 ^ 31) :
    decodeList convert ⟨p, encode (.rlpList values)⟩ = .ok tx ↔ convert values = .ok tx := by
  have hexec : exec Rlp.decode ⟨p, encode (.rlpList values)⟩ =
      (.ok [.rlpList values], ⟨p + (encode (.rlpList values)).length, []⟩) := by
    have h := exec_decode_of_readBack (p := p) (x := []) fun budget hbudget =>
      readBack (.rlpList values) (Nat.le_pred_of_lt hsize) budget hbudget
    rwa [List.append_nil] at h
  rw [decodeList, hexec]
  constructor
  · intro h
    obtain ⟨list, hlist, h⟩ := bind_ok h
    obtain ⟨tx', hconvert, h⟩ := bind_ok h
    obtain ⟨-, h⟩ := failIf_bind_ok.1 h
    cases h
    cases asList_ok.1 hlist
    exact hconvert
  · intro h
    exact bind_ok_iff.2 ⟨values, rfl, bind_ok_iff.2 ⟨tx, h, failIf_bind_ok.2 ⟨Nat.lt_irrefl 0, rfl⟩⟩⟩

theorem decode_legacy {values : List RlpType} {tx : EthereumTransaction}
    (hsize : (encode (.rlpList values)).length < 2 ^ 31) :
    decode (encode (.rlpList values)) = .ok tx ↔ RlpList2LegacyTransaction values = .ok tx := by
  obtain ⟨b, bytes, heq, hb⟩ := encode_list_head values
  rw [← decodeList_encoded (p := 0) hsize, heq, decode, if_neg hb]

theorem decode_eip1559 {values : List RlpType} {tx : EthereumTransaction}
    (hsize : (encode (.rlpList values)).length < 2 ^ 31) :
    decode (2 :: encode (.rlpList values)) = .ok tx ↔ RlpList2EIP1559Transaction values = .ok tx := by
  rw [← decodeList_encoded (p := 1) hsize, decode, if_pos rfl]

/-! ## The round trip -/

def IsUInt256 (n : ℤ) : Prop := 0 ≤ n ∧ n < 2 ^ 256

theorem isUInt256_zero : IsUInt256 0 := ⟨le_rfl, by norm_num⟩

/-- the chain id and the prices of a kind of transaction in range -/
def Pricing.InRange : Pricing → Prop
  | .legacy chainId gasPrice => (∀ c ∈ chainId, 1 ≤ c ∧ c ≤ 2 ^ 61) ∧ IsUInt256 gasPrice
  | .dynamicFee chainId maxPriorityFeePerGas maxFeePerGas =>
    (0 ≤ chainId ∧ chainId < 2 ^ 63) ∧ IsUInt256 maxPriorityFeePerGas ∧ IsUInt256 maxFeePerGas

structure EthereumTransaction.InRange (tx : EthereumTransaction) : Prop where
  pricing : tx.pricing.InRange
  nonce : IsUInt256 tx.nonce
  gasLimit : IsUInt256 tx.gasLimit
  value : IsUInt256 tx.value

section RoundTrip

variable {create : ℤ → Bytes} (hcreate : RlpInteger create) {tx : EthereumTransaction}
include hcreate

theorem legacy_becomes (hrange : tx.InRange) {chainId : Option ℤ} {gasPrice : ℤ}
    (hpricing : tx.pricing = .legacy chainId gasPrice) :
    RlpList2LegacyTransaction (LegacyTransaction2RlpList create tx chainId gasPrice true) = .ok tx := by
  obtain ⟨hpricingRange, hnonce, hgasLimit, hvalue⟩ := hrange
  rw [hpricing] at hpricingRange
  obtain ⟨hchain, hgasPrice⟩ := hpricingRange
  rcases hints : signatureIntegers chainId tx.signature with ⟨v, r, s⟩
  obtain ⟨hdecode, hv, hr, hs⟩ := decodeLegacySignature_encoded hchain tx.signature hints
  have hnone : LegacyValues.chainOf (chainId.getD 0) = chainId := by
    cases chainId with
    | none => rfl
    | some c =>
      have hc := hchain c rfl
      exact if_pos (show c ≠ 0 by omega)
  obtain ⟨c0, e0⟩ := checkedInt_create hcreate hnonce.1 hnonce.2
  obtain ⟨c1, e1⟩ := checkedInt_create hcreate hgasPrice.1 hgasPrice.2
  obtain ⟨c2, e2⟩ := checkedInt_create hcreate hgasLimit.1 hgasLimit.2
  obtain ⟨c4, e4⟩ := checkedInt_create hcreate hvalue.1 hvalue.2
  obtain ⟨c6, e6⟩ := checkedInt_create hcreate hv.1 hv.2
  obtain ⟨c7, e7⟩ := checkedInt_create hcreate hr.1 hr.2
  obtain ⟨c8, e8⟩ := checkedInt_create hcreate hs.1 hs.2
  refine legacy_ok.2 ⟨⟨create tx.nonce, create gasPrice, create tx.gasLimit, (tx.optTo.map Subtype.val).getD [],
    create tx.value, tx.data, create v, create r, create s⟩, ?_, ?_, rfl, chainId.getD 0, ?_, ?_⟩
  · simp only [LegacyTransaction2RlpList, if_pos, legacySignature_eq create hints]
    rfl
  · simp [LegacyValues.integers, c0, c1, c2, c4, c6, c7, c8]
  · rw [← e6, ← e7, ← e8]
    exact hdecode
  · rw [hnone, ← e0, ← e1, ← e2, ← e4, ← hpricing]

theorem eip1559_becomes (hrange : tx.InRange) {chainId maxPriorityFeePerGas maxFeePerGas : ℤ}
    (hpricing : tx.pricing = .dynamicFee chainId maxPriorityFeePerGas maxFeePerGas) :
    ∃ values, EIP1559Transaction2RlpList create tx chainId maxPriorityFeePerGas maxFeePerGas true = .ok values ∧
      RlpList2EIP1559Transaction values = .ok tx := by
  obtain ⟨hpricingRange, hnonce, hgasLimit, hvalue⟩ := hrange
  rw [hpricing] at hpricingRange
  obtain ⟨hchain, hpriority, hmax⟩ := hpricingRange
  -- what is written for v, and that the signature comes back out of it
  obtain ⟨v, r, s, hlist, hdecode, hv, hr, hs⟩ : ∃ v r s,
      EIP1559Transaction2RlpList create tx chainId maxPriorityFeePerGas maxFeePerGas true =
        .ok [createInt create chainId, createInt create tx.nonce, createInt create maxPriorityFeePerGas,
          createInt create maxFeePerGas, createInt create tx.gasLimit, createTo tx.optTo, createInt create tx.value,
          .rlpString tx.data, .rlpList [], createInt create v, createInt create r, createInt create s] ∧
      decodeSignature v r s = .ok tx.signature ∧ IsUInt256 v ∧ IsUInt256 r ∧ IsUInt256 s := by
    cases hsig : tx.signature with
    | none =>
      refine ⟨chainId, 0, 0, ?_, decodeSignature_ok.2 (by rw [if_pos ⟨rfl, rfl⟩]), ⟨hchain.1, by omega⟩,
        isUInt256_zero, isUInt256_zero⟩
      simp only [EIP1559Transaction2RlpList, if_pos, hsig]
      rfl
    | some g =>
      obtain ⟨hv, hr, hrN, hs, hsN⟩ := g.bounds
      have hN : secp256k1N < 2 ^ 256 := by decide
      have hhalf : secp256k1halfN < 2 ^ 256 := by decide
      refine ⟨g.v - 27, g.r, g.s, ?_, decodeSignature_ok.2 ?_, ⟨by omega, by omega⟩, ⟨by omega, by omega⟩,
        ⟨by omega, by omega⟩⟩
      · simp only [EIP1559Transaction2RlpList, if_pos, hsig, getRecId_signature]
        rfl
      · rw [if_neg (by omega)]
        exact ⟨g, rfl, by omega, rfl, rfl⟩
  obtain ⟨c0, e0⟩ := checkedInt_create hcreate hchain.1 (by omega : chainId < 2 ^ 256)
  obtain ⟨c1, e1⟩ := checkedInt_create hcreate hnonce.1 hnonce.2
  obtain ⟨c2, e2⟩ := checkedInt_create hcreate hpriority.1 hpriority.2
  obtain ⟨c3, e3⟩ := checkedInt_create hcreate hmax.1 hmax.2
  obtain ⟨c4, e4⟩ := checkedInt_create hcreate hgasLimit.1 hgasLimit.2
  obtain ⟨c6, e6⟩ := checkedInt_create hcreate hvalue.1 hvalue.2
  obtain ⟨c9, e9⟩ := checkedInt_create hcreate hv.1 hv.2
  obtain ⟨c10, e10⟩ := checkedInt_create hcreate hr.1 hr.2
  obtain ⟨c11, e11⟩ := checkedInt_create hcreate hs.1 hs.2
  refine ⟨_, hlist, eip1559_ok.2 ⟨⟨create chainId, create tx.nonce, create maxPriorityFeePerGas, create maxFeePerGas,
    create tx.gasLimit, (tx.optTo.map Subtype.val).getD [], create tx.value, tx.data, create v, create r, create s⟩, rfl,
    ?_, rfl, ?_, ?_, ?_⟩⟩
  · simp [Eip1559Values.integers, c0, c1, c2, c3, c4, c6, c9, c10, c11]
  · change BigEndian.value (create chainId) < 2 ^ 63
    omega
  · rw [← e9, ← e10, ← e11]
    exact hdecode
  · rw [← e0, ← e1, ← e2, ← e3, ← e4, ← e6, ← hpricing]

/-- a transaction in range is encoded, and decoded from its encoding if this is as long as a byte array can be -/
theorem decode_of_encoded (hrange : tx.InRange) : ∃ bytes, encodeAsRlpValues create tx true = .ok bytes ∧
    (bytes.length < 2 ^ 31 → decode bytes = .ok tx) := by
  cases hpricing : tx.pricing with
  | legacy chainId gasPrice =>
    refine ⟨_, by rw [encodeAsRlpValues, hpricing], fun hsize => ?_⟩
    exact (decode_legacy hsize).2 (legacy_becomes hcreate hrange hpricing)
  | dynamicFee chainId maxPriorityFeePerGas maxFeePerGas =>
    obtain ⟨values, hvalues, hdecode⟩ := eip1559_becomes hcreate hrange hpricing
    refine ⟨2 :: encode (.rlpList values), ?_, fun hsize => ?_⟩
    · rw [encodeAsRlpValues, hpricing]
      exact bind_ok_iff.2 ⟨values, hvalues, rfl⟩
    · rw [List.length_cons] at hsize
      exact (decode_eip1559 (by omega)).2 hdecode

/-- Every transaction with a chain id of its kind and integers of 256 bits is encoded, and what is written, as long as a
byte array can be, is decoded to the same transaction; two such transactions with the same encoding are equal. -/
theorem transaction_round_trip :
    (∀ tx : EthereumTransaction, tx.InRange → ∃ bytes, encodeAsRlpValues create tx true = .ok bytes ∧
      (bytes.length < 2 ^ 31 → decode bytes = .ok tx)) ∧
    ∀ (tx₁ tx₂ : EthereumTransaction) (bytes : Bytes), tx₁.InRange → tx₂.InRange → bytes.length < 2 ^ 31 →
      encodeAsRlpValues create tx₁ true = .ok bytes → encodeAsRlpValues create tx₂ true = .ok bytes → tx₁ = tx₂ := by
  refine ⟨fun tx hrange => decode_of_encoded hcreate hrange, fun tx₁ tx₂ bytes h₁ h₂ hsize he₁ he₂ => ?_⟩
  obtain ⟨bytes₁, hb₁, hdecode₁⟩ := decode_of_encoded hcreate h₁
  obtain ⟨bytes₂, hb₂, hdecode₂⟩ := decode_of_encoded hcreate h₂
  cases hb₁.symm.trans he₁
  cases hb₂.symm.trans he₂
  exact Except.ok.inj ((hdecode₁ hsize).symm.trans (hdecode₂ hsize))

end RoundTrip

/-- integers written as the library for RLP does -/
def createMinimal (n : ℤ) : Bytes := minimal n.toNat

theorem rlpInteger_createMinimal : RlpInteger createMinimal where
  value_create n := value_minimal n
  noLeadingZero_create n := noLeadingZero_minimal n

/-- a signed EIP-155 transaction of chain 5 -/
def paymentTransaction : EthereumTransaction where
  pricing := .legacy (some 5) 1000
  nonce := 7
  optTo := some ⟨List.replicate 20 0xde, rfl⟩
  gasLimit := 21000
  value := 300
  data := [0xca, 0xfe]
  signature := some ⟨27, 0x1234, 0x5678, verifySignatureData_ok.2 (by decide)⟩

/-- what is written of it: v is 27 for chain 5 -/
def paymentValues : LegacyValues :=
  ⟨[7], [0x03, 0xe8], [0x52, 0x08], List.replicate 20 0xde, [0x01, 0x2c], [0xca, 0xfe], [0x2d], [0x12, 0x34],
    [0x56, 0x78]⟩

theorem paymentTransaction_inRange : paymentTransaction.InRange where
  pricing := ⟨fun c hc => by cases hc; norm_num, by norm_num, by norm_num⟩
  nonce := ⟨by decide, by decide⟩
  gasLimit := ⟨by decide, by decide⟩
  value := ⟨by decide, by decide⟩

theorem paymentTransaction_encoding :
    encodeAsRlpValues createMinimal paymentTransaction true = .ok (encode (.rlpList paymentValues.rlpList)) := rfl

theorem paymentTransaction_round_trip : RlpInteger createMinimal ∧ paymentTransaction.InRange ∧
    ∃ bytes, encodeAsRlpValues createMinimal paymentTransaction true = .ok bytes ∧ bytes.length < 2 ^ 31 ∧
      decode bytes = .ok paymentTransaction := by
  refine ⟨rlpInteger_createMinimal, paymentTransaction_inRange, ?_⟩
  obtain ⟨bytes, hencode, hdecode⟩ :=
    (transaction_round_trip rlpInteger_createMinimal).1 paymentTransaction paymentTransaction_inRange
  cases paymentTransaction_encoding.symm.trans hencode
  exact ⟨_, hencode, by decide, hdecode (by decide)⟩

end SidechainsSdk.Account.TransactionCodec
