/-
Which bytes the codec reproduces: those that are decoded and encoded again to themselves.

Three things are accepted in more than one form: the integer zero, also as the byte zero; the v of a signed legacy
transaction, of which only the parity and a truncated half are kept; and the v of an unsigned EIP-1559 transaction, which
is not looked at.

- `legacy_reproduced_iff`, `eip1559_reproduced_iff`: the list of values is written again exactly where none of this
  happens.
- `reencodes_iff`: and so for the bytes of a transaction.
-/
import SidechainsSdk.Account.Rlp.TransactionCodec

namespace SidechainsSdk.Account.TransactionCodec

open BigEndian Fallible Rlp

/-- no integer is the byte zero, and v is one that a chain id and a recovery id give, or is the chain id -/
def LegacyValues.Reproduced (f : LegacyValues) : Prop :=
  (∀ raw ∈ f.integers, raw ≠ [0]) ∧
    ((BigEndian.value f.r = 0 ∧ BigEndian.value f.s = 0) ∨ ReproducedV (BigEndian.value f.v))

/-- no integer is the byte zero, and v is the chain id where there is no signature -/
def Eip1559Values.Reproduced (f : Eip1559Values) : Prop :=
  (∀ raw ∈ f.integers, raw ≠ [0]) ∧
    (BigEndian.value f.r = 0 ∧ BigEndian.value f.s = 0 → BigEndian.value f.v = BigEndian.value f.chainId)

/-- the bytes are the RLP encoding of a list of strings, behind the type byte for EIP-1559, with reproduced values -/
def Reproducible (bytes : Bytes) : Prop :=
  (∃ f : LegacyValues, bytes = encode (.rlpList f.rlpList) ∧ f.Reproduced) ∨
    ∃ f : Eip1559Values, bytes = 2 :: encode (.rlpList f.rlpList) ∧ f.Reproduced

theorem LegacyValues.rlpList_injective {f f' : LegacyValues} (h : f.rlpList = f'.rlpList) : f = f' := by
  cases f
  cases f'
  simpa [LegacyValues.rlpList] using h

theorem Eip1559Values.rlpList_injective {f f' : Eip1559Values} (h : f.rlpList = f'.rlpList) : f = f' := by
  cases f
  cases f'
  simpa [Eip1559Values.rlpList] using h

section Reproduced

variable {create : ℤ → Bytes} (hcreate : RlpInteger create) {tx : EthereumTransaction}
include hcreate

theorem createInt_eq_iff {n : ℤ} (hn : 0 ≤ n) {raw : Bytes} (hraw : CheckedInt raw) :
    createInt create n = .rlpString raw ↔ n = value raw ∧ raw ≠ [0] := by
  rw [createInt, RlpType.rlpString.injEq, create_eq_iff hcreate hn hraw]

/-- the integers of the transaction are the decoded ones -/
theorem createInt_value_iff {raw : Bytes} (hraw : CheckedInt raw) :
    createInt create (value raw) = .rlpString raw ↔ raw ≠ [0] := by
  rw [createInt_eq_iff hcreate (Int.natCast_nonneg _) hraw]
  exact and_iff_right rfl

theorem legacy_reproduced_iff {f : LegacyValues} (h : f.Becomes tx) {chainId : Option ℤ} {gasPrice : ℤ}
    (hpricing : tx.pricing = .legacy chainId gasPrice) :
    LegacyTransaction2RlpList create tx chainId gasPrice true = f.rlpList ↔ f.Reproduced := by
  obtain ⟨hchecked, hto, chain, hsig, htx⟩ := h
  simp only [LegacyValues.integers, List.forall_mem_cons] at hchecked
  obtain ⟨c0, c1, c2, c4, c6, c7, c8, -⟩ := hchecked
  rcases hints : signatureIntegers (LegacyValues.chainOf chain) tx.signature with ⟨v, r, s⟩
  have hback := legacySignature_ok (Int.natCast_nonneg _) hsig
  rw [hints] at hback
  obtain ⟨hv, hrs, hreproduced⟩ := hback
  obtain ⟨rfl, rfl⟩ := Prod.mk.inj hrs
  rw [htx] at hpricing
  cases hpricing
  have hnonce : tx.nonce = value f.nonce := by rw [htx]
  have hgasLimit : tx.gasLimit = value f.gasLimit := by rw [htx]
  have hvalue : tx.value = value f.value := by rw [htx]
  have hdata : tx.data = f.data := by rw [htx]
  have hzero : (value f.r : ℤ) = 0 ∧ (value f.s : ℤ) = 0 ↔ value f.r = 0 ∧ value f.s = 0 := by omega
  simp only [LegacyTransaction2RlpList, if_pos, legacySignature_eq create hints, LegacyValues.rlpList, hnonce, hgasLimit,
    hvalue, hdata, hto, List.cons_append, List.nil_append, List.cons.injEq, createInt_value_iff hcreate, c0, c1, c2, c4, c7,
    c8, createInt_eq_iff hcreate hv c6, LegacyValues.Reproduced, LegacyValues.integers, List.forall_mem_cons, hreproduced,
    hzero]
  simp only [List.not_mem_nil, false_implies, implies_true, and_true, true_and]
  tauto

theorem eip1559_reproduced_iff {f : Eip1559Values} (h : f.Becomes tx) {chainId maxPriorityFeePerGas maxFeePerGas : ℤ}
    (hpricing : tx.pricing = .dynamicFee chainId maxPriorityFeePerGas maxFeePerGas) :
    ∃ values, EIP1559Transaction2RlpList create tx chainId maxPriorityFeePerGas maxFeePerGas true = .ok values ∧
      (values = f.rlpList ↔ f.Reproduced) := by
  obtain ⟨hchecked, hto, -, hsig, htx⟩ := h
  simp only [Eip1559Values.integers, List.forall_mem_cons] at hchecked
  obtain ⟨c0, c1, c2, c3, c4, c6, c9, c10, c11, -⟩ := hchecked
  rw [htx] at hpricing
  cases hpricing
  -- what is written for v
  obtain ⟨v, hlist, hv, hreproduced⟩ : ∃ v : ℤ,
      EIP1559Transaction2RlpList create tx (value f.chainId) (value f.maxPriorityFeePerGas) (value f.maxFeePerGas) true =
        .ok [createInt create (value f.chainId), createInt create tx.nonce, createInt create (value f.maxPriorityFeePerGas),
          createInt create (value f.maxFeePerGas), createInt create tx.gasLimit, createTo tx.optTo,
          createInt create tx.value, .rlpString tx.data, .rlpList [], createInt create v, createInt create (value f.r),
          createInt create (value f.s)] ∧
      0 ≤ v ∧ (v = value f.v ↔ (value f.r = 0 ∧ value f.s = 0 → value f.v = value f.chainId)) := by
    have hcases := decodeSignature_ok.1 hsig
    split_ifs at hcases with hrs
    · refine ⟨value f.chainId, ?_, Int.natCast_nonneg _, ?_⟩
      · simp only [EIP1559Transaction2RlpList, if_pos, hcases, hrs]
        rfl
      · omega
    · obtain ⟨g, hg, hgv, hgr, hgs⟩ := hcases
      refine ⟨g.v - 27, ?_, by omega, by omega⟩
      simp only [EIP1559Transaction2RlpList, if_pos, hg, getRecId_signature, hgr, hgs]
      rfl
  refine ⟨_, hlist, ?_⟩
  have hnonce : tx.nonce = value f.nonce := by rw [htx]
  have hgasLimit : tx.gasLimit = value f.gasLimit := by rw [htx]
  have hvalue : tx.value = value f.value := by rw [htx]
  have hdata : tx.data = f.data := by rw [htx]
  simp only [Eip1559Values.rlpList, hnonce, hgasLimit, hvalue, hdata, hto, List.cons.injEq, createInt_value_iff hcreate, c0,
    c1, c2, c3, c4, c6, c10, c11, createInt_eq_iff hcreate hv c9, Eip1559Values.Reproduced, Eip1559Values.integers,
    List.forall_mem_cons, hreproduced]
  simp only [List.not_mem_nil, false_implies, implies_true, and_true, true_and]
  tauto

/-- For all bytes, as many as an array can have, that are decoded: encoding the transaction gives the same bytes again if
and only if they are the RLP encoding of a list of values of which no integer is the byte zero, and v is one that chain id
and recovery id give (or, without a signature, the chain id). -/
theorem reencodes_iff {bytes : Bytes} (hsize : bytes.length < 2 ^ 31) (h : decode bytes = .ok tx) :
    encodeAsRlpValues create tx true = .ok bytes ↔ Reproducible bytes := by
  constructor
  · intro hencode
    cases hpricing : tx.pricing with
    | legacy chainId gasPrice =>
      rw [encodeAsRlpValues, hpricing] at hencode
      cases hencode
      obtain ⟨f, hvalues, hf⟩ := legacy_ok.1 ((decode_legacy hsize).1 h)
      rw [hvalues]
      exact .inl ⟨f, rfl, (legacy_reproduced_iff hcreate hf hpricing).1 hvalues⟩
    | dynamicFee chainId maxPriorityFeePerGas maxFeePerGas =>
      rw [encodeAsRlpValues, hpricing] at hencode
      obtain ⟨values, hlist, hbytes⟩ := bind_ok hencode
      cases hbytes
      have hsize' : (encode (.rlpList values)).length < 2 ^ 31 := by
        rw [List.length_cons] at hsize
        omega
      obtain ⟨f, rfl, hf⟩ := eip1559_ok.1 ((decode_eip1559 hsize').1 h)
      obtain ⟨values', hlist', hiff⟩ := eip1559_reproduced_iff hcreate hf hpricing
      cases hlist.symm.trans hlist'
      exact .inr ⟨f, rfl, hiff.1 rfl⟩
  · rintro (⟨f, rfl, hf⟩ | ⟨f, rfl, hf⟩)
    · obtain ⟨f', hvalues, hbecomes⟩ := legacy_ok.1 ((decode_legacy hsize).1 h)
      obtain rfl := LegacyValues.rlpList_injective hvalues
      obtain ⟨-, -, chainId, -, htx⟩ := id hbecomes
      have hpricing := congrArg EthereumTransaction.pricing htx
      rw [encodeAsRlpValues, hpricing]
      exact congrArg (fun values => Except.ok (encode (.rlpList values)))
        ((legacy_reproduced_iff hcreate hbecomes hpricing).2 hf)
    · have hsize' : (encode (.rlpList f.rlpList)).length < 2 ^ 31 := by
        rw [List.length_cons] at hsize
        omega
      obtain ⟨f', hvalues, hbecomes⟩ := eip1559_ok.1 ((decode_eip1559 hsize').1 h)
      obtain rfl := Eip1559Values.rlpList_injective hvalues
      obtain ⟨-, -, -, -, htx⟩ := id hbecomes
      have hpricing := congrArg EthereumTransaction.pricing htx
      obtain ⟨values, hlist, hiff⟩ := eip1559_reproduced_iff hcreate hbecomes hpricing
      rw [encodeAsRlpValues, hpricing]
      exact bind_ok_iff.2 ⟨values, hlist, by rw [hiff.2 hf]; rfl⟩

end Reproduced

theorem reencodes_payment : decode (encode (.rlpList paymentValues.rlpList)) = .ok paymentTransaction ∧
    encodeAsRlpValues createMinimal paymentTransaction true = .ok (encode (.rlpList paymentValues.rlpList)) := by
  have hdecode : decode (encode (.rlpList paymentValues.rlpList)) = .ok paymentTransaction := by
    obtain ⟨bytes, hencode, hdecode⟩ := decode_of_encoded rlpInteger_createMinimal paymentTransaction_inRange
    cases paymentTransaction_encoding.symm.trans hencode
    exact hdecode (by decide)
  have hvalues : paymentValues.Reproduced := ⟨by decide, .inr (.inr (.inr (by decide)))⟩
  exact ⟨hdecode, (reencodes_iff rlpInteger_createMinimal (by decide) hdecode).2 (.inl ⟨paymentValues, rfl, hvalues⟩)⟩

/-- an EIP-155 transaction without signature, of chain 5 -/
def unsignedTransaction : EthereumTransaction where
  pricing := .legacy (some 5) 0
  nonce := 0
  optTo := none
  gasLimit := 0
  value := 0
  data := []
  signature := none

/-- a transaction signed with v 27, not for a chain -/
def signedTransaction : EthereumTransaction where
  pricing := .legacy none 0
  nonce := 0
  optTo := none
  gasLimit := 0
  value := 0
  data := []
  signature := some ⟨27, 1, 1, verifySignatureData_ok.2 (by decide)⟩

/-- the same with the v 35 of no chain -/
def signedValues : LegacyValues := ⟨[], [], [], [], [], [], [0x23], [1], [1]⟩

theorem signedValues_becomes : signedValues.Becomes signedTransaction := by
  have hchecked : ∀ raw ∈ signedValues.integers, CheckedInt raw := by
    simp only [signedValues, LegacyValues.integers, List.forall_mem_cons, CheckedInt]
    decide
  refine ⟨hchecked, rfl, 0, ?_, rfl⟩
  have hv : decodeEip155ChainId 35 = .ok 0 := decodeEip155ChainId_ok.2 (by decide)
  have hreal : getRealV 35 = 27 := (getRealV_eq (by norm_num)).trans (by decide)
  have hmake : SignatureSecp256k1.make (getRealV 35) 1 1 = .ok ⟨27, 1, 1, verifySignatureData_ok.2 (by decide)⟩ :=
    SignatureSecp256k1.make_ok.2 ⟨hreal.symm, rfl, rfl⟩
  exact bind_ok_iff.2 ⟨0, hv, bind_ok_iff.2 ⟨_, hmake, rfl⟩⟩

/-- The nonce as the byte zero, and v as 35, are accepted, and written as nothing and as 27: both transactions have other
bytes than they were decoded from. -/
theorem malleable :
    (decode [0xc9, 0x00, 0x80, 0x80, 0x80, 0x80, 0x80, 0x05, 0x80, 0x80] = .ok unsignedTransaction ∧
      encodeAsRlpValues createMinimal unsignedTransaction true ≠
        .ok [0xc9, 0x00, 0x80, 0x80, 0x80, 0x80, 0x80, 0x05, 0x80, 0x80]) ∧
    decode [0xc9, 0x80, 0x80, 0x80, 0x80, 0x80, 0x80, 0x23, 0x01, 0x01] = .ok signedTransaction ∧
      encodeAsRlpValues createMinimal signedTransaction true ≠
        .ok [0xc9, 0x80, 0x80, 0x80, 0x80, 0x80, 0x80, 0x23, 0x01, 0x01] := by
  have hunsigned : encodeAsRlpValues createMinimal unsignedTransaction true =
      .ok [0xc9, 0x80, 0x80, 0x80, 0x80, 0x80, 0x80, 0x05, 0x80, 0x80] := rfl
  have hsigned : encodeAsRlpValues createMinimal signedTransaction true =
      .ok [0xc9, 0x80, 0x80, 0x80, 0x80, 0x80, 0x80, 0x1b, 0x01, 0x01] := rfl
  refine ⟨⟨rfl, fun h => ?_⟩, ?_, fun h => ?_⟩
  · exact absurd (Except.ok.inj (hunsigned.symm.trans h)) (by decide)
  · change decode (encode (.rlpList signedValues.rlpList)) = _
    exact (decode_legacy (by decide)).2 (legacy_ok.2 ⟨signedValues, rfl, signedValues_becomes⟩)
  · exact absurd (Except.ok.inj (hsigned.symm.trans h)) (by decide)

end SidechainsSdk.Account.TransactionCodec
