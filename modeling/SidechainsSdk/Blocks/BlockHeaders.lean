/-
The headers of UTXO and account blocks, with their serializers (`SidechainBlockHeader`, `AccountBlockHeader`).

- Keys, proofs, signatures and hashes are arrays of a fixed length, which their constructors or the semantic check of a
  header insist on; the version is that of the block type, which the parser insists on. A block id is its 32 bytes.
- The fees and gas amounts of an account header are `BigInteger`s; the parser takes those of at most 256 bits without sign.
- `CryptoLib` stands for the cryptographic libraries, with the lengths they give and the hashes that enter an id.

`HeaderFormat` is what an ommer uses of its header, `sidechainFormat` and `accountFormat` are the two block types.
-/
import Mathlib.Data.Nat.Size
import Mathlib.Tactic
import SidechainsSdk.Blocks.MainchainHeader

namespace SidechainsSdk.Blocks

open Reader
open Utils (MerklePath)

structure CryptoLib where
  publicKeyLength : ℕ
  vrfPublicKeyLength : ℕ
  vrfProofLength : ℕ
  vrfOutputLength : ℕ
  signatureLength : ℕ
  doubleSHA256 : Bytes → Bytes
  blake2b256 : Bytes → Bytes

/-! ## Fields -/

structure FixedBytes (n : ℕ) where
  toBytes : Bytes
  length_eq : toBytes.length = n

/-- `Longs.toByteArray` -/
def longBytes (x : Int64) : Bytes := BigEndian.fixed 8 x.toUInt64.toNat

def getFixed (n : ℕ) : Reader (FixedBytes n) := do
  let bs ← bytes n
  if h : bs.length = n then pure ⟨bs, h⟩ else failure

theorem reads_getFixed {n : ℕ} (x : FixedBytes n) : Reads (getFixed n) x.toBytes x := by
  obtain ⟨bs, rfl⟩ := x
  refine (reads_bytes bs).check ?_
  rw [dif_pos rfl]
  exact reads_pure _

/-- `BigInteger.toByteArray` of a number that is not negative: with room for the sign -/
def toByteArray (n : ℕ) : Bytes := BigEndian.fixed (n.size / 8 + 1) n

/-- `new BigIntegerUInt256(bytes).getBigInt` -/
def bigIntegerUInt256 (bs : Bytes) : Reader (BitVec 256) :=
  if bs.length = 0 then pure 0
  else if 256 < (BigEndian.value bs).size then failure
  else pure (BitVec.ofNat 256 (BigEndian.value bs))

theorem value_toByteArray (n : ℕ) : BigEndian.value (toByteArray n) = n := by
  have hbits : n < 2 ^ n.size := Nat.lt_size_self n
  have hle : 2 ^ n.size ≤ 256 ^ (n.size / 8 + 1) := by
    calc 2 ^ n.size ≤ 2 ^ (8 * (n.size / 8 + 1)) := Nat.pow_le_pow_right (by norm_num) (by omega)
      _ = 256 ^ (n.size / 8 + 1) := by rw [pow_mul]; norm_num
  rw [toByteArray, BigEndian.value_fixed, Nat.mod_eq_of_lt (hbits.trans_le hle)]

section Numbers

variable (vlq : VLQ)

/-- a `BigInteger` with its length before it -/
def putBigInteger (x : BitVec 256) : Bytes := vlq.putInt (toByteArray x.toNat).length ++ toByteArray x.toNat

def getBigInteger : Reader (BitVec 256) := do
  let size ← vlq.getInt
  let bs ← bytes size
  bigIntegerUInt256 bs

theorem size_le (x : BitVec 256) : x.toNat.size ≤ 256 := Nat.size_le.2 x.isLt

theorem reads_getBigInteger (x : BitVec 256) : Reads (getBigInteger vlq) (putBigInteger vlq x) x := by
  have hsize := size_le x
  have hlength : (toByteArray x.toNat).length = x.toNat.size / 8 + 1 := BigEndian.length_fixed _ _
  refine (vlq.reads_length (by omega)).bind ((reads_bytes (toByteArray x.toNat)).check ?_)
  rw [bigIntegerUInt256, if_neg (by omega), value_toByteArray, if_neg (by omega), BitVec.ofNat_toNat, BitVec.setWidth_eq]
  exact reads_pure x

theorem reads_version (version : UInt8) : Reads byte [version] version.toNat := by
  have hbyte := reads_byte version.toNat (UInt8.toNat_lt version)
  rwa [UInt8.ofNat_toNat] at hbyte

/-! ## Stakes -/

structure ForgingStakeInfo (lib : CryptoLib) where
  blockSignPublicKey : FixedBytes lib.publicKeyLength
  vrfPublicKey : FixedBytes lib.vrfPublicKeyLength
  stakeAmount : Int64
  -- `require`
  nonneg : 0 ≤ stakeAmount

variable {lib : CryptoLib}

namespace ForgingStakeInfo

def hash (info : ForgingStakeInfo lib) : Bytes :=
  lib.doubleSHA256 (info.blockSignPublicKey.toBytes ++ info.vrfPublicKey.toBytes ++ longBytes info.stakeAmount)

def serialize (info : ForgingStakeInfo lib) : Bytes :=
  info.blockSignPublicKey.toBytes ++ (info.vrfPublicKey.toBytes ++ vlq.putLong info.stakeAmount)

def parse : Reader (ForgingStakeInfo lib) := do
  let blockSignPublicKey ← getFixed lib.publicKeyLength
  let vrfPublicKey ← getFixed lib.vrfPublicKeyLength
  let stakeAmount ← vlq.getLong
  if h : 0 ≤ stakeAmount then pure ⟨blockSignPublicKey, vrfPublicKey, stakeAmount, h⟩ else failure

theorem reads_parse (info : ForgingStakeInfo lib) : Reads (parse vlq) (info.serialize vlq) info := by
  refine (reads_getFixed info.blockSignPublicKey).bind ((reads_getFixed info.vrfPublicKey).bind
    ((vlq.reads_putLong info.stakeAmount).check ?_))
  rw [dif_pos info.nonneg]
  exact reads_pure info

end ForgingStakeInfo

end Numbers

abbrev hashLength : ℕ := 32

/-! ## The header of a UTXO block -/

def SidechainBlock.BLOCK_VERSION : UInt8 := 1

structure SidechainBlockHeader (lib : CryptoLib) where
  version : UInt8
  parentId : FixedBytes hashLength
  timestamp : Int64
  forgingStakeInfo : ForgingStakeInfo lib
  forgingStakeMerklePath : MerklePath
  vrfProof : FixedBytes lib.vrfProofLength
  sidechainTransactionsMerkleRootHash : FixedBytes hashLength
  mainchainMerkleRootHash : FixedBytes hashLength
  ommersMerkleRootHash : FixedBytes hashLength
  ommersCumulativeScore : Int64
  feePaymentsHash : FixedBytes hashLength
  signature : FixedBytes lib.signatureLength
  version_eq : version = SidechainBlock.BLOCK_VERSION

namespace SidechainBlockHeader

variable {lib : CryptoLib} (vlq : VLQ)

def messageToSign (header : SidechainBlockHeader lib) : Bytes :=
  [header.version] ++ header.parentId.toBytes ++ longBytes header.timestamp ++ header.forgingStakeInfo.hash ++
    header.vrfProof.toBytes ++ Utils.serialize vlq.putInt header.forgingStakeMerklePath ++
    header.sidechainTransactionsMerkleRootHash.toBytes ++ header.mainchainMerkleRootHash.toBytes ++
    header.ommersMerkleRootHash.toBytes ++ longBytes header.ommersCumulativeScore ++ header.feePaymentsHash.toBytes

def id (header : SidechainBlockHeader lib) : Bytes :=
  lib.blake2b256 (header.messageToSign vlq ++ header.signature.toBytes)

def serialize (header : SidechainBlockHeader lib) : Bytes :=
  [header.version] ++ header.parentId.toBytes ++ vlq.putLong header.timestamp ++ header.forgingStakeInfo.serialize vlq ++
    Utils.serialize vlq.putInt header.forgingStakeMerklePath ++ header.vrfProof.toBytes ++
    header.sidechainTransactionsMerkleRootHash.toBytes ++ header.mainchainMerkleRootHash.toBytes ++
    header.ommersMerkleRootHash.toBytes ++ vlq.putLong header.ommersCumulativeScore ++ header.feePaymentsHash.toBytes ++
    header.signature.toBytes

def parse : Reader (SidechainBlockHeader lib) := do
  let version ← byte
  if h : UInt8.ofNat version = SidechainBlock.BLOCK_VERSION then
    let parentId ← getFixed hashLength
    let timestamp ← vlq.getLong
    let forgingStakeInfo ← ForgingStakeInfo.parse vlq
    let forgingStakeMerkle ← Utils.parse vlq.getInt
    let vrfProof ← getFixed lib.vrfProofLength
    let sidechainTransactionsMerkleRootHash ← getFixed hashLength
    let mainchainMerkleRootHash ← getFixed hashLength
    let ommersMerkleRootHash ← getFixed hashLength
    let ommersCumulativeScore ← vlq.getLong
    let feePaymentsHash ← getFixed hashLength
    let signature ← getFixed lib.signatureLength
    pure ⟨UInt8.ofNat version, parentId, timestamp, forgingStakeInfo, forgingStakeMerkle, vrfProof,
      sidechainTransactionsMerkleRootHash, mainchainMerkleRootHash, ommersMerkleRootHash, ommersCumulativeScore,
      feePaymentsHash, signature, h⟩
  else failure

theorem reads_parse (header : SidechainBlockHeader lib)
    (hpath : header.forgingStakeMerklePath.merklePath.length < 2 ^ 31) :
    Reads (parse vlq) (header.serialize vlq) header := by
  have hcodec : Utils.IntCodec vlq.putInt vlq.getInt := ⟨vlq.reads_putInt⟩
  obtain ⟨version, parentId, timestamp, forgingStakeInfo, forgingStakeMerklePath, vrfProof, transactionsRoot, mainchainRoot,
    ommersRoot, ommersCumulativeScore, feePaymentsHash, signature, hversion⟩ := header
  unfold serialize
  simp only [List.append_assoc]
  refine (reads_version version).bind ?_
  simp only [UInt8.ofNat_toNat]
  rw [dif_pos hversion]
  refine Reads.bind (reads_getFixed parentId) ?_
  refine Reads.bind (vlq.reads_putLong timestamp) ?_
  refine Reads.bind (ForgingStakeInfo.reads_parse vlq forgingStakeInfo) ?_
  refine Reads.bind (Utils.reads_parse hcodec forgingStakeMerklePath hpath) ?_
  refine Reads.bind (reads_getFixed vrfProof) ?_
  refine Reads.bind (reads_getFixed transactionsRoot) ?_
  refine Reads.bind (reads_getFixed mainchainRoot) ?_
  refine Reads.bind (reads_getFixed ommersRoot) ?_
  refine Reads.bind (vlq.reads_putLong ommersCumulativeScore) ?_
  refine Reads.bind (reads_getFixed feePaymentsHash) ?_
  refine Reads.check (reads_getFixed signature) ?_
  exact reads_pure _

end SidechainBlockHeader

/-! ## The header of an account block -/

def AccountBlock.ACCOUNT_BLOCK_VERSION : UInt8 := 2

def AddressProposition.LENGTH : ℕ := 20

def Bloom.BLOOM_BYTE_LENGTH : ℕ := 256

structure AccountBlockHeader (lib : CryptoLib) where
  version : UInt8
  parentId : FixedBytes hashLength
  timestamp : Int64
  forgingStakeInfo : ForgingStakeInfo lib
  forgingStakeMerklePath : MerklePath
  vrfProof : FixedBytes lib.vrfProofLength
  vrfOutput : FixedBytes lib.vrfOutputLength
  sidechainTransactionsMerkleRootHash : FixedBytes hashLength
  mainchainMerkleRootHash : FixedBytes hashLength
  stateRoot : FixedBytes hashLength
  receiptsRoot : FixedBytes hashLength
  forgerAddress : FixedBytes AddressProposition.LENGTH
  baseFee : BitVec 256
  gasUsed : BitVec 256
  gasLimit : BitVec 256
  ommersMerkleRootHash : FixedBytes hashLength
  ommersCumulativeScore : Int64
  feePaymentsHash : FixedBytes hashLength
  logsBloom : FixedBytes Bloom.BLOOM_BYTE_LENGTH
  signature : FixedBytes lib.signatureLength
  version_eq : version = AccountBlock.ACCOUNT_BLOCK_VERSION

namespace AccountBlockHeader

variable {lib : CryptoLib} (vlq : VLQ)

def messageToSign (header : AccountBlockHeader lib) : Bytes :=
  [header.version] ++ header.parentId.toBytes ++ longBytes header.timestamp ++ header.forgingStakeInfo.hash ++
    header.vrfProof.toBytes ++ header.vrfOutput.toBytes ++ Utils.serialize vlq.putInt header.forgingStakeMerklePath ++
    header.sidechainTransactionsMerkleRootHash.toBytes ++ header.mainchainMerkleRootHash.toBytes ++
    header.stateRoot.toBytes ++ header.receiptsRoot.toBytes ++ header.forgerAddress.toBytes ++
    toByteArray header.baseFee.toNat ++ toByteArray header.gasUsed.toNat ++ toByteArray header.gasLimit.toNat ++
    header.ommersMerkleRootHash.toBytes ++ longBytes header.ommersCumulativeScore ++ header.feePaymentsHash.toBytes ++
    header.logsBloom.toBytes

def id (header : AccountBlockHeader lib) : Bytes :=
  lib.blake2b256 (header.messageToSign vlq ++ header.signature.toBytes)

def serialize (header : AccountBlockHeader lib) : Bytes :=
  [header.version] ++ header.parentId.toBytes ++ vlq.putLong header.timestamp ++ header.forgingStakeInfo.serialize vlq ++
    Utils.serialize vlq.putInt header.forgingStakeMerklePath ++ header.vrfProof.toBytes ++ header.vrfOutput.toBytes ++
    header.sidechainTransactionsMerkleRootHash.toBytes ++ header.mainchainMerkleRootHash.toBytes ++
    header.stateRoot.toBytes ++ header.receiptsRoot.toBytes ++ header.forgerAddress.toBytes ++
    putBigInteger vlq header.baseFee ++ putBigInteger vlq header.gasUsed ++ putBigInteger vlq header.gasLimit ++
    header.ommersMerkleRootHash.toBytes ++ vlq.putLong header.ommersCumulativeScore ++ header.feePaymentsHash.toBytes ++
    header.logsBloom.toBytes ++ header.signature.toBytes

def parse : Reader (AccountBlockHeader lib) := do
  let version ← byte
  if h : UInt8.ofNat version = AccountBlock.ACCOUNT_BLOCK_VERSION then
    let parentId ← getFixed hashLength
    let timestamp ← vlq.getLong
    let forgingStakeInfo ← ForgingStakeInfo.parse vlq
    let forgingStakeMerkle ← Utils.parse vlq.getInt
    let vrfProof ← getFixed lib.vrfProofLength
    let vrfOutput ← getFixed lib.vrfOutputLength
    let sidechainTransactionsMerkleRootHash ← getFixed hashLength
    let mainchainMerkleRootHash ← getFixed hashLength
    let stateRoot ← getFixed hashLength
    let receiptsRoot ← getFixed hashLength
    let forgerAddress ← getFixed AddressProposition.LENGTH
    let baseFee ← getBigInteger vlq
    let gasUsed ← getBigInteger vlq
    let gasLimit ← getBigInteger vlq
    let ommersMerkleRootHash ← getFixed hashLength
    let ommersCumulativeScore ← vlq.getLong
    let feePaymentsHash ← getFixed hashLength
    let logsBloom ← getFixed Bloom.BLOOM_BYTE_LENGTH
    let signature ← getFixed lib.signatureLength
    pure ⟨UInt8.ofNat version, parentId, timestamp, forgingStakeInfo, forgingStakeMerkle, vrfProof, vrfOutput,
      sidechainTransactionsMerkleRootHash, mainchainMerkleRootHash, stateRoot, receiptsRoot, forgerAddress, baseFee, gasUsed,
      gasLimit, ommersMerkleRootHash, ommersCumulativeScore, feePaymentsHash, logsBloom, signature, h⟩
  else failure

theorem reads_parse (header : AccountBlockHeader lib)
    (hpath : header.forgingStakeMerklePath.merklePath.length < 2 ^ 31) :
    Reads (parse vlq) (header.serialize vlq) header := by
  have hcodec : Utils.IntCodec vlq.putInt vlq.getInt := ⟨vlq.reads_putInt⟩
  obtain ⟨version, parentId, timestamp, forgingStakeInfo, forgingStakeMerklePath, vrfProof, vrfOutput, transactionsRoot,
    mainchainRoot, stateRoot, receiptsRoot, forgerAddress, baseFee, gasUsed, gasLimit, ommersRoot, ommersCumulativeScore,
    feePaymentsHash, logsBloom, signature, hversion⟩ := header
  unfold serialize
  simp only [List.append_assoc]
  refine (reads_version version).bind ?_
  simp only [UInt8.ofNat_toNat]
  rw [dif_pos hversion]
  refine Reads.bind (reads_getFixed parentId) ?_
  refine Reads.bind (vlq.reads_putLong timestamp) ?_
  refine Reads.bind (ForgingStakeInfo.reads_parse vlq forgingStakeInfo) ?_
  refine Reads.bind (Utils.reads_parse hcodec forgingStakeMerklePath hpath) ?_
  refine Reads.bind (reads_getFixed vrfProof) ?_
  refine Reads.bind (reads_getFixed vrfOutput) ?_
  refine Reads.bind (reads_getFixed transactionsRoot) ?_
  refine Reads.bind (reads_getFixed mainchainRoot) ?_
  refine Reads.bind (reads_getFixed stateRoot) ?_
  refine Reads.bind (reads_getFixed receiptsRoot) ?_
  refine Reads.bind (reads_getFixed forgerAddress) ?_
  refine Reads.bind (reads_getBigInteger vlq baseFee) ?_
  refine Reads.bind (reads_getBigInteger vlq gasUsed) ?_
  refine Reads.bind (reads_getBigInteger vlq gasLimit) ?_
  refine Reads.bind (reads_getFixed ommersRoot) ?_
  refine Reads.bind (vlq.reads_putLong ommersCumulativeScore) ?_
  refine Reads.bind (reads_getFixed feePaymentsHash) ?_
  refine Reads.bind (reads_getFixed logsBloom) ?_
  refine Reads.check (reads_getFixed signature) ?_
  exact reads_pure _

end AccountBlockHeader

/-! ## What an ommer uses of its header -/

structure HeaderFormat (H : Type) where
  id : H → Bytes
  mainchainMerkleRootHash : H → Bytes
  ommersMerkleRootHash : H → Bytes
  serialize : H → Bytes
  parse : Reader H
  -- the length of a list is an `Int`
  Sized : H → Prop
  reads : ∀ header, Sized header → Reads parse (serialize header) header
  nonempty : ∀ header, serialize header ≠ []

def sidechainFormat (lib : CryptoLib) (vlq : VLQ) : HeaderFormat (SidechainBlockHeader lib) where
  id := SidechainBlockHeader.id vlq
  mainchainMerkleRootHash := fun header => header.mainchainMerkleRootHash.toBytes
  ommersMerkleRootHash := fun header => header.ommersMerkleRootHash.toBytes
  serialize := SidechainBlockHeader.serialize vlq
  parse := SidechainBlockHeader.parse vlq
  Sized := fun header => header.forgingStakeMerklePath.merklePath.length < 2 ^ 31
  reads := SidechainBlockHeader.reads_parse vlq
  nonempty := by
    intro header
    unfold SidechainBlockHeader.serialize
    simp only [List.append_assoc]
    exact List.cons_ne_nil _ _

def accountFormat (lib : CryptoLib) (vlq : VLQ) : HeaderFormat (AccountBlockHeader lib) where
  id := AccountBlockHeader.id vlq
  mainchainMerkleRootHash := fun header => header.mainchainMerkleRootHash.toBytes
  ommersMerkleRootHash := fun header => header.ommersMerkleRootHash.toBytes
  serialize := AccountBlockHeader.serialize vlq
  parse := AccountBlockHeader.parse vlq
  Sized := fun header => header.forgingStakeMerklePath.merklePath.length < 2 ^ 31
  reads := AccountBlockHeader.reads_parse vlq
  nonempty := by
    intro header
    unfold AccountBlockHeader.serialize
    simp only [List.append_assoc]
    exact List.cons_ne_nil _ _

end SidechainsSdk.Blocks
