/-
Ownership of mainchain addresses (`McAddrOwnershipMsgProcessor`): a sidechain address proves with signatures that it owns a
mainchain address, and the contract records the association. There are three kinds of linked lists in its storage: the
list of all associations, for each owner the list of its mainchain addresses, and the list of the owners. The list of an
owner is set up on its first use and taken down with its last node.

- `addMcAddrOwnership`, `uncheckedRemoveMcAddrOwnership`, `getListOfMcAddrOwnerships`, ..: the storage part.
- `getMcSignature`, `checkMcRedeemScriptForMultisig`, `verifySignaturesWithThreshold`: the checks of signatures and scripts.
- `process`: the commands, with their guards in order.

The storage keys are hashes, taken to be without collisions: a key is what is hashed, and no key is the zero word. Sidechain
addresses are written with 40 digits, so that a text that starts with one determines it. Decoders, encodings, hashes, the
recovery of public keys and the gas are parameters; where they may throw they return an `Except`. Messages have the texts
of the source; invocations and messages, which print the identity of an array, are not printed.
-/
import Mathlib.Tactic
import SidechainsSdk.Account.NativeContract
import SidechainsSdk.Account.NativeLinkedList
import SidechainsSdk.Account.WithdrawalRequests

namespace SidechainsSdk.Account.McAddrOwnership

open Fallible
open SidechainsSdk.Account.StateTransition (StateDb Invocation)
open NativeContract (Request decodeInput)
open NativeLinkedList
open ForgerStakeV2 (METHOD_ID_LENGTH getArgumentsFromData)
open WithdrawalRequests (getFunctionSignature)

/-! ## Texts -/

/-- `BytesUtils.toHexString` -/
def toHexString (bytes : Octets) : String :=
  String.ofList (bytes.flatMap fun b => [Nat.digitChar (b.toNat / 16), Nat.digitChar (b.toNat % 16)])

/-- the digits of an address -/
def toStringNoPrefix (address : Address) : String :=
  String.ofList ((List.range 40).reverse.map fun i => Nat.digitChar (address.toNat / 16 ^ i % 16))

/-- with the format `%02X` -/
def formatted (b : BitVec 8) : String := "0x" ++ (toHexString [b]).toUpper

/-! ## Storage -/

inductive Key where
  /-- `NULL_HEX_STRING_32` -/
  | zero
  /-- of a fixed text, shorter than an address -/
  | text (s : String)
  /-- of the digits of a sidechain address and a text -/
  | scText (sc : Address) (s : String)
  /-- `Keccak256.hash` -/
  | keccak (s : String)
  /-- of another hash -/
  | hash (k : Key)
deriving DecidableEq

structure McAddrOwnershipData where
  scAddress : Address
  mcTransparentAddress : String
deriving DecidableEq, Inhabited

inductive Data where
  | ownership (d : McAddrOwnershipData)
  /-- `OwnerScAddress` -/
  | owner (scAddress : Address)
  | mcAddress (s : String)
deriving DecidableEq

abbrev Storage := ContractStorage Key Data

/-- commands on the storage of the contract -/
abbrev StorageCommand := NativeLinkedList.Command Key Data

/-- the digits of a key in messages are left out -/
def nativeList (listTipKey listTipNullValue : Key) : NativeSmartContractLinkedList Key :=
  ⟨listTipKey, listTipNullValue, .hash, fun _ => ""⟩

def OwnershipsLinkedListTipKey : Key := .text "OwnershipTipKey"

def OwnershipLinkedListNullValue : Key := .text "OwnershipTipNullValue"

def ScAddressRefsLinkedListTipKey : Key := .text "ScAddrRefsTip"

def ScAddressRefsLinkedListNullValue : Key := .text "ScAddressRefsLinkedListNull"

def mcAddrOwnershipLinkedList : NativeSmartContractLinkedList Key :=
  nativeList OwnershipsLinkedListTipKey OwnershipLinkedListNullValue

def scAddressRefsLinkedList : NativeSmartContractLinkedList Key :=
  nativeList ScAddressRefsLinkedListTipKey ScAddressRefsLinkedListNullValue

def scAddrOwnershipLinkedList (sc : Address) : NativeSmartContractLinkedList Key :=
  nativeList (.scText sc "TipKey") (.scText sc "TipNullValue")

def scAddressTipValue (sc : Address) : Key := .scText sc ""

def getDataId (sc : Address) (mcAddressStr : String) : Key := .scText sc mcAddressStr

def getOwnershipId (mcAddress : String) : Key := .keccak mcAddress

/-- `doSpecificInit` -/
def doSpecificInit (s : Storage) : Storage :=
  let words := Function.update s.words OwnershipsLinkedListTipKey OwnershipLinkedListNullValue
  { s with words := Function.update words ScAddressRefsLinkedListTipKey ScAddressRefsLinkedListNullValue }

/-! ## Lists -/

/-- `ScAddrOwnershipLinkedList.initStateDb` -/
def initStateDb (sc : Address) : StorageCommand Unit := do
  let list := scAddrOwnershipLinkedList sc
  let tip ← getAccountStorage list.listTipKey
  if tip = .zero then updateAccountStorage list.listTipKey list.listTipNullValue
  -- a brand new list is added to the list of owners
  let s ← get
  if (s.records.lookup (scAddressTipValue sc)).isNone then
    addNewNode scAddressRefsLinkedList (scAddressTipValue sc)
    updateAccountStorageBytes (scAddressTipValue sc) (.data (.owner sc))

/-- `ScAddrOwnershipLinkedList.removeNode`: the very last node takes the list with it -/
def removeScNode (sc : Address) (dataId : Key) : StorageCommand Unit := do
  let list := scAddrOwnershipLinkedList sc
  removeNode list dataId
  let tip ← getAccountStorage list.listTipKey
  if tip = list.listTipNullValue then
    updateAccountStorage list.listTipKey .zero
    removeAccountStorageBytes (scAddressTipValue sc)
    removeNode scAddressRefsLinkedList (scAddressTipValue sc)

def addMcAddrOwnership (ownershipId : Key) (sc : Address) (mcTransparentAddress : String) : StorageCommand Unit := do
  addNewNode mcAddrOwnershipLinkedList ownershipId
  updateAccountStorageBytes ownershipId (.data (.ownership ⟨sc, mcTransparentAddress⟩))
  initStateDb sc
  let dataId := getDataId sc mcTransparentAddress
  addNewNode (scAddrOwnershipLinkedList sc) dataId
  updateAccountStorageBytes dataId (.data (.mcAddress mcTransparentAddress))

def uncheckedRemoveMcAddrOwnership (ownershipId : Key) (sc : Address) (mcTransparentAddress : String) :
    StorageCommand Unit := do
  initStateDb sc
  let dataId := getDataId sc mcTransparentAddress
  removeScNode sc dataId
  removeAccountStorageBytes dataId
  removeNode mcAddrOwnershipLinkedList ownershipId
  removeAccountStorageBytes ownershipId

/-- the item of a list behind a reference, with the reference before it -/
def getListItem {α : Type} (getData : Key → Except Exc (Option α)) (s : Storage) (nodeRef : Key) :
    Except Exc (α × Key) := do
  let found ← getLinkedListNode nodeRef s
  match found with
  | none => .error (.executionReverted "Could not find a valid node" [])
  | some node =>
    let data ← getData node.dataKey
    match data with
    | none => .error (.executionReverted "Could not find valid data" [])
    | some item => .ok (item, node.previousNodeKey)

def getOwnershipData (s : Storage) (ownershipId : Key) : Except Exc (Option McAddrOwnershipData) :=
  match s.records.lookup ownershipId with
  | none => .ok none
  | some (.data (.ownership d)) => .ok (some d)
  | some _ => .error (.executionReverted "Error while parsing forger data." [])

def getScAddressRefData (s : Storage) (scRefId : Key) : Except Exc (Option Address) :=
  match s.records.lookup scRefId with
  | none => .ok none
  | some (.data (.owner sc)) => .ok (some sc)
  | some _ => .error (.executionReverted "Error while parsing forger data." [])

/-- the data of the list of an owner is the text itself -/
def getScAddrData (s : Storage) (dataKey : Key) : Except Exc (Option String) :=
  match s.records.lookup dataKey with
  | none => .ok none
  | some (.data (.mcAddress mc)) => .ok (some mc)
  | some _ => .error (.other "not a text")

def getListOfOwnerScAddresses (s : Storage) : Except Exc (List Address) :=
  let nodeReference := s.words ScAddressRefsLinkedListTipKey
  if nodeReference = .zero then .ok []
  else readList scAddressRefsLinkedList (getListItem (getScAddressRefData s) s) s.records.keys.length nodeReference []

/-- without an owner -/
def getListOfMcAddrOwnerships (s : Storage) : Except Exc (List McAddrOwnershipData) :=
  let nodeReference := s.words OwnershipsLinkedListTipKey
  if nodeReference = .zero then .ok []
  else readList mcAddrOwnershipLinkedList (getListItem (getOwnershipData s) s) s.records.keys.length nodeReference []

/-- the list of an owner, which is set up if it is not there -/
def getScAddrListOfMcAddrOwnerships (sc : Address) : StorageCommand (List McAddrOwnershipData) := do
  initStateDb sc
  let list := scAddrOwnershipLinkedList sc
  let nodeReference ← getAccountStorage list.listTipKey
  let s ← get
  let items ← orThrow (readList list (getListItem (getScAddrData s) s) s.records.keys.length nodeReference [])
  return items.map fun mc => ⟨sc, mc⟩

def getExistingAssociation (s : Storage) (ownershipId : Key) : Except Exc (Option Address) := do
  let data ← getOwnershipData s ownershipId
  return data.map McAddrOwnershipData.scAddress

/-! ## Signatures and scripts -/

/-- `Arrays.copyOfRange`: zeros after the end -/
def copyOfRange (bytes : Octets) (start stop : ℕ) : Except Exc Octets :=
  if stop < start then .error (.illegalArgument s!"{start} > {stop}")
  else if bytes.length < start then .error (.other "ArrayIndexOutOfBoundsException")
  else .ok ((bytes.drop start).take (stop - start) ++ List.replicate (stop - bytes.length) 0)

def byteAt (bytes : Octets) (index : ℕ) : Except Exc (BitVec 8) :=
  bytes[index]?.elim (.error (.other "ArrayIndexOutOfBoundsException")) .ok

/-- `new BigInteger(1, bytes)` -/
def toUnsigned (bytes : Octets) : ℤ := bytes.foldl (fun n b => n * 256 + b.toNat) 0

structure SignatureSecp256k1 where
  v : ℤ
  r : ℤ
  s : ℤ
deriving DecidableEq

def secp256k1N : ℤ := 0xfffffffffffffffffffffffffffffffebaaedce6af48a03bbfd25e8cd0364141

def secp256k1halfN : ℤ := secp256k1N / 2

/-- the constructor, with `verifySignatureData` -/
def newSignature (v r s : ℤ) : Except Exc SignatureSecp256k1 := do
  failIf (v ≤ 0 ∨ r ≤ 0 ∨ s ≤ 0) (.illegalArgument "Non positive v/r/s obj passed in signature data")
  failIf (2 ^ 8 ≤ v) (.illegalArgument "Too large a v obj passed in signature data")
  failIf (v ≠ 27 ∧ v ≠ 28) (.illegalArgument s!"Invalid v obj passed in signature data: {v}")
  failIf (secp256k1halfN < s) (.illegalArgument "Invalid s obj passed in signature data")
  failIf (secp256k1N ≤ r) (.illegalArgument "Invalid signature r/s obj passed in signature data")
  return ⟨v, r, s⟩

def HORIZEN_MC_TRANSPARENT_ADDRESS_BASE_58_LENGTH : ℕ := 35

def HORIZEN_MC_SIGNATURE_BASE_64_LENGTH : ℕ := 88

def HORIZEN_ADDRESS_PREFIX_LENGTH : ℕ := 2

def HORIZEN_ADDRESS_HASH_LENGTH : ℕ := 20

def HORIZEN_ADDRESS_CHECKSUM_LENGTH : ℕ := 4

def HORIZEN_COMPRESSED_PUBLIC_KEY_LENGTH : ℕ := 33

def HORIZEN_UNCOMPRESSED_PUBLIC_KEY_LENGTH : ℕ := 65

def MAX_NUM_OF_PUBKEYS_IN_MULTISIG : ℕ := 16

def PUBLIC_KEY_SIZE : ℕ := 64

/-- the lengths are required by the constructor -/
structure AddNewOwnershipCmdInput where
  mcTransparentAddress : String
  mcSignature : String
  address_length : mcTransparentAddress.length = HORIZEN_MC_TRANSPARENT_ADDRESS_BASE_58_LENGTH
  signature_length : mcSignature.length = HORIZEN_MC_SIGNATURE_BASE_64_LENGTH

structure AddNewMultisigOwnershipCmdInput where
  mcTransparentAddress : String
  redeemScript : String
  mcSignatures : List String
  address_length : mcTransparentAddress.length = HORIZEN_MC_TRANSPARENT_ADDRESS_BASE_58_LENGTH
  signatures_count : mcSignatures.length ≤ 16
  signature_lengths : ∀ s ∈ mcSignatures, s.length = HORIZEN_MC_SIGNATURE_BASE_64_LENGTH

/-- what the database holds besides the accounts: the storage of this contract, logs, and anything else -/
structure ContractDb (ρ : Type) where
  storage : Storage
  logs : List (Bool × Address × String)
  others : ρ

abbrev Db (ρ : Type) := StateDb (ContractDb ρ)

/-- libraries: the fork table, the ABI, encodings, hashes and curves, and the gas of a message -/
structure Externals (ρ : Type) where
  isForkActive : ℕ → Bool
  isMultisigForkActive : ℕ → Bool
  accountExists : Db ρ → Address → Bool
  decodeAddNewOwnership : Octets → Except String AddNewOwnershipCmdInput
  decodeAddNewMultisigOwnership : Octets → Except String AddNewMultisigOwnershipCmdInput
  decodeRemoveOwnership : Octets → Except String String
  decodeGetOwnerships : Octets → Except String Address
  encodeOwnerships : List McAddrOwnershipData → Octets
  encodeOwners : List Address → Octets
  keccakBytes : String → Octets
  utf8Bytes : String → Octets
  toChecksumAddress : Address → String
  /-- the sidechain runs on the main network -/
  mainNet : Bool
  base58Encode : Octets → String
  base58Decode : String → Except Exc Octets
  base64Decode : String → Except Exc Octets
  fromHexString : String → Except Exc Octets
  doubleSHA256Hash : Octets → Octets
  Ripemd160Sha256Hash : Octets → Octets
  /-- `Sign.signedMessageHashToKey` -/
  signedMessageHashToKey : Octets → SignatureSecp256k1 → Except Exc ℕ
  /-- `ecParameters.getCurve.decodePoint(..).getEncoded(true)` -/
  compressPoint : Octets → Except Exc Octets
  gasCost : Invocation → Db ρ → ℤ

/-- a message to the contract; the sender of the transaction may have called it through another contract -/
structure Message where
  inv : Invocation
  sender : Address
  consensusEpochNumber : ℕ

section Checks

variable {ρ : Type} (env : Externals ρ)

def getMcSignature (mcSignatureString : String) : Except Exc SignatureSecp256k1 := do
  let decodedMcSignature ← env.base64Decode mcSignatureString
  let first ← byteAt decodedMcSignature 0
  let r ← copyOfRange decodedMcSignature 1 33
  let s ← copyOfRange decodedMcSignature 33 65
  newSignature (first.toInt - 0x4) (toUnsigned r) (toUnsigned s)

/-- the bytes of `"Zcash Signed Message:\n"`, with their number in front -/
def getMagicBytes : Octets := 22 :: env.utf8Bytes "Zcash Signed Message:\n"

def getMcHashedMsg (messageToSignString : String) : Except Exc Octets := do
  let messageToSignBytes := env.utf8Bytes messageToSignString
  failIf (256 < messageToSignBytes.length)
    (.illegalArgument s!"requirement failed: Too long a message to sign: {messageToSignBytes.length} > 256")
  return env.doubleSHA256Hash (getMagicBytes env ++ (BitVec.ofNat 8 messageToSignBytes.length :: messageToSignBytes))

/-- `Numeric.toBytesPadded` -/
def toBytesPadded (value length : ℕ) : Except Exc Octets :=
  if 256 ^ length ≤ value then .error (.other s!"Input is too large to put in byte array of size {length}")
  else .ok ((List.range length).reverse.map fun i => BitVec.ofNat 8 (value / 256 ^ i))

def recoverUncompressedPubKey (message : String) (mcSignature : SignatureSecp256k1) : Except Exc Octets := do
  let hashedMsg ← getMcHashedMsg env message
  let recPubKey ← env.signedMessageHashToKey hashedMsg mcSignature
  let padded ← toBytesPadded recPubKey PUBLIC_KEY_SIZE
  return 0x04 :: padded

def publicKeyPrefix : Octets := if env.mainNet then [0x20, 0x89] else [0x20, 0x98]

def toHorizenPublicKeyAddress (publicKeyHashBytes : Octets) : Except Exc String := do
  failIf (publicKeyHashBytes.length ≠ HORIZEN_ADDRESS_HASH_LENGTH)
    (.illegalArgument "Incorrect Horizen public key hash bytes length.")
  let addressBytes := publicKeyPrefix env ++ publicKeyHashBytes
  let checksum ← copyOfRange (env.doubleSHA256Hash addressBytes) 0 HORIZEN_ADDRESS_CHECKSUM_LENGTH
  return env.base58Encode (addressBytes ++ checksum)

def isValidOwnershipSignature (scAddress : Address) (mcTransparentAddress : String) (mcSignature : SignatureSecp256k1) :
    Except Exc Bool := do
  let recUncompressedPubKeyBytes ← recoverUncompressedPubKey env (env.toChecksumAddress scAddress) mcSignature
  let recCompressedPubKeyBytes ← env.compressPoint recUncompressedPubKeyBytes
  let computedTaddr ← toHorizenPublicKeyAddress env (env.Ripemd160Sha256Hash recCompressedPubKeyBytes)
  return computedTaddr = mcTransparentAddress

/-- the multisig address is signed as well -/
def isValidOwnershipMultisigSignature (scAddress : Address) (mcMultisigAddress : String) (pubKey : Octets)
    (mcSignature : SignatureSecp256k1) : Except Exc Bool := do
  let recUncompressedPubKeyBytes ←
    recoverUncompressedPubKey env (mcMultisigAddress ++ env.toChecksumAddress scAddress) mcSignature
  let head ← pubKey.head?.elim (.error (.other "next on empty iterator")) .ok
  let pubKeyBytes ← if head = 0x04 then .ok recUncompressedPubKeyBytes else env.compressPoint recUncompressedPubKeyBytes
  return pubKey = pubKeyBytes

/-- the first key that is not used yet and that the signature is valid for -/
def findPubKey (isValid : Octets → Except Exc Bool) (verifiedPubKeyIndexes : List ℕ) :
    List (Octets × ℕ) → Except Exc (Option ℕ)
  | [] => .ok none
  | (pubKey, index) :: rest =>
    if index ∈ verifiedPubKeyIndexes then findPubKey isValid verifiedPubKeyIndexes rest
    else do
      let valid ← isValid pubKey
      if valid then return some index else findPubKey isValid verifiedPubKeyIndexes rest

/-- the loop over the signatures; it ends when there are enough -/
def verifySignatures (isValid : SignatureSecp256k1 → Octets → Except Exc Bool) (pubKeys : List (Octets × ℕ))
    (thresholdSignatureValue : ℕ) : List (SignatureSecp256k1 × ℕ) → List ℕ → Except Exc ℕ
  | [], verified => .ok verified.length
  | (signature, index) :: rest, verified => do
    let found ← findPubKey (isValid signature) verified pubKeys
    match found with
    | none => .error (.executionReverted s!"Signature {index} not valid" [])
    | some pubKeyIndex =>
      if thresholdSignatureValue ≤ verified.length + 1 then return verified.length + 1
      else verifySignatures isValid pubKeys thresholdSignatureValue rest (pubKeyIndex :: verified)

def verifySignaturesWithThreshold (senderScAddress : Address) (mcMultisigAddress : String) (pubKeys : List Octets)
    (signatures : List SignatureSecp256k1) (thresholdSignatureValue : ℕ) : Except Exc ℕ :=
  verifySignatures
    (fun signature pubKey => isValidOwnershipMultisigSignature env senderScAddress mcMultisigAddress pubKey signature)
    pubKeys.zipIdx thresholdSignatureValue signatures.zipIdx []

/-- the keys of a redeem script from a position on, with the position behind them -/
def readPubKeys (redeemScriptBytes : Octets) : ℕ → ℕ → ℕ → Except Exc (List Octets × ℕ)
  | 0, _, pos => .ok ([], pos)
  | remaining + 1, n, pos => do
    let nextPubKeySize ← byteAt redeemScriptBytes pos
    let pos := pos + 1
    failIf (nextPubKeySize.toNat ≠ HORIZEN_COMPRESSED_PUBLIC_KEY_LENGTH ∧
        nextPubKeySize.toNat ≠ HORIZEN_UNCOMPRESSED_PUBLIC_KEY_LENGTH)
      (.illegalArgument <| s!"requirement failed: Invalid compressed/uncompressed pub key length {nextPubKeySize.toInt} " ++
        s!"read in redeemScript for pub key {n}")
    let pubKey := (redeemScriptBytes.drop pos).take nextPubKeySize.toNat
    let (pubKeys, stop) ← readPubKeys redeemScriptBytes remaining (n + 1) (pos + nextPubKeySize.toNat)
    return (pubKey :: pubKeys, stop)

def OP_CHECKMULTISIG : BitVec 8 := 0xAE

def OP_1 : ℤ := 0x51

def OP_16 : ℤ := 0x60

def OFFSET_FOR_OP_N : ℤ := 0x50

/-- `OP_1` to `OP_16`, which are positive as signed bytes -/
def IsOpN (b : BitVec 8) : Prop := OP_1 ≤ b.toInt ∧ b.toInt ≤ OP_16

instance (b : BitVec 8) : Decidable (IsOpN b) := inferInstanceAs (Decidable (_ ∧ _))

def checkMcRedeemScriptForMultisig (redeemScript : String) : Except Exc (ℕ × List Octets) := do
  let redeemScriptBytes ← env.fromHexString redeemScript
  let redeemScriptLen := redeemScriptBytes.length
  failIf (redeemScriptLen ≤ 2)
    (.illegalArgument s!"requirement failed: Invalid number of bytes {redeemScriptLen} in redeemScript")
  let last ← byteAt redeemScriptBytes (redeemScriptLen - 1)
  failIf (last ≠ OP_CHECKMULTISIG)
    (.illegalArgument "requirement failed: Tail of redeemScript should be OP_CHECKMULTSIG (0xAE)")
  let numOfPubKeyByte ← byteAt redeemScriptBytes (redeemScriptLen - 2)
  failIf (¬ IsOpN numOfPubKeyByte)
    (.illegalArgument s!"requirement failed: Number of pub keys byte {formatted numOfPubKeyByte} out of bounds")
  let numOfPubKeys := (numOfPubKeyByte.toInt - OFFSET_FOR_OP_N).toNat
  let thresholdSignatureValueByte ← byteAt redeemScriptBytes 0
  failIf (¬ IsOpN thresholdSignatureValueByte)
    (.illegalArgument s!"requirement failed: Invalid threshold signatures byte {formatted thresholdSignatureValueByte}")
  let thresholdSignatureValue := (thresholdSignatureValueByte.toInt - OFFSET_FOR_OP_N).toNat
  failIf (numOfPubKeys < thresholdSignatureValue)
    (.illegalArgument <|
      s!"requirement failed: Invalid value for threshold signature value: {thresholdSignatureValue} > {numOfPubKeys}")
  let (pubKeys, pos) ← readPubKeys redeemScriptBytes numOfPubKeys 0 1
  failIf (redeemScriptLen ≠ 2 + pos)
    (.illegalArgument s!"requirement failed: Invalid length of redeemScript: {redeemScriptLen}")
  return (thresholdSignatureValue, pubKeys)

def mcAddressPrefixes : List Octets :=
  if env.mainNet then [[0x20, 0x89], [0x1C, 0xB8], [0x20, 0x96], [0x1C, 0xBD]]
  else [[0x20, 0x98], [0x1D, 0x25], [0x20, 0x92], [0x1C, 0xBA]]

def getPrefixDescription (pre : Octets) : String :=
  if pre = [0x20, 0x89] ∨ pre = [0x1C, 0xB8] then "pubKey MainNet prefix"
  else if pre = [0x20, 0x96] ∨ pre = [0x1C, 0xBD] then "script MainNet prefix"
  else if pre = [0x20, 0x98] ∨ pre = [0x1D, 0x25] then "pubKey TestNet prefix"
  else if pre = [0x20, 0x92] ∨ pre = [0x1C, 0xBA] then "script TestNet prefix"
  else s!"Unknown prefix {toHexString pre}"

def fromHorizenMcTransparentAddress (address : String) : Except Exc Octets := do
  failIf (address.length ≠ HORIZEN_MC_TRANSPARENT_ADDRESS_BASE_58_LENGTH)
    (.illegalArgument s!"Incorrect Horizen mc transparent address length {address.length}")
  let addressBytesWithChecksum ← env.base58Decode address
  let addressBytes ← copyOfRange addressBytesWithChecksum 0 (HORIZEN_ADDRESS_PREFIX_LENGTH + HORIZEN_ADDRESS_HASH_LENGTH)
  let pre ← copyOfRange addressBytes 0 HORIZEN_ADDRESS_PREFIX_LENGTH
  let network := if env.mainNet then "MainNet" else "TestNet"
  failIf (pre ∉ mcAddressPrefixes env)
    (.illegalArgument <| s!"Incorrect Horizen address format, pubKey or script {network} prefix expected, " ++
      s!"got {getPrefixDescription pre}")
  let addressDataHash ← copyOfRange addressBytes HORIZEN_ADDRESS_PREFIX_LENGTH
    (HORIZEN_ADDRESS_PREFIX_LENGTH + HORIZEN_ADDRESS_HASH_LENGTH)
  let checksum ← copyOfRange addressBytesWithChecksum (HORIZEN_ADDRESS_PREFIX_LENGTH + HORIZEN_ADDRESS_HASH_LENGTH)
    addressBytesWithChecksum.length
  let calculatedChecksum ← copyOfRange (env.doubleSHA256Hash addressBytes) 0 HORIZEN_ADDRESS_CHECKSUM_LENGTH
  failIf (calculatedChecksum ≠ checksum) (.illegalArgument "Broken Horizen public key address: checksum is wrong.")
  return addressDataHash

/-- any exception means that the address is invalid -/
def checkMultisigAddress (mcMultisigAddress redeemScript : String) : Bool :=
  let checked : Except Exc Bool := do
    let scriptHash ← fromHorizenMcTransparentAddress env mcMultisigAddress
    let script ← env.fromHexString redeemScript
    return scriptHash = env.Ripemd160Sha256Hash script
  match checked with
  | .ok equal => equal
  | .error _ => false

end Checks

/-! ## Commands -/

section Commands

variable {ρ : Type} (env : Externals ρ)

abbrev Command (ρ : Type) := NativeContract.Command (ContractDb ρ)

/-- a command on the storage of the contract -/
def onStorage {α : Type} (x : StorageCommand α) : Command ρ α :=
  onPart (fun db => db.rest.storage) (fun s db => { db with rest := { db.rest with storage := s } }) x

def addLog (added : Bool) (sc : Address) (mc : String) : Command ρ Unit :=
  modify fun db => { db with rest := { db.rest with logs := db.rest.logs ++ [(added, sc, mc)] } }

/-- a mainchain address belongs to one sidechain address -/
def checkNotAssociated (ownershipId : Key) (mc : String) : Command ρ Unit := do
  let db ← get
  let existing ← orThrow (getExistingAssociation db.rest.storage ownershipId)
  let scAddrStr := toStringNoPrefix (existing.getD 0)
  throwIf existing.isSome
    (.executionReverted s!"MC address {mc} is already associated to sc address {scAddrStr}: invocation = " [])

/-- what both commands that add an ownership end with -/
def addOwnership (sc : Address) (mc : String) : Command ρ Octets := do
  let newOwnershipId := getOwnershipId mc
  checkNotAssociated newOwnershipId mc
  onStorage (addMcAddrOwnership newOwnershipId sc mc)
  addLog true sc mc
  return env.keccakBytes mc

def doAddNewOwnershipCmd (msg : Message) : Command ρ Octets := do
  throwIf (msg.inv.value.sign ≠ 0) (.executionReverted "Value must be zero: invocation = " [])
  throwIf (¬ env.accountExists (← get) msg.sender) (.executionReverted "Sender account does not exist: msg = " [])
  let inputParams ← orThrow (getArgumentsFromData msg.inv.input)
  let cmdInput ← orThrow (decodeInput env.decodeAddNewOwnership inputParams)
  let mcSignSecp256k1 ← orThrow (getMcSignature env cmdInput.mcSignature)
  let valid ← orThrow (isValidOwnershipSignature env msg.sender cmdInput.mcTransparentAddress mcSignSecp256k1)
  throwIf (valid = false) (.executionReverted s!"Invalid mc signature {cmdInput.mcSignature}: invocation = " [])
  addOwnership env msg.sender cmdInput.mcTransparentAddress

/-- `require` failures are trapped -/
def checkRedeemScript (redeemScript : String) : Except Exc (ℕ × List Octets) :=
  match checkMcRedeemScriptForMultisig env redeemScript with
  | .error (.illegalArgument message) => .error (.executionReverted ("Unexpected format of redeemScript: " ++ message) [])
  | other => other

def doAddNewMultisigOwnershipCmd (msg : Message) : Command ρ Octets := do
  throwIf (msg.inv.value.sign ≠ 0) (.executionReverted "Value must be zero: invocation = " [])
  throwIf (¬ env.accountExists (← get) msg.sender) (.executionReverted "Sender account does not exist: msg = " [])
  let inputParams ← orThrow (getArgumentsFromData msg.inv.input)
  let cmdInput ← orThrow (decodeInput env.decodeAddNewMultisigOwnership inputParams)
  throwIf (MAX_NUM_OF_PUBKEYS_IN_MULTISIG < cmdInput.mcSignatures.length)
    (.executionReverted (s!"Too many signatures {cmdInput.mcSignatures.length}, can not be more that max num of pubkeys " ++
      s!"in a redeem script {MAX_NUM_OF_PUBKEYS_IN_MULTISIG}") [])
  throwIf (checkMultisigAddress env cmdInput.mcTransparentAddress cmdInput.redeemScript = false)
    (.executionReverted "Could not verify multisig address against redeemScript" [])
  let (thresholdSignatureValue, pubKeys) ← orThrow (checkRedeemScript env cmdInput.redeemScript)
  throwIf (cmdInput.mcSignatures.length < thresholdSignatureValue)
    (.executionReverted (s!"Signatures are not enough. Input has {cmdInput.mcSignatures.length}, " ++
      s!"needs at least {thresholdSignatureValue}") [])
  let signatures ← orThrow (cmdInput.mcSignatures.mapM (getMcSignature env))
  let score ← orThrow (verifySignaturesWithThreshold env msg.sender cmdInput.mcTransparentAddress pubKeys signatures
    thresholdSignatureValue)
  throwIf (score < thresholdSignatureValue)
    (.executionReverted s!"Invalid number of verified signatures: {score}, need: {thresholdSignatureValue}: invocation = " [])
  addOwnership env msg.sender cmdInput.mcTransparentAddress

def doRemoveOwnershipCmd (msg : Message) : Command ρ Octets := do
  throwIf (msg.inv.value.sign ≠ 0) (.executionReverted "Value must be zero" [])
  throwIf (¬ env.accountExists (← get) msg.sender)
    (.executionReverted s!"Sender account does not exist: 0x{toStringNoPrefix msg.sender}" [])
  let inputParams ← orThrow (getArgumentsFromData msg.inv.input)
  -- the decoder always finds an address
  let mcTransparentAddress ← orThrow (decodeInput env.decodeRemoveOwnership inputParams)
  let ownershipId := getOwnershipId mcTransparentAddress
  let existing ← orThrow (getExistingAssociation (← get).rest.storage ownershipId)
  let idStr := toHexString (env.keccakBytes mcTransparentAddress)
  let scAddr ← getOrThrow existing (.executionReverted s!"Ownership {idStr} does not exists" [])
  throwIf (msg.sender ≠ scAddr)
    (.executionReverted s!"sc address {toStringNoPrefix scAddr} is not the owner of {mcTransparentAddress}: msg = " [])
  onStorage (uncheckedRemoveMcAddrOwnership ownershipId msg.sender mcTransparentAddress)
  addLog false msg.sender mcTransparentAddress
  return env.keccakBytes mcTransparentAddress

def doGetListOfOwnershipsCmd (msg : Message) : Command ρ Octets := do
  throwIf (msg.inv.value.sign ≠ 0) (.executionReverted "Call value must be zero" [])
  let inputParams ← orThrow (getArgumentsFromData msg.inv.input)
  let scAddress ← orThrow (decodeInput env.decodeGetOwnerships inputParams)
  let ownershipList ← onStorage (getScAddrListOfMcAddrOwnerships scAddress)
  return env.encodeOwnerships ownershipList

/-- the queries without arguments -/
def checkNoArguments (msg : Message) : Command ρ Unit := do
  throwIf (msg.inv.value.sign ≠ 0) (.executionReverted "Call value must be zero" [])
  let inputParams ← orThrow (getArgumentsFromData msg.inv.input)
  throwIf (0 < inputParams.length)
    (.executionReverted s!"invalid msg data length: {msg.inv.input.length}, expected {METHOD_ID_LENGTH}" [])

def doGetListOfAllOwnershipsCmd (msg : Message) : Command ρ Octets := do
  checkNoArguments msg
  let ownershipList ← orThrow (getListOfMcAddrOwnerships (← get).rest.storage)
  return env.encodeOwnerships ownershipList

def doGetListOfOwnerScAddressesCmd (msg : Message) : Command ρ Octets := do
  checkNoArguments msg
  let owners ← orThrow (getListOfOwnerScAddresses (← get).rest.storage)
  return env.encodeOwners owners

/-- `sendMultisigKeysOwnership(string,string,string[])` -/
def AddNewMultisigOwnershipCmd : Octets := [0x33, 0xc7, 0x2e, 0xd1]

/-- `sendKeysOwnership(bytes3,bytes32,bytes24,bytes32,bytes32)` -/
def AddNewOwnershipCmd : Octets := [0x57, 0x94, 0x65, 0xdd]

/-- `removeKeysOwnership(bytes3,bytes32)` -/
def RemoveOwnershipCmd : Octets := [0x91, 0x83, 0xc0, 0xda]

/-- `getAllKeyOwnerships()` -/
def GetListOfAllOwnershipsCmd : Octets := [0x8e, 0xf0, 0x54, 0x57]

/-- `getKeyOwnerships(address)` -/
def GetListOfOwnershipsCmd : Octets := [0x16, 0x9e, 0x2d, 0x15]

/-- `getKeyOwnerScAddresses()` -/
def GetListOfOwnerScAddressesCmd : Octets := [0xb9, 0x7a, 0x1c, 0xf2]

def process (msg : Message) : Command ρ Octets := do
  throwIf (env.isForkActive msg.consensusEpochNumber = false) (.executionReverted "zenDao fork not active" [])
  throwIf ((← get).rest.storage.words OwnershipsLinkedListTipKey = .zero)
    (.executionReverted "zenDao native smart contract init not done" [])
  throwIf (msg.inv.input.length = 0) (.executionReverted "No data in invocation = " [])
  let functionSig ← orThrow (getFunctionSignature msg.inv.input)
  if functionSig = AddNewMultisigOwnershipCmd then
    if env.isMultisigForkActive msg.consensusEpochNumber then doAddNewMultisigOwnershipCmd env msg
    else throw (.executionReverted s!"op code not supported: {toHexString AddNewMultisigOwnershipCmd}" [])
  else if functionSig = AddNewOwnershipCmd then doAddNewOwnershipCmd env msg
  else if functionSig = RemoveOwnershipCmd then doRemoveOwnershipCmd env msg
  else if functionSig = GetListOfAllOwnershipsCmd then doGetListOfAllOwnershipsCmd env msg
  else if functionSig = GetListOfOwnershipsCmd then doGetListOfOwnershipsCmd env msg
  else if functionSig = GetListOfOwnerScAddressesCmd then doGetListOfOwnerScAddressesCmd env msg
  else throw (.executionReverted s!"op code not supported: {toHexString functionSig}" [])

def toRequest (msg : Message) : Request (ContractDb ρ) := ⟨msg.inv, process env msg, env.gasCost msg.inv⟩

end Commands

end SidechainsSdk.Account.McAddrOwnership
