import PqIotAuth.Relay.Storage

/-!
# The cryptographic helpers of `AccountableRelay`

The keys of the attestation registry, the digests that verifiers sign, the leaves of a batch, and the Merkle tree: the
tree is built by overwriting the array of leaves level after level, and a proof is checked by halving the index.
-/

namespace PqIotAuth

open Lib

/-! ## Keys, digests and leaves -/

/-- `keccak256(abi.encodePacked(targetType, targetIndex, leafIndex))`. -/
def packedKey (E : Evm) (targetType targetIndex leafIndex : ℕ) : Bytes32 :=
  E.keccak256 (uint8Bytes targetType ++ uint256Bytes targetIndex ++ uint256Bytes leafIndex)

def targetKey (E : Evm) (d : Dispute) : Bytes32 := packedKey E d.targetType d.targetIndex d.leafIndex

/-- `"ATTEST_DOMAIN_V1"`. -/
def attestDomain : List Byte :=
  ascii ['A', 'T', 'T', 'E', 'S', 'T', '_', 'D', 'O', 'M', 'A', 'I', 'N', '_', 'V', '1']

/-- `"BATCH_LEAF_DOMAIN_V1"`. -/
def batchLeafDomain : List Byte :=
  ascii ['B', 'A', 'T', 'C', 'H', '_', 'L', 'E', 'A', 'F', '_', 'D', 'O', 'M', 'A', 'I', 'N', '_', 'V', '1']

/-- `"\x19Ethereum Signed Message:\n32"`. -/
def signedMessagePrefix : List Byte :=
  [0x19] ++ ascii ['E', 't', 'h', 'e', 'r', 'e', 'u', 'm', ' ', 'S', 'i', 'g', 'n', 'e', 'd', ' ',
    'M', 'e', 's', 's', 'a', 'g', 'e', ':'] ++ [10] ++ ascii ['3', '2']

def attestInner (E : Evm) (disputeId : ℕ) (verdictIsFraud : Bool) (d : Dispute) : Bytes32 :=
  E.keccak256 (abiEncode attestDomain
    [uint256Bytes disputeId, uint256Bytes verdictIsFraud.toNat, uint256Bytes d.targetType,
      uint256Bytes d.targetIndex, uint256Bytes d.leafIndex])

/-- The digest that `submitAttestation` recovers a signer from. -/
def attestDigest (E : Evm) (disputeId : ℕ) (verdictIsFraud : Bool) (d : Dispute) : Bytes32 :=
  E.keccak256 (signedMessagePrefix ++ (attestInner E disputeId verdictIsFraud d).bytes)

/-- `_recover`. -/
def recover (E : Evm) (digest : Bytes32) (signature : List Byte) : Except Error Address := do
  revertIf (signature.length ≠ 65) .badAttestation
  let r := Bytes32.ofBytes (signature.take 32)
  let s := Bytes32.ofBytes ((signature.drop 32).take 32)
  let v ← load boundsPanic signature 64
  let signer := E.ecrecover digest (if v < 27 then v + 27 else v) r s
  revertIf (signer = 0) .badAttestation
  return signer

/-- `keccak256(data[offset : offset + 752])`. -/
def sliceHash (E : Evm) (data : List Byte) (offset : ℕ) : Except Error Bytes32 := do
  let stop ← checkedAdd offset falcon512SigSizeMax
  revertIf (data.length < stop) boundsPanic
  return E.keccak256 ((data.drop offset).take falcon512SigSizeMax)

/-- The bytes that the hash of a leaf of a batch is taken of. -/
def leafPreimage (D : Deployment) (batchIndex : ℕ) (didHash : Bytes32) (nonce : ℕ) (dataHash sigHash : Bytes32) :
    List Byte :=
  abiEncode batchLeafDomain
    [uint256Bytes D.chainid, uint256Bytes D.self, uint256Bytes batchIndex, didHash.bytes, uint256Bytes nonce,
      dataHash.bytes, sigHash.bytes]

def leafHash (D : Deployment) (batchIndex : ℕ) (didHash : Bytes32) (nonce : ℕ) (dataHash sigHash : Bytes32) :
    Bytes32 :=
  D.keccak256 (leafPreimage D batchIndex didHash nonce dataHash sigHash)

/-! ## The Merkle tree -/

/-- `keccak256(abi.encodePacked(left, right))`. -/
def nodeHash (E : Evm) (left right : Bytes32) : Bytes32 := E.keccak256 (left.bytes ++ right.bytes)

/-- One turn of the inner loop: entry `i` becomes the parent of the entries `2i` and `2i + 1`, or of `2i` twice when
it is the last of the `n`. -/
def buildTreeTurn (E : Evm) (n : ℕ) (leaves : List Bytes32) (i : ℕ) : Except Error (List Bytes32) := do
  let left ← load boundsPanic leaves (2 * i)
  let right ← load boundsPanic leaves (if 2 * i + 1 < n then 2 * i + 1 else 2 * i)
  store leaves i (nodeHash E left right)

/-- The outer loop on an array whose first `n` entries are the current level. The fuel only bounds the recursion. -/
def buildTreeLoop (E : Evm) : ℕ → ℕ → List Bytes32 → Except Error (List Bytes32)
  | 0, _, _ => .error .notOffered
  | fuel + 1, n, leaves =>
    if n > 1 then do
      let leaves ← (List.range ((n + 1) / 2)).foldlM (buildTreeTurn E n) leaves
      buildTreeLoop E fuel ((n + 1) / 2) leaves
    else return leaves

def buildTree (E : Evm) (leaves : List Bytes32) : Except Error Bytes32 :=
  if leaves.length = 1 then load boundsPanic leaves 0
  else do
    let leaves ← buildTreeLoop E (leaves.length + 1) leaves.length leaves
    load boundsPanic leaves 0

/-- The hash that a proof leads to from the hash `h` at the index `idx`. -/
def verifyProofLoop (E : Evm) : List Bytes32 → ℕ → Bytes32 → Bytes32
  | [], _, h => h
  | p :: proof, idx, h =>
    verifyProofLoop E proof (idx / 2) (if idx % 2 = 0 then nodeHash E h p else nodeHash E p h)

def verifyProof (E : Evm) (leaf : Bytes32) (proof : List Bytes32) (index : ℕ) (root : Bytes32) : Bool :=
  verifyProofLoop E proof index leaf = root

end PqIotAuth
