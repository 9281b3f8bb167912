import PqIotAuth.DIDUtils
import PqIotAuth.FalconSimulation
import PqIotAuth.Scalability

/-!
# The relay system

The objects of which the relay experiment is made: the signatures of `falcon_utils` with its three backends, the
devices, the gateway that verifies what they send, the simulated chain and the relays that submit to it. The chain is
shared by its relays, so their methods take it and give it back.

SHA-256, the libraries, the seeded generator of a chain and the hashes of its transactions are parameters; what a call
draws or measures is an argument of it.
-/

namespace PqIotAuth.RelaySystem

open Lib
open DIDUtils (Digest generateDid)
open Scalability (gasBaseTx gasRelayMetaTx)

/-! ## Signatures -/

/-- `liboqs` or `pqcrypto`, as far as it is called. -/
structure FalconLibrary where
  generateKeypair : Option (List Byte) → Bytes32 → FalconKeyPair
  sign : Bytes32 → List Byte → List Byte → List Byte
  /-- `none` where it raises an exception. -/
  verify : List Byte → List Byte → List Byte → Option Bool

/-- What `_BACKEND` names. -/
inductive FalconBackend where
  | liboqs (library : FalconLibrary)
  | pqcrypto (library : FalconLibrary)
  | simulation (P : Primitives)

namespace FalconBackend

def falconKeygen (B : FalconBackend) (seed : Option (List Byte)) (drawn : Bytes32) : Option FalconKeyPair :=
  match B with
  | liboqs library => some (library.generateKeypair seed drawn)
  -- the seed is ignored, with a warning
  | pqcrypto library => some (library.generateKeypair none drawn)
  | simulation P => P.simulationKeygen seed drawn

def falconSign (B : FalconBackend) (drawn : Bytes32) (message privateKey : List Byte) : Option (List Byte) :=
  match B with
  | liboqs library => some (library.sign drawn message privateKey)
  | pqcrypto library => some (library.sign drawn message privateKey)
  | simulation P => P.simulationSign message privateKey

def falconVerify (B : FalconBackend) (message signature publicKey : List Byte) : Option Bool :=
  match B with
  | liboqs library => library.verify message signature publicKey
  -- an exception is caught here, and is not for `liboqs`
  | pqcrypto library => some ((library.verify message signature publicKey).getD false)
  | simulation P => some (P.simulationVerify message signature publicKey)

end FalconBackend

/-- The library verifies what it has signed with a key that it has generated. -/
def FalconLibrary.Correct (library : FalconLibrary) : Prop :=
  ∀ seed drawn drawn' message,
    library.verify message (library.sign drawn' message (library.generateKeypair seed drawn).privateKey)
      (library.generateKeypair seed drawn).publicKey = some true

def FalconBackend.Correct : FalconBackend → Prop
  | liboqs library => library.Correct
  | pqcrypto library => library.Correct
  | simulation P => P.Correct

/-- **Every backend verifies what it has signed.** -/
theorem FalconBackend.roundtrip {B : FalconBackend} (hB : B.Correct) (seed : Option (List Byte)) (drawn : Bytes32) :
    ∃ kp, B.falconKeygen seed drawn = some kp ∧ ∀ drawn' message, ∃ signature,
      B.falconSign drawn' message kp.privateKey = some signature ∧
        B.falconVerify message signature kp.publicKey = some true := by
  cases B with
  | liboqs library => exact ⟨_, rfl, fun drawn' message => ⟨_, rfl, hB seed drawn drawn' message⟩⟩
  | pqcrypto library =>
    refine ⟨_, rfl, fun drawn' message => ⟨_, rfl, ?_⟩⟩
    have h := hB none drawn drawn' message
    simp only [falconVerify, h, Option.getD_some]
  | simulation P =>
    obtain ⟨kp, hkeygen, -, -, hpub, hpriv⟩ := Primitives.simulationKeygen_eq (P := P) seed drawn
    refine ⟨kp, hkeygen, fun drawn' message => ?_⟩
    obtain ⟨signature, hsign, -, htake⟩ := Primitives.simulationSign_eq hB message hpriv
    exact ⟨signature, hsign, congrArg some ((Primitives.simulationVerify_iff hB message signature hpub).2 htake)⟩

/-! ## Devices -/

structure IoTDevice where
  deviceId : String
  keypair : FalconKeyPair
  did : String

/-- The construction of a device, which draws its key and its DID. -/
def IoTDevice.new (H : Digest) (B : FalconBackend) (deviceId : String) (drawn : Bytes32) (urandom : List Byte) :
    Option IoTDevice := do
  let keypair ← B.falconKeygen none drawn
  return ⟨deviceId, keypair, generateDid H none none urandom⟩

def IoTDevice.signData (B : FalconBackend) (drawn : Bytes32) (payload : List Byte) (device : IoTDevice) :
    Option (List Byte) :=
  B.falconSign drawn payload device.keypair.privateKey

def IoTDevice.generateSensorData (size timestamp : ℕ) (urandom : ℕ → List Byte) (device : IoTDevice) : List Byte :=
  let header := encodeUtf8 ("device=" ++ device.deviceId ++ "&ts=" ++ toString timestamp ++ "&data=")
  if size ≤ header.length then header.take size
  else header ++ urandom (size - header.length)

/-! ## The gateway -/

/-- What `relay_data` returns, without the times. -/
structure GatewayResult where
  deviceDid : String
  dataHash : String
  verified : Bool
  gatewayId : String
  payloadSize : ℕ

structure Gateway where
  gatewayId : String
  relayedCount : ℕ
  failedCount : ℕ
  batch : List GatewayResult

def Gateway.new (gatewayId : String) : Gateway := ⟨gatewayId, 0, 0, []⟩

/-- `hexdigest`. -/
def hexdigest (H : Digest) (payload : List Byte) : String := String.ofList (Hex.encode (H.sha256 payload))

/-- `relay_data`; `none` where the backend raises an exception. -/
def Gateway.relayData (H : Digest) (B : FalconBackend) (deviceDid : String)
    (devicePubkey payload signature : List Byte) (gateway : Gateway) : Option (GatewayResult × Gateway) := do
  let verified ← B.falconVerify payload signature devicePubkey
  let result := {
    deviceDid
    dataHash := hexdigest H payload
    verified
    gatewayId := gateway.gatewayId
    payloadSize := payload.length }
  if verified then
    return (result, { gateway with
      relayedCount := gateway.relayedCount + 1
      batch := gateway.batch ++ [result] })
  else return (result, { gateway with failedCount := gateway.failedCount + 1 })

/-! ## The simulated chain -/

/-- A chain's generator, which its seed determines: `uniform n` is what `uniform(5.0, 25.0)` gives at the `n`-th
draw. -/
structure Rng where
  uniform : ℕ → ℚ
  uniform_mem : ∀ n, 5 ≤ uniform n ∧ uniform n ≤ 25

/-- The hashes of the transactions of a chain, by their numbers; a random UUID goes into each. -/
structure Hashes where
  hash : ℕ → String
  injective : Function.Injective hash

/-- What the two kinds of entries have of their own. -/
inductive Kind where
  | direct (payloadSize : ℕ) (storeSignature : Bool)
  | metaTransaction (signatureSize : ℕ)
  deriving DecidableEq

/-- An entry of `_transactions`, without its timestamp. -/
structure Transaction where
  sender : String
  dataHash : String
  kind : Kind
  gasUsed : ℕ
  blockNumber : ℕ
  latencyMs : ℚ

structure SimulatedBlockchain where
  transactions : String → Option Transaction
  txOrder : List String
  blockNumber : ℕ
  /-- How often the generator has drawn. -/
  draws : ℕ

/-- An item of `batch_data`, with the entries that it has. -/
structure BatchItem where
  dataHash : Option String
  signatureSize : Option ℕ
  verified : Option Bool

/-- The exception of a missing entry. -/
structure KeyError where
  key : String

def gasEcdsaVerify : ℕ := 30000

def gasPerByteCalldata : ℕ := 16

def gasTheoreticalFalcon : ℕ := 500000000

namespace SimulatedBlockchain

def init : SimulatedBlockchain := ⟨fun _ => none, [], 0, 0⟩

variable (R : Rng) (X : Hashes)

/-- `_network_latency`. -/
def networkLatency (bc : SimulatedBlockchain) : ℚ × SimulatedBlockchain :=
  (R.uniform bc.draws, { bc with draws := bc.draws + 1 })

/-- What a submission of either kind does once its gas is known. -/
def record (sender dataHash : String) (kind : Kind) (gasUsed : ℕ) (bc : SimulatedBlockchain) :
    String × SimulatedBlockchain :=
  let txHash := X.hash bc.txOrder.length
  let (latencyMs, bc) := bc.networkLatency R
  let blockNumber := bc.blockNumber + 1
  (txHash, { bc with
    transactions := Function.update bc.transactions txHash
      (some { sender, dataHash, kind, gasUsed, blockNumber, latencyMs })
    txOrder := bc.txOrder ++ [txHash]
    blockNumber })

def directGas (payloadSize : ℕ) (storeSignature : Bool) : ℕ :=
  let gasUsed := gasBaseTx + gasEcdsaVerify + gasPerByteCalldata * payloadSize
  if storeSignature then gasUsed + 40000 else gasUsed

def metaGas (didActive : Bool) : ℕ := if didActive then gasRelayMetaTx else gasBaseTx + 50000

def submitTransaction (sender dataHash : String) (payloadSize : ℕ) (storeSignature : Bool)
    (bc : SimulatedBlockchain) : String × SimulatedBlockchain :=
  bc.record R X sender dataHash (.direct payloadSize storeSignature) (directGas payloadSize storeSignature)

def submitMetaTransaction (relayAddress dataHash : String) (signatureSize : ℕ) (didActive : Bool)
    (bc : SimulatedBlockchain) : String × SimulatedBlockchain :=
  bc.record R X relayAddress dataHash (.metaTransaction signatureSize) (metaGas didActive)

/-- The assignment to `receipt["latency_ms"]`. -/
def setLatency (txHash : String) (latencyMs : ℚ) (bc : SimulatedBlockchain) : SimulatedBlockchain :=
  { bc with
    transactions := Function.update bc.transactions txHash
      ((bc.transactions txHash).map fun receipt => { receipt with latencyMs }) }

/-- The loop of `submit_batch_transaction` over what is left of a batch of `size` items. -/
def submitItems (relayAddress : String) (size : ℕ) :
    List BatchItem → SimulatedBlockchain → Except KeyError (List String) × SimulatedBlockchain
  | [], bc => (.ok [], bc)
  | item :: items, bc =>
    match item.dataHash with
    -- what has been submitted before stays
    | none => (.error ⟨"data_hash"⟩, bc)
    | some dataHash =>
      let (txHash, bc) := bc.submitMetaTransaction R X relayAddress dataHash
        (item.signatureSize.getD falcon512SignatureSizeMax) (item.verified.getD true)
      let (latency, bc) := bc.networkLatency R
      let (txHashes, bc) := submitItems relayAddress size items (bc.setLatency txHash (latency / size))
      (txHashes.map (txHash :: ·), bc)

def submitBatchTransaction (relayAddress : String) (batchData : List BatchItem) (bc : SimulatedBlockchain) :
    Except KeyError (List String) × SimulatedBlockchain :=
  submitItems R X relayAddress batchData.length batchData bc

def getReceipt (txHash : String) (bc : SimulatedBlockchain) : Option Transaction := bc.transactions txHash

def transactionCount (bc : SimulatedBlockchain) : ℕ := bc.txOrder.length

end SimulatedBlockchain

/-! ## Relays -/

structure RelayNode where
  relayId : String
  submittedCount : ℕ

/-- The metrics of a submission. -/
structure Metrics where
  txHash : String
  totalLatencyMs : ℚ
  gasUsed : ℕ
  blockNumber : ℕ

namespace RelayNode

variable (R : Rng) (X : Hashes)

def submitVerifiedTransaction (dataHash : String) (signature : List Byte) (verified : Bool) (relay : RelayNode)
    (bc : SimulatedBlockchain) : String × RelayNode × SimulatedBlockchain :=
  let (txHash, bc) := bc.submitMetaTransaction R X relay.relayId dataHash signature.length verified
  (txHash, { relay with submittedCount := relay.submittedCount + 1 }, bc)

/-- `submit_verified_transaction` with `return_metrics`, where the submission takes `totalLatency`; `none` where the
receipt is missing. -/
def submitWithMetrics (totalLatency : ℚ) (dataHash : String) (signature : List Byte) (verified : Bool)
    (relay : RelayNode) (bc : SimulatedBlockchain) : Option (Metrics × RelayNode × SimulatedBlockchain) := do
  let (txHash, relay, bc) := relay.submitVerifiedTransaction R X dataHash signature verified bc
  let receipt ← bc.getReceipt txHash
  return (⟨txHash, totalLatency + receipt.latencyMs, receipt.gasUsed, receipt.blockNumber⟩, relay, bc)

/-- The loop of `submit_batch`. -/
def submitPairs :
    List (GatewayResult × List Byte) → RelayNode → SimulatedBlockchain → List String × RelayNode × SimulatedBlockchain
  | [], relay, bc => ([], relay, bc)
  | (item, sig) :: pairs, relay, bc =>
    let (txHash, relay, bc) := relay.submitVerifiedTransaction R X item.dataHash sig item.verified bc
    let (txHashes, relay, bc) := submitPairs pairs relay bc
    (txHash :: txHashes, relay, bc)

def submitBatch (batch : List GatewayResult) (signatures : List (List Byte)) (relay : RelayNode)
    (bc : SimulatedBlockchain) : List String × RelayNode × SimulatedBlockchain :=
  submitPairs R X (batch.zip signatures) relay bc

end RelayNode

end PqIotAuth.RelaySystem
