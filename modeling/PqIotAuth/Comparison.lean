import PqIotAuth.SimulatedLedger
import PqIotAuth.Lib.NestedLoops
import Mathlib.Algebra.Order.BigOperators.Group.List
import Mathlib.Algebra.Order.Field.Basic
import Mathlib.Tactic.Linarith
import Mathlib.Tactic.NormNum

/-!
# The comparison of the two paths

`ComparisonRunner.run_comparison` on the simulated chain, with all the objects that it makes: the devices sign what
they measure and either submit its hash themselves or send it to the gateway, behind which a relay submits it in
batches. Whatever the devices draw and measure, both paths submit every reading once and nothing fails, and the gas of
either is the number of readings times a constant (`comparison_exact`).

Every path is run on a new chain, and all chains have the same seed. So the two paths draw the same latencies, the
relay's come with those of the verification and the relay on top, and the latency ratio never exceeds 1; and what is
reported as the spread over several rounds is 0 for the gas and for the direct latency.

The relay path is the loop of `run_relay_path` on its objects; it follows the loop of which `ComparisonRunner` is the
model, with the number of a submission for what the backend makes of it (`Follows`). Numbers are exact.
-/

namespace PqIotAuth.RelaySystem

open Lib
open DIDUtils (Digest)

/-! ## The experiment -/

/-- The libraries, the seed of the chains, and what the devices draw when they are made. -/
structure Setting where
  H : Digest
  B : FalconBackend
  R : Rng
  keys : ℕ → Bytes32
  identifiers : ℕ → List Byte
  /-- The square root in `statistics.stdev`. -/
  sqrt : ℚ → ℚ
  sqrt_zero : sqrt 0 = 0

/-- What is drawn and measured while a path is run, by device and transaction or by submission. -/
structure Trace where
  hashes : Hashes
  timestamp : ℕ → ℕ → ℕ
  urandom : ℕ → ℕ → ℕ → List Byte
  salt : ℕ → ℕ → Bytes32
  verifyLatency : ℕ → ℕ → ℚ
  elapsed : ℕ → ℚ
  verifyLatency_nonneg : ∀ i j, 0 ≤ verifyLatency i j
  elapsed_nonneg : ∀ n, 0 ≤ elapsed n

structure Experiment extends ComparisonRunner where
  payloadSize : ℕ

/-- `f"device-{i:04d}"`. -/
def deviceId (i : ℕ) : String :=
  let digits := toString i
  "device-" ++ String.ofList (List.replicate (4 - digits.length) '0') ++ digits

structure DirectResult where
  totalTransactions : ℕ
  totalLatencyMs : ℚ
  avgLatencyMs : ℚ
  totalGas : ℕ
  avgGasPerTx : ℚ
  deviceCount : ℕ
  transactionsPerDevice : ℕ
  backend : String

/-- The variables of `run_direct_path`. -/
structure DirectPath where
  bc : SimulatedBlockchain
  totalTransactions : ℕ
  totalLatency : ℚ
  totalGas : ℕ

def DirectPath.init : DirectPath := ⟨SimulatedBlockchain.init, 0, 0, 0⟩

/-- An item of `pending_items`, as far as the simulated chain gets it. -/
structure PendingItem where
  deviceDid : String
  dataHash : String
  signature : List Byte
  verified : Bool

/-- The variables of `run_relay_path`, with the objects that it makes. -/
structure RelayPath extends RelayState PendingItem where
  gateway : Gateway
  relay : RelayNode
  bc : SimulatedBlockchain

def RelayPath.init : RelayPath where
  toRelayState := RelayState.init
  gateway := Gateway.new "gw-relay-test"
  relay := ⟨"relay-node-001", 0⟩
  bc := SimulatedBlockchain.init

/-- What is reported over several rounds. -/
structure Spread where
  directGasStd : ℚ
  directLatencyStd : ℚ
  relayGasStd : ℚ
  relayLatencyStd : ℚ
  rounds : ℕ

/-- The result; a ratio is `none` where it is infinite. -/
structure Comparison where
  directEcdsa : DirectResult
  relayFalcon : RelayResult
  directEcdsaAvgGas : ℚ
  relayFalconAvgGas : ℚ
  theoreticalFalconGas : ℕ
  relayVsFalconRatio : Option ℚ
  relayVsEcdsaGasRatio : Option ℚ
  latencyRatio : Option ℚ
  relayFailedVerifications : ℕ
  backend : String
  spread : Option Spread

/-- `x / y if y > 0 else float("inf")`. -/
def ratio (x y : ℚ) : Option ℚ := if 0 < y then some (x / y) else none

def sampleVariance (xs : List ℚ) : ℚ :=
  (xs.map fun x => (x - xs.sum / xs.length) ^ 2).sum / (xs.length - 1)

def Setting.stdev (S : Setting) (xs : List ℚ) : ℚ := S.sqrt (sampleVariance xs)

section Paths

variable (S : Setting) (T : Trace)

/-- The loop of `_submit_batch`, with what it has collected. -/
def submitEach (verifyLatency : ℚ) :
    List PendingItem → RelayNode → SimulatedBlockchain → Option (List ℕ × List ℚ × RelayNode × SimulatedBlockchain)
  | [], relay, bc => some ([], [], relay, bc)
  | item :: items, relay, bc => do
    let (relayResult, relay, bc) ← relay.submitWithMetrics S.R T.hashes (T.elapsed relay.submittedCount)
      item.dataHash item.signature item.verified bc
    let (gasCosts, latencies, relay, bc) ← submitEach verifyLatency items relay bc
    return (relayResult.gasUsed :: gasCosts, (verifyLatency + relayResult.totalLatencyMs) :: latencies, relay, bc)

/-- The pending items are submitted and counted. -/
def RelayPath.flush (verifyLatency : ℚ) (s : RelayPath) : Option RelayPath := do
  let (gasCosts, batchLat, relay, bc) ← submitEach S T verifyLatency s.pendingItems s.relay s.bc
  return { s with
    totalTransactions := s.totalTransactions + s.pendingItems.length
    totalGas := s.totalGas + gasCosts.sum
    allLatencies := s.allLatencies ++ batchLat
    submitted := s.submitted ++ s.pendingItems
    pendingItems := []
    relay
    bc }

namespace Experiment

variable (r : Experiment)

/-- `_create_devices`. -/
def createDevices : Option (List IoTDevice) :=
  (List.range r.deviceCount).mapM fun i => IoTDevice.new S.H S.B (deviceId i) (S.keys i) (S.identifiers i)

/-- The payload that a device generates for its transaction `j`. -/
def payload (device : IoTDevice) (i j : ℕ) : List Byte :=
  device.generateSensorData r.payloadSize (T.timestamp i j) (T.urandom i j)

def directTurn (device : IoTDevice) (i j : ℕ) (s : DirectPath) : Option DirectPath := do
  let dataHash := hexdigest S.H (r.payload T device i j)
  let (txHash, bc) := s.bc.submitTransaction S.R T.hashes device.did dataHash (dataHash.length / 2) true
  let receipt ← bc.getReceipt txHash
  return ⟨bc, s.totalTransactions + 1, s.totalLatency + receipt.latencyMs, s.totalGas + receipt.gasUsed⟩

def runDirectPath (devices : List IoTDevice) : Option DirectResult := do
  let s ← devices.zipIdx.foldlM (fun s (device, i) =>
    (List.range r.transactionsPerDevice).foldlM (fun s j => r.directTurn S T device i j s) s) DirectPath.init
  return {
    totalTransactions := s.totalTransactions
    totalLatencyMs := s.totalLatency
    avgLatencyMs := if s.totalTransactions = 0 then 0 else s.totalLatency / s.totalTransactions
    totalGas := s.totalGas
    avgGasPerTx := if s.totalTransactions = 0 then 0 else s.totalGas / s.totalTransactions
    deviceCount := r.deviceCount
    transactionsPerDevice := r.transactionsPerDevice
    backend := "simulated" }

def relayTurn (device : IoTDevice) (i j : ℕ) (s : RelayPath) : Option RelayPath := do
  let payload := r.payload T device i j
  let sig ← device.signData S.B (T.salt i j) payload
  let (gwResult, gateway) ← s.gateway.relayData S.H S.B device.did device.keypair.publicKey payload sig
  let verifyLatency := T.verifyLatency i j
  let s := { s with
    gateway
    verifyLatency := some verifyLatency
    verifyLatencies := s.verifyLatencies ++ [verifyLatency] }
  if gwResult.verified then
    let s := { s with pendingItems := s.pendingItems ++ [⟨device.did, gwResult.dataHash, sig, true⟩] }
    if s.pendingItems.length ≥ r.batchSize then s.flush S T verifyLatency else return s
  else return { s with failedVerifications := s.failedVerifications + 1 }

def relayResult (s : RelayPath) : RelayResult where
  totalTransactions := s.totalTransactions
  totalLatencyMs := if s.allLatencies.isEmpty then 0 else s.allLatencies.sum
  avgLatencyMs := average s.allLatencies
  totalGas := s.totalGas
  avgGasPerTx := if s.totalTransactions = 0 then 0 else s.totalGas / s.totalTransactions
  avgVerifyTimeMs := average s.verifyLatencies
  failedVerifications := s.failedVerifications
  deviceCount := r.deviceCount
  transactionsPerDevice := r.transactionsPerDevice
  batchSize := r.batchSize
  backend := "simulated"

/-- `run_relay_path`, with the chain of its relay. -/
def runRelayPath (devices : List IoTDevice) : Option (RelayResult × SimulatedBlockchain) := do
  let s ← devices.zipIdx.foldlM (fun s (device, i) =>
    (List.range r.transactionsPerDevice).foldlM (fun s j => r.relayTurn S T device i j s) s) RelayPath.init
  let s ←
    if s.pendingItems.isEmpty then some s
    else s.verifyLatency.bind fun verifyLatency => s.flush S T verifyLatency
  return (r.relayResult s, s.bc)

end Experiment

end Paths

namespace Experiment

variable (S : Setting) (r : Experiment)

/-- The last part of `run_comparison`. -/
def compare (direct : DirectResult) (relay : RelayResult) (spread : Option Spread) : Comparison where
  directEcdsa := direct
  relayFalcon := relay
  directEcdsaAvgGas := direct.avgGasPerTx
  relayFalconAvgGas := relay.avgGasPerTx
  theoreticalFalconGas := gasTheoreticalFalcon
  relayVsFalconRatio := ratio gasTheoreticalFalcon relay.avgGasPerTx
  relayVsEcdsaGasRatio := ratio relay.avgGasPerTx direct.avgGasPerTx
  latencyRatio := ratio direct.avgLatencyMs relay.avgLatencyMs
  relayFailedVerifications := relay.failedVerifications
  backend := relay.backend
  spread := spread

/-- The two paths, with the chain of the relay. -/
def round (devices : List IoTDevice) (T : Trace × Trace) :
    Option (DirectResult × RelayResult × SimulatedBlockchain) := do
  let direct ← r.runDirectPath S T.1 devices
  let (relay, bc) ← r.runRelayPath S T.2 devices
  return (direct, relay, bc)

/-- `run_comparison`, where `T k` are the traces of the round `k`; the chain is that of the last relay. -/
def runComparison (rounds : ℕ) (T : ℕ → Trace × Trace) : Option (Comparison × SimulatedBlockchain) := do
  let devices ← r.createDevices S
  if rounds ≤ 1 then
    let (direct, relay, bc) ← r.round S devices (T 0)
    return (compare direct relay none, bc)
  else
    let results ← (List.range rounds).mapM fun k => r.round S devices (T k)
    let (direct, relay, bc) ← results.getLast?
    let spread := {
      directGasStd := S.stdev (results.map fun x => x.1.avgGasPerTx)
      directLatencyStd := S.stdev (results.map fun x => x.1.avgLatencyMs)
      relayGasStd := S.stdev (results.map fun x => x.2.1.avgGasPerTx)
      relayLatencyStd := S.stdev (results.map fun x => x.2.1.avgLatencyMs)
      rounds }
    return (compare direct relay (some spread), bc)

end Experiment

/-! ## The direct path -/

variable {S : Setting} {T : Trace} {r : Experiment} {X : Hashes} {R : Rng} {es : List Entry} {bc : SimulatedBlockchain}

/-- The receipt of the latest entry. -/
theorem Holds.last {e : Entry} (h : Holds R X (es ++ [e]) bc) :
    bc.getReceipt (X.hash es.length) = some (e.transaction R es.length (totalDraws es)) := by
  refine (h.receipt _ _).2 ⟨es.length, rfl, ?_⟩
  rw [transactionsOf_append, List.getElem?_append_right (by rw [length_transactionsOf]), length_transactionsOf,
    Nat.sub_self]
  rfl

/-- A submission whose entry is `e`: the hash and the chain that it returns, and the receipt. -/
theorem Holds.submit (h : Holds R X es bc) {e : Entry} (he : e.batch = none)
    (submission : String × SimulatedBlockchain)
    (hsubmission : submission = bc.record R X e.sender e.dataHash e.kind e.gas) :
    ∃ bc', submission = (X.hash es.length, bc') ∧ Holds R X (es ++ [e]) bc' ∧
      bc'.getReceipt (X.hash es.length) = some (e.transaction R es.length (totalDraws es)) := by
  obtain ⟨hhash, hholds⟩ := h.record he
  exact ⟨_, hsubmission.trans (Prod.ext hhash rfl), hholds, hholds.last⟩

theorem totalDraws_single {α : Type} {entry : α → Entry} (h : ∀ x, (entry x).batch = none) (xs : List α) :
    totalDraws (xs.map entry) = xs.length := by
  induction xs with
  | nil => rfl
  | cons x xs ih =>
    have hone : (entry x).draws = 1 := by rw [Entry.draws, h x]
    rw [totalDraws, List.map_cons, List.map_cons, List.sum_cons, hone, List.length_cons, Nat.add_comm]
    exact congrArg (· + 1) ih

/-- The gas of a direct transaction: a hash has 32 bytes, and the signature is stored. -/
def directCost : ℕ := 91512

/-- The average of a sum of equal costs. -/
theorem avg_const (c n : ℕ) : (if n = 0 then 0 else ((c * n : ℕ) : ℚ) / n) = if n = 0 then 0 else (c : ℚ) := by
  split
  · rfl
  · rename_i hne
    rw [Nat.cast_mul, mul_div_assoc, div_self (Nat.cast_ne_zero.2 hne), mul_one]

theorem length_hexdigest (H : Digest) (payload : List Byte) : (hexdigest H payload).length = 64 := by
  rw [hexdigest, String.length_ofList, Hex.length_encode, H.length]

namespace Experiment

/-- The number of the readings. -/
def total (r : Experiment) : ℕ := r.deviceCount * r.transactionsPerDevice

/-- The latencies that a chain draws first. -/
def drawn (R : Rng) (n : ℕ) : ℚ := ((List.range n).map R.uniform).sum

theorem drawn_succ (n : ℕ) : drawn R (n + 1) = drawn R n + R.uniform n := by
  rw [drawn, List.range_succ, List.map_append, List.sum_append, List.map_singleton, List.sum_singleton]
  rfl

/-- What the direct path puts on its chain for the reading `m`. -/
def directReading (S : Setting) (T : Trace) (r : Experiment) (device : ℕ → IoTDevice) (m : ℕ) : Entry :=
  directEntry (device (m / r.transactionsPerDevice)).did (hexdigest S.H (r.payload T
    (device (m / r.transactionsPerDevice)) (m / r.transactionsPerDevice) (m % r.transactionsPerDevice))) 32 true

theorem directTurn_eq {device : IoTDevice} {i j : ℕ} {s : DirectPath} (entry : ℕ → Entry) {n : ℕ}
    (hentry : ∀ m, (entry m).batch = none)
    (hlast : entry n = directEntry device.did (hexdigest S.H (r.payload T device i j)) 32 true)
    (h : Holds S.R T.hashes ((List.range n).map entry) s.bc) :
    ∃ bc, r.directTurn S T device i j s =
        some ⟨bc, s.totalTransactions + 1, s.totalLatency + S.R.uniform n, s.totalGas + directCost⟩ ∧
      Holds S.R T.hashes ((List.range (n + 1)).map entry) bc := by
  have hlength : (hexdigest S.H (r.payload T device i j)).length / 2 = 32 := by rw [length_hexdigest]
  obtain ⟨bc, hsubmit, hholds, hreceipt⟩ := h.submit (e := entry n) (hentry n)
    (s.bc.submitTransaction S.R T.hashes device.did (hexdigest S.H (r.payload T device i j)) 32 true)
    (by rw [hlast]; rfl)
  rw [totalDraws_single hentry, List.length_map, List.length_range, hlast] at hreceipt
  rw [List.length_map, List.length_range] at hsubmit
  refine ⟨bc, ?_, ?_⟩
  · simp only [directTurn, hlength, hsubmit, hreceipt]
    rfl
  · rw [List.range_succ, List.map_append, List.map_singleton]
    exact hholds

/-- The result of the direct path. -/
def directReport (S : Setting) (r : Experiment) : DirectResult where
  totalTransactions := r.total
  totalLatencyMs := drawn S.R r.total
  avgLatencyMs := if r.total = 0 then 0 else drawn S.R r.total / r.total
  totalGas := directCost * r.total
  avgGasPerTx := if r.total = 0 then 0 else directCost
  deviceCount := r.deviceCount
  transactionsPerDevice := r.transactionsPerDevice
  backend := "simulated"

/-- **The direct path** submits every reading for the same gas, and takes what its chain draws. -/
theorem runDirectPath_eq (S : Setting) (T : Trace) (r : Experiment) (device : ℕ → IoTDevice) :
    r.runDirectPath S T ((List.range r.deviceCount).map device) = some (directReport S r) := by
  have hrun : ∀ n, ∃ bc, (List.range n).foldlM (fun s m => r.directTurn S T (device (m / r.transactionsPerDevice))
      (m / r.transactionsPerDevice) (m % r.transactionsPerDevice) s) DirectPath.init =
        some ⟨bc, n, drawn S.R n, directCost * n⟩ ∧
      Holds S.R T.hashes ((List.range n).map (directReading S T r device)) bc := by
    intro n
    induction n with
    | zero => exact ⟨_, rfl, .init⟩
    | succ n ih =>
      obtain ⟨bc, hloop, hholds⟩ := ih
      obtain ⟨bc', hturn, hholds'⟩ := directTurn_eq (S := S) (T := T) (r := r) (directReading S T r device)
        (s := ⟨bc, n, drawn S.R n, directCost * n⟩) (fun _ => rfl) rfl hholds
      refine ⟨bc', ?_, hholds'⟩
      rw [foldlM_range_succ, hloop, drawn_succ, Nat.mul_succ]
      exact hturn
  obtain ⟨bc, hloop, -⟩ := hrun r.total
  rw [runDirectPath, foldlM_nested, ← total, hloop, directReport, ← avg_const]
  rfl

end Experiment

/-! ## The relay path -/

/-- The relay of the path when it has submitted `n` items. -/
def relayNode (n : ℕ) : RelayNode := ⟨"relay-node-001", n⟩

def PendingItem.entry (item : PendingItem) : Entry :=
  metaEntry "relay-node-001" item.dataHash item.signature.length item.verified

/-- What the backend makes of an item, by the number of its submission. -/
def perItem (S : Setting) (T : Trace) : Backend (PendingItem × ℕ) :=
  .simulated fun p => ⟨T.elapsed p.2 + S.R.uniform p.2, SimulatedBlockchain.metaGas p.1.verified⟩

variable {done items : List PendingItem} {s : RelayPath} {a : RelayState (PendingItem × ℕ)}

theorem submitWithMetrics_eq (h : Holds S.R T.hashes (done.map PendingItem.entry) bc) (item : PendingItem) :
    ∃ bc', (relayNode done.length).submitWithMetrics S.R T.hashes (T.elapsed done.length) item.dataHash item.signature
        item.verified bc = some (⟨T.hashes.hash done.length, T.elapsed done.length + S.R.uniform done.length,
          SimulatedBlockchain.metaGas item.verified, done.length + 1⟩, relayNode (done.length + 1), bc') ∧
      Holds S.R T.hashes ((done ++ [item]).map PendingItem.entry) bc' := by
  obtain ⟨bc', hsubmit, hholds, hreceipt⟩ := h.submit (e := item.entry) rfl
    (bc.submitMetaTransaction S.R T.hashes "relay-node-001" item.dataHash item.signature.length
      item.verified) rfl
  rw [totalDraws_single (fun _ => rfl), List.length_map] at hreceipt
  rw [List.length_map] at hsubmit
  refine ⟨bc', ?_, ?_⟩
  · simp only [RelayNode.submitWithMetrics, RelayNode.submitVerifiedTransaction, relayNode, hsubmit, hreceipt]
    rfl
  · rw [List.map_append]
    exact hholds

/-- The items of a batch are submitted under the numbers that come next. -/
theorem submitEach_eq (verifyLatency : ℚ) (h : Holds S.R T.hashes (done.map PendingItem.entry) bc)
    (items : List PendingItem) :
    ∃ bc', submitEach S T verifyLatency items (relayNode done.length) bc =
        some (items.map fun item => SimulatedBlockchain.metaGas item.verified,
          (items.zipIdx done.length).map fun p => verifyLatency + (T.elapsed p.2 + S.R.uniform p.2),
          relayNode (done.length + items.length), bc') ∧
      Holds S.R T.hashes ((done ++ items).map PendingItem.entry) bc' := by
  induction items generalizing done bc with
  | nil =>
    refine ⟨bc, rfl, ?_⟩
    rw [List.append_nil]
    exact h
  | cons item items ih =>
    obtain ⟨bc', hitem, hholds⟩ := submitWithMetrics_eq h item
    obtain ⟨bc'', hitems, hholds'⟩ := ih hholds
    rw [List.length_append, List.length_singleton] at hitems
    refine ⟨bc'', ?_, ?_⟩
    · rw [submitEach, show (relayNode done.length).submittedCount = done.length from rfl, hitem]
      simp only [Option.bind_eq_bind, Option.bind_some]
      rw [hitems, List.length_cons, Nat.add_assoc, Nat.add_comm 1]
      rfl
    · rw [List.append_assoc] at hholds'
      exact hholds'

/-- The variables of the path are those of its model, in which an item comes with the number of its submission. -/
structure Follows (S : Setting) (T : Trace) (s : RelayPath) (a : RelayState (PendingItem × ℕ)) : Prop where
  pending : a.pendingItems = s.pendingItems.zipIdx s.submitted.length
  submitted : a.submitted = s.submitted.zipIdx
  count : a.totalTransactions = s.totalTransactions
  gas : a.totalGas = s.totalGas
  failed : a.failedVerifications = s.failedVerifications
  verify_latencies : a.verifyLatencies = s.verifyLatencies
  latencies : a.allLatencies = s.allLatencies
  verify_latency : a.verifyLatency = s.verifyLatency
  relay : s.relay = relayNode s.submitted.length
  holds : Holds S.R T.hashes (s.submitted.map PendingItem.entry) s.bc

theorem Follows.init : Follows S T RelayPath.init RelayState.init where
  pending := rfl
  submitted := rfl
  count := rfl
  gas := rfl
  failed := rfl
  verify_latencies := rfl
  latencies := rfl
  verify_latency := rfl
  relay := rfl
  holds := .init

theorem Follows.flush (h : Follows S T s a) (verifyLatency : ℚ) :
    ∃ s', s.flush S T verifyLatency = some s' ∧ Follows S T s' (a.flush (perItem S T) verifyLatency) ∧
      s'.submitted = s.submitted ++ s.pendingItems ∧ s'.pendingItems = [] := by
  obtain ⟨bc', hsubmit, hholds⟩ := submitEach_eq verifyLatency h.holds s.pendingItems
  rw [← h.relay] at hsubmit
  refine ⟨_, by rw [RelayPath.flush, hsubmit]; rfl, ?_, rfl, rfl⟩
  have hgas : (a.pendingItems.map (perItem S T).gas) =
      s.pendingItems.map fun item => SimulatedBlockchain.metaGas item.verified := by
    rw [h.pending, show (perItem S T).gas = (fun item => SimulatedBlockchain.metaGas item.verified) ∘ Prod.fst from rfl,
      ← List.map_map, List.zipIdx_map_fst]
  have hlatencies : (a.pendingItems.map fun p => verifyLatency + (perItem S T).latency p) =
      (s.pendingItems.zipIdx s.submitted.length).map fun p => verifyLatency + (T.elapsed p.2 + S.R.uniform p.2) := by
    rw [h.pending]
    rfl
  unfold RelayState.flush
  rw [submitBatchItems_eq, hgas, hlatencies]
  constructor
  · rfl
  · rw [h.submitted, h.pending, List.zipIdx_append, Nat.zero_add]
  · rw [h.count, h.pending, List.length_zipIdx]
  · rw [h.gas]
  · exact h.failed
  · exact h.verify_latencies
  · rw [h.latencies]
  · exact h.verify_latency
  · rw [List.length_append]
  · exact hholds

/-- A device whose signatures the gateway verifies. -/
def Signs (S : Setting) (device : IoTDevice) : Prop := ∀ drawn payload, ∃ sig,
  device.signData S.B drawn payload = some sig ∧ S.B.falconVerify payload sig device.keypair.publicKey = some true

theorem signs_new (hB : S.B.Correct) (deviceId : String) (drawn : Bytes32) (urandom : List Byte) :
    ∃ device, IoTDevice.new S.H S.B deviceId drawn urandom = some device ∧ Signs S device := by
  obtain ⟨kp, hkeygen, hsign⟩ := FalconBackend.roundtrip hB none drawn
  refine ⟨⟨deviceId, kp, DIDUtils.generateDid S.H none none urandom⟩, ?_, fun drawn' payload => hsign drawn' payload⟩
  rw [IoTDevice.new, hkeygen]
  rfl

/-- What is pending for a reading. -/
def reading (S : Setting) (T : Trace) (r : Experiment) (device : IoTDevice) (i j : ℕ) : PendingItem where
  deviceDid := device.did
  dataHash := hexdigest S.H (r.payload T device i j)
  signature := (device.signData S.B (T.salt i j) (r.payload T device i j)).getD []
  verified := true

/-- A turn of the path is a turn of its model; batches of no items are batches of one. -/
theorem Follows.turn (h : Follows S T s a) (r : Experiment) {device : IoTDevice} (hsigns : Signs S device) (i j : ℕ) :
    ∃ s', r.relayTurn S T device i j s = some s' ∧
      Follows S T s' (relayTurn (perItem S T) (max 1 r.batchSize) a
        ⟨(reading S T r device i j, (s.submitted ++ s.pendingItems).length), true, T.verifyLatency i j⟩) ∧
      s'.submitted ++ s'.pendingItems = s.submitted ++ s.pendingItems ++ [reading S T r device i j] := by
  obtain ⟨sig, hsig, hverify⟩ := hsigns (T.salt i j) (r.payload T device i j)
  have hreading : reading S T r device i j = ⟨device.did, hexdigest S.H (r.payload T device i j), sig, true⟩ := by
    rw [reading, hsig]
    rfl
  obtain ⟨gateway, hgateway⟩ : ∃ gateway, s.gateway.relayData S.H S.B device.did device.keypair.publicKey
      (r.payload T device i j) sig = some (⟨device.did, hexdigest S.H (r.payload T device i j), true,
        s.gateway.gatewayId, (r.payload T device i j).length⟩, gateway) := by
    rw [Gateway.relayData, hverify]
    exact ⟨_, rfl⟩
  have hpending : (reading S T r device i j, (s.submitted ++ s.pendingItems).length) =
      (reading S T r device i j, s.submitted.length + s.pendingItems.length) := by rw [List.length_append]
  have hfollows : Follows S T
      { s with
        gateway
        verifyLatency := some (T.verifyLatency i j)
        verifyLatencies := s.verifyLatencies ++ [T.verifyLatency i j]
        pendingItems := s.pendingItems ++ [reading S T r device i j] }
      { a with
        verifyLatency := some (T.verifyLatency i j)
        verifyLatencies := a.verifyLatencies ++ [T.verifyLatency i j]
        pendingItems := a.pendingItems ++ [(reading S T r device i j, (s.submitted ++ s.pendingItems).length)] } :=
    ⟨by rw [h.pending, hpending, List.zipIdx_append, List.zipIdx_singleton], h.submitted, h.count, h.gas, h.failed,
      congrArg (· ++ [T.verifyLatency i j]) h.verify_latencies, h.latencies, rfl, h.relay, h.holds⟩
  have hfull : (s.pendingItems ++ [reading S T r device i j]).length ≥ r.batchSize ↔
      (a.pendingItems ++ [(reading S T r device i j, (s.submitted ++ s.pendingItems).length)]).length ≥
        max 1 r.batchSize := by
    rw [h.pending, List.length_append, List.length_append, List.length_zipIdx, List.length_singleton,
      List.length_singleton]
    omega
  simp only [Experiment.relayTurn, hsig, hgateway, Option.bind_eq_bind, Option.bind_some, if_true, ← hreading,
    relayTurn]
  by_cases hbatch : (s.pendingItems ++ [reading S T r device i j]).length ≥ r.batchSize
  · rw [if_pos hbatch, if_pos (hfull.1 hbatch)]
    obtain ⟨s', hflush, hfollows', hsubmitted, hnone⟩ := hfollows.flush (T.verifyLatency i j)
    refine ⟨s', hflush, hfollows', ?_⟩
    rw [hsubmitted, hnone, List.append_nil, List.append_assoc]
  · rw [if_neg hbatch, if_neg (fun hle => hbatch (hfull.2 hle))]
    refine ⟨_, rfl, hfollows, ?_⟩
    rw [List.append_assoc]

/-- What is left at the end is submitted in the path where it is in its model. -/
theorem Follows.finish (h : Follows S T s a) {a' : RelayState (PendingItem × ℕ)}
    (ha : (if a.pendingItems.isEmpty then some a
      else a.verifyLatency.map fun verifyLatency => a.flush (perItem S T) verifyLatency) = some a') :
    ∃ s', (if s.pendingItems.isEmpty then some s
        else s.verifyLatency.bind fun verifyLatency => s.flush S T verifyLatency) = some s' ∧
      Follows S T s' a' ∧ s'.submitted = s.submitted ++ s.pendingItems := by
  have hempty : a.pendingItems.isEmpty = s.pendingItems.isEmpty := by
    rw [h.pending, Bool.eq_iff_iff, List.isEmpty_iff_length_eq_zero, List.isEmpty_iff_length_eq_zero,
      List.length_zipIdx]
  rw [hempty, h.verify_latency] at ha
  split at ha
  · rename_i hnil
    obtain rfl := Option.some.inj ha
    refine ⟨s, by rw [if_pos hnil], h, ?_⟩
    rw [List.isEmpty_iff.1 hnil, List.append_nil]
  · rename_i hpending
    obtain ⟨verifyLatency, hlatency, rfl⟩ := Option.map_eq_some_iff.1 ha
    obtain ⟨s', hflush, hfollows, hsubmitted, -⟩ := h.flush verifyLatency
    refine ⟨s', ?_, hfollows, hsubmitted⟩
    rw [if_neg hpending, hlatency]
    exact hflush

namespace Experiment

variable (S : Setting) (T : Trace) (r : Experiment) (device : ℕ → IoTDevice)

/-- The reading `m` of all. -/
def readingAt (m : ℕ) : PendingItem :=
  reading S T r (device (m / r.transactionsPerDevice)) (m / r.transactionsPerDevice) (m % r.transactionsPerDevice)

/-- The verification latency of the reading `m`. -/
def verifyAt (m : ℕ) : ℚ := T.verifyLatency (m / r.transactionsPerDevice) (m % r.transactionsPerDevice)

/-- The verification latency that the reading `m` is charged: that of the last one of its batch. -/
def charged (m : ℕ) : ℚ :=
  r.verifyAt T (min ((m / max 1 r.batchSize + 1) * max 1 r.batchSize) r.total - 1)

/-- What the relay path takes on top of the latencies of its chain. -/
def overhead : ℚ := ((List.range r.total).map fun m => r.charged T m + T.elapsed m).sum

def generatedAt (m : ℕ) : Generated (PendingItem × ℕ) := ⟨(r.readingAt S T device m, m), true, r.verifyAt T m⟩

/-- The model of the loops: one device that generates all readings. -/
def model : ComparisonRunner := ⟨1, r.total, max 1 r.batchSize⟩

theorem generated_model :
    r.model.generated (fun _ m => r.generatedAt S T device m) =
      (List.range r.total).map (r.generatedAt S T device) := by
  rw [ComparisonRunner.generated, model, List.range_one, List.flatMap_singleton]

theorem verified_model :
    r.model.verified (fun _ m => r.generatedAt S T device m) = (List.range r.total).map (r.generatedAt S T device) := by
  rw [ComparisonRunner.verified, generated_model, List.filter_eq_self]
  intro t ht
  obtain ⟨m, -, rfl⟩ := List.mem_map.1 ht
  rfl

theorem chargedLatency_model {m : ℕ} (hm : m < r.total) :
    r.model.chargedLatency (fun _ m => r.generatedAt S T device m) m = r.charged T m := by
  have hverified := r.verified_model S T device
  rw [ComparisonRunner.verified] at hverified
  rw [ComparisonRunner.chargedLatency, Batching.closing, hverified, generated_model, charged,
    show r.model.batchSize = max 1 r.batchSize from rfl, List.getElem?_map]
  generalize hend : (m / max 1 r.batchSize + 1) * max 1 r.batchSize = last
  by_cases hlast : last ≤ r.total
  · have hpos : 0 < last := by
      rw [← hend]
      exact Nat.mul_pos (Nat.succ_pos _) (by omega)
    rw [List.getElem?_range (by omega), Nat.min_eq_left hlast]
    rfl
  · -- the last batch is not full
    rw [List.getElem?_eq_none (by rw [List.length_range]; omega), List.getLast?_map, List.getLast?_range,
      if_neg (by omega), Nat.min_eq_right (by omega)]
    rfl

variable {S device}

theorem loop_follows (hsigns : ∀ i, Signs S (device i)) (n : ℕ) :
    ∃ s, (List.range n).foldlM (fun s m => r.relayTurn S T (device (m / r.transactionsPerDevice))
        (m / r.transactionsPerDevice) (m % r.transactionsPerDevice) s) RelayPath.init = some s ∧
      Follows S T s (((List.range n).map (r.generatedAt S T device)).foldl
        (PqIotAuth.relayTurn (perItem S T) (max 1 r.batchSize)) RelayState.init) ∧
      s.submitted ++ s.pendingItems = (List.range n).map (r.readingAt S T device) := by
  induction n with
  | zero => exact ⟨_, rfl, .init, rfl⟩
  | succ n ih =>
    obtain ⟨s, hloop, hfollows, hitems⟩ := ih
    obtain ⟨s', hturn, hfollows', hitems'⟩ := hfollows.turn r (hsigns (n / r.transactionsPerDevice))
      (n / r.transactionsPerDevice) (n % r.transactionsPerDevice)
    rw [hitems, List.length_map, List.length_range] at hfollows'
    refine ⟨s', by rw [foldlM_range_succ, hloop]; exact hturn, ?_, ?_⟩
    · rw [List.range_succ, List.map_append, List.foldl_append]
      exact hfollows'
    · rw [hitems', hitems, List.range_succ, List.map_append]
      rfl

/-- The gas of a meta-transaction for an active DID. -/
def relayCost : ℕ := 821563

/-- The latencies that the backend takes for the readings, and their gas. -/
theorem perItem_generated (device : ℕ → IoTDevice) :
    (((List.range r.total).map (r.generatedAt S T device)).map fun t => (perItem S T).latency t.item).sum =
        drawn S.R r.total + ((List.range r.total).map T.elapsed).sum ∧
      (((List.range r.total).map (r.generatedAt S T device)).map fun t => (perItem S T).gas t.item).sum =
        relayCost * r.total := by
  constructor
  · rw [List.map_map, drawn, add_comm, ← List.sum_map_add]
    rfl
  · have hgas : ∀ m, ((fun t => (perItem S T).gas t.item) ∘ r.generatedAt S T device) m = relayCost := fun _ => rfl
    rw [List.map_map, List.map_congr_left (g := fun _ => relayCost) (fun m _ => hgas m), List.map_const',
      List.length_range, List.sum_replicate_nat, Nat.mul_comm]

/-- The result of the relay path. -/
def relayReport (S : Setting) (T : Trace) (r : Experiment) : RelayResult where
  totalTransactions := r.total
  totalLatencyMs := drawn S.R r.total + r.overhead T
  avgLatencyMs := if r.total = 0 then 0 else (drawn S.R r.total + r.overhead T) / r.total
  totalGas := relayCost * r.total
  avgGasPerTx := if r.total = 0 then 0 else relayCost
  avgVerifyTimeMs := average ((List.range r.total).map (r.verifyAt T))
  failedVerifications := 0
  deviceCount := r.deviceCount
  transactionsPerDevice := r.transactionsPerDevice
  batchSize := r.batchSize
  backend := "simulated"

/-- The result of the model is that of the path, but for the settings. -/
theorem report_model :
    r.model.report (perItem S T) (fun _ m => r.generatedAt S T device m)
        ((r.model.chargedLatencies fun _ m => r.generatedAt S T device m).sum +
          ((r.model.verified fun _ m => r.generatedAt S T device m).map fun t => (perItem S T).latency t.item).sum) =
      { relayReport S T r with
        deviceCount := 1
        transactionsPerDevice := r.total
        batchSize := max 1 r.batchSize } := by
  have hlength : ((List.range r.total).map (r.generatedAt S T device)).length = r.total := by
    rw [List.length_map, List.length_range]
  obtain ⟨hlatency, hgas⟩ := perItem_generated (S := S) (T := T) r device
  have hcharged : (r.model.chargedLatencies fun _ m => r.generatedAt S T device m) =
      (List.range r.total).map (r.charged T) := by
    rw [ComparisonRunner.chargedLatencies, verified_model, hlength]
    exact List.map_congr_left fun m hm => r.chargedLatency_model S T device (List.mem_range.1 hm)
  have htotal : ((List.range r.total).map (r.charged T)).sum +
      (drawn S.R r.total + ((List.range r.total).map T.elapsed).sum) = drawn S.R r.total + r.overhead T := by
    rw [overhead, List.sum_map_add]
    ring
  have hfailed : ((List.range r.total).map (r.generatedAt S T device)).countP (fun t => !t.verified) = 0 := by
    rw [List.countP_eq_zero]
    intro t ht
    obtain ⟨m, -, rfl⟩ := List.mem_map.1 ht
    exact Bool.false_ne_true
  rw [ComparisonRunner.report, hcharged, verified_model, generated_model, hlength, hlatency, hgas, htotal, hfailed,
    avg_const, List.map_map]
  rfl

/-- **The relay path** submits every reading for the same gas, and takes what its chain draws and the overhead. -/
theorem runRelayPath_eq (hsigns : ∀ i, Signs S (device i)) :
    ∃ bc, r.runRelayPath S T ((List.range r.deviceCount).map device) = some (relayReport S T r, bc) ∧
      Holds S.R T.hashes (((List.range r.total).map (r.readingAt S T device)).map PendingItem.entry) bc := by
  obtain ⟨s, hloop, hfollows, hitems⟩ := r.loop_follows (T := T) hsigns r.total
  have hreport := r.model.runRelayPath_report (perItem S T) (fun _ m => r.generatedAt S T device m)
    (Nat.le_max_left 1 r.batchSize)
  rw [report_model, ComparisonRunner.runRelayPath, ComparisonRunner.relayLoop_eq, generated_model,
    show r.model.batchSize = max 1 r.batchSize from rfl] at hreport
  generalize ((List.range r.total).map (r.generatedAt S T device)).foldl
    (PqIotAuth.relayTurn (perItem S T) (max 1 r.batchSize)) RelayState.init = a at hreport hfollows
  -- the last batch is submitted in the model, and then in the path
  obtain ⟨a', ha, hresult⟩ : ∃ a', (if a.pendingItems.isEmpty then some a
      else a.verifyLatency.map fun verifyLatency => a.flush (perItem S T) verifyLatency) = some a' ∧
      r.model.relayResult (perItem S T) a' = { relayReport S T r with
        deviceCount := 1
        transactionsPerDevice := r.total
        batchSize := max 1 r.batchSize } := by
    split at hreport
    · rename_i hnil
      exact ⟨_, if_pos hnil, (Prod.mk.inj (Option.some.inj hreport)).1⟩
    · rename_i hpending
      obtain ⟨a', ha, hresult⟩ := Option.bind_eq_some_iff.1 hreport
      exact ⟨a', (if_neg hpending).trans ha, (Prod.mk.inj (Option.some.inj hresult)).1⟩
  obtain ⟨s', hfinish, hfollows', hall⟩ := hfollows.finish ha
  rw [hitems] at hall
  have hreported : r.relayResult s' = relayReport S T r := by
    have hsame : r.relayResult s' = { r.model.relayResult (perItem S T) a' with
        deviceCount := r.deviceCount
        transactionsPerDevice := r.transactionsPerDevice
        batchSize := r.batchSize } := by
      rw [relayResult, ← hfollows'.count, ← hfollows'.gas, ← hfollows'.failed, ← hfollows'.latencies,
        ← hfollows'.verify_latencies]
      rfl
    rw [hsame, hresult]
    rfl
  refine ⟨s'.bc, ?_, hall ▸ hfollows'.holds⟩
  rw [runRelayPath, foldlM_nested, ← total, hloop, ← hreported]
  by_cases hnil : s.pendingItems.isEmpty
  · rw [if_pos hnil] at hfinish
    obtain rfl := Option.some.inj hfinish
    exact if_pos hnil
  · rw [if_neg hnil] at hfinish
    refine (if_neg hnil).trans ?_
    rw [hfinish]
    rfl

/-! ## The comparison -/

theorem createDevices_eq (hB : S.B.Correct) : ∃ device : ℕ → IoTDevice,
    r.createDevices S = some ((List.range r.deviceCount).map device) ∧ ∀ i, Signs S (device i) := by
  choose device hdevice hsigns using fun i => signs_new hB (deviceId i) (S.keys i) (S.identifiers i)
  refine ⟨device, ?_, hsigns⟩
  rw [createDevices, funext hdevice]
  exact List.mapM_pure

theorem round_eq (hsigns : ∀ i, Signs S (device i)) (T : Trace × Trace) :
    ∃ bc, r.round S ((List.range r.deviceCount).map device) T =
        some (directReport S r, relayReport S T.2 r, bc) ∧
      Holds S.R T.2.hashes (((List.range r.total).map (r.readingAt S T.2 device)).map PendingItem.entry) bc := by
  obtain ⟨bc, hrelay, hholds⟩ := r.runRelayPath_eq (T := T.2) hsigns
  refine ⟨bc, ?_, hholds⟩
  rw [round, runDirectPath_eq, hrelay]
  rfl

theorem le_drawn (R : Rng) (n : ℕ) : 5 * (n : ℚ) ≤ drawn R n := by
  induction n with
  | zero => exact le_of_eq (by rw [Nat.cast_zero, mul_zero]; rfl)
  | succ n ih =>
    have := (R.uniform_mem n).1
    rw [drawn_succ, Nat.cast_succ]
    linarith

theorem overhead_nonneg (T : Trace) : 0 ≤ r.overhead T := by
  refine List.sum_nonneg fun x hx => ?_
  obtain ⟨m, -, rfl⟩ := List.mem_map.1 hx
  exact add_nonneg (T.verifyLatency_nonneg _ _) (T.elapsed_nonneg m)

/-- The spread of equal numbers is 0. -/
theorem stdev_const (n : ℕ) (x : ℚ) : S.stdev (List.replicate n x) = 0 := by
  have hdeviation : ∀ y ∈ List.replicate n x, (y - (List.replicate n x).sum / (List.replicate n x).length) ^ 2 = 0 := by
    intro y hy
    obtain ⟨hn, rfl⟩ := List.mem_replicate.1 hy
    rw [List.sum_replicate, List.length_replicate, nsmul_eq_mul, mul_div_cancel_left₀ _ (Nat.cast_ne_zero.2 hn),
      sub_self]
    rfl
  have hvariance : sampleVariance (List.replicate n x) = 0 := by
    rw [sampleVariance, List.map_congr_left hdeviation, List.map_const', List.sum_replicate, nsmul_zero, zero_div]
  rw [Setting.stdev, hvariance, S.sqrt_zero]

/-- What is known of the result of the comparison and of the chain of its last relay. -/
structure Exact (S : Setting) (r : Experiment) (rounds : ℕ) (T : ℕ → Trace × Trace) (c : Comparison)
    (bc : SimulatedBlockchain) : Prop where
  direct : c.directEcdsa = directReport S r
  relay : c.relayFalcon = relayReport S (T (rounds - 1)).2 r
  /-- Behind the relay there is one meta-transaction for each reading, in order, with the hash of its payload. -/
  submitted : ∃ devices, r.createDevices S = some devices ∧
    bc.receipts.map (Option.map fun t => (t.sender, t.dataHash, t.gasUsed)) = (List.range r.total).map fun m =>
      devices[m / r.transactionsPerDevice]?.map fun device => ("relay-node-001", hexdigest S.H
        (r.payload (T (rounds - 1)).2 device (m / r.transactionsPerDevice) (m % r.transactionsPerDevice)), relayCost)
  gas_ratios : 0 < r.total → c.relayVsFalconRatio = some (500000000 / 821563) ∧
    c.relayVsEcdsaGasRatio = some (821563 / 91512)
  /-- The relay path is never reported to be the faster one. -/
  latency_ratio : 0 < r.total → ∃ q, c.latencyRatio = some q ∧ 0 < q ∧ q ≤ 1
  empty : r.total = 0 → c.relayVsFalconRatio = none ∧ c.relayVsEcdsaGasRatio = none ∧ c.latencyRatio = none
  single : rounds ≤ 1 → c.spread = none
  /-- Over several rounds, all that is measured is the latency of the relay. -/
  spread : 1 < rounds → ∃ s, c.spread = some s ∧ s.rounds = rounds ∧ s.directGasStd = 0 ∧ s.relayGasStd = 0 ∧
    s.directLatencyStd = 0

theorem submitted_eq {T : Trace} {bc : SimulatedBlockchain}
    (h : Holds S.R T.hashes (((List.range r.total).map (r.readingAt S T device)).map PendingItem.entry) bc) :
    bc.receipts.map (Option.map fun t => (t.sender, t.dataHash, t.gasUsed)) = (List.range r.total).map fun m =>
      ((List.range r.deviceCount).map device)[m / r.transactionsPerDevice]?.map fun device =>
        ("relay-node-001", hexdigest S.H
          (r.payload T device (m / r.transactionsPerDevice) (m % r.transactionsPerDevice)), relayCost) := by
  have hcontents := contents_transactionsFrom S.R 0 0
    (((List.range r.total).map (r.readingAt S T device)).map PendingItem.entry)
  rw [h.map_receipts, transactionsOf, hcontents, List.map_map, List.map_map, List.map_map]
  refine List.map_congr_left fun m hm => ?_
  have hdevice : m / r.transactionsPerDevice < r.deviceCount :=
    Nat.div_lt_of_lt_mul (by rw [Nat.mul_comm]; exact List.mem_range.1 hm)
  rw [List.getElem?_map, List.getElem?_range hdevice]
  rfl

/-- The ratios, where something is submitted. -/
theorem ratio_directReport (hpos : 0 < r.total) (T : Trace) :
    ∃ q, ratio (directReport S r).avgLatencyMs (relayReport S T r).avgLatencyMs = some q ∧ 0 < q ∧ q ≤ 1 := by
  have hcast : (0 : ℚ) < r.total := Nat.cast_pos.2 hpos
  have hdrawn : 0 < drawn S.R r.total := lt_of_lt_of_le (mul_pos (by norm_num) hcast) (le_drawn S.R r.total)
  have hrelay : drawn S.R r.total ≤ drawn S.R r.total + r.overhead T := le_add_of_nonneg_right (r.overhead_nonneg T)
  have hdirectAvg : (directReport S r).avgLatencyMs = drawn S.R r.total / r.total := if_neg hpos.ne'
  have hrelayAvg : (relayReport S T r).avgLatencyMs = (drawn S.R r.total + r.overhead T) / r.total := if_neg hpos.ne'
  have havg : 0 < (drawn S.R r.total + r.overhead T) / r.total := div_pos (hdrawn.trans_le hrelay) hcast
  rw [hdirectAvg, hrelayAvg]
  refine ⟨_, if_pos havg, div_pos (div_pos hdrawn hcast) havg, ?_⟩
  exact (div_le_one havg).2 (div_le_div_of_nonneg_right hrelay hcast.le)

theorem exact_of_round {bc : SimulatedBlockchain} {rounds : ℕ} {T : ℕ → Trace × Trace} (spread : Option Spread)
    (hdevices : r.createDevices S = some ((List.range r.deviceCount).map device))
    (hholds : Holds S.R (T (rounds - 1)).2.hashes
      (((List.range r.total).map (r.readingAt S (T (rounds - 1)).2 device)).map PendingItem.entry) bc)
    (hsingle : rounds ≤ 1 → spread = none)
    (hspread : 1 < rounds → ∃ s, spread = some s ∧ s.rounds = rounds ∧ s.directGasStd = 0 ∧ s.relayGasStd = 0 ∧
      s.directLatencyStd = 0) :
    Exact S r rounds T (compare (directReport S r) (relayReport S (T (rounds - 1)).2 r) spread) bc := by
  constructor
  · rfl
  · rfl
  · exact ⟨_, hdevices, r.submitted_eq hholds⟩
  · intro hpos
    have hrelay : (relayReport S (T (rounds - 1)).2 r).avgGasPerTx = 821563 := if_neg hpos.ne'
    have hdirect : (directReport S r).avgGasPerTx = 91512 := if_neg hpos.ne'
    refine ⟨?_, ?_⟩
    · exact (congrArg (ratio _) hrelay).trans (if_pos (by norm_num))
    · exact (congrArg₂ ratio hrelay hdirect).trans (if_pos (by norm_num))
  · exact fun hpos => r.ratio_directReport hpos (T (rounds - 1)).2
  · intro hzero
    have hrelay : (relayReport S (T (rounds - 1)).2 r).avgGasPerTx = 0 := if_pos hzero
    have hdirect : (directReport S r).avgGasPerTx = 0 := if_pos hzero
    have hlatency : (relayReport S (T (rounds - 1)).2 r).avgLatencyMs = 0 := if_pos hzero
    refine ⟨?_, ?_, ?_⟩
    · exact (congrArg (ratio _) hrelay).trans (if_neg (lt_irrefl 0))
    · exact (congrArg (ratio _) hdirect).trans (if_neg (lt_irrefl 0))
    · exact (congrArg (ratio _) hlatency).trans (if_neg (lt_irrefl 0))
  · exact hsingle
  · exact hspread

/-- What is reported over several rounds. -/
def spreadReport (S : Setting) (r : Experiment) (rounds : ℕ) (T : ℕ → Trace × Trace) : Spread where
  directGasStd := 0
  directLatencyStd := 0
  relayGasStd := 0
  relayLatencyStd := S.stdev ((List.range rounds).map fun k => (relayReport S (T k).2 r).avgLatencyMs)
  rounds

variable {rounds : ℕ} {T : ℕ → Trace × Trace} {bc : ℕ → SimulatedBlockchain}

theorem runComparison_single (hdevices : r.createDevices S = some ((List.range r.deviceCount).map device))
    (hround : ∀ k, r.round S ((List.range r.deviceCount).map device) (T k) =
      some (directReport S r, relayReport S (T k).2 r, bc k))
    (hrounds : rounds ≤ 1) :
    r.runComparison S rounds T =
      some (compare (directReport S r) (relayReport S (T (rounds - 1)).2 r) none, bc (rounds - 1)) := by
  have hlast : rounds - 1 = 0 := by omega
  rw [runComparison, hdevices, hlast]
  simp only [Option.bind_eq_bind, Option.bind_some, if_pos hrounds, hround]
  rfl

theorem runComparison_rounds (hdevices : r.createDevices S = some ((List.range r.deviceCount).map device))
    (hround : ∀ k, r.round S ((List.range r.deviceCount).map device) (T k) =
      some (directReport S r, relayReport S (T k).2 r, bc k))
    (hrounds : 1 < rounds) :
    r.runComparison S rounds T =
      some (compare (directReport S r) (relayReport S (T (rounds - 1)).2 r) (some (r.spreadReport S rounds T)),
        bc (rounds - 1)) := by
  have hmap : (List.range rounds).mapM (fun k => r.round S ((List.range r.deviceCount).map device) (T k)) =
      some ((List.range rounds).map fun k => (directReport S r, relayReport S (T k).2 r, bc k)) := by
    rw [funext hround]
    exact List.mapM_pure
  have hlast : ((List.range rounds).map fun k => (directReport S r, relayReport S (T k).2 r, bc k)).getLast? =
      some (directReport S r, relayReport S (T (rounds - 1)).2 r, bc (rounds - 1)) := by
    rw [List.getLast?_map, List.getLast?_range, if_neg (by omega)]
    rfl
  -- the two gas costs and the latencies of the direct path are the same in every round
  have hconst : ∀ x : ℚ, S.stdev ((List.range rounds).map fun _ => x) = 0 := by
    intro x
    rw [List.map_const', stdev_const]
  rw [runComparison, hdevices]
  simp only [Option.bind_eq_bind, Option.bind_some, if_neg (Nat.not_le.2 hrounds), hmap, hlast, List.map_map]
  have hrelay : S.stdev ((List.range rounds).map fun k => (relayReport S (T k).2 r).avgGasPerTx) = 0 := hconst _
  refine congrArg (fun spread => some (compare _ _ (some spread), _)) ?_
  rw [spreadReport, Spread.mk.injEq]
  exact ⟨hconst _, hconst _, hrelay, rfl, rfl⟩

end Experiment

/-- **The comparison is exact** for every number of devices and transactions, every size of the batches and payloads,
every number of rounds, and whatever is drawn and measured. -/
theorem comparison_exact (hB : S.B.Correct) (r : Experiment) (rounds : ℕ) (T : ℕ → Trace × Trace) :
    ∃ c bc, r.runComparison S rounds T = some (c, bc) ∧ Experiment.Exact S r rounds T c bc := by
  obtain ⟨device, hdevices, hsigns⟩ := r.createDevices_eq hB
  choose bc hround hholds using fun k => r.round_eq hsigns (T k)
  by_cases hrounds : rounds ≤ 1
  · exact ⟨_, _, r.runComparison_single hdevices hround hrounds,
      r.exact_of_round none hdevices (hholds (rounds - 1)) (fun _ => rfl) (fun h => absurd h (by omega))⟩
  · exact ⟨_, _, r.runComparison_rounds hdevices hround (by omega),
      r.exact_of_round _ hdevices (hholds (rounds - 1)) (fun h => absurd h hrounds)
        (fun _ => ⟨_, rfl, rfl, rfl, rfl, rfl⟩)⟩

/-- Signatures of the simulation, on a chain on which everything takes 5 ms. -/
def toySetting : Setting where
  H := DIDUtils.toyDigest
  B := .simulation Toy.primitives
  R := ⟨fun _ => 5, fun _ => by norm_num⟩
  keys _ := Bytes32.ofBytes []
  identifiers _ := []
  sqrt x := x
  sqrt_zero := rfl

def toyTrace : Trace where
  hashes := ⟨fun n => String.ofList (List.replicate n 'x'),
    fun m n h => by simpa using congrArg List.length (String.ofList_injective h)⟩
  timestamp _ _ := 0
  urandom _ _ n := List.replicate n 0
  salt _ _ := Bytes32.ofBytes []
  verifyLatency i _ := i
  elapsed _ := 1
  verifyLatency_nonneg i _ := Nat.cast_nonneg i
  elapsed_nonneg _ := by norm_num

/-- Two devices with three transactions each, in batches of four: the last two are charged what the second device's
last verification takes, as the first four are. -/
theorem comparison_exact_toy : ∃ c bc,
    Experiment.runComparison toySetting ⟨⟨2, 3, 4⟩, 256⟩ 2 (fun _ => (toyTrace, toyTrace)) = some (c, bc) ∧
      Experiment.Exact toySetting ⟨⟨2, 3, 4⟩, 256⟩ 2 (fun _ => (toyTrace, toyTrace)) c bc ∧
      c.directEcdsa.totalLatencyMs = 30 ∧ c.relayFalcon.totalLatencyMs = 42 := by
  obtain ⟨c, bc, hrun, h⟩ :=
    comparison_exact (S := toySetting) Toy.primitives_correct ⟨⟨2, 3, 4⟩, 256⟩ 2 fun _ => (toyTrace, toyTrace)
  refine ⟨c, bc, hrun, h, ?_, ?_⟩
  · rw [h.direct]
    decide +kernel
  · rw [h.relay]
    decide +kernel

end PqIotAuth.RelaySystem
