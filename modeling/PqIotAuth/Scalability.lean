import PqIotAuth.ComparisonRunner
import PqIotAuth.Lib.Runs

/-!
# The scalability experiment

`ScalabilityRunner.run` has a pool of threads verify the transactions of the devices at one gateway, and then submits
what is verified, one transaction after the other. A worker takes turns (`Worker.turn`), each of them one read or write
of a variable of the gateway; the results of a worker are collected when it has returned, in any order.

What is measured or drawn (latencies, wall-clock times, the transaction hashes with their random part) is a parameter
(`Measured`), and so are the rounding of the results and the float product in the index of a percentile. Times and
ratios are exact rationals here; in floats a sum depends on its order, so an average can differ in its last digit from
one schedule to another.
-/

namespace PqIotAuth.Scalability

open Lib

/-! ## The gateway and its workers -/

/-- What a device hands to the gateway. -/
structure Reading where
  dataHash : String
  signature : List ℕ
  deriving DecidableEq

/-- The variables of `Gateway`; an entry of the batch names its device. -/
structure Gateway where
  relayedCount : ℕ
  failedCount : ℕ
  batch : List (ℕ × Reading)

/-- Where a worker is with its current transaction, and whether the gateway has verified it. -/
inductive Phase where
  | verifying
  /-- It has read the counter that it is about to increment. -/
  | counting (verified : Bool) (count : ℕ)
  | batching
  /-- `relay_data` has returned. -/
  | collecting (verified : Bool)
  deriving DecidableEq

/-- The local variables of `verify_worker`. -/
structure Worker where
  phase : Phase
  localFailed : ℕ
  localGwLatencies : List ℚ
  localItems : List (VerifiedItem Reading)

def Worker.init : Worker := ⟨.verifying, 0, [], []⟩

/-- One turn of the worker of the device `i`, which has the transactions `txs`; `none` when it has returned. -/
def Worker.turn (i : ℕ) (txs : List (Generated Reading)) (g : Gateway) (w : Worker) : Option (Gateway × Worker) :=
  match txs[w.localGwLatencies.length]? with
  | none => none
  | some t =>
    match w.phase with
    | .verifying =>
      let count := if t.verified then g.relayedCount else g.failedCount
      some (g, { w with phase := .counting t.verified count })
    | .counting true count => some ({ g with relayedCount := count + 1 }, { w with phase := .batching })
    | .counting false count => some ({ g with failedCount := count + 1 }, { w with phase := .collecting false })
    | .batching => some ({ g with batch := g.batch ++ [(i, t.item)] }, { w with phase := .collecting true })
    | .collecting verified =>
      let localGwLatencies := w.localGwLatencies ++ [t.verifyLatency]
      if verified then
        let localItems := w.localItems ++ [⟨t.item, t.verifyLatency⟩]
        some (g, { w with phase := .verifying, localGwLatencies, localItems })
      else some (g, { w with phase := .verifying, localGwLatencies, localFailed := w.localFailed + 1 })

/-! ## The first phase -/

structure ScalabilityRunner where
  deviceCount : ℕ
  transactionsPerDevice : ℕ
  concurrentThreads : ℕ

/-- The number of threads where none is given. -/
def defaultThreads (deviceCount : ℕ) : ℕ := min deviceCount (max 4 (deviceCount / 5))

/-- The workers that have begun, in the order of their devices, and what has been collected of them. -/
structure Run where
  gateway : Gateway
  workers : List Worker
  /-- The devices whose results have been collected, in this order. -/
  merged : List ℕ
  failedTransactions : ℕ
  gatewayLatencies : List ℚ
  verifiedItems : List (VerifiedItem Reading)

def Run.init : Run := ⟨⟨0, 0, []⟩, [], [], 0, [], []⟩

namespace ScalabilityRunner

variable (r : ScalabilityRunner) (gen : ℕ → ℕ → Generated Reading)

/-- The transactions of the device `i`. -/
def transactions (i : ℕ) : List (Generated Reading) := (List.range r.transactionsPerDevice).map (gen i)

def Returned (w : Worker) : Prop := r.transactionsPerDevice ≤ w.localGwLatencies.length

instance (w : Worker) : Decidable (r.Returned w) := inferInstanceAs (Decidable (_ ≤ _))

/-- The threads that are busy. -/
def busy (workers : List Worker) : ℕ := workers.countP fun w => !decide (r.Returned w)

/-- A thread takes up the next device, a worker takes a turn, or the results of one that has returned are collected. -/
inductive Step (p : Run) : Run → Prop
  | start (hmore : p.workers.length < r.deviceCount) (hfree : r.busy p.workers < r.concurrentThreads) :
      Step p { p with workers := p.workers ++ [Worker.init] }
  | turn {i : ℕ} {w w' : Worker} {g : Gateway} (hw : p.workers[i]? = some w)
      (hturn : w.turn i (r.transactions gen i) p.gateway = some (g, w')) :
      Step p { p with gateway := g, workers := p.workers.set i w' }
  | merge {i : ℕ} {w : Worker} (hw : p.workers[i]? = some w) (hreturned : r.Returned w) (hnew : i ∉ p.merged) :
      Step p { p with
        merged := p.merged ++ [i]
        failedTransactions := p.failedTransactions + w.localFailed
        gatewayLatencies := p.gatewayLatencies ++ w.localGwLatencies
        verifiedItems := p.verifiedItems ++ w.localItems }

/-- The first phase in all its runs; the pool refuses to be made without threads. -/
def Reachable : Run → Prop :=
  Lib.Reachable (fun p => 0 < r.concurrentThreads ∧ p = Run.init) (r.Step gen)

/-- The results of all devices have been collected. -/
def Finished (p : Run) : Prop := p.merged.length = r.deviceCount

end ScalabilityRunner

/-! ## The second phase, on the simulated chain -/

/-- What is measured and drawn, and the float operations of the report. -/
structure Measured where
  /-- The hash of the transaction with this number; a random number goes into it. -/
  txHash : ℕ → String
  txHash_injective : Function.Injective txHash
  /-- The latency that the generator draws for it. -/
  networkLatency : ℕ → ℚ
  /-- The time that the relay measures around its submission, in milliseconds. -/
  elapsed : ℕ → ℚ
  phase1Time : ℚ
  phase2Time : ℚ
  round1 : ℚ → ℚ
  round2 : ℚ → ℚ
  /-- `int(n * 0.50)`. -/
  half : ℕ → ℕ
  half_lt : ∀ n, 0 < n → half n < n
  /-- `int(n * 0.99)`. -/
  most : ℕ → ℕ
  most_lt : ∀ n, 0 < n → most n < n

/-- An entry of `_transactions`. -/
structure SimulatedReceipt where
  sender : String
  dataHash : String
  signatureSize : ℕ
  gasUsed : ℕ
  blockNumber : ℕ
  latencyMs : ℚ

structure SimulatedBlockchain where
  transactions : String → Option SimulatedReceipt
  txOrder : List String
  blockNumber : ℕ

structure RelayNode where
  relayId : String
  blockchain : SimulatedBlockchain
  submittedCount : ℕ

/-- The metrics that `submit_verified_transaction` returns. -/
structure Metrics where
  txHash : String
  totalLatencyMs : ℚ
  gasUsed : ℕ
  blockNumber : ℕ

section Submission

variable (M : Measured)

def gasRelayMetaTx : ℕ := 821563

def gasBaseTx : ℕ := 21000

def SimulatedBlockchain.init : SimulatedBlockchain := ⟨fun _ => none, [], 0⟩

def SimulatedBlockchain.submitMetaTransaction (relayAddress dataHash : String) (signatureSize : ℕ) (didActive : Bool)
    (bc : SimulatedBlockchain) : String × SimulatedBlockchain :=
  let txHash := M.txHash bc.txOrder.length
  let gasUsed := if didActive then gasRelayMetaTx else gasBaseTx + 50000
  let blockNumber := bc.blockNumber + 1
  let receipt := ⟨relayAddress, dataHash, signatureSize, gasUsed, blockNumber, M.networkLatency bc.txOrder.length⟩
  (txHash, ⟨Function.update bc.transactions txHash (some receipt), bc.txOrder ++ [txHash], blockNumber⟩)

/-- `submit_verified_transaction` with `return_metrics`; `none` where the receipt is missing. -/
def RelayNode.submitVerifiedTransaction (dataHash : String) (signature : List ℕ) (verified : Bool) (relay : RelayNode) :
    Option (Metrics × RelayNode) := do
  let (txHash, blockchain) :=
    relay.blockchain.submitMetaTransaction M relay.relayId dataHash signature.length verified
  let receipt ← blockchain.transactions txHash
  return (⟨txHash, M.elapsed relay.submittedCount + receipt.latencyMs, receipt.gasUsed, receipt.blockNumber⟩,
    { relay with blockchain, submittedCount := relay.submittedCount + 1 })

/-- The variables of the second phase. -/
structure Submitted where
  relay : RelayNode
  bcLatencies : List ℚ
  gasCosts : List ℕ

def Submitted.init : Submitted := ⟨⟨"relay-scale", SimulatedBlockchain.init, 0⟩, [], []⟩

def submitTurn (s : Submitted) (item : VerifiedItem Reading) : Option Submitted := do
  let (metrics, relay) ← s.relay.submitVerifiedTransaction M item.item.dataHash item.item.signature true
  return ⟨relay, s.bcLatencies ++ [metrics.totalLatencyMs], s.gasCosts ++ [metrics.gasUsed]⟩

def submitAll (items : List (VerifiedItem Reading)) : Option Submitted := items.foldlM (submitTurn M) Submitted.init

end Submission

/-! ## The report -/

/-- The entry of the sorted list at the index that `index` gives for its length. -/
def percentile (index : ℕ → ℕ) (xs : List ℚ) : Option ℚ :=
  let sorted := if xs.isEmpty then [0] else xs.mergeSort (· ≤ ·)
  sorted[index sorted.length]?

structure ScalabilityResult where
  deviceCount : ℕ
  transactionsPerDevice : ℕ
  totalTransactions : ℕ
  totalTimeMs : ℚ
  throughputTps : ℚ
  avgLatencyMs : ℚ
  p50LatencyMs : ℚ
  p99LatencyMs : ℚ
  totalGas : ℕ
  avgGasPerTx : ℚ
  failedTransactions : ℕ
  concurrentThreads : ℕ
  backend : String
  gatewayVerifyTps : ℚ
  gatewayAvgLatencyMs : ℚ
  gatewayP99LatencyMs : ℚ
  blockchainSubmitTps : ℚ
  blockchainAvgLatencyMs : ℚ
  blockchainP99LatencyMs : ℚ

/-- `n / (time / 1000)`, where the time is not 0. -/
def perSecond (n : ℕ) (time : ℚ) : ℚ := if 0 < time then n / (time / 1000) else 0

namespace ScalabilityRunner

variable (r : ScalabilityRunner) (M : Measured) (failedTransactions : ℕ) (gatewayLatencies : List ℚ)
  (items : List (VerifiedItem Reading))

/-- The metrics, from what the two phases have collected; `none` where an index is out of range. -/
def metrics (bcLatencies : List ℚ) (gasCosts : List ℕ) : Option ScalabilityResult := do
  let totalTime := M.phase1Time + M.phase2Time
  let overallLatencies := List.zipWith (· + ·) (items.map VerifiedItem.verifyTimeMs) bcLatencies
  let p50 ← percentile M.half overallLatencies
  let p99 ← percentile M.most overallLatencies
  let gwP99 ← percentile M.most gatewayLatencies
  let bcP99 ← percentile M.most bcLatencies
  return {
    deviceCount := r.deviceCount
    transactionsPerDevice := r.transactionsPerDevice
    totalTransactions := items.length
    totalTimeMs := totalTime
    throughputTps := perSecond items.length totalTime
    avgLatencyMs := average overallLatencies
    p50LatencyMs := p50
    p99LatencyMs := p99
    totalGas := gasCosts.sum
    avgGasPerTx := if gasCosts.isEmpty then 0 else gasCosts.sum / gasCosts.length
    failedTransactions := failedTransactions
    concurrentThreads := r.concurrentThreads
    backend := "simulated"
    gatewayVerifyTps := M.round1 (perSecond gatewayLatencies.length M.phase1Time)
    gatewayAvgLatencyMs := M.round2 (average gatewayLatencies)
    gatewayP99LatencyMs := M.round2 gwP99
    blockchainSubmitTps := M.round1 (perSecond bcLatencies.length M.phase2Time)
    blockchainAvgLatencyMs := M.round2 (average bcLatencies)
    blockchainP99LatencyMs := M.round2 bcP99 }

/-- The second phase, and the metrics. -/
def report : Option ScalabilityResult := do
  let s ← submitAll M items
  r.metrics M failedTransactions gatewayLatencies items s.bcLatencies s.gasCosts

end ScalabilityRunner

end PqIotAuth.Scalability
