import PqIotAuth.Lib.Batching
import Mathlib.Algebra.BigOperators.Group.List.Basic
import Mathlib.Data.Rat.Defs
import Mathlib.Algebra.Order.Field.Rat

/-!
# The relay experiment

`ComparisonRunner.run_relay_path` has every device generate its transactions and the gateway verify them; what is
verified is submitted in batches. A batch is submitted item by item, so batching has nothing to change, but the latency
of the verification is read from the loop variable: every item of a batch is charged that of the transaction at which
the batch is submitted. The loop is the batching of `Lib.Batching` (`Refines`), from which it follows what is charged
and when the reported latencies are those of a run without batches (`relay_path_iff`).

A transaction comes with what is measured of it, and timings are exact; the wall-clock time, the deployment and the
decomposition of the gas are not part of the model.
-/

namespace PqIotAuth

open Lib

/-! ## The experiment -/

/-- What a backend returns for a transaction that it has submitted. -/
structure Receipt where
  gasUsed : ℕ
  latencyMs : ℚ

/-- What the relay returns with `return_metrics`. -/
structure RelayMetrics where
  totalLatencyMs : ℚ
  gasUsed : ℕ

/-- The two backends, with what they return for each item. -/
inductive Backend (Item : Type) where
  | hardhat (receipt : Item → Receipt)
  | simulated (submitVerifiedTransaction : Item → RelayMetrics)

/-- A transaction that a device generates: the item that is submitted for it, and what the gateway says of it. -/
structure Generated (Item : Type) where
  item : Item
  verified : Bool
  verifyLatency : ℚ

structure ComparisonRunner where
  deviceCount : ℕ
  transactionsPerDevice : ℕ
  batchSize : ℕ

/-- The variables of `run_relay_path`, and the items handed to the backend so far. -/
structure RelayState (Item : Type) where
  totalTransactions : ℕ
  totalGas : ℕ
  failedVerifications : ℕ
  verifyLatencies : List ℚ
  allLatencies : List ℚ
  pendingItems : List Item
  /-- The loop variable, unbound before the first transaction. -/
  verifyLatency : Option ℚ
  submitted : List Item

def RelayState.init {Item : Type} : RelayState Item where
  totalTransactions := 0
  totalGas := 0
  failedVerifications := 0
  verifyLatencies := []
  allLatencies := []
  pendingItems := []
  verifyLatency := none
  submitted := []

structure RelayResult where
  totalTransactions : ℕ
  totalLatencyMs : ℚ
  avgLatencyMs : ℚ
  totalGas : ℕ
  avgGasPerTx : ℚ
  avgVerifyTimeMs : ℚ
  failedVerifications : ℕ
  deviceCount : ℕ
  transactionsPerDevice : ℕ
  batchSize : ℕ
  backend : String

section Experiment

variable {Item : Type} (backend : Backend Item)

def Backend.name : Backend Item → String
  | .hardhat _ => "hardhat"
  | .simulated _ => "simulated"

/-- `_submit_batch`. -/
def submitBatchItems (items : List Item) (verifyLatency : ℚ) : ℕ × List ℚ :=
  match backend with
  | .hardhat receipt =>
    ((items.map fun item => (receipt item).gasUsed).sum,
      items.map fun item => verifyLatency + (receipt item).latencyMs)
  | .simulated submitVerifiedTransaction =>
    ((items.map fun item => (submitVerifiedTransaction item).gasUsed).sum,
      items.map fun item => verifyLatency + (submitVerifiedTransaction item).totalLatencyMs)

/-- The pending items are submitted and counted. -/
def RelayState.flush (verifyLatency : ℚ) (s : RelayState Item) : RelayState Item :=
  let (batchGas, batchLat) := submitBatchItems backend s.pendingItems verifyLatency
  { s with
    totalTransactions := s.totalTransactions + s.pendingItems.length
    totalGas := s.totalGas + batchGas
    allLatencies := s.allLatencies ++ batchLat
    submitted := s.submitted ++ s.pendingItems
    pendingItems := [] }

/-- One transaction of the inner loop. -/
def relayTurn (batchSize : ℕ) (s : RelayState Item) (t : Generated Item) : RelayState Item :=
  let s := { s with
    verifyLatency := some t.verifyLatency
    verifyLatencies := s.verifyLatencies ++ [t.verifyLatency] }
  if t.verified then
    let s := { s with pendingItems := s.pendingItems ++ [t.item] }
    if s.pendingItems.length ≥ batchSize then s.flush backend t.verifyLatency else s
  else { s with failedVerifications := s.failedVerifications + 1 }

/-- `sum(xs) / len(xs) if xs else 0`. -/
def average (xs : List ℚ) : ℚ := if xs.isEmpty then 0 else xs.sum / xs.length

namespace ComparisonRunner

variable (r : ComparisonRunner) (gen : ℕ → ℕ → Generated Item)

/-- The two nested loops, over the devices and over the transactions of a device. -/
def relayLoop : RelayState Item :=
  (List.range r.deviceCount).foldl
    (fun s i => (List.range r.transactionsPerDevice).foldl (fun s k => relayTurn backend r.batchSize s (gen i k)) s)
    RelayState.init

def relayResult (s : RelayState Item) : RelayResult where
  totalTransactions := s.totalTransactions
  totalLatencyMs := if s.allLatencies.isEmpty then 0 else s.allLatencies.sum
  avgLatencyMs := average s.allLatencies
  totalGas := s.totalGas
  avgGasPerTx := if s.totalTransactions = 0 then 0 else s.totalGas / s.totalTransactions
  avgVerifyTimeMs := average s.verifyLatencies
  failedVerifications := s.failedVerifications
  deviceCount := r.deviceCount
  transactionsPerDevice := r.transactionsPerDevice
  batchSize := r.batchSize
  backend := backend.name

/-- `run_relay_path`: the result and the items submitted, in order; `none` where the loop variable would be read
unbound. -/
def runRelayPath : Option (RelayResult × List Item) := do
  let s := r.relayLoop backend gen
  let s ←
    if s.pendingItems.isEmpty then some s
    else s.verifyLatency.map fun verifyLatency => s.flush backend verifyLatency
  return (r.relayResult backend s, s.submitted)

end ComparisonRunner

/-! ## The accounting of `ScalabilityRunner` -/

/-- An entry of `verified_items`. -/
structure VerifiedItem (Item : Type) where
  item : Item
  verifyTimeMs : ℚ

/-- The transactions that the first phase verifies, in the order of generation; its threads may end in another one, on
which no sum depends. -/
def verifiedItems (txs : List (Generated Item)) : List (VerifiedItem Item) :=
  txs.filterMap fun t => if t.verified then some ⟨t.item, t.verifyLatency⟩ else none

/-- `bc_latencies`. -/
def bcLatencies (items : List (VerifiedItem Item)) : List ℚ :=
  match backend with
  | .hardhat receipt => items.map fun x => (receipt x.item).latencyMs
  | .simulated submitVerifiedTransaction => items.map fun x => (submitVerifiedTransaction x.item).totalLatencyMs

/-- `overall_latencies`: the verification of an item and its submission, item by item. -/
def overallLatencies (items : List (VerifiedItem Item)) : List ℚ :=
  List.zipWith (· + ·) (items.map VerifiedItem.verifyTimeMs) (bcLatencies backend items)

end Experiment

/-! ## What the backend takes for an item -/

section Refinement

variable {Item : Type} {backend : Backend Item}

def Backend.gas : Backend Item → Item → ℕ
  | .hardhat receipt, item => (receipt item).gasUsed
  | .simulated submitVerifiedTransaction, item => (submitVerifiedTransaction item).gasUsed

def Backend.latency : Backend Item → Item → ℚ
  | .hardhat receipt, item => (receipt item).latencyMs
  | .simulated submitVerifiedTransaction, item => (submitVerifiedTransaction item).totalLatencyMs

theorem submitBatchItems_eq (items : List Item) (v : ℚ) :
    submitBatchItems backend items v =
      ((items.map backend.gas).sum, items.map fun item => v + backend.latency item) := by
  cases backend <;> rfl

theorem bcLatencies_eq (items : List (VerifiedItem Item)) :
    bcLatencies backend items = items.map fun x => backend.latency x.item := by
  cases backend <;> rfl

/-! ## The loop is a batching -/

/-- The variables of the loop over `txs`, in terms of what a batching of the verified transactions has handed over. -/
structure Refines (backend : Backend Item) (txs : List (Generated Item)) (s : RelayState Item)
    (b : Batching.Buffer (Generated Item)) : Prop where
  pending : s.pendingItems = b.held.map Generated.item
  submitted : s.submitted = b.handed.map fun p => p.2.item
  count : s.totalTransactions = b.handed.length
  gas : s.totalGas = (b.handed.map fun p => backend.gas p.2.item).sum
  latencies : s.allLatencies = b.handed.map fun p => p.1.verifyLatency + backend.latency p.2.item
  verify_latencies : s.verifyLatencies = txs.map Generated.verifyLatency
  verify_latency : s.verifyLatency = txs.getLast?.map Generated.verifyLatency
  failed : s.failedVerifications = txs.countP fun t => !t.verified

variable {txs : List (Generated Item)} {s : RelayState Item} {b : Batching.Buffer (Generated Item)}

theorem Refines.init : Refines backend [] RelayState.init ⟨[], []⟩ where
  pending := rfl
  submitted := rfl
  count := rfl
  gas := rfl
  latencies := rfl
  verify_latencies := rfl
  verify_latency := rfl
  failed := rfl

/-- A flush hands over, and charges every item of the batch the latency that it is given. -/
theorem Refines.flush (h : Refines backend txs s b) (t : Generated Item) :
    Refines backend txs (s.flush backend t.verifyLatency) (b.hand t) := by
  unfold RelayState.flush
  rw [submitBatchItems_eq]
  constructor
  · rfl
  · simp [Batching.Buffer.hand, h.submitted, h.pending, Function.comp_def]
  · simp [Batching.Buffer.hand, h.count, h.pending]
  · simp [Batching.Buffer.hand, h.gas, h.pending, Function.comp_def]
  · simp [Batching.Buffer.hand, h.latencies, h.pending, Function.comp_def]
  · exact h.verify_latencies
  · exact h.verify_latency
  · exact h.failed

theorem Refines.turn (h : Refines backend txs s b) (batchSize : ℕ) (t : Generated Item) :
    Refines backend (txs ++ [t]) (relayTurn backend batchSize s t) (b.feed Generated.verified batchSize t) := by
  have hlatencies : s.verifyLatencies ++ [t.verifyLatency] = (txs ++ [t]).map Generated.verifyLatency := by
    rw [h.verify_latencies, List.map_append, List.map_singleton]
  have hlatency : some t.verifyLatency = (txs ++ [t]).getLast?.map Generated.verifyLatency := by
    rw [List.getLast?_concat, Option.map_some]
  have hlength : (s.pendingItems ++ [t.item]).length = b.held.length + 1 := by
    rw [List.length_append, h.pending, List.length_map, List.length_singleton]
  unfold relayTurn Batching.Buffer.feed
  by_cases ht : t.verified
  · have hcount : s.failedVerifications = (txs ++ [t]).countP fun t => !t.verified := by
      rw [List.countP_append, List.countP_singleton, h.failed]
      simp [ht]
    have hheld : Refines backend (txs ++ [t])
        { s with
          verifyLatency := some t.verifyLatency
          verifyLatencies := s.verifyLatencies ++ [t.verifyLatency]
          pendingItems := s.pendingItems ++ [t.item] } ⟨b.handed, b.held ++ [t]⟩ :=
      ⟨by rw [h.pending, List.map_append, List.map_singleton], h.submitted, h.count, h.gas, h.latencies, hlatencies,
        hlatency, hcount⟩
    simp only [ht, if_true, hlength]
    split
    · exact hheld.flush t
    · exact hheld
  · have hcount : s.failedVerifications + 1 = (txs ++ [t]).countP fun t => !t.verified := by
      rw [List.countP_append, List.countP_singleton, h.failed]
      simp [ht]
    simp only [ht]
    exact ⟨h.pending, h.submitted, h.count, h.gas, h.latencies, hlatencies, hlatency, hcount⟩

theorem Refines.loop (backend : Backend Item) (batchSize : ℕ) (txs : List (Generated Item)) :
    Refines backend txs (txs.foldl (relayTurn backend batchSize) RelayState.init)
      (Batching.fed Generated.verified batchSize txs) := by
  induction txs using List.reverseRecOn with
  | nil => exact .init
  | append_singleton txs t ih =>
    rw [List.foldl_append, Batching.fed_concat]
    exact ih.turn batchSize t

namespace ComparisonRunner

variable (r : ComparisonRunner) (backend : Backend Item) (gen : ℕ → ℕ → Generated Item)

/-- The transactions that are generated, in order. -/
def generated : List (Generated Item) :=
  (List.range r.deviceCount).flatMap fun i => (List.range r.transactionsPerDevice).map (gen i)

theorem length_generated : (r.generated gen).length = r.deviceCount * r.transactionsPerDevice := by
  simp [generated, List.length_flatMap]

/-- The transactions that are generated and verified, in order. -/
def verified : List (Generated Item) := (r.generated gen).filter Generated.verified

theorem count_generated :
    (r.verified gen).length + (r.generated gen).countP (fun t => !t.verified) =
      r.deviceCount * r.transactionsPerDevice := by
  rw [← r.length_generated gen, verified, ← List.countP_eq_length_filter,
    List.length_eq_countP_add_countP Generated.verified]
  simp

theorem relayLoop_eq : r.relayLoop backend gen =
    (r.generated gen).foldl (relayTurn backend r.batchSize) RelayState.init := by
  rw [generated, List.foldl_flatMap, relayLoop]
  simp only [List.foldl_map]

/-- **The experiment returns**, and has submitted what the batching hands over. -/
theorem runRelayPath_eq : ∃ s, r.runRelayPath backend gen = some (r.relayResult backend s, s.submitted) ∧
    Refines backend (r.generated gen) s ⟨Batching.handedOver Generated.verified r.batchSize (r.generated gen), []⟩ := by
  have h := Refines.loop backend r.batchSize (r.generated gen)
  rw [← relayLoop_eq] at h
  unfold runRelayPath Batching.handedOver
  rcases hlast : (r.generated gen).getLast? with _ | t
  · -- nothing is generated
    have hnil := List.getLast?_eq_none_iff.1 hlast
    rw [hnil] at h ⊢
    refine ⟨r.relayLoop backend gen, ?_, h⟩
    rw [if_pos (by rw [h.pending]; rfl)]
    rfl
  · by_cases hpending : (r.relayLoop backend gen).pendingItems.isEmpty
    · -- nothing is pending, and handing it over changes nothing
      have hheld : (Batching.fed Generated.verified r.batchSize (r.generated gen)).held = [] := by
        rw [h.pending, List.isEmpty_iff, List.map_eq_nil_iff] at hpending
        exact hpending
      refine ⟨r.relayLoop backend gen, by rw [if_pos hpending]; rfl, ?_⟩
      rw [← Batching.Buffer.hand_of_nil (x := t) hheld] at h
      exact h
    · refine ⟨(r.relayLoop backend gen).flush backend t.verifyLatency, ?_, h.flush t⟩
      rw [if_neg hpending, h.verify_latency, hlast]
      rfl

/-! ## What the experiment reports -/

/-- The verification latency that is charged for the verified transaction `j`: that of the one which completes its
batch, or of the last transaction generated where none does. -/
def chargedLatency (j : ℕ) : ℚ :=
  ((Batching.closing Generated.verified r.batchSize (r.generated gen) j).map Generated.verifyLatency).getD 0

/-- The verification latencies that are charged. -/
def chargedLatencies : List ℚ := (List.range (r.verified gen).length).map (r.chargedLatency gen)

/-- The result when the latencies of the submitted transactions sum to `total`. -/
def report (total : ℚ) : RelayResult where
  totalTransactions := (r.verified gen).length
  totalLatencyMs := total
  avgLatencyMs := if (r.verified gen).length = 0 then 0 else total / (r.verified gen).length
  totalGas := ((r.verified gen).map fun t => backend.gas t.item).sum
  avgGasPerTx := if (r.verified gen).length = 0 then 0 else
    (((r.verified gen).map fun t => backend.gas t.item).sum : ℕ) / (r.verified gen).length
  avgVerifyTimeMs := average ((r.generated gen).map Generated.verifyLatency)
  failedVerifications := (r.generated gen).countP fun t => !t.verified
  deviceCount := r.deviceCount
  transactionsPerDevice := r.transactionsPerDevice
  batchSize := r.batchSize
  backend := backend.name

theorem handed_latencies (hsize : 1 ≤ r.batchSize) :
    (Batching.handedOver Generated.verified r.batchSize (r.generated gen)).map (fun p => p.1.verifyLatency) =
      r.chargedLatencies gen := by
  obtain ⟨helements, hclosing⟩ := Batching.handedOver_eq Generated.verified hsize (r.generated gen)
  have hlength := congrArg List.length helements
  rw [List.length_map] at hlength
  refine List.ext_getElem? fun j => ?_
  rw [chargedLatencies, List.getElem?_map, List.getElem?_map]
  rcases hp : (Batching.handedOver Generated.verified r.batchSize (r.generated gen))[j]? with _ | p
  · rw [List.getElem?_eq_none_iff, hlength] at hp
    rw [List.getElem?_eq_none (by rw [List.length_range]; exact hp)]
    rfl
  · have hj := (List.getElem?_eq_some_iff.1 hp).1
    rw [List.getElem?_range (by rw [hlength] at hj; exact hj), Option.map_some, Option.map_some, chargedLatency,
      hclosing j p hp]
    rfl

/-- **What is reported**: everything as without batches, but the charged latencies instead of the transactions' own. -/
theorem runRelayPath_report (hsize : 1 ≤ r.batchSize) :
    r.runRelayPath backend gen = some (r.report backend gen
      ((r.chargedLatencies gen).sum + ((r.verified gen).map fun t => backend.latency t.item).sum),
      (r.verified gen).map Generated.item) := by
  obtain ⟨s, hrun, h⟩ := r.runRelayPath_eq backend gen
  obtain ⟨helements, -⟩ := Batching.handedOver_eq Generated.verified hsize (r.generated gen)
  have hmap : ∀ {β : Type} (f : Generated Item → β),
      (Batching.handedOver Generated.verified r.batchSize (r.generated gen)).map (fun p => f p.2) =
        (r.verified gen).map f := by
    intro β f
    rw [verified, ← helements, List.map_map]
    rfl
  have hcount : s.totalTransactions = (r.verified gen).length := by
    have := congrArg List.length (hmap id)
    rw [List.length_map, List.length_map] at this
    exact h.count.trans this
  have hlength : s.allLatencies.length = (r.verified gen).length := by
    rw [h.latencies, List.length_map, ← hcount, h.count]
  have hsum : s.allLatencies.sum =
      (r.chargedLatencies gen).sum + ((r.verified gen).map fun t => backend.latency t.item).sum := by
    rw [h.latencies, List.sum_map_add, r.handed_latencies gen hsize, hmap fun t => backend.latency t.item]
  have hempty : s.allLatencies.isEmpty ↔ (r.verified gen).length = 0 := by
    rw [List.isEmpty_iff_length_eq_zero, hlength]
  rw [hrun, h.submitted, hmap, relayResult, report, average, ← hsum, h.gas, hmap fun t => backend.gas t.item,
    hcount, h.verify_latencies, h.failed, hlength]
  simp only [hempty]
  congr 3
  split
  · rename_i hzero
    rw [← hlength, List.length_eq_zero_iff] at hzero
    rw [hzero, List.sum_nil]
  · rfl

variable {r backend gen}

/-- In batches of one, every transaction is charged its own latency. -/
theorem chargedLatencies_one (hone : r.batchSize = 1) :
    r.chargedLatencies gen = (r.verified gen).map Generated.verifyLatency := by
  refine List.ext_getElem? fun j => ?_
  rw [chargedLatencies, List.getElem?_map, List.getElem?_map]
  by_cases hj : j < (r.verified gen).length
  · have hclosing : Batching.closing Generated.verified r.batchSize (r.generated gen) j = some (r.verified gen)[j] := by
      rw [Batching.closing, hone, Nat.div_one, Nat.mul_one, Nat.add_sub_cancel, ← verified,
        List.getElem?_eq_getElem hj, Option.some_or]
    rw [List.getElem?_range hj, List.getElem?_eq_getElem hj, Option.map_some, Option.map_some, chargedLatency, hclosing]
    rfl
  · rw [List.getElem?_eq_none (by rw [List.length_range]; omega), List.getElem?_eq_none (by omega)]
    rfl

theorem overallLatencies_eq : overallLatencies backend (verifiedItems (r.generated gen)) =
    (r.verified gen).map fun t => t.verifyLatency + backend.latency t.item := by
  have hitems : verifiedItems (r.generated gen) = (r.verified gen).map fun t => ⟨t.item, t.verifyLatency⟩ := by
    rw [verifiedItems, verified, ← List.filterMap_eq_filter, List.map_filterMap]
    refine List.filterMap_congr fun t _ => ?_
    by_cases ht : t.verified <;> simp [ht, Option.guard]
  rw [overallLatencies, bcLatencies_eq, hitems, List.map_map, List.map_map, List.zipWith_map, List.zipWith_self]
  rfl

variable (r gen)

/-- The result of a run is that of the per-item accounting, whatever the batches. -/
structure ReportsPerItem (backend : Backend Item) (result : RelayResult) (submitted : List Item) : Prop where
  submitted_once : submitted = (r.verified gen).map Generated.item
  count : result.totalTransactions + result.failedVerifications = r.deviceCount * r.transactionsPerDevice
  gas : result.totalGas = ((r.verified gen).map fun t => backend.gas t.item).sum
  latency : result.totalLatencyMs = ((r.verified gen).map fun t => t.verifyLatency + backend.latency t.item).sum
  accounting : result.totalLatencyMs = (overallLatencies backend (verifiedItems (r.generated gen))).sum
  /-- In batches of one, all that is reported is the same. -/
  unbatched : { r with batchSize := 1 }.runRelayPath backend gen = some ({ result with batchSize := 1 }, submitted)

/-- The latencies that are charged sum to those of the verified transactions. -/
def LatenciesBalance : Prop :=
  (r.chargedLatencies gen).sum = ((r.verified gen).map Generated.verifyLatency).sum

end ComparisonRunner

/-- **The reported metrics are those of a run without batches just when the charged latencies sum to the own ones.** -/
theorem relay_path_iff (r : ComparisonRunner) (backend : Backend Item) (gen : ℕ → ℕ → Generated Item)
    (hsize : 1 ≤ r.batchSize) :
    (∃ result submitted, r.runRelayPath backend gen = some (result, submitted) ∧
      r.ReportsPerItem gen backend result submitted) ↔ r.LatenciesBalance gen := by
  have hrun := r.runRelayPath_report backend gen hsize
  have hown : ((r.verified gen).map fun t => t.verifyLatency + backend.latency t.item).sum =
      ((r.verified gen).map Generated.verifyLatency).sum + ((r.verified gen).map fun t => backend.latency t.item).sum :=
    List.sum_map_add
  constructor
  · rintro ⟨result, submitted, hresult, h⟩
    obtain ⟨rfl, rfl⟩ := Prod.mk.inj (Option.some.inj (hrun.symm.trans hresult))
    have hlatency := h.latency
    rw [hown] at hlatency
    exact add_right_cancel hlatency
  · intro h
    refine ⟨_, _, hrun, rfl, ?_, rfl, ?_, ?_, ?_⟩
    · exact r.count_generated gen
    · rw [hown, ← h]
      rfl
    · rw [ComparisonRunner.overallLatencies_eq, hown, ← h]
      rfl
    · have hone := ComparisonRunner.runRelayPath_report { r with batchSize := 1 } backend gen le_rfl
      rw [ComparisonRunner.chargedLatencies_one rfl] at hone
      rw [hone, h]
      rfl

/-! ## Runs -/

namespace Toy

/-- One device with two transactions, verified in 1 ms and in 3 ms. -/
def slowing (_ k : ℕ) : Generated ℕ := ⟨k, true, 1 + 2 * k⟩

def hardhat : Backend ℕ := .hardhat fun _ => ⟨821563, 10⟩

end Toy

/-- Two transactions in batches of one. -/
theorem relay_path_iff_toy : ∃ result submitted,
    (ComparisonRunner.mk 1 2 1).runRelayPath Toy.hardhat Toy.slowing = some (result, submitted) ∧
      (ComparisonRunner.mk 1 2 1).ReportsPerItem Toy.slowing Toy.hardhat result submitted :=
  (relay_path_iff ⟨1, 2, 1⟩ Toy.hardhat Toy.slowing (by decide)).2 (by
    rw [ComparisonRunner.LatenciesBalance]
    decide +kernel)

/-- In one batch of two, both are charged the 3 ms of the second: 26 ms are reported, 24 ms measured. -/
theorem batch_charges_last : ∃ result submitted,
    (ComparisonRunner.mk 1 2 2).runRelayPath Toy.hardhat Toy.slowing = some (result, submitted) ∧
      result.totalLatencyMs = 26 ∧
      (((ComparisonRunner.mk 1 2 2).verified Toy.slowing).map fun t =>
        t.verifyLatency + Toy.hardhat.latency t.item).sum = 24 ∧
      ¬ (ComparisonRunner.mk 1 2 2).ReportsPerItem Toy.slowing Toy.hardhat result submitted := by
  have hlatency : ((ComparisonRunner.mk 1 2 2).runRelayPath Toy.hardhat Toy.slowing).map (fun p => p.1.totalLatencyMs) =
      some 26 := by decide +kernel
  have hown : (((ComparisonRunner.mk 1 2 2).verified Toy.slowing).map fun t =>
      t.verifyLatency + Toy.hardhat.latency t.item).sum = 24 := by decide +kernel
  obtain ⟨⟨result, submitted⟩, hrun, hresult⟩ := Option.map_eq_some_iff.1 hlatency
  refine ⟨result, submitted, hrun, hresult, hown, fun h => ?_⟩
  have := h.latency
  rw [hown, hresult] at this
  exact absurd this (by decide +kernel)

end Refinement

end PqIotAuth
