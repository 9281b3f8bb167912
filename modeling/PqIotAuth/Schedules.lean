import PqIotAuth.Lib.Counting
import PqIotAuth.Scalability
import Mathlib.Data.List.Sort

/-!
# Every schedule of the scalability experiment

The threads change the order and nothing else (`schedule_free`): every transaction is verified and submitted once, and
all that is reported but the two percentiles of the overall latency is what a run in the order of the devices reports.
Those two depend on the schedule (`percentile_scheduled`), since a latency of the network belongs to a place in the
order and not to a transaction. The counters of the gateway, which nothing reports, may lose increments
(`increment_lost`).
-/

namespace PqIotAuth.Scalability

open Lib

variable {r : ScalabilityRunner} {gen : ℕ → ℕ → Generated Reading} {p p' : Run} {M : Measured}
  {txs : List (Generated Reading)} {g g' : Gateway} {w w' : Worker} {i : ℕ}

/-! ## What a turn does -/

/-- What a turn of the worker of the device `i` can do, with the transaction that it is at. -/
inductive Turn (i : ℕ) (t : Generated Reading) (g : Gateway) (w : Worker) : Gateway → Worker → Prop
  | verify (hphase : w.phase = .verifying) :
      Turn i t g w g { w with
        phase := .counting t.verified (if t.verified then g.relayedCount else g.failedCount) }
  | relayed {count : ℕ} (hphase : w.phase = .counting true count) :
      Turn i t g w { g with relayedCount := count + 1 } { w with phase := .batching }
  | failed {count : ℕ} (hphase : w.phase = .counting false count) :
      Turn i t g w { g with failedCount := count + 1 } { w with phase := .collecting false }
  | batch (hphase : w.phase = .batching) :
      Turn i t g w { g with batch := g.batch ++ [(i, t.item)] } { w with phase := .collecting true }
  | item (hphase : w.phase = .collecting true) :
      Turn i t g w g { w with
        phase := .verifying
        localGwLatencies := w.localGwLatencies ++ [t.verifyLatency]
        localItems := w.localItems ++ [⟨t.item, t.verifyLatency⟩] }
  | failure (hphase : w.phase = .collecting false) :
      Turn i t g w g { w with
        phase := .verifying
        localGwLatencies := w.localGwLatencies ++ [t.verifyLatency]
        localFailed := w.localFailed + 1 }

theorem Worker.turn_cases (h : w.turn i txs g = some (g', w')) :
    ∃ t, txs[w.localGwLatencies.length]? = some t ∧ Turn i t g w g' w' := by
  unfold Worker.turn at h
  split at h
  · cases h
  · rename_i t ht
    refine ⟨t, ht, ?_⟩
    split at h
    · rename_i hphase
      cases h
      exact .verify hphase
    · rename_i count hphase
      cases h
      exact .relayed hphase
    · rename_i count hphase
      cases h
      exact .failed hphase
    · rename_i hphase
      cases h
      exact .batch hphase
    · rename_i verified hphase
      split at h
      · rename_i hv
        cases h
        exact .item (hv ▸ hphase)
      · rename_i hv
        cases h
        exact .failure (Bool.eq_false_iff.2 hv ▸ hphase)

/-- A worker that has not returned has a turn. -/
theorem Worker.turn_isSome (h : w.localGwLatencies.length < txs.length) : ∃ q, w.turn i txs g = some q := by
  unfold Worker.turn
  rw [List.getElem?_eq_getElem h]
  dsimp only
  split
  · exact ⟨_, rfl⟩
  · exact ⟨_, rfl⟩
  · exact ⟨_, rfl⟩
  · exact ⟨_, rfl⟩
  · split <;> exact ⟨_, rfl⟩

/-! ## What holds of a worker -/

/-- Whether the current transaction is verified, where the worker knows. -/
def Phase.verified : Phase → Option Bool
  | .verifying => none
  | .counting verified _ | .collecting verified => some verified
  | .batching => some true

/-- The local variables of the worker of a device with the transactions `txs`, of which it is done with some first. -/
structure Worker.Exact (txs : List (Generated Reading)) (w : Worker) : Prop where
  le : w.localGwLatencies.length ≤ txs.length
  latencies : w.localGwLatencies = (txs.take w.localGwLatencies.length).map Generated.verifyLatency
  items : w.localItems = verifiedItems (txs.take w.localGwLatencies.length)
  failed : w.localFailed = (txs.take w.localGwLatencies.length).countP fun t => !t.verified
  current : ∀ v, w.phase.verified = some v → ∃ t, txs[w.localGwLatencies.length]? = some t ∧ t.verified = v

theorem Worker.Exact.init (txs : List (Generated Reading)) : Worker.init.Exact txs where
  le := Nat.zero_le _
  latencies := rfl
  items := rfl
  failed := rfl
  current := fun v hv => by cases hv

/-- The transactions up to and with the current one. -/
theorem take_current {k : ℕ} {t : Generated Reading} (ht : txs[k]? = some t) :
    txs.take (k + 1) = txs.take k ++ [t] := by
  rw [List.take_add_one, ht]
  rfl

theorem verifiedItems_concat (t : Generated Reading) : verifiedItems (txs ++ [t]) =
    verifiedItems txs ++ if t.verified then [⟨t.item, t.verifyLatency⟩] else [] := by
  rw [verifiedItems, List.filterMap_append]
  cases ht : t.verified <;> simp [verifiedItems, ht]

theorem Worker.Exact.turn {t : Generated Reading} (h : w.Exact txs) (ht : txs[w.localGwLatencies.length]? = some t)
    (hturn : Turn i t g w g' w') : w'.Exact txs := by
  have hlt : w.localGwLatencies.length < txs.length := (List.getElem?_eq_some_iff.1 ht).1
  cases hturn with
  | verify hphase =>
    refine ⟨h.le, h.latencies, h.items, h.failed, fun v hv => ⟨t, ht, Option.some.inj hv⟩⟩
  | relayed hphase => exact ⟨h.le, h.latencies, h.items, h.failed, fun v hv => h.current v (by rw [hphase]; exact hv)⟩
  | failed hphase => exact ⟨h.le, h.latencies, h.items, h.failed, fun v hv => h.current v (by rw [hphase]; exact hv)⟩
  | batch hphase => exact ⟨h.le, h.latencies, h.items, h.failed, fun v hv => h.current v (by rw [hphase]; exact hv)⟩
  | item hphase =>
    obtain ⟨t', ht', hv⟩ := h.current true (by rw [hphase]; rfl)
    obtain rfl := Option.some.inj (ht.symm.trans ht')
    refine ⟨?_, ?_, ?_, ?_, fun v hv => by cases hv⟩
    · rw [List.length_append, List.length_singleton]
      exact hlt
    · dsimp only
      rw [List.length_append, List.length_singleton, take_current ht, List.map_append, ← h.latencies]
      rfl
    · dsimp only
      rw [List.length_append, List.length_singleton, take_current ht, verifiedItems_concat, if_pos hv, ← h.items]
    · dsimp only
      rw [List.length_append, List.length_singleton, take_current ht, List.countP_append, ← h.failed]
      simp [hv]
  | failure hphase =>
    obtain ⟨t', ht', hv⟩ := h.current false (by rw [hphase]; rfl)
    obtain rfl := Option.some.inj (ht.symm.trans ht')
    refine ⟨?_, ?_, ?_, ?_, fun v hv => by cases hv⟩
    · rw [List.length_append, List.length_singleton]
      exact hlt
    · dsimp only
      rw [List.length_append, List.length_singleton, take_current ht, List.map_append, ← h.latencies]
      rfl
    · dsimp only
      rw [List.length_append, List.length_singleton, take_current ht, verifiedItems_concat, if_neg (by simp [hv]),
        List.append_nil, ← h.items]
    · dsimp only
      rw [List.length_append, List.length_singleton, take_current ht, List.countP_append, ← h.failed]
      simp [hv]

/-- The readings that the worker has got into the batch. -/
def Worker.batched (txs : List (Generated Reading)) (w : Worker) : List Reading :=
  w.localItems.map VerifiedItem.item ++
    if w.phase = .collecting true then txs[w.localGwLatencies.length]?.toList.map Generated.item else []

/-- The increments that have been written to the counter of the verified transactions, and to the other. -/
def Worker.relayed (w : Worker) : ℕ :=
  w.localItems.length + if w.phase = .batching ∨ w.phase = .collecting true then 1 else 0

def Worker.refused (w : Worker) : ℕ := w.localFailed + if w.phase = .collecting false then 1 else 0

/-- What a turn adds to the batch. -/
theorem Turn.adds {t : Generated Reading} (ht : txs[w.localGwLatencies.length]? = some t) (hturn : Turn i t g w g' w') :
    ∃ l : List Reading, g'.batch = g.batch ++ l.map (fun x => (i, x)) ∧ w'.batched txs = w.batched txs ++ l := by
  cases hturn with
  | verify hphase => exact ⟨[], by simp, by simp [Worker.batched, hphase]⟩
  | relayed hphase => exact ⟨[], by simp, by simp [Worker.batched, hphase]⟩
  | failed hphase => exact ⟨[], by simp, by simp [Worker.batched, hphase]⟩
  | batch hphase => exact ⟨[t.item], by simp, by simp [Worker.batched, hphase, ht]⟩
  | item hphase => exact ⟨[], by simp, by simp [Worker.batched, hphase, ht]⟩
  | failure hphase => exact ⟨[], by simp, by simp [Worker.batched, hphase]⟩

/-- A turn writes a counter to one more than was read of it, and counts one more increment then, or leaves it. -/
theorem Turn.counts {t : Generated Reading} (hturn : Turn i t g w g' w') :
    (g'.relayedCount = g.relayedCount ∧ w'.relayed = w.relayed ∨
      ∃ count, w.phase = .counting true count ∧ g'.relayedCount = count + 1 ∧ w'.relayed = w.relayed + 1) ∧
    (g'.failedCount = g.failedCount ∧ w'.refused = w.refused ∨
      ∃ count, w.phase = .counting false count ∧ g'.failedCount = count + 1 ∧ w'.refused = w.refused + 1) := by
  cases hturn with
  | verify hphase => exact ⟨.inl ⟨rfl, by simp [Worker.relayed, hphase]⟩, .inl ⟨rfl, by simp [Worker.refused, hphase]⟩⟩
  | @relayed count hphase =>
    exact ⟨.inr ⟨count, hphase, rfl, by simp [Worker.relayed, hphase]⟩, .inl ⟨rfl, by simp [Worker.refused, hphase]⟩⟩
  | @failed count hphase =>
    exact ⟨.inl ⟨rfl, by simp [Worker.relayed, hphase]⟩, .inr ⟨count, hphase, rfl, by simp [Worker.refused, hphase]⟩⟩
  | batch hphase | item hphase | failure hphase =>
    exact ⟨.inl ⟨rfl, by simp [Worker.relayed, hphase]⟩, .inl ⟨rfl, by simp [Worker.refused, hphase]⟩⟩

/-- What a worker has just read of a counter is what the counter is. -/
theorem Turn.read {t : Generated Reading} (hturn : Turn i t g w g' w') (count : ℕ) :
    (w'.phase = .counting true count → count = g.relayedCount) ∧
      (w'.phase = .counting false count → count = g.failedCount) := by
  cases hturn with
  | verify hphase =>
    constructor
    · rintro h
      obtain ⟨hv, hcount⟩ := Phase.counting.inj h
      rw [← hcount, if_pos hv]
    · rintro h
      obtain ⟨hv, hcount⟩ := Phase.counting.inj h
      rw [← hcount, if_neg (by simp [hv])]
  | _ => exact ⟨fun h => (by cases h), fun h => (by cases h)⟩

/-! ## What holds in every run -/

/-- What the workers and the gateway hold together. -/
structure Verifying (r : ScalabilityRunner) (gen : ℕ → ℕ → Generated Reading) (p : Run) : Prop where
  workers : ∀ (i : ℕ) (w : Worker), p.workers[i]? = some w → w.Exact (r.transactions gen i)
  count : p.workers.length ≤ r.deviceCount
  /-- The batch holds what each worker has got into it, in its order. -/
  batch : ∀ i, ((p.gateway.batch.filter fun e => e.1 = i).map (·.2)) =
    (p.workers[i]?.map (Worker.batched (r.transactions gen i))).getD []
  relayed : p.gateway.relayedCount ≤ (p.workers.map Worker.relayed).sum
  /-- What has been read of a counter is not too much either. -/
  relayed_read : ∀ w ∈ p.workers, ∀ count, w.phase = .counting true count → count ≤ (p.workers.map Worker.relayed).sum
  refused : p.gateway.failedCount ≤ (p.workers.map Worker.refused).sum
  refused_read : ∀ w ∈ p.workers, ∀ count, w.phase = .counting false count → count ≤ (p.workers.map Worker.refused).sum

theorem Verifying.init : Verifying r gen Run.init where
  workers := fun i w hw => by cases hw
  count := Nat.zero_le _
  batch := fun i => rfl
  relayed := le_rfl
  relayed_read := fun w hw => by cases hw
  refused := le_rfl
  refused_read := fun w hw => by cases hw

theorem Verifying.start (h : Verifying r gen p) (hmore : p.workers.length < r.deviceCount) :
    Verifying r gen { p with workers := p.workers ++ [Worker.init] } := by
  have hrelayed : ((p.workers ++ [Worker.init]).map Worker.relayed).sum = (p.workers.map Worker.relayed).sum := by
    simp [Worker.relayed, Worker.init]
  have hrefused : ((p.workers ++ [Worker.init]).map Worker.refused).sum = (p.workers.map Worker.refused).sum := by
    simp [Worker.refused, Worker.init]
  refine ⟨fun i w hw => ?_, ?_, fun i => ?_, hrelayed ▸ h.relayed, fun w hw count hc => ?_, hrefused ▸ h.refused,
    fun w hw count hc => ?_⟩
  · rcases getElem?_append_singleton.1 hw with ⟨-, rfl⟩ | ⟨-, hw⟩
    · exact .init _
    · exact h.workers i w hw
  · rw [List.length_append, List.length_singleton]
    exact hmore
  · rw [h.batch i]
    by_cases hi : i < p.workers.length
    · rw [List.getElem?_append_left hi]
    · rw [List.getElem?_eq_none (Nat.not_lt.1 hi)]
      by_cases heq : i = p.workers.length
      · rw [heq, List.getElem?_concat_length]
        rfl
      · rw [List.getElem?_eq_none (by simp; omega)]
  · rcases List.mem_append.1 hw with hw | hw
    · exact hrelayed ▸ h.relayed_read w hw count hc
    · obtain rfl := List.mem_singleton.1 hw
      cases hc
  · rcases List.mem_append.1 hw with hw | hw
    · exact hrefused ▸ h.refused_read w hw count hc
    · obtain rfl := List.mem_singleton.1 hw
      cases hc

theorem Verifying.turn (h : Verifying r gen p) {t : Generated Reading} (hw : p.workers[i]? = some w)
    (ht : (r.transactions gen i)[w.localGwLatencies.length]? = some t) (hturn : Turn i t p.gateway w g' w') :
    Verifying r gen { p with gateway := g', workers := p.workers.set i w' } := by
  have hi : i < p.workers.length := (List.getElem?_eq_some_iff.1 hw).1
  have hrelayed := sum_map_set Worker.relayed hw w'
  have hrefused := sum_map_set Worker.refused hw w'
  have hexact := (h.workers i w hw).turn ht hturn
  obtain ⟨l, hbatch, hbatched⟩ := hturn.adds ht
  refine ⟨fun j u hu => ?_, List.length_set.trans_le h.count, fun j => ?_, ?_, fun u hu count hc => ?_, ?_,
    fun u hu count hc => ?_⟩
  · rcases (getElem?_set_some hw).1 hu with ⟨rfl, rfl⟩ | ⟨-, hu⟩
    · exact hexact
    · exact h.workers j u hu
  · rw [hbatch, List.filter_append, List.map_append, h.batch j]
    by_cases hj : j = i
    · subst hj
      rw [List.getElem?_set_self hi, hw, Option.map_some, Option.map_some, Option.getD_some, Option.getD_some, hbatched]
      rw [List.filter_eq_self.2 (by simp), List.map_map]
      exact congrArg _ (List.map_id l)
    · rw [List.getElem?_set_ne (Ne.symm hj), List.filter_eq_nil_iff.2, List.map_nil, List.append_nil]
      intro e he
      obtain ⟨x, -, rfl⟩ := List.mem_map.1 he
      simpa using Ne.symm hj
  · dsimp only
    rcases hturn.counts.1 with ⟨hcount, hsame⟩ | ⟨count, hphase, hcount, hmore⟩
    · have := h.relayed
      omega
    · have := h.relayed_read w (List.mem_of_getElem? hw) count hphase
      omega
  · have hle : (p.workers.map Worker.relayed).sum ≤ ((p.workers.set i w').map Worker.relayed).sum := by
      rcases hturn.counts.1 with ⟨-, hsame⟩ | ⟨_, -, -, hmore⟩ <;> omega
    rcases List.mem_or_eq_of_mem_set hu with hu | rfl
    · exact (h.relayed_read u hu count hc).trans hle
    · exact ((hturn.read count).1 hc).trans_le (h.relayed.trans hle)
  · dsimp only
    rcases hturn.counts.2 with ⟨hcount, hsame⟩ | ⟨count, hphase, hcount, hmore⟩
    · have := h.refused
      omega
    · have := h.refused_read w (List.mem_of_getElem? hw) count hphase
      omega
  · have hle : (p.workers.map Worker.refused).sum ≤ ((p.workers.set i w').map Worker.refused).sum := by
      rcases hturn.counts.2 with ⟨-, hsame⟩ | ⟨_, -, -, hmore⟩ <;> omega
    rcases List.mem_or_eq_of_mem_set hu with hu | rfl
    · exact (h.refused_read u hu count hc).trans hle
    · exact ((hturn.read count).2 hc).trans_le (h.refused.trans hle)

/-- What has been collected is of workers that have returned, each collected once. -/
structure Collected (r : ScalabilityRunner) (gen : ℕ → ℕ → Generated Reading) (p : Run) : Prop where
  nodup : p.merged.Nodup
  returned : ∀ i ∈ p.merged, ∃ w, p.workers[i]? = some w ∧ r.Returned w
  failed : p.failedTransactions = (p.merged.map fun i => (r.transactions gen i).countP fun t => !t.verified).sum
  latencies : p.gatewayLatencies = p.merged.flatMap fun i => (r.transactions gen i).map Generated.verifyLatency
  items : p.verifiedItems = p.merged.flatMap fun i => verifiedItems (r.transactions gen i)

@[simp] theorem length_transactions (i : ℕ) : (r.transactions gen i).length = r.transactionsPerDevice := by
  simp [ScalabilityRunner.transactions]

/-- What a worker that has returned has in its local variables. -/
theorem Worker.Exact.returned (h : w.Exact (r.transactions gen i)) (hreturned : r.Returned w) :
    w.localGwLatencies = (r.transactions gen i).map Generated.verifyLatency ∧
      w.localItems = verifiedItems (r.transactions gen i) ∧
      w.localFailed = (r.transactions gen i).countP (fun t => !t.verified) ∧ w.phase = .verifying := by
  have hall : (r.transactions gen i).take w.localGwLatencies.length = r.transactions gen i :=
    List.take_of_length_le ((length_transactions i).trans_le hreturned)
  have hlatencies := h.latencies
  have hitems := h.items
  have hfailed := h.failed
  rw [hall] at hlatencies hitems hfailed
  refine ⟨hlatencies, hitems, hfailed, ?_⟩
  -- there is no transaction that it could be at
  have hnone : ∀ v, w.phase.verified ≠ some v := by
    intro v hv
    obtain ⟨t, ht, -⟩ := h.current v hv
    rw [List.getElem?_eq_none ((length_transactions i).trans_le hreturned)] at ht
    cases ht
  cases hphase : w.phase with
  | verifying => rfl
  | counting v | collecting v => exact absurd (by rw [hphase]; rfl) (hnone v)
  | batching => exact absurd (by rw [hphase]; rfl) (hnone true)

theorem Reachable.invariant (h : r.Reachable gen p) : Verifying r gen p ∧ Collected r gen p := by
  refine Lib.Reachable.invariant (P := fun p => Verifying r gen p ∧ Collected r gen p) ?_ (fun p p' _ h hs => ?_) h
  · rintro p ⟨-, rfl⟩
    exact ⟨.init, .nil, fun i hi => (by cases hi), rfl, rfl, rfl⟩
  · obtain ⟨hverifying, hcollected⟩ := h
    cases hs with
    | start hmore =>
      refine ⟨hverifying.start hmore, hcollected.nodup, fun i hi => ?_, hcollected.failed, hcollected.latencies,
        hcollected.items⟩
      obtain ⟨w, hw, hreturned⟩ := hcollected.returned i hi
      exact ⟨w, (List.getElem?_append_left (List.getElem?_eq_some_iff.1 hw).1).trans hw, hreturned⟩
    | @turn i w w' g hw hturn =>
      obtain ⟨t, ht, hturn⟩ := Worker.turn_cases hturn
      refine ⟨hverifying.turn hw ht hturn, hcollected.nodup, fun j hj => ?_, hcollected.failed, hcollected.latencies,
        hcollected.items⟩
      obtain ⟨u, hu, hreturned⟩ := hcollected.returned j hj
      refine ⟨u, (List.getElem?_set_ne ?_).trans hu, hreturned⟩
      -- the worker that takes a turn has not returned
      rintro rfl
      obtain rfl := Option.some.inj (hw.symm.trans hu)
      have hlt := (List.getElem?_eq_some_iff.1 ht).1
      rw [length_transactions] at hlt
      exact absurd hreturned (Nat.not_le.2 hlt)
    | @merge i w hw hreturned hnew =>
      obtain ⟨hlatencies, hitems, hfailed, -⟩ := (hverifying.workers i w hw).returned hreturned
      refine ⟨⟨hverifying.workers, hverifying.count, hverifying.batch, hverifying.relayed, hverifying.relayed_read,
        hverifying.refused, hverifying.refused_read⟩, ?_, fun j hj => ?_, ?_, ?_, ?_⟩
      · exact List.nodup_append.2 ⟨hcollected.nodup, List.nodup_singleton i, fun a ha b hb => by
          obtain rfl := List.mem_singleton.1 hb
          rintro rfl
          exact hnew ha⟩
      · rcases List.mem_append.1 hj with hj | hj
        · exact hcollected.returned j hj
        · obtain rfl := List.mem_singleton.1 hj
          exact ⟨w, hw, hreturned⟩
      · rw [List.map_append, List.sum_append, ← hcollected.failed, hfailed]
        simp
      · rw [List.flatMap_append, ← hcollected.latencies, hlatencies]
        simp
      · rw [List.flatMap_append, ← hcollected.items, hitems]
        simp

/-! ## Every run of the first phase can be finished -/

/-- The turns that are due in the phase. -/
def Phase.done : Phase → ℕ
  | .verifying => 0
  | .counting _ _ => 1
  | .batching => 2
  | .collecting _ => 3

/-- A bound on the turns that a worker with `n` transactions has left. -/
def Worker.left (n : ℕ) (w : Worker) : ℕ := 4 * (n - w.localGwLatencies.length) - w.phase.done

theorem Turn.left_lt {t : Generated Reading} (ht : txs[w.localGwLatencies.length]? = some t)
    (hturn : Turn i t g w g' w') : w'.left txs.length < w.left txs.length := by
  have hlt : w.localGwLatencies.length < txs.length := (List.getElem?_eq_some_iff.1 ht).1
  unfold Worker.left
  cases hturn with
  | verify hphase | relayed hphase | failed hphase | batch hphase =>
    rw [hphase]
    dsimp only [Phase.done]
    omega
  | item hphase | failure hphase =>
    rw [hphase, List.length_append, List.length_singleton]
    dsimp only [Phase.done]
    omega

/-- What is left of the first phase: turns of workers that have begun, whole workers, and results to collect. -/
def ScalabilityRunner.left (r : ScalabilityRunner) (p : Run) : ℕ :=
  (r.deviceCount - p.workers.length) * (4 * r.transactionsPerDevice + 1) +
    (p.workers.map (Worker.left r.transactionsPerDevice)).sum + (r.deviceCount - p.merged.length)

/-- The devices whose results are collected are different, and there are no others. -/
theorem Collected.subset (hc : Collected r gen p) (hv : Verifying r gen p) :
    p.merged ⊆ List.range r.deviceCount := by
  intro i hi
  obtain ⟨w, hw, -⟩ := hc.returned i hi
  exact List.mem_range.2 ((List.getElem?_eq_some_iff.1 hw).1.trans_le hv.count)

theorem Collected.length_le (hc : Collected r gen p) (hv : Verifying r gen p) : p.merged.length ≤ r.deviceCount := by
  have := (hc.nodup.subperm (hc.subset hv)).length_le
  rwa [List.length_range] at this

theorem Reachable.threads (h : r.Reachable gen p) : 0 < r.concurrentThreads :=
  Lib.Reachable.invariant (P := fun _ => 0 < r.concurrentThreads) (fun _ h => h.1) (fun _ _ _ h _ => h) h

/-- Where something is left to do, a step is possible that leaves less. -/
theorem Reachable.lowers (h : r.Reachable gen p) (hleft : 0 < r.left p) :
    ∃ p', r.Step gen p p' ∧ r.left p' < r.left p := by
  obtain ⟨hverifying, hcollected⟩ := Reachable.invariant h
  by_cases hall : ∀ w ∈ p.workers, r.Returned w
  · by_cases hmore : p.workers.length < r.deviceCount
    · -- no thread is busy
      have hbusy : r.busy p.workers = 0 := by
        rw [ScalabilityRunner.busy, List.countP_eq_zero]
        intro w hw
        simpa using hall w hw
      refine ⟨_, .start hmore (by rw [hbusy]; exact Reachable.threads h), ?_⟩
      have hinit : Worker.init.left r.transactionsPerDevice = 4 * r.transactionsPerDevice := rfl
      obtain ⟨k, hk⟩ : ∃ k, r.deviceCount - p.workers.length = k + 1 := ⟨r.deviceCount - p.workers.length - 1, by omega⟩
      have hk' : r.deviceCount - (p.workers ++ [Worker.init]).length = k := by
        rw [List.length_append, List.length_singleton]
        omega
      rw [ScalabilityRunner.left, ScalabilityRunner.left, hk, hk', List.map_append, List.sum_append]
      simp only [List.map_cons, List.map_nil, List.sum_cons, List.sum_nil, hinit, Nat.succ_mul]
      omega
    · -- all workers have returned, but the results of one are not collected
      have hcount : p.workers.length = r.deviceCount := Nat.le_antisymm hverifying.count (Nat.not_lt.1 hmore)
      have hlt : p.merged.length < r.deviceCount := by
        by_contra hge
        have hsum : (p.workers.map (Worker.left r.transactionsPerDevice)).sum = 0 := by
          refine List.sum_eq_zero fun n hn => ?_
          obtain ⟨w, hw, rfl⟩ := List.mem_map.1 hn
          rw [Worker.left, Nat.sub_eq_zero_of_le (hall w hw), Nat.mul_zero, Nat.zero_sub]
        rw [ScalabilityRunner.left, hcount, hsum, Nat.sub_self, Nat.zero_mul] at hleft
        omega
      obtain ⟨i, hi, hnew⟩ : ∃ i ∈ List.range r.deviceCount, i ∉ p.merged := by
        by_contra hno
        push Not at hno
        have := (List.nodup_range.subperm hno).length_le
        rw [List.length_range] at this
        omega
      have hi' : i < p.workers.length := hcount ▸ List.mem_range.1 hi
      refine ⟨_, .merge (List.getElem?_eq_getElem hi') (hall _ (List.getElem_mem hi')) hnew, ?_⟩
      simp only [ScalabilityRunner.left, List.length_append, List.length_singleton]
      omega
  · push Not at hall
    obtain ⟨w, hw, hreturned⟩ := hall
    obtain ⟨i, hw⟩ := List.mem_iff_getElem?.1 hw
    have hlt : w.localGwLatencies.length < (r.transactions gen i).length := by
      rw [length_transactions]
      exact Nat.not_le.1 hreturned
    obtain ⟨⟨g', w'⟩, hturn⟩ := Worker.turn_isSome (i := i) (g := p.gateway) hlt
    refine ⟨_, .turn hw hturn, ?_⟩
    obtain ⟨t, ht, hturn⟩ := Worker.turn_cases hturn
    have hless := hturn.left_lt ht
    rw [length_transactions] at hless
    have hsum := sum_map_set (Worker.left r.transactionsPerDevice) hw w'
    simp only [ScalabilityRunner.left, List.length_set]
    omega

/-- The first phase comes to its end, whatever has happened. -/
theorem Reachable.finishes (h : r.Reachable gen p) : ∃ p', Reaches (r.Step gen) p p' ∧ r.Finished p' := by
  obtain ⟨p', hp', hr, hzero⟩ := Reaches.exhaust (P := r.Reachable gen) r.left
    (fun p hp hleft => by
      obtain ⟨p', hs, hlt⟩ := Reachable.lowers hp hleft
      exact ⟨p', .single hs, .step hp hs, hlt⟩) h
  obtain ⟨hverifying, hcollected⟩ := Reachable.invariant hr
  refine ⟨p', hp', Nat.le_antisymm (hcollected.length_le hverifying) ?_⟩
  unfold ScalabilityRunner.left at hzero
  omega

/-! ## The second phase -/

/-- What has been submitted for `items`: each of them once, in this order. -/
structure SubmittedExactly (M : Measured) (items : List (VerifiedItem Reading)) (s : Submitted) : Prop where
  relayId : s.relay.relayId = "relay-scale"
  submitted : s.relay.submittedCount = items.length
  order : s.relay.blockchain.txOrder = (List.range items.length).map M.txHash
  block : s.relay.blockchain.blockNumber = items.length
  receipts : ∀ (k : ℕ) (item : VerifiedItem Reading), items[k]? = some item →
    s.relay.blockchain.transactions (M.txHash k) = some ⟨"relay-scale", item.item.dataHash, item.item.signature.length,
      gasRelayMetaTx, k + 1, M.networkLatency k⟩
  only : ∀ txHash, s.relay.blockchain.transactions txHash ≠ none → txHash ∈ s.relay.blockchain.txOrder
  latencies : s.bcLatencies = (List.range items.length).map fun k => M.elapsed k + M.networkLatency k
  gas : s.gasCosts = List.replicate items.length gasRelayMetaTx

variable {items items' : List (VerifiedItem Reading)} {s : Submitted}

theorem SubmittedExactly.init : SubmittedExactly M [] Submitted.init where
  relayId := rfl
  submitted := rfl
  order := rfl
  block := rfl
  receipts := fun k item hitem => by cases hitem
  only := fun txHash h => absurd rfl h
  latencies := rfl
  gas := rfl

theorem SubmittedExactly.turn (h : SubmittedExactly M items s) (item : VerifiedItem Reading) :
    ∃ s', submitTurn M s item = some s' ∧ SubmittedExactly M (items ++ [item]) s' := by
  have hlength : s.relay.blockchain.txOrder.length = items.length := by
    rw [h.order, List.length_map, List.length_range]
  refine ⟨_, by
    simp only [submitTurn, RelayNode.submitVerifiedTransaction, SimulatedBlockchain.submitMetaTransaction,
      Function.update_self]
    rfl, ?_⟩
  refine ⟨h.relayId, ?_, ?_, ?_, fun k x hx => ?_, fun txHash hne => ?_, ?_, ?_⟩
  · simp [h.submitted]
  · simp [h.order, List.range_succ]
  · simp [h.block]
  · dsimp only
    rcases getElem?_append_singleton.1 hx with ⟨rfl, rfl⟩ | ⟨hk, hx⟩
    · rw [hlength, Function.update_self, h.relayId, h.block]
      rfl
    · rw [hlength, Function.update_of_ne (fun e => Nat.ne_of_lt hk (M.txHash_injective e))]
      exact h.receipts k x hx
  · dsimp only at hne ⊢
    by_cases heq : txHash = M.txHash s.relay.blockchain.txOrder.length
    · rw [heq]
      simp
    · rw [Function.update_of_ne heq] at hne
      exact List.mem_append_left _ (h.only txHash hne)
  · simp [h.latencies, hlength, h.submitted, List.range_succ]
  · simp [h.gas, List.replicate_succ']

theorem submitAll_exact (M : Measured) (items : List (VerifiedItem Reading)) :
    ∃ s, submitAll M items = some s ∧ SubmittedExactly M items s := by
  induction items using List.reverseRecOn with
  | nil => exact ⟨_, rfl, .init⟩
  | append_singleton items item ih =>
    obtain ⟨s, hs, hexact⟩ := ih
    obtain ⟨s', hs', hexact'⟩ := hexact.turn item
    refine ⟨s', ?_, hexact'⟩
    rw [submitAll, List.foldlM_append, ← submitAll, hs]
    simpa using hs'

/-! ## What the report depends on -/

variable {xs ys : List ℚ}

theorem average_perm (h : xs.Perm ys) : average xs = average ys := by
  rw [average, average, h.isEmpty_eq, h.sum_eq, h.length_eq]

theorem percentile_perm (index : ℕ → ℕ) (h : xs.Perm ys) : percentile index xs = percentile index ys := by
  have hsort : xs.mergeSort (· ≤ ·) = ys.mergeSort (· ≤ ·) :=
    (((List.mergeSort_perm _ _).trans h).trans (List.mergeSort_perm _ _).symm).eq_of_pairwise'
      (r := (· ≤ ·)) (List.pairwise_mergeSort' _ xs) (List.pairwise_mergeSort' _ ys)
  rw [percentile, percentile, h.isEmpty_eq, hsort]

theorem percentile_isSome {index : ℕ → ℕ} (hindex : ∀ n, 0 < n → index n < n) (xs : List ℚ) :
    ∃ x, percentile index xs = some x := by
  refine ⟨_, List.getElem?_eq_getElem (hindex _ ?_)⟩
  cases xs with
  | nil => exact Nat.one_pos
  | cons x xs => simp

theorem average_zipWith (h : xs.length = ys.length) :
    average (List.zipWith (· + ·) xs ys) = average xs + average ys := by
  have hlength : (List.zipWith (· + ·) xs ys).length = xs.length := by
    rw [List.length_zipWith, h, Nat.min_self]
  have hempty : ys.isEmpty = xs.isEmpty := by rw [Bool.eq_iff_iff, List.isEmpty_iff_length_eq_zero,
    List.isEmpty_iff_length_eq_zero, h]
  have hempty' : (List.zipWith (· + ·) xs ys).isEmpty = xs.isEmpty := by rw [Bool.eq_iff_iff,
    List.isEmpty_iff_length_eq_zero, List.isEmpty_iff_length_eq_zero, hlength]
  rw [average, average, average, ← List.sum_add_sum_eq_sum_zipWith_of_length_eq xs ys h, hlength, hempty, hempty', ← h]
  split
  · exact (add_zero 0).symm
  · exact add_div _ _ _

variable (r M) in
/-- The order of what the first phase has collected shows in two percentiles only. -/
theorem metrics_perm (failedTransactions : ℕ) {bcLatencies : List ℚ} (gasCosts : List ℕ) (hitems : items.Perm items')
    (hlatencies : xs.Perm ys) (hlength : bcLatencies.length = items.length) :
    ∃ result plain, r.metrics M failedTransactions xs items bcLatencies gasCosts = some result ∧
      r.metrics M failedTransactions ys items' bcLatencies gasCosts = some plain ∧
      result = { plain with p50LatencyMs := result.p50LatencyMs, p99LatencyMs := result.p99LatencyMs } := by
  have hoverall : average (List.zipWith (· + ·) (items.map VerifiedItem.verifyTimeMs) bcLatencies) =
      average (List.zipWith (· + ·) (items'.map VerifiedItem.verifyTimeMs) bcLatencies) := by
    rw [average_zipWith (by rw [List.length_map, hlength]),
      average_zipWith (by rw [List.length_map, hlength, hitems.length_eq]), average_perm (hitems.map _)]
  obtain ⟨p50, h50⟩ := percentile_isSome M.half_lt
    (List.zipWith (· + ·) (items.map VerifiedItem.verifyTimeMs) bcLatencies)
  obtain ⟨p99, h99⟩ := percentile_isSome M.most_lt
    (List.zipWith (· + ·) (items.map VerifiedItem.verifyTimeMs) bcLatencies)
  obtain ⟨p50', h50'⟩ := percentile_isSome M.half_lt
    (List.zipWith (· + ·) (items'.map VerifiedItem.verifyTimeMs) bcLatencies)
  obtain ⟨p99', h99'⟩ := percentile_isSome M.most_lt
    (List.zipWith (· + ·) (items'.map VerifiedItem.verifyTimeMs) bcLatencies)
  obtain ⟨gwP99, hgw⟩ := percentile_isSome M.most_lt ys
  obtain ⟨bcP99, hbc⟩ := percentile_isSome M.most_lt bcLatencies
  refine ⟨_, _, by
    rw [ScalabilityRunner.metrics, h50, h99, percentile_perm _ hlatencies, hgw, hbc]
    rfl, by
    rw [ScalabilityRunner.metrics, h50', h99', hgw, hbc]
    rfl, ?_⟩
  simp only [hoverall, hitems.length_eq, hlatencies.length_eq, average_perm hlatencies]

variable (M) in
/-- The overall latencies, in the order of submission: what the gateway took for a transaction, and what the network took
for its place in the order. -/
def overall (items : List (VerifiedItem Reading)) : List ℚ :=
  List.zipWith (· + ·) (items.map VerifiedItem.verifyTimeMs)
    ((List.range items.length).map fun k => M.elapsed k + M.networkLatency k)

/-- What is counted, what is summed and what is picked. -/
theorem metrics_fields {failedTransactions : ℕ} {bcLatencies : List ℚ} {gasCosts : List ℕ} {result : ScalabilityResult}
    (h : r.metrics M failedTransactions xs items bcLatencies gasCosts = some result) :
    (result.totalTransactions = items.length ∧ result.failedTransactions = failedTransactions ∧
      result.totalGas = gasCosts.sum) ∧
    percentile M.half (List.zipWith (· + ·) (items.map VerifiedItem.verifyTimeMs) bcLatencies) =
      some result.p50LatencyMs ∧
    percentile M.most (List.zipWith (· + ·) (items.map VerifiedItem.verifyTimeMs) bcLatencies) =
      some result.p99LatencyMs := by
  simp only [ScalabilityRunner.metrics, Option.bind_eq_bind, Option.bind_eq_some_iff, Option.pure_def,
    Option.some.injEq] at h
  obtain ⟨p50, h50, p99, h99, gwP99, -, bcP99, -, rfl⟩ := h
  exact ⟨⟨rfl, rfl, rfl⟩, h50, h99⟩

/-! ## The two phases -/

variable (r gen) in
/-- The transactions of all devices, in the order of the devices. -/
def ScalabilityRunner.generated : List (Generated Reading) := (List.range r.deviceCount).flatMap (r.transactions gen)

/-- What the first phase has done when it is finished. -/
structure Exhaustive (r : ScalabilityRunner) (gen : ℕ → ℕ → Generated Reading) (p : Run) : Prop where
  items : p.verifiedItems.Perm (verifiedItems (r.generated gen))
  latencies : p.gatewayLatencies.Perm ((r.generated gen).map Generated.verifyLatency)
  failed : p.failedTransactions = (r.generated gen).countP fun t => !t.verified
  /-- The batch of the gateway holds the readings of each device in their order, and no others. -/
  batch : ∀ i, ((p.gateway.batch.filter fun e => e.1 = i).map (·.2)) =
    if i < r.deviceCount then (verifiedItems (r.transactions gen i)).map VerifiedItem.item else []
  relayed : p.gateway.relayedCount ≤ (verifiedItems (r.generated gen)).length
  refused : p.gateway.failedCount ≤ (r.generated gen).countP fun t => !t.verified

theorem Collected.perm (hc : Collected r gen p) (hv : Verifying r gen p) (hfinished : r.Finished p) :
    p.merged.Perm (List.range r.deviceCount) :=
  (hc.nodup.subperm (hc.subset hv)).perm_of_length_le (by rw [List.length_range, hfinished])

theorem verifiedItems_flatMap (l : List ℕ) (f : ℕ → List (Generated Reading)) :
    verifiedItems (l.flatMap f) = l.flatMap fun i => verifiedItems (f i) := by
  rw [verifiedItems, List.filterMap_flatMap]
  rfl

theorem Reachable.exhaustive (h : r.Reachable gen p) (hfinished : r.Finished p) : Exhaustive r gen p := by
  obtain ⟨hverifying, hcollected⟩ := Reachable.invariant h
  have hperm := hcollected.perm hverifying hfinished
  -- every worker has returned
  have hreturned : ∀ i < r.deviceCount, ∃ w, p.workers[i]? = some w ∧ r.Returned w := fun i hi =>
    hcollected.returned i (hperm.mem_iff.2 (List.mem_range.2 hi))
  have hcount : p.workers.length = r.deviceCount := by
    refine Nat.le_antisymm hverifying.count (Nat.le_of_not_lt fun hlt => ?_)
    obtain ⟨w, hw, -⟩ := hreturned _ hlt
    rw [List.getElem?_eq_none le_rfl] at hw
    cases hw
  have hworkers : ∀ (f : Worker → ℕ) (g : ℕ → ℕ),
      (∀ i w, w.Exact (r.transactions gen i) → r.Returned w → f w = g i) →
      p.workers.map f = (List.range r.deviceCount).map g := by
    intro f g hfg
    refine List.ext_getElem? fun i => ?_
    rw [List.getElem?_map, List.getElem?_map]
    by_cases hi : i < r.deviceCount
    · obtain ⟨w, hw, hret⟩ := hreturned i hi
      rw [hw, List.getElem?_range hi, Option.map_some, Option.map_some, hfg i w (hverifying.workers i w hw) hret]
    · rw [List.getElem?_eq_none (hcount ▸ Nat.not_lt.1 hi), List.getElem?_eq_none (by simpa using hi)]
      rfl
  refine ⟨?_, ?_, ?_, fun i => ?_, ?_, ?_⟩
  · rw [hcollected.items, ScalabilityRunner.generated, verifiedItems_flatMap]
    exact hperm.flatMap_right _
  · rw [hcollected.latencies, ScalabilityRunner.generated, List.map_flatMap]
    exact hperm.flatMap_right _
  · rw [hcollected.failed, ScalabilityRunner.generated, List.countP_flatMap]
    exact (hperm.map _).sum_eq
  · rw [hverifying.batch i]
    by_cases hi : i < r.deviceCount
    · obtain ⟨w, hw, hret⟩ := hreturned i hi
      obtain ⟨-, hitems, -, hphase⟩ := (hverifying.workers i w hw).returned hret
      rw [hw, if_pos hi, Option.map_some, Option.getD_some, Worker.batched, hphase, hitems, if_neg (by simp),
        List.append_nil]
    · rw [List.getElem?_eq_none (hcount ▸ Nat.not_lt.1 hi), if_neg hi]
      rfl
  · refine hverifying.relayed.trans (Nat.le_of_eq ?_)
    rw [ScalabilityRunner.generated, verifiedItems_flatMap, List.length_flatMap]
    refine congrArg _ (hworkers _ _ fun i w hexact hret => ?_)
    obtain ⟨-, hitems, -, hphase⟩ := hexact.returned hret
    rw [Worker.relayed, hphase, hitems, if_neg (by simp)]
    rfl
  · refine hverifying.refused.trans (Nat.le_of_eq ?_)
    rw [ScalabilityRunner.generated, List.countP_flatMap]
    refine congrArg _ (hworkers _ _ fun i w hexact hret => ?_)
    obtain ⟨-, -, hfailed, hphase⟩ := hexact.returned hret
    rw [Worker.refused, hphase, hfailed, if_neg (by simp)]
    rfl

theorem length_verifiedItems_add (txs : List (Generated Reading)) :
    (verifiedItems txs).length + txs.countP (fun t => !t.verified) = txs.length := by
  induction txs with
  | nil => rfl
  | cons t txs ih =>
    rw [verifiedItems] at ih ⊢
    cases ht : t.verified <;> simp [ht] <;> omega

@[simp] theorem length_generated : (r.generated gen).length = r.deviceCount * r.transactionsPerDevice := by
  simp [ScalabilityRunner.generated, List.length_flatMap]

variable (r gen) in
/-- What is reported when the devices are served in their order. -/
def ScalabilityRunner.plainReport (M : Measured) : Option ScalabilityResult :=
  r.report M ((r.generated gen).countP fun t => !t.verified) ((r.generated gen).map Generated.verifyLatency)
    (verifiedItems (r.generated gen))

/-- What the second phase and the report make of a finished first phase. -/
structure Reported (r : ScalabilityRunner) (gen : ℕ → ℕ → Generated Reading) (M : Measured) (p : Run)
    (result : ScalabilityResult) : Prop where
  /-- What was verified is on the chain, each transaction once, and nothing else. -/
  submitted : ∃ s, submitAll M p.verifiedItems = some s ∧ SubmittedExactly M p.verifiedItems s
  reported : r.report M p.failedTransactions p.gatewayLatencies p.verifiedItems = some result
  plain : ∃ plain, r.plainReport gen M = some plain ∧
    result = { plain with p50LatencyMs := result.p50LatencyMs, p99LatencyMs := result.p99LatencyMs }
  accounted : result.totalTransactions + result.failedTransactions = r.deviceCount * r.transactionsPerDevice
  gas : result.totalGas = result.totalTransactions * gasRelayMetaTx
  p50 : percentile M.half (overall M p.verifiedItems) = some result.p50LatencyMs
  p99 : percentile M.most (overall M p.verifiedItems) = some result.p99LatencyMs

theorem Exhaustive.reported (h : Exhaustive r gen p) (M : Measured) : ∃ result, Reported r gen M p result := by
  obtain ⟨s, hs, hexact⟩ := submitAll_exact M p.verifiedItems
  obtain ⟨s', hs', hexact'⟩ := submitAll_exact M (verifiedItems (r.generated gen))
  have hlength := h.items.length_eq
  have hlatencies : s'.bcLatencies = s.bcLatencies := by rw [hexact.latencies, hexact'.latencies, hlength]
  have hgas : s'.gasCosts = s.gasCosts := by rw [hexact.gas, hexact'.gas, hlength]
  obtain ⟨result, plain, hresult, hplain, heq⟩ := metrics_perm r M p.failedTransactions s.gasCosts h.items
    h.latencies (show s.bcLatencies.length = _ by rw [hexact.latencies, List.length_map, List.length_range])
  have hreported : r.report M p.failedTransactions p.gatewayLatencies p.verifiedItems = some result := by
    rw [ScalabilityRunner.report, hs]
    exact hresult
  have hplain' : r.plainReport gen M = some plain := by
    rw [ScalabilityRunner.plainReport, ScalabilityRunner.report, hs', ← h.failed]
    dsimp only [Option.bind_eq_bind, Option.bind_some]
    rw [hlatencies, hgas]
    exact hplain
  obtain ⟨⟨htotal, hfailed, hsum⟩, h50, h99⟩ := metrics_fields hresult
  rw [hexact.latencies] at h50 h99
  refine ⟨result, ⟨s, hs, hexact⟩, hreported, ⟨plain, hplain', heq⟩, ?_, ?_, h50, h99⟩
  · rw [htotal, hfailed, h.failed, hlength, length_verifiedItems_add, length_generated]
  · rw [htotal, hsum, hexact.gas, List.sum_replicate_nat]

variable (r gen) in
/-- **Every schedule gives the same results**: whatever the threads have done so far, the first phase can be finished,
and when it is, every transaction has been verified once; what was verified is then submitted once, and the report is
that of a run in the order of the devices, but for the two percentiles of the overall latency. -/
theorem schedule_free (h : r.Reachable gen p) :
    (∃ p', Reaches (r.Step gen) p p' ∧ r.Finished p') ∧
      (r.Finished p → Exhaustive r gen p ∧ ∀ M, ∃ result, Reported r gen M p result) :=
  ⟨Reachable.finishes h, fun hfinished =>
    ⟨Reachable.exhaustive h hfinished, (Reachable.exhaustive h hfinished).reported⟩⟩

/-! ## What does depend on the schedule -/

/-- What the scheduler can have done next. -/
inductive Choice where
  | start
  | turn (i : ℕ)
  | merge (i : ℕ)

def ScalabilityRunner.choose (r : ScalabilityRunner) (gen : ℕ → ℕ → Generated Reading) (p : Run) : Choice → Option Run
  | .start =>
    if p.workers.length < r.deviceCount ∧ r.busy p.workers < r.concurrentThreads then
      some { p with workers := p.workers ++ [Worker.init] }
    else none
  | .turn i => do
    let w ← p.workers[i]?
    let (g, w') ← w.turn i (r.transactions gen i) p.gateway
    return { p with gateway := g, workers := p.workers.set i w' }
  | .merge i => do
    let w ← p.workers[i]?
    if r.Returned w ∧ i ∉ p.merged then
      return { p with
        merged := p.merged ++ [i]
        failedTransactions := p.failedTransactions + w.localFailed
        gatewayLatencies := p.gatewayLatencies ++ w.localGwLatencies
        verifiedItems := p.verifiedItems ++ w.localItems }
    else none

theorem choose_step {c : Choice} (h : r.choose gen p c = some p') : r.Step gen p p' := by
  cases c with
  | start =>
    rw [ScalabilityRunner.choose, Option.ite_none_right_eq_some] at h
    obtain ⟨⟨hmore, hfree⟩, h⟩ := h
    cases h
    exact .start hmore hfree
  | turn i =>
    simp only [ScalabilityRunner.choose, Option.bind_eq_bind, Option.bind_eq_some_iff] at h
    obtain ⟨w, hw, ⟨g, w'⟩, hturn, h⟩ := h
    cases h
    exact .turn hw hturn
  | merge i =>
    simp only [ScalabilityRunner.choose, Option.bind_eq_bind, Option.bind_eq_some_iff] at h
    obtain ⟨w, hw, h⟩ := h
    split at h
    · rename_i hreturned
      cases h
      exact .merge hw hreturned.1 hreturned.2
    · cases h

theorem Reachable.choices {cs : List Choice} (h : r.Reachable gen p) (hcs : cs.foldlM (r.choose gen) p = some p') :
    r.Reachable gen p' := by
  induction cs generalizing p with
  | nil =>
    cases hcs
    exact h
  | cons c cs ih =>
    obtain ⟨q, hq, hcs⟩ := Option.bind_eq_some_iff.1 hcs
    exact ih (.step h (choose_step hq)) hcs

/-- Two devices with one transaction each, and two threads. -/
def toyRunner : ScalabilityRunner := ⟨2, 1, 2⟩

def toyGen (i _ : ℕ) : Generated Reading := ⟨⟨"hash", [0]⟩, true, 10 * i⟩

def toyMeasured : Measured where
  txHash n := String.ofList (List.replicate n 'a')
  txHash_injective := fun m n h => by simpa using congrArg List.length (String.ofList_injective h)
  networkLatency n := 10 * n
  elapsed _ := 0
  phase1Time := 10
  phase2Time := 10
  round1 := id
  round2 := id
  half n := n / 2
  half_lt := fun n hn => by omega
  most n := n * 99 / 100
  most_lt := fun n hn => by omega

/-- Both workers read the counter before one of them writes it; the results of `i` are collected, and then those of
`j`. -/
def toyChoices (i j : ℕ) : List Choice :=
  [.start, .start, .turn 0, .turn 1, .turn 0, .turn 1, .turn 0, .turn 1, .turn 0, .turn 1, .merge i, .merge j]

def toyRun (i j : ℕ) : Run := ((toyChoices i j).foldlM (toyRunner.choose toyGen) Run.init).getD Run.init

theorem toyRun_reachable : toyRunner.Reachable toyGen (toyRun 0 1) ∧ toyRunner.Reachable toyGen (toyRun 1 0) :=
  ⟨Reachable.choices (.start ⟨by decide, rfl⟩)
      (show (toyChoices 0 1).foldlM (toyRunner.choose toyGen) Run.init = some (toyRun 0 1) from rfl),
    Reachable.choices (.start ⟨by decide, rfl⟩)
      (show (toyChoices 1 0).foldlM (toyRunner.choose toyGen) Run.init = some (toyRun 1 0) from rfl)⟩

/-- Two transactions are verified, and the counter of the gateway says one. -/
theorem schedule_free_toy :
    (toyRun 0 1).gateway.relayedCount = 1 ∧ Exhaustive toyRunner toyGen (toyRun 0 1) :=
  ⟨rfl, ((schedule_free toyRunner toyGen toyRun_reachable.1).2 rfl).1⟩

/-- An entry of a list that is sorted already. -/
theorem percentile_of_pairwise {index : ℕ → ℕ} (hne : xs ≠ []) (h : xs.Pairwise (· ≤ ·)) :
    percentile index xs = xs[index xs.length]? := by
  rw [percentile, if_neg (by simpa using hne), List.mergeSort_eq_self (· ≤ ·) h]

/-- The median of the overall latency is one thing when the workers return in one order, and another in the other. -/
theorem percentile_scheduled :
    ∃ result result', Reported toyRunner toyGen toyMeasured (toyRun 0 1) result ∧
      Reported toyRunner toyGen toyMeasured (toyRun 1 0) result' ∧
      result.p50LatencyMs = 20 ∧ result'.p50LatencyMs = 10 := by
  obtain ⟨result, h⟩ := (Reachable.exhaustive toyRun_reachable.1 rfl).reported toyMeasured
  obtain ⟨result', h'⟩ := (Reachable.exhaustive toyRun_reachable.2 rfl).reported toyMeasured
  have hoverall : overall toyMeasured (toyRun 0 1).verifiedItems = [0, 20] := by decide +kernel
  have hoverall' : overall toyMeasured (toyRun 1 0).verifiedItems = [10, 10] := by decide +kernel
  refine ⟨result, result', h, h', Option.some.inj (h.p50.symm.trans ?_), Option.some.inj (h'.p50.symm.trans ?_)⟩
  · rw [hoverall, percentile_of_pairwise (by simp) (by simp)]
    rfl
  · rw [hoverall', percentile_of_pairwise (by simp) (by simp)]
    rfl

end PqIotAuth.Scalability
