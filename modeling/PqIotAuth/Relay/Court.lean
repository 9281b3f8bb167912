import PqIotAuth.Relay.Effects

/-!
# Targets and their phases

Records and leaves of batches are two kinds of one thing: a target that disputes can be about. Its `phase` is the phase
of the abstract docket (`Lib.Docket`), a leaf being confirmed with its batch, and `Court.docket` reads the whole docket
off the storage: the disputes are its cases and the events tell its verdicts.

`CourtStep` lists what can happen to the records, batches, disputes and their counters. A call makes one such step
(`Effect.courtStep`), given that the dispute it resolves stands on a target that is there and under dispute.
-/

namespace PqIotAuth

open Lib

/-! ## Phases -/

def RecordState.phase : RecordState → Phase
  | .provisional => .undecided
  | .confirmed => .confirmed
  | .disputed => .disputed
  | .revoked => .revoked

/-- The phase of a leaf, given the state of its batch. -/
def LeafState.phase (batch : RecordState) : LeafState → Phase
  | .disputed => .disputed
  | .revoked => .revoked
  | .undisputed | .upheld => if batch = .confirmed then .confirmed else .undecided

namespace Court

/-- The relay that endorsed a target. -/
def relayOf (c : Court) : Target → Option Address
  | .record i => c.records[i]?.map (·.relay)
  | .leaf b _ => c.batches[b]?.map (·.relay)

def phase (c : Court) : Target → Phase
  | .record i =>
    match c.records[i]? with
    | none => .absent
    | some r => r.state.phase
  | .leaf b l =>
    match c.batches[b]? with
    | none => .absent
    | some bt => if l < bt.leafCount then (c.batchLeafState b l).phase bt.state else .absent

end Court

def Target.batch : Target → Option ℕ
  | .record _ => none
  | .leaf b _ => some b

theorem targetRelay_ok' {d : Dispute} {c : Court} {relay : Address} :
    targetRelay d c = .ok relay ↔ c.relayOf d.target = some relay := by
  rw [targetRelay_ok]
  unfold Dispute.target Court.relays
  split <;> simp [Court.relayOf]

/-- The verdict that an event tells. -/
def Event.verdict : Event → Option (ℕ × Verdict)
  | .disputeResolved id true => some (id, .fraud)
  | .disputeResolved id false => some (id, .spurious)
  | .disputeExpired id => some (id, .expired)
  | _ => none

namespace Storage

def verdicts (s : Storage) : List (ℕ × Verdict) := s.logs.filterMap Event.verdict

end Storage

/-- The event that tells the verdict on the dispute `id`. -/
def Lib.Verdict.event (id : ℕ) : Verdict → Event
  | .fraud => .disputeResolved id true
  | .spurious => .disputeResolved id false
  | .expired => .disputeExpired id

theorem Event.verdict_eq_some {e : Event} {id : ℕ} {v : Verdict} : e.verdict = some (id, v) ↔ e = v.event id := by
  constructor
  · intro h
    cases e with
    | disputeResolved j b =>
      cases b
      · obtain ⟨rfl, rfl⟩ := Prod.mk.inj (Option.some.inj h)
        rfl
      · obtain ⟨rfl, rfl⟩ := Prod.mk.inj (Option.some.inj h)
        rfl
    | disputeExpired j =>
      obtain ⟨rfl, rfl⟩ := Prod.mk.inj (Option.some.inj h)
      rfl
    | _ => cases h
  · rintro rfl
    cases v <;> rfl

/-- The verdicts are told by the events, and the other way round. -/
theorem Storage.mem_verdicts {s : Storage} {id : ℕ} {v : Verdict} : (id, v) ∈ s.verdicts ↔ v.event id ∈ s.logs := by
  rw [Storage.verdicts, List.mem_filterMap]
  constructor
  · rintro ⟨e, he, hv⟩
    exact Event.verdict_eq_some.1 hv ▸ he
  · exact fun h => ⟨_, h, Event.verdict_eq_some.2 rfl⟩

/-- Each verdict is told by one event. -/
theorem Storage.count_verdicts (s : Storage) (id : ℕ) (v : Verdict) :
    s.verdicts.count (id, v) = s.logs.count (v.event id) := by
  rw [Storage.verdicts]
  induction s.logs with
  | nil => rfl
  | cons e logs ih =>
    rw [List.filterMap_cons, List.count_cons, ← ih]
    by_cases he : e = v.event id
    · rw [Event.verdict_eq_some.2 he]
      simp [he]
    · have hne : e.verdict ≠ some (id, v) := fun h => he (Event.verdict_eq_some.1 h)
      split
      · simp [he]
      · rename_i p hp
        have hp' : p ≠ (id, v) := fun h => hne (h ▸ hp)
        simp [he, hp']

/-- The docket of a court, given the verdicts so far. -/
def Court.docket (c : Court) (verdicts : List (ℕ × Verdict)) : Docket Target :=
  ⟨c.phase, c.disputes.map fun d => (d.target, d.resolved), verdicts⟩

/-! ### What a write does to the phases -/

namespace Court

variable {c c' : Court}

@[simp] theorem setLeaf_self (c : Court) (b l : ℕ) (st : LeafState) :
    (c.setLeaf b l st).batchLeafState b = Function.update (c.batchLeafState b) l st := Function.update_self _ _ _

theorem setLeaf_of_ne (c : Court) {b b' : ℕ} (hb : b' ≠ b) (l : ℕ) (st : LeafState) :
    (c.setLeaf b l st).batchLeafState b' = c.batchLeafState b' := Function.update_of_ne hb _ _

/-- A leaf state after a write: the written one at the written place, elsewhere as before. -/
theorem setLeaf_apply (c : Court) (b l : ℕ) (st : LeafState) (b' l' : ℕ) :
    (c.setLeaf b l st).batchLeafState b' l' = if b' = b ∧ l' = l then st else c.batchLeafState b' l' := by
  by_cases hb : b' = b
  · subst hb
    by_cases hl : l' = l <;> simp [hl]
  · rw [setLeaf_of_ne c hb, if_neg fun h => hb h.1]

theorem phase_record {i : ℕ} {r : Record} (hr : c.records[i]? = some r) : c.phase (.record i) = r.state.phase := by
  simp only [phase, hr]

theorem phase_leaf {b l : ℕ} {bt : Batch} (hb : c.batches[b]? = some bt) (hl : l < bt.leafCount) :
    c.phase (.leaf b l) = (c.batchLeafState b l).phase bt.state := by
  simp only [phase, hb, if_pos hl]

theorem record_of_phase {i : ℕ} (h : c.phase (.record i) ≠ .absent) : ∃ r, c.records[i]? = some r := by
  rcases hr : c.records[i]? with _ | r
  · exact absurd (by simp only [phase, hr]) h
  · exact ⟨r, rfl⟩

theorem leaf_of_phase {b l : ℕ} (h : c.phase (.leaf b l) ≠ .absent) :
    ∃ bt, c.batches[b]? = some bt ∧ l < bt.leafCount := by
  rcases hb : c.batches[b]? with _ | bt
  · exact absurd (by simp only [phase, hb]) h
  · by_cases hl : l < bt.leafCount
    · exact ⟨bt, rfl, hl⟩
    · exact absurd (by simp only [phase, hb, if_neg hl]) h

theorem phase_congr (hrec : c'.records = c.records) (hbat : c'.batches = c.batches)
    (hleaf : c'.batchLeafState = c.batchLeafState) : c'.phase = c.phase := by
  funext t
  cases t <;> simp only [phase, hrec, hbat, hleaf]

theorem phase_recordSet {i : ℕ} {r : Record} (r' : Record) (hr : c.records[i]? = some r)
    (hrec : c'.records = c.records.set i r') (hbat : c'.batches = c.batches)
    (hleaf : c'.batchLeafState = c.batchLeafState) :
    c'.phase = Function.update c.phase (.record i) r'.state.phase := by
  funext t
  cases t with
  | leaf b l =>
    rw [Function.update_of_ne (by simp)]
    simp only [phase, hbat, hleaf]
  | record j =>
    by_cases hj : j = i
    · subst hj
      rw [Function.update_self]
      exact phase_record (hrec ▸ (getElem?_set_some hr).2 (.inl ⟨rfl, rfl⟩))
    · rw [Function.update_of_ne (by simpa using hj)]
      simp only [phase, hrec, List.getElem?_set_ne (Ne.symm hj)]

theorem phase_leafSet {b l : ℕ} {bt : Batch} (bt' : Batch) (st : LeafState) (hb : c.batches[b]? = some bt)
    (hl : l < bt.leafCount) (hrec : c'.records = c.records) (hbat : c'.batches = c.batches.set b bt')
    (hcount : bt'.leafCount = bt.leafCount) (hstate : bt'.state = bt.state)
    (hleaf : c'.batchLeafState = (c.setLeaf b l st).batchLeafState) :
    c'.phase = Function.update c.phase (.leaf b l) (st.phase bt.state) := by
  funext t
  cases t with
  | record i =>
    rw [Function.update_of_ne (by simp)]
    simp only [phase, hrec]
  | leaf b' l' =>
    by_cases hb' : b' = b
    · subst hb'
      have hbt' : c'.batches[b']? = some bt' := hbat ▸ (getElem?_set_some hb).2 (.inl ⟨rfl, rfl⟩)
      by_cases hl' : l' = l
      · subst hl'
        rw [Function.update_self, phase_leaf hbt' (by omega), hleaf, hstate]
        simp [setLeaf]
      · rw [Function.update_of_ne (by simpa using hl')]
        simp only [phase, hbt', hb, hcount, hstate, hleaf, setLeaf, Function.update_self, Function.update_of_ne hl']
    · rw [Function.update_of_ne (by simp [hb'])]
      simp only [phase, hbat, List.getElem?_set_ne (Ne.symm hb'), hleaf, setLeaf, Function.update_of_ne hb']

end Court

/-! ## Lifecycles -/

/-- What the state of the record `r` can become in one step at the time `now`. -/
inductive RecordMove (D : Deployment) (now : ℕ) (r : Record) : RecordState → Prop
  | stay : RecordMove D now r r.state
  | dispute (h : r.state = .provisional) : RecordMove D now r .disputed
  | uphold (h : r.state = .disputed) : RecordMove D now r .provisional
  | revoke (h : r.state = .disputed) : RecordMove D now r .revoked
  | confirm (h : r.state = .provisional) (hwindow : r.submittedAt + D.challengePeriod ≤ now) :
      RecordMove D now r .confirmed

/-- What the state of the batch `bt` can become in one step at the time `now`. -/
inductive BatchMove (D : Deployment) (now : ℕ) (bt : Batch) : RecordState → Prop
  | stay : BatchMove D now bt bt.state
  | confirm (h : bt.state = .provisional) (hwindow : bt.submittedAt + D.challengePeriod ≤ now) :
      BatchMove D now bt .confirmed

/-- What the state of a leaf can become in one step. -/
inductive LeafMove (s : LeafState) : LeafState → Prop
  | stay : LeafMove s s
  | dispute (h : s ≠ .disputed) (h' : s ≠ .revoked) : LeafMove s .disputed
  | uphold (h : s = .disputed) : LeafMove s .upheld
  | revoke (h : s = .disputed) : LeafMove s .revoked

theorem LeafMove.revoked {s : LeafState} (h : LeafMove .revoked s) : s = .revoked := by
  cases h with
  | stay | revoke => rfl
  | dispute _ h' => exact absurd rfl h'
  | uphold h => cases h

/-! ## Steps -/

/-- The state in which a verdict leaves a record. -/
def recordAfter : Verdict → RecordState
  | .spurious => .provisional
  | .fraud | .expired => .revoked

/-- The state in which a verdict leaves a leaf. -/
def leafAfter : Verdict → LeafState
  | .spurious => .upheld
  | .fraud | .expired => .revoked

/-- The number of leaves a verdict on a leaf revokes. -/
def revocations : Verdict → ℕ
  | .spurious => 0
  | .fraud | .expired => 1

/-- The dispute with the given attesters, closed. -/
def Dispute.close (fraudAttesters validAttesters : List Address) (d : Dispute) : Dispute :=
  { d with fraudAttesters, validAttesters, resolved := true }

inductive CourtStep (D : Deployment) (now : ℕ) (c : Court) : Court → Option (ℕ × Verdict) → Prop
  | idle : CourtStep D now c c none
  | submitRecord {r : Record} (hr : r.state = .provisional) (hlen : c.records.length + 1 < wordSize) :
      CourtStep D now c { c with records := c.records ++ [r] } none
  | submitBatch {bt : Batch} (hb : bt.state = .provisional) (hrevoked : bt.revokedLeafCount = 0)
      (hcount : bt.leafCount < wordSize) (hlen : c.batches.length + 1 < wordSize) :
      CourtStep D now c { c with batches := c.batches ++ [bt] } none
  | finalizeRecord {i : ℕ} {r : Record} (hr : c.records[i]? = some r) (hstate : r.state = .provisional)
      (hwindow : r.submittedAt + D.challengePeriod ≤ now) :
      CourtStep D now c (c.recordSet i { r with state := .confirmed }) none
  | finalizeBatch {b : ℕ} {bt : Batch} (hb : c.batches[b]? = some bt) (hstate : bt.state = .provisional)
      (hwindow : bt.submittedAt + D.challengePeriod ≤ now) (hopen : c.batchOpenLeafDisputes b = 0) :
      CourtStep D now c (c.batchSet b { bt with state := .confirmed }) none
  | openRecord {i : ℕ} {r : Record} {d : Dispute} (hr : c.records[i]? = some r) (hstate : r.state = .provisional)
      (htype : d.targetType = 0) (hleaf : d.leafIndex = 0) (htarget : d.target = .record i) (hd : d.resolved = false)
      (hlen : c.disputes.length + 1 < wordSize) :
      CourtStep D now c ((c.recordSet i { r with state := .disputed }).opened r.relay d) none
  | openLeaf {b l : ℕ} {bt : Batch} {d : Dispute} (hb : c.batches[b]? = some bt) (hstate : bt.state = .provisional)
      (hl : l < bt.leafCount) (hleaf : c.batchLeafState b l ≠ .disputed ∧ c.batchLeafState b l ≠ .revoked)
      (htype : d.targetType = 1) (htarget : d.target = .leaf b l) (hd : d.resolved = false)
      (hlen : c.disputes.length + 1 < wordSize) :
      CourtStep D now c ((c.leafOpened b l).opened bt.relay d) none
  | vote {id : ℕ} {d : Dispute} (hd : c.disputes[id]? = some d) (hun : d.resolved = false)
      (fraudAttesters validAttesters : List Address) :
      CourtStep D now c { c with disputes := c.disputes.set id { d with fraudAttesters, validAttesters } } none
  | closeRecord {id i : ℕ} {d : Dispute} {r : Record} (hd : c.disputes[id]? = some d) (hun : d.resolved = false)
      (htarget : d.target = .record i) (hr : c.records[i]? = some r) (hstate : r.state = .disputed)
      (fraudAttesters validAttesters : List Address) (v : Verdict) :
      CourtStep D now c
        { c with
          records := c.records.set i { r with state := recordAfter v }
          disputes := c.disputes.set id (d.close fraudAttesters validAttesters)
          relayActiveDisputes := Function.update c.relayActiveDisputes r.relay (c.relayActiveDisputes r.relay - 1) }
        (some (id, v))
  | closeLeaf {id b l : ℕ} {d : Dispute} {bt : Batch} (hd : c.disputes[id]? = some d) (hun : d.resolved = false)
      (htarget : d.target = .leaf b l) (hb : c.batches[b]? = some bt) (hstate : bt.state = .provisional)
      (hl : l < bt.leafCount) (hleaf : c.batchLeafState b l = .disputed)
      (fraudAttesters validAttesters : List Address) (v : Verdict) :
      CourtStep D now c
        { c.setLeaf b l (leafAfter v) with
          batches := c.batches.set b { bt with revokedLeafCount := bt.revokedLeafCount + revocations v }
          disputes := c.disputes.set id (d.close fraudAttesters validAttesters)
          relayActiveDisputes := Function.update c.relayActiveDisputes bt.relay (c.relayActiveDisputes bt.relay - 1)
          batchOpenLeafDisputes := Function.update c.batchOpenLeafDisputes b (c.batchOpenLeafDisputes b - 1) }
        (some (id, v))

/-! ## What every court keeps -/

/-- The number of unresolved disputes on targets with `q`. -/
def openOn (q : Target → Bool) (disputes : List Dispute) : ℕ := disputes.countP fun d => !d.resolved && q d.target

/-- What holds of the records, batches, disputes and counters of every run, given the verdicts so far. -/
structure Court.Inv (c : Court) (verdicts : List (ℕ × Verdict)) : Prop where
  docket : (c.docket verdicts).Wf
  /-- A dispute on a record names no leaf. -/
  kinds : ∀ d ∈ c.disputes, d.targetType = 0 ∧ d.leafIndex = 0 ∨ d.targetType = 1
  batch_state : ∀ (b : ℕ) (bt : Batch), c.batches[b]? = some bt → bt.state = .provisional ∨ bt.state = .confirmed
  /-- No leaf of a confirmed batch is under dispute. -/
  quiet : ∀ (b : ℕ) (bt : Batch), c.batches[b]? = some bt → bt.state = .confirmed →
    ∀ l, c.batchLeafState b l ≠ .disputed
  /-- Only leaves that are there ever leave the first state. -/
  range : ∀ b l, c.batchLeafState b l ≠ .undisputed → ∃ bt, c.batches[b]? = some bt ∧ l < bt.leafCount
  revoked_count : ∀ (b : ℕ) (bt : Batch), c.batches[b]? = some bt →
    bt.revokedLeafCount = ((Finset.range bt.leafCount).filter fun l => c.batchLeafState b l = .revoked).card
  active : ∀ a, c.relayActiveDisputes a = openOn (fun t => c.relayOf t = some a) c.disputes
  open_leaves : ∀ b, c.batchOpenLeafDisputes b = openOn (fun t => t.batch = some b) c.disputes
  records_length : c.records.length < wordSize
  batches_length : c.batches.length < wordSize
  disputes_length : c.disputes.length < wordSize
  leaf_count : ∀ (b : ℕ) (bt : Batch), c.batches[b]? = some bt → bt.leafCount < wordSize

end PqIotAuth
