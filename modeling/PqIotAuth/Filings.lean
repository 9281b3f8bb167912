import PqIotAuth.Votes

/-!
# Filings and their times

Records and batches come from the two submissions only, with the caller as their relay and the time of the call, and
nothing rewrites these (`Effect.record_was`, `Effect.batch_was`); disputes get their deadline when they are opened.
`FilingTimes` is what follows for a run: every time that is stored has passed, so as long as the challenge period does
not take the clock beyond 64 bits no deadline is cut (`World.Reachable.filingTimes`).
-/

namespace PqIotAuth

open Lib

variable {D : Deployment} {env : Env} {s s' : Storage} {call : Call}

/-! ## Where records and batches come from -/

theorem Court.lengths_of_relays {c c' : Court} (h : c.relays = c'.relays) :
    c.records.length = c'.records.length ∧ c.batches.length = c'.batches.length := by
  have h1 := congrArg (·.1.length) h
  have h2 := congrArg (·.2.length) h
  exact ⟨by simpa [Court.relays] using h1, by simpa [Court.relays] using h2⟩

/-- Only `submitAccountable` adds a record, and one at a time. -/
theorem Effect.new_record (he : Effect D env s call s') {i : ℕ} {r : Record} (hnone : s.court.records[i]? = none)
    (hr : s'.court.records[i]? = some r) :
    ∃ dataHash didHash falconSignature nonce, call = .submitAccountable dataHash didHash falconSignature ∧
      r = newRecord D env dataHash didHash falconSignature nonce := by
  have hlt : s.court.records.length < s'.court.records.length :=
    (List.getElem?_eq_none_iff.1 hnone).trans_lt (List.getElem?_eq_some_iff.1 hr).1
  cases he with
  | submitAccountable _ dataHash didHash sig _ _ _ nonce _ r' hr' =>
    rcases getElem?_append_singleton.1 hr with ⟨-, rfl⟩ | ⟨-, hr⟩
    · exact ⟨dataHash, didHash, sig, nonce, rfl, hr'⟩
    · rw [hnone] at hr
      cases hr
  | fraud | spurious | expire => exact absurd (Court.lengths_of_relays (Court.relays_closed ..)).1 hlt.ne'
  | finalizeRecord | openDispute => exact absurd List.length_set hlt.ne'
  | _ => exact absurd hlt (lt_irrefl _)

/-- Only `submitBatch` adds a batch, and one at a time. -/
theorem Effect.new_batch (he : Effect D env s call s') {b : ℕ} {bt : Batch} (hnone : s.court.batches[b]? = none)
    (hb : s'.court.batches[b]? = some bt) :
    ∃ didHashes dataHashes data root, call = .submitBatch didHashes dataHashes data ∧ env.value = 0 ∧
      s.court.batches.length = b ∧ bt = newBatch D env root didHashes.length data := by
  have hlt : s.court.batches.length < s'.court.batches.length :=
    (List.getElem?_eq_none_iff.1 hnone).trans_lt (List.getElem?_eq_some_iff.1 hb).1
  cases he with
  | @submitBatch hfree didHashes dataHashes data _ _ _ _ _ _ _ root _ _ bt' hbt' =>
    rcases getElem?_append_singleton.1 hb with ⟨rfl, rfl⟩ | ⟨-, hb⟩
    · exact ⟨didHashes, dataHashes, data, root, rfl, hfree, rfl, hbt'⟩
    · rw [hnone] at hb
      cases hb
  | fraud | spurious | expire => exact absurd (Court.lengths_of_relays (Court.relays_closed ..)).2 hlt.ne'
  | finalizeBatch => exact absurd List.length_set hlt.ne'
  | _ => exact absurd hlt (lt_irrefl _)

/-- A record after a call was there before, but for its state, or is submitted by it. -/
theorem Effect.record_was (he : Effect D env s call s') (hcourt : s.court.Inv s.verdicts) {i : ℕ} {r' : Record}
    (hr' : s'.court.records[i]? = some r') :
    (∃ r st, s.court.records[i]? = some r ∧ r' = { r with state := st }) ∨
      ∃ dataHash didHash falconSignature nonce, call = .submitAccountable dataHash didHash falconSignature ∧
        r' = newRecord D env dataHash didHash falconSignature nonce := by
  obtain ⟨ov, hstep, -⟩ := he.courtStep hcourt
  rcases hr : s.court.records[i]? with _ | r
  · exact .inr (he.new_record hr hr')
  · obtain ⟨st, hkept, -⟩ := hstep.record hr
    exact .inl ⟨r, st, rfl, Option.some.inj (hr'.symm.trans hkept)⟩

/-- A batch after a call was there before, but for its state and its count, or is submitted by it. -/
theorem Effect.batch_was (he : Effect D env s call s') (hcourt : s.court.Inv s.verdicts) {b : ℕ} {bt' : Batch}
    (hb' : s'.court.batches[b]? = some bt') :
    (∃ bt st n, s.court.batches[b]? = some bt ∧ bt' = { bt with state := st, revokedLeafCount := n }) ∨
      ∃ didHashes dataHashes data root, call = .submitBatch didHashes dataHashes data ∧
        bt' = newBatch D env root didHashes.length data := by
  obtain ⟨ov, hstep, -⟩ := he.courtStep hcourt
  rcases hb : s.court.batches[b]? with _ | bt
  · obtain ⟨didHashes, dataHashes, data, root, hcall, -, -, hbt⟩ := he.new_batch hb hb'
    exact .inr ⟨didHashes, dataHashes, data, root, hcall, hbt⟩
  · obtain ⟨st, n, hkept, -⟩ := hstep.batch hb
    exact .inl ⟨bt, st, n, rfl, Option.some.inj (hb'.symm.trans hkept)⟩

/-! ## Times -/

/-- The times that are stored at the time `now`. -/
structure FilingTimes (D : Deployment) (now : ℕ) (c : Court) : Prop where
  record : ∀ (i : ℕ) (r : Record), c.records[i]? = some r → ∃ t ≤ now, r.submittedAt = uint64 t
  batch : ∀ (b : ℕ) (bt : Batch), c.batches[b]? = some bt → ∃ t ≤ now, bt.submittedAt = uint64 t
  dispute : ∀ d ∈ c.disputes, ∃ t, 0 < t ∧ t ≤ now ∧ d.deadline = uint64 t + D.challengePeriod

theorem FilingTimes.init (now : ℕ) : FilingTimes D now Storage.init.court where
  record := fun i r h => by simp [Storage.init] at h
  batch := fun b bt h => by simp [Storage.init] at h
  dispute := fun d h => by cases h

theorem FilingTimes.later {c : Court} {now now' : ℕ} (h : FilingTimes D now c) (hnow : now ≤ now') :
    FilingTimes D now' c where
  record := fun i r hr => by
    obtain ⟨t, ht, e⟩ := h.record i r hr
    exact ⟨t, ht.trans hnow, e⟩
  batch := fun b bt hb => by
    obtain ⟨t, ht, e⟩ := h.batch b bt hb
    exact ⟨t, ht.trans hnow, e⟩
  dispute := fun d hd => by
    obtain ⟨t, h0, ht, e⟩ := h.dispute d hd
    exact ⟨t, h0, ht.trans hnow, e⟩

theorem FilingTimes.step (h : FilingTimes D env.timestamp s.court) (hcourt : s.court.Inv s.verdicts)
    (hpos : 0 < env.timestamp) (he : Effect D env s call s') : FilingTimes D env.timestamp s'.court := by
  constructor
  · intro i r' hr'
    rcases he.record_was hcourt hr' with ⟨r, st, hr, rfl⟩ | ⟨_, _, _, _, -, rfl⟩
    · exact h.record i r hr
    · exact ⟨env.timestamp, le_rfl, rfl⟩
  · intro b bt' hb'
    rcases he.batch_was hcourt hb' with ⟨bt, st, n, hb, rfl⟩ | ⟨_, _, _, _, -, rfl⟩
    · exact h.batch b bt hb
    · exact ⟨env.timestamp, le_rfl, rfl⟩
  · intro d hd
    obtain ⟨id, hid⟩ := List.mem_iff_getElem?.1 hd
    rcases he.votes.dispute hid with ⟨tt, ti, li, rfl⟩ | ⟨x, hx, -, hdeadline, -⟩
    · exact ⟨env.timestamp, hpos, le_rfl, rfl⟩
    · rw [hdeadline]
      exact h.dispute x (List.mem_of_getElem? hx)

namespace World

variable {w w' : World}

theorem Reachable.now_pos (hw : Reachable D w) : 0 < w.now := by
  refine Reachable.invariant (P := fun w => 0 < w.now) (fun now h => h) ?_ hw
  intro w w' _ h hs
  exact h.trans_le hs.now_le

/-- A record after a step was there before, but for its state, or is submitted by it. -/
theorem Reachable.record_was (hw : Reachable D w) (hs : Step D w w') {r' : Record}
    (hr' : r' ∈ w'.relay.court.records) :
    (∃ r ∈ w.relay.court.records, ∃ st, r' = { r with state := st }) ∨
      ∃ sender value dataHash didHash falconSignature nonce,
        Effect D (w.env sender value) w.relay (.submitAccountable dataHash didHash falconSignature) w'.relay ∧
        w.step D (.call sender value (.submitAccountable dataHash didHash falconSignature)) = .ok w' ∧
        r' = newRecord D (w.env sender value) dataHash didHash falconSignature nonce := by
  cases hs.change with
  | outside _ hrelay => exact .inl ⟨r', hrelay ▸ hr', r'.state, rfl⟩
  | withdraw _ _ _ hw' | withdrawReturn _ hw' =>
    rw [hw'] at hr'
    exact .inl ⟨r', hr', r'.state, rfl⟩
  | call he _ _ _ _ hstep =>
    obtain ⟨i, hi⟩ := List.mem_iff_getElem?.1 hr'
    rcases he.record_was hw.court hi with ⟨r, st, hr, hkept⟩ | ⟨dataHash, didHash, sig, nonce, rfl, hnew⟩
    · exact .inl ⟨r, List.mem_of_getElem? hr, st, hkept⟩
    · exact .inr ⟨_, _, dataHash, didHash, sig, nonce, he, hstep, hnew⟩

/-- **The times of every run.** -/
theorem Reachable.filingTimes (hw : Reachable D w) : FilingTimes D w.now w.relay.court := by
  refine Reachable.invariant (P := fun w => FilingTimes D w.now w.relay.court) (fun _ _ => .init _) ?_ hw
  intro w w' hw h hs
  cases hs.change with
  | outside hnow hrelay =>
    rw [hrelay]
    exact h.later hnow
  | call he hnow =>
    rw [hnow]
    exact FilingTimes.step h hw.court hw.now_pos he
  | withdraw _ _ _ hw' | withdrawReturn _ hw' =>
    rw [hw']
    exact h

end World

end PqIotAuth
