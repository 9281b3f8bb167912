import PqIotAuth.Verdicts
import PqIotAuth.Relay.Vouching

/-!
# Submissions that nobody has challenged

A target is meant to be safe once its challenge window has closed without a dispute. The finalizations ask for the time;
the two functions that open a dispute ask for the state only, and a target stays Provisional until someone finalizes it.
So a run keeps the promise (`WindowSafe`) if and only if everyone who opens a first dispute looks at the clock
(`Timely`, `unchallenged_safe_iff`), and a run in which nobody does so breaks it (`late_dispute`).
-/

namespace PqIotAuth

open Lib

variable {D : Deployment} {env : Env} {s s' : Storage} {call : Call} {c c' : Court} {w w' u : World} {a : Action}
  {t : Target} {now : ℕ} {ov : Option (ℕ × Verdict)}

/-! ## What has been disputed -/

theorem Dispute.target_close (fraudAttesters validAttesters : List Address) (d : Dispute) :
    (d.close fraudAttesters validAttesters).target = d.target := rfl

namespace Court

/-- The targets of the disputes, in the order in which these were opened. -/
def targets (c : Court) : List Target := c.disputes.map Dispute.target

/-- Only what has been disputed is Disputed, Revoked or Upheld. -/
structure Tried (c : Court) : Prop where
  record : ∀ (i : ℕ) (r : Record), c.records[i]? = some r → .record i ∉ c.targets →
    r.state = .provisional ∨ r.state = .confirmed
  leaf : ∀ b l, c.batchLeafState b l = .undisputed ↔ .leaf b l ∉ c.targets

theorem Tried.init : Storage.init.court.Tried where
  record := fun i r h => by simp [Storage.init] at h
  leaf := fun b l => by simp [Storage.init, targets]

theorem mem_targets {id : ℕ} {d : Dispute} (hd : c.disputes[id]? = some d) : d.target ∈ c.targets :=
  List.mem_map.2 ⟨d, List.mem_of_getElem? hd, rfl⟩

/-- Votes and verdicts leave the targets as they are. -/
theorem targets_set {id : ℕ} {d d' : Dispute} (hd : c.disputes[id]? = some d)
    (hds : c'.disputes = c.disputes.set id d') (ht : d'.target = d.target) : c'.targets = c.targets := by
  unfold targets
  rw [hds, map_set_eq hd ht]

theorem mem_targets_set {id : ℕ} {d d' : Dispute} (hd : c.disputes[id]? = some d)
    (hds : c'.disputes = c.disputes.set id d') (ht : d'.target = d.target) (t : Target) :
    t ∈ c'.targets ↔ t ∈ c.targets := by
  rw [targets_set hd hds ht]

theorem target_mem_set {id : ℕ} {d d' : Dispute} (hd : c.disputes[id]? = some d) (htarget : d.target = t)
    (hds : c'.disputes = c.disputes.set id d') (ht : d'.target = d.target) : t ∈ c'.targets := by
  rw [targets_set hd hds ht, ← htarget]
  exact mem_targets hd

theorem targets_append {d : Dispute} (hds : c'.disputes = c.disputes ++ [d]) (ht : d.target = t) :
    c'.targets = c.targets ++ [t] := by
  unfold targets
  rw [hds, List.map_append, List.map_singleton, ht]

theorem mem_targets_append (h : c'.targets = c.targets ++ [t]) {t' : Target} (hne : t' ≠ t) :
    t' ∈ c'.targets ↔ t' ∈ c.targets := by
  rw [h, List.mem_append, List.mem_singleton, or_iff_left hne]

/-- What is written neither to a record nor to a leaf. -/
theorem Tried.congr (h : c.Tried) (hrec : c'.records = c.records) (hleaf : c'.batchLeafState = c.batchLeafState)
    (htargets : c'.targets = c.targets) : c'.Tried := by
  constructor
  · rw [hrec, htargets]
    exact h.record
  · rw [hleaf, htargets]
    exact h.leaf

/-- A record that is written to is confirmed, or it has been disputed. -/
theorem Tried.recordSet (h : c.Tried) {i : ℕ} {r r' : Record} (hr : c.records[i]? = some r)
    (hrec : c'.records = c.records.set i r') (hleaf : c'.batchLeafState = c.batchLeafState)
    (htargets : ∀ t, t ≠ .record i → (t ∈ c'.targets ↔ t ∈ c.targets))
    (hstate : .record i ∈ c'.targets ∨ r'.state = .confirmed) : c'.Tried := by
  constructor
  · intro j x hx hnot
    rw [hrec] at hx
    rcases (getElem?_set_some hr).1 hx with ⟨rfl, rfl⟩ | ⟨hij, hx⟩
    · exact .inr (hstate.resolve_left hnot)
    · rw [htargets _ (by simpa using hij)] at hnot
      exact h.record j x hx hnot
  · intro b l
    rw [hleaf, htargets _ (by simp)]
    exact h.leaf b l

/-- A leaf that is written to has been disputed. -/
theorem Tried.leafSet (h : c.Tried) {b l : ℕ} {st : LeafState} (hrec : c'.records = c.records)
    (hleaf : c'.batchLeafState = (c.setLeaf b l st).batchLeafState)
    (htargets : ∀ t, t ≠ .leaf b l → (t ∈ c'.targets ↔ t ∈ c.targets)) (hmem : .leaf b l ∈ c'.targets)
    (hst : st ≠ .undisputed) : c'.Tried := by
  constructor
  · intro i r hr hnot
    rw [hrec] at hr
    rw [htargets _ (by simp)] at hnot
    exact h.record i r hr hnot
  · intro b' l'
    rw [hleaf, setLeaf_apply]
    split
    · rename_i he
      obtain ⟨rfl, rfl⟩ := he
      exact ⟨fun he => absurd he hst, fun hnot => absurd hmem hnot⟩
    · rename_i he
      rw [htargets _ (by simpa using he)]
      exact h.leaf b' l'

theorem Tried.step (h : c.Tried) (hs : CourtStep D now c c' ov) : c'.Tried := by
  cases hs with
  | idle => exact h
  | @submitRecord r hr hlen =>
    constructor
    · intro i x hx hnot
      rcases getElem?_append_singleton.1 hx with ⟨-, rfl⟩ | ⟨-, hx⟩
      · exact .inl hr
      · exact h.record i x hx hnot
    · exact h.leaf
  | submitBatch | finalizeBatch => exact h.congr rfl rfl rfl
  | finalizeRecord hr => exact h.recordSet hr rfl rfl (fun _ _ => Iff.rfl) (.inr rfl)
  | @openRecord i r d hr _ _ _ htarget =>
    have htargets : ((c.recordSet i { r with state := .disputed }).opened r.relay d).targets =
        c.targets ++ [.record i] := targets_append rfl htarget
    refine h.recordSet hr rfl rfl (fun _ => mem_targets_append htargets) (.inl ?_)
    rw [htargets]
    exact List.mem_append_right _ (List.mem_singleton_self _)
  | @openLeaf b l bt d _ _ _ _ _ htarget =>
    have htargets : ((c.leafOpened b l).opened bt.relay d).targets = c.targets ++ [.leaf b l] :=
      targets_append rfl htarget
    refine h.leafSet rfl rfl (fun _ => mem_targets_append htargets) ?_ (by simp)
    rw [htargets]
    exact List.mem_append_right _ (List.mem_singleton_self _)
  | vote hd => exact h.congr rfl rfl (targets_set hd rfl rfl)
  | closeRecord hd _ htarget hr =>
    exact h.recordSet hr rfl rfl (fun t _ => mem_targets_set hd rfl (Dispute.target_close ..) t)
      (.inl (target_mem_set hd htarget rfl rfl))
  | closeLeaf hd _ htarget _ _ _ _ fa va v =>
    refine h.leafSet rfl rfl (fun t _ => mem_targets_set hd rfl (Dispute.target_close ..) t)
      (target_mem_set hd htarget rfl rfl) ?_
    cases v <;> simp [leafAfter]

end Court

theorem World.Reachable.tried (hw : w.Reachable D) : w.relay.court.Tried := by
  refine World.Reachable.invariant (P := fun w => w.relay.court.Tried) (fun _ _ => .init) ?_ hw
  intro w w' hw h hs
  obtain ⟨ov, hstep, -⟩ := hw.courtStep hs
  exact h.step hstep

/-! ## Openings -/

/-- The target that an action opens a dispute on. -/
def Action.opens : Action → Option Target
  | .call _ _ (.openDispute recordIndex) => some (.record recordIndex)
  | .call _ _ (.openBatchLeafDispute batchIndex leafIndex ..) => some (.leaf batchIndex leafIndex)
  | _ => none

/-- A dispute as it stands when it is opened at the time `now`. -/
structure Dispute.Fresh (D : Deployment) (now : ℕ) (d : Dispute) : Prop where
  unresolved : d.resolved = false
  opened : d.openedAt = uint64 now
  deadline : d.deadline = d.openedAt + D.challengePeriod
  in_range : d.deadline < uint64Size

/-- The disputes of a call: one more when it opens one, on an undecided target, and else on the same targets. -/
theorem Effect.openings (he : Effect D env s call s') :
    ((Action.call env.sender env.value call).opens = none ∧ s'.court.targets = s.court.targets) ∨
      ∃ t d, (Action.call env.sender env.value call).opens = some t ∧ s.court.phase t = .undecided ∧ d.target = t ∧
        d.Fresh D env.timestamp ∧ s'.court.disputes = s.court.disputes ++ [d] := by
  cases he with
  | openDispute _ hr hstate _ hdeadline =>
    refine .inr ⟨_, newDispute D env 0 _ 0, rfl, ?_, rfl, ⟨rfl, rfl, rfl, hdeadline⟩, rfl⟩
    rw [Court.phase_record hr, hstate]
    rfl
  | openBatchLeafDispute _ hb hstate hl hleaf _ hdeadline =>
    refine .inr ⟨_, newDispute D env 1 _ _, rfl, ?_, rfl, ⟨rfl, rfl, rfl, hdeadline⟩, rfl⟩
    rw [Court.phase_leaf hb hl, hstate]
    cases hst : s.court.batchLeafState _ _ with
    | undisputed | upheld => rfl
    | disputed => exact absurd hst hleaf.1
    | revoked => exact absurd hst hleaf.2
  | vote _ hvote => exact .inl ⟨rfl, Court.targets_set hvote.dispute rfl (Dispute.target_voted ..)⟩
  | fraud _ hvote | spurious _ hvote =>
    exact .inl ⟨rfl, Court.targets_set hvote.dispute (s.disputes_voted_closed _ _ _ _ _ _) (Dispute.target_voted ..)⟩
  | expire _ hexp => exact .inl ⟨rfl, Court.targets_set hexp.dispute (Court.disputes_closed _ _ _ _ _) rfl⟩
  | _ => exact .inl ⟨rfl, rfl⟩

/-- The disputes of an action are those of its call. -/
theorem World.step_openings (hs : w.step D a = .ok w') :
    (a.opens = none ∧ w'.relay.court.targets = w.relay.court.targets) ∨
      ∃ t d, a.opens = some t ∧ w.relay.court.phase t = .undecided ∧ d.target = t ∧ d.Fresh D w.now ∧
        w'.relay.court.disputes = w.relay.court.disputes ++ [d] := by
  by_cases hcall : ∀ sender value c, a ≠ .call sender value c
  · obtain ⟨_, _, _, hrelay, -⟩ := World.step_frame hs hcall
    refine .inl ⟨?_, by rw [hrelay]⟩
    cases a with
    | call => exact absurd rfl (hcall _ _ _)
    | _ => rfl
  · push Not at hcall
    obtain ⟨sender, value, c, rfl⟩ := hcall
    obtain ⟨x, he, rfl⟩ := World.call_effect hs
    exact he.openings

/-- The targets of the disputes stay where they are. -/
theorem World.targets_take (hs : w.step D a = .ok w') {id : ℕ} (hid : id ≤ w.relay.court.targets.length) :
    w'.relay.court.targets.take id = w.relay.court.targets.take id := by
  rcases World.step_openings hs with ⟨-, hsame⟩ | ⟨t, d, -, -, htarget, -, hds⟩
  · rw [hsame]
  · rw [Court.targets_append hds htarget, List.take_append_of_le_length hid]

/-- A dispute after a step was there before, but for its attesters and its resolution, or is opened by it. -/
theorem World.Reachable.dispute_was (hw : w.Reachable D) (hs : w.step D a = .ok w') {id : ℕ} {d' : Dispute}
    (hd' : w'.relay.court.disputes[id]? = some d') :
    (∃ d, w.relay.court.disputes[id]? = some d ∧ d'.target = d.target ∧ d'.openedAt = d.openedAt ∧
      d'.deadline = d.deadline ∧ (d.resolved → d'.resolved)) ∨
      id = w.relay.court.targets.length ∧ a.opens = some d'.target ∧ w.relay.court.phase d'.target = .undecided ∧
        d'.Fresh D w.now := by
  rcases hd : w.relay.court.disputes[id]? with _ | d
  · refine .inr ?_
    have hlt := (List.getElem?_eq_some_iff.1 hd').1
    have hge := List.getElem?_eq_none_iff.1 hd
    have hlength : w.relay.court.targets.length = w.relay.court.disputes.length := List.length_map _
    rcases World.step_openings hs with ⟨-, hsame⟩ | ⟨_, x, hopens, hphase, rfl, hfresh, hds⟩
    · have hsame := congrArg List.length hsame
      rw [hlength, Court.targets, List.length_map] at hsame
      omega
    · rw [hds] at hd'
      rcases getElem?_append_singleton.1 hd' with ⟨rfl, rfl⟩ | ⟨-, hd'⟩
      · exact ⟨hlength.symm, hopens, hphase, hfresh⟩
      · rw [hd] at hd'
        cases hd'
  · obtain ⟨fa, va, r, hkept⟩ := hw.dispute_kept (.single ⟨a, hs⟩) hd
    obtain rfl := Option.some.inj (hkept.symm.trans hd')
    refine .inl ⟨d, rfl, rfl, rfl, rfl, fun hres => ?_⟩
    have hfrozen := hw.dispute_frozen (.single ⟨a, hs⟩) hd hres
    rw [Option.some.inj (hkept.symm.trans hfrozen)]
    exact hres

/-! ## The window of a target -/

/-- The time from which on the target can be finalized. -/
def Court.windowEnd (D : Deployment) (c : Court) : Target → Option ℕ
  | .record i => c.records[i]?.map fun r => r.submittedAt + D.challengePeriod
  | .leaf b _ => c.batches[b]?.map fun bt => bt.submittedAt + D.challengePeriod

theorem CourtStep.windowEnd (hs : CourtStep D now c c' ov) {e : ℕ} (h : c.windowEnd D t = some e) :
    c'.windowEnd D t = some e := by
  cases t with
  | record i =>
    obtain ⟨r, hr, rfl⟩ := Option.map_eq_some_iff.1 h
    obtain ⟨st, hr', -⟩ := hs.record hr
    exact Option.map_eq_some_iff.2 ⟨_, hr', rfl⟩
  | leaf b l =>
    obtain ⟨bt, hb, rfl⟩ := Option.map_eq_some_iff.1 h
    obtain ⟨st, n, hb', -⟩ := hs.batch hb
    exact Option.map_eq_some_iff.2 ⟨_, hb', rfl⟩

theorem Court.windowEnd_of_phase (h : c.phase t ≠ .absent) : ∃ e, c.windowEnd D t = some e := by
  cases t with
  | record i =>
    obtain ⟨r, hr⟩ := record_of_phase h
    exact ⟨_, Option.map_eq_some_iff.2 ⟨r, hr, rfl⟩⟩
  | leaf b l =>
    obtain ⟨bt, hb, -⟩ := leaf_of_phase h
    exact ⟨_, Option.map_eq_some_iff.2 ⟨bt, hb, rfl⟩⟩

/-- The window of the target has closed. -/
def World.PastWindow (D : Deployment) (t : Target) (w : World) : Prop :=
  ∃ e ∈ w.relay.court.windowEnd D t, e ≤ w.now

theorem World.PastWindow.later (h : w.PastWindow D t) (hw : w.Reachable D) (hr : Reaches (World.Step D) w w') :
    w'.PastWindow D t := by
  refine World.Reachable.later (P := World.PastWindow D t) hw hr ?_ h
  rintro u u' hu ⟨e, he, hle⟩ hs
  obtain ⟨ov, hstep, -⟩ := hu.courtStep hs
  exact ⟨e, hstep.windowEnd he, hle.trans hs.now_le⟩

/-- The action opens no first dispute on a target past its window. -/
def Timely (D : Deployment) (w : World) (a : Action) : Prop :=
  ∀ t ∈ a.opens, t ∉ w.relay.court.targets → ¬ w.PastWindow D t

instance (D : Deployment) (t : Target) : DecidablePred (World.PastWindow D t) := fun w =>
  inferInstanceAs (Decidable (∃ e ∈ w.relay.court.windowEnd D t, e ≤ w.now))

instance (D : Deployment) (w : World) : DecidablePred (Timely D w) := fun a =>
  inferInstanceAs (Decidable (∀ t ∈ a.opens, t ∉ w.relay.court.targets → ¬ w.PastWindow D t))

/-- A target that is past its window and has not been disputed stays so while the openings are timely. -/
theorem World.attempts_unchallenged (hu : u.Reachable D) (hpast : u.PastWindow D t) (hnot : t ∉ u.relay.court.targets)
    {as : List Action} (htimely : ∀ p ∈ accepted D as u, Timely D p.1 p.2) :
    t ∉ (attempts D as u).relay.court.targets := by
  have h := attempts_invariant (D := D) (w := u)
    (P := fun l w => (∀ p ∈ l, Timely D p.1 p.2) → w.PastWindow D t ∧ t ∉ w.relay.court.targets) hu
    (fun _ => ⟨hpast, hnot⟩) ?_ as
  · exact (h htimely).2
  intro l w a w' hw ih hs hall
  obtain ⟨hpast, hnot⟩ := ih fun p hp => hall p (List.mem_append_left _ hp)
  refine ⟨hpast.later hw (.single ⟨a, hs⟩), ?_⟩
  rcases World.step_openings hs with ⟨-, hsame⟩ | ⟨t', d, hopens, -, htarget, -, hds⟩
  · rwa [hsame]
  · rw [Court.targets_append hds htarget, List.mem_append, List.mem_singleton]
    rintro (hmem | rfl)
    · exact hnot hmem
    · exact hall (w, a) (List.mem_append_right _ (List.mem_singleton_self _)) t hopens hnot hpast

/-- Every first dispute on a target was opened inside the window. -/
def Court.FirstInWindow (D : Deployment) (c : Court) : Prop := ∀ (id : ℕ) (d : Dispute), c.disputes[id]? = some d →
  d.target ∉ c.targets.take id → ∀ e, c.windowEnd D d.target = some e → d.openedAt < e

theorem World.first_in_window (hw : w.Reachable D) (h : w.relay.court.FirstInWindow D) (htimely : Timely D w a)
    (hs : w.step D a = .ok w') : w'.relay.court.FirstInWindow D := by
  obtain ⟨ov, hstep, -⟩ := hw.courtStep ⟨a, hs⟩
  intro id d' hd' hfirst e he
  rcases hw.dispute_was hs hd' with ⟨d, hd, htarget, hopened, -, -⟩ | ⟨rfl, hopens, hphase, hfresh⟩
  · have hid : id ≤ w.relay.court.targets.length := by
      unfold Court.targets
      rw [List.length_map]
      exact (List.getElem?_eq_some_iff.1 hd).1.le
    obtain ⟨e', he'⟩ := Court.windowEnd_of_phase (D := D) (hw.court.filed (List.mem_of_getElem? hd))
    rw [World.targets_take hs hid, htarget] at hfirst
    rw [htarget] at he
    obtain rfl := Option.some.inj ((hstep.windowEnd he').symm.trans he)
    rw [hopened]
    exact h id d hd hfirst e' he'
  · rw [World.targets_take hs le_rfl, List.take_length] at hfirst
    obtain ⟨e', he'⟩ := Court.windowEnd_of_phase (D := D) (c := w.relay.court) (t := d'.target) (by simp [hphase])
    obtain rfl := Option.some.inj ((hstep.windowEnd he').symm.trans he)
    have hopen : w.now < e' := by
      by_contra hle
      exact htimely _ hopens hfirst ⟨e', he', Nat.le_of_not_lt hle⟩
    rw [hfresh.opened]
    exact (Nat.mod_le ..).trans_lt hopen

theorem World.Reachable.record_kept (hw : w.Reachable D) (h : Reaches (World.Step D) w w') {i : ℕ} {r : Record}
    (hr : w.relay.court.records[i]? = some r) : ∃ st, w'.relay.court.records[i]? = some { r with state := st } := by
  refine World.Reachable.later (P := fun u => ∃ st, u.relay.court.records[i]? = some { r with state := st }) hw h ?_
    ⟨_, hr⟩
  rintro u u' hu ⟨st, hst⟩ hs
  obtain ⟨ov, hstep, -⟩ := hu.courtStep hs
  obtain ⟨st', hst', -⟩ := hstep.record hst
  exact ⟨st', hst'⟩

/-! ## The promise -/

/-- What is promised of the world `u` of a run and a later one `w`. -/
structure WindowSafe (D : Deployment) (u w : World) : Prop where
  /-- A record that nobody has disputed when its window closes can only become Confirmed. -/
  record : ∀ (i : ℕ) (r : Record), u.relay.court.records[i]? = some r → r.state = .provisional →
    .record i ∉ u.relay.court.targets → r.submittedAt + D.challengePeriod ≤ u.now →
    ∃ st, w.relay.court.records[i]? = some { r with state := st } ∧ (st = .provisional ∨ st = .confirmed)
  leaf : ∀ (b l : ℕ) (bt : Batch), u.relay.court.batches[b]? = some bt →
    u.relay.court.batchLeafState b l = .undisputed → bt.submittedAt + D.challengePeriod ≤ u.now →
    w.relay.court.batchLeafState b l = .undisputed
  first : w.relay.court.FirstInWindow D

/-- The promise is kept between any two worlds of the run of the attempts `as`. -/
def SafeRun (D : Deployment) (now : ℕ) (as : List Action) : Prop := ∀ bs cs ds, as = bs ++ cs ++ ds →
  WindowSafe D (World.attempts D bs (World.init now)) (World.attempts D (bs ++ cs) (World.init now))

theorem safe_of_timely (hnow : 0 < now) {as : List Action}
    (htimely : ∀ p ∈ World.accepted D as (World.init now), Timely D p.1 p.2) : SafeRun D now as := by
  rintro bs cs ds rfl
  rw [World.accepted_append, World.accepted_append] at htimely
  have hu := World.attempts_reachable (D := D) hnow bs
  have hw := World.attempts_reachable (D := D) hnow (bs ++ cs)
  have hstay : ∀ t, t ∉ (World.attempts D bs (World.init now)).relay.court.targets →
      World.PastWindow D t (World.attempts D bs (World.init now)) →
      t ∉ (World.attempts D (bs ++ cs) (World.init now)).relay.court.targets := by
    intro t hnot hpast
    rw [World.attempts_append]
    exact World.attempts_unchallenged hu hpast hnot fun p hp =>
      htimely p (List.mem_append_left _ (List.mem_append_right _ hp))
  constructor
  · intro i r hr _ hnot hpast
    have hreach := World.attempts_reaches (D := D) cs (World.attempts D bs (World.init now))
    rw [← World.attempts_append] at hreach
    obtain ⟨st, hst⟩ := hu.record_kept hreach hr
    have hstill := hstay (.record i) hnot ⟨_, Option.map_eq_some_iff.2 ⟨r, hr, rfl⟩, hpast⟩
    exact ⟨st, hst, hw.tried.record i _ hst hstill⟩
  · intro b l bt hb hl hpast
    have hnot := (hu.tried.leaf b l).1 hl
    exact (hw.tried.leaf b l).2 (hstay (.leaf b l) hnot ⟨_, Option.map_eq_some_iff.2 ⟨bt, hb, rfl⟩, hpast⟩)
  · have hfirst := World.attempts_invariant (D := D) (w := World.init now)
      (P := fun l w => (∀ p ∈ l, Timely D p.1 p.2) → w.relay.court.FirstInWindow D) (.start ⟨now, hnow, rfl⟩)
      (fun _ id d hd => by simp [World.init, Storage.init] at hd) ?_ (bs ++ cs)
    · rw [World.accepted_append] at hfirst
      exact hfirst fun p hp => htimely p (List.mem_append_left _ hp)
    · intro l w a w' hw ih hs hall
      exact World.first_in_window hw (ih fun p hp => hall p (List.mem_append_left _ hp))
        (hall (w, a) (List.mem_append_right _ (List.mem_singleton_self _))) hs

/-- A dispute that is opened late breaks the promise. -/
theorem timely_of_safe (hnow : 0 < now) {as : List Action} (hsafe : SafeRun D now as) :
    ∀ p ∈ World.accepted D as (World.init now), Timely D p.1 p.2 := by
  rintro ⟨v, a⟩ hp t hopens hnot ⟨e, he, hle⟩
  obtain ⟨bs, cs, w', rfl, rfl, hs⟩ := World.mem_accepted hp
  have hu := World.attempts_reachable (D := D) hnow bs
  have hnext : World.attempts D (bs ++ [a]) (World.init now) = w' := World.attempts_concat hs
  obtain ⟨hrecord, hleaf, -⟩ := hsafe bs [a] cs (by simp)
  rw [hnext] at hrecord hleaf
  rcases World.step_openings hs with ⟨hnone, -⟩ | ⟨t', d, hopens', hphase, rfl, hfresh, hds⟩
  · rw [hopens] at hnone
    cases hnone
  obtain rfl := Option.some.inj (hopens'.symm.trans hopens)
  have hid : w'.relay.court.disputes[(World.attempts D bs (World.init now)).relay.court.disputes.length]? = some d := by
    rw [hds]
    exact getElem?_append_singleton.2 (.inl ⟨rfl, rfl⟩)
  have hdisputed := (hu.next ⟨a, hs⟩).court.disputed hid hfresh.unresolved
  generalize d.target = t at hnot he hphase hdisputed
  cases t with
  | record i =>
    obtain ⟨r, hr, rfl⟩ := Option.map_eq_some_iff.1 he
    have hstate : r.state = .provisional := by
      rw [Court.phase_record hr] at hphase
      cases hst : r.state <;> simp [hst, RecordState.phase] at hphase
      rfl
    obtain ⟨st, hst, hquiet⟩ := hrecord i r hr hstate hnot hle
    rw [Court.phase_record hst] at hdisputed
    rcases hquiet with rfl | rfl <;> cases hdisputed
  | leaf b l =>
    obtain ⟨bt, hb, rfl⟩ := Option.map_eq_some_iff.1 he
    have hstill := hleaf b l bt hb ((hu.tried.leaf b l).2 hnot) hle
    obtain ⟨bt', hb', hl'⟩ := Court.leaf_of_phase (by rw [hdisputed]; simp)
    rw [Court.phase_leaf hb' hl', hstill] at hdisputed
    cases hst : bt'.state <;> simp [hst, LeafState.phase] at hdisputed

/-- **The promise is kept in the runs in which first disputes are opened in time, and in no others.** -/
theorem unchallenged_safe_iff (hnow : 0 < now) (as : List Action) :
    SafeRun D now as ↔ ∀ p ∈ World.accepted D as (World.init now), Timely D p.1 p.2 :=
  ⟨timely_of_safe hnow, safe_of_timely hnow⟩

namespace Toy

/-- The windows of all that has been filed have closed. -/
def lapse : List Action := filings ++ [.tick 1200]

/-- Someone disputes the first record, and nobody votes. -/
def contest : List Action := [.call 9 10 (.openDispute 0)]

def expiry : List Action := [.tick 1301, .call 9 0 (.expireDispute 0)]

def late : World := World.attempts (Deployment.toy 2) lapse (World.init 1000)

def contested : World := World.attempts (Deployment.toy 2) (lapse ++ contest) (World.init 1000)

def lost : World := World.attempts (Deployment.toy 2) (lapse ++ contest ++ expiry) (World.init 1000)

end Toy

/-- In a run with disputes that are opened in time. -/
theorem unchallenged_safe_toy : SafeRun (Deployment.toy 2) 1000 (Toy.filings ++ Toy.disputes) := by
  have htimely : ∀ p ∈ World.accepted (Deployment.toy 2) (Toy.filings ++ Toy.disputes) (World.init 1000),
      Timely (Deployment.toy 2) p.1 p.2 := by decide +kernel
  exact (unchallenged_safe_iff (by decide) _).2 htimely

theorem late_dispute :
    (∃ r ∈ Toy.late.relay.court.records[0]?, r.state = .provisional ∧ .record 0 ∉ Toy.late.relay.court.targets ∧
      r.submittedAt + (Deployment.toy 2).challengePeriod ≤ Toy.late.now) ∧
    Toy.contested.relay.court.records[0]?.map (·.state) = some .disputed ∧
    Toy.lost.relay.court.records[0]?.map (·.state) = some .revoked ∧
    ¬ SafeRun (Deployment.toy 2) 1000 (Toy.lapse ++ Toy.contest ++ Toy.expiry) := by
  obtain ⟨⟨r, hr, hstate, hnot, hpast⟩, hdisputed, hlost⟩ :
      (∃ r ∈ Toy.late.relay.court.records[0]?, r.state = .provisional ∧ .record 0 ∉ Toy.late.relay.court.targets ∧
        r.submittedAt + (Deployment.toy 2).challengePeriod ≤ Toy.late.now) ∧
      Toy.contested.relay.court.records[0]?.map (·.state) = some .disputed ∧
      Toy.lost.relay.court.records[0]?.map (·.state) = some .revoked := by decide +kernel
  refine ⟨⟨r, hr, hstate, hnot, hpast⟩, hdisputed, hlost, fun hsafe => ?_⟩
  have hpair : WindowSafe (Deployment.toy 2) Toy.late Toy.contested := hsafe _ Toy.contest Toy.expiry rfl
  obtain ⟨st, hst, hquiet⟩ := hpair.record 0 r (Option.mem_def.1 hr) hstate hnot hpast
  rw [hst, Option.map_some] at hdisputed
  rcases hquiet with rfl | rfl <;> cases hdisputed

end PqIotAuth
