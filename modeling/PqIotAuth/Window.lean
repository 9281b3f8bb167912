import PqIotAuth.DisputeTimes
import PqIotAuth.Filings

/-!
# The challenge window

A record can be disputed while it is Provisional, a leaf of a batch while it is Undisputed or Upheld, and neither while
a dispute on it is open. Finalization asks that a challenge period has passed since the submission, and does not
subtract the time under dispute. So a target on which there was no dispute has had its window when it is confirmed, and
another one has had it if and only if the finalization came later by as long as the disputes were open in which it was
upheld (`challenge_window`). A dispute that is opened at once and held until its deadline takes the whole window away
(`window_bypassed`).
-/

namespace PqIotAuth

open Lib

variable {D : Deployment} {env : Env} {s s' : Storage} {call : Call} {w w' : World} {h : List World} {a : Action}
  {t : Target} {now : ℕ} {as : List Action} {l : List (World × Action)}

/-! ## States along a run -/

namespace World

/-- The record `i` has been submitted and is in the state `st`. -/
def RecordIn (i : ℕ) (st : RecordState) (w : World) : Prop := w.relay.court.records[i]?.map (·.state) = some st

def BatchIn (b : ℕ) (st : RecordState) (w : World) : Prop := w.relay.court.batches[b]?.map (·.state) = some st

/-- The batch `b` has been submitted, and its leaf `l` is in the state `st`. -/
def LeafIn (b l : ℕ) (st : LeafState) (w : World) : Prop :=
  (∃ bt ∈ w.relay.court.batches[b]?, l < bt.leafCount) ∧ w.relay.court.batchLeafState b l = st

/-- The target has been submitted. -/
def Filed (t : Target) (w : World) : Prop := w.relay.court.phase t ≠ .absent

instance (i : ℕ) (st : RecordState) : DecidablePred (RecordIn i st) := fun w =>
  inferInstanceAs (Decidable (w.relay.court.records[i]?.map (·.state) = some st))

instance (b : ℕ) (st : RecordState) : DecidablePred (BatchIn b st) := fun w =>
  inferInstanceAs (Decidable (w.relay.court.batches[b]?.map (·.state) = some st))

instance (b l : ℕ) (st : LeafState) : DecidablePred (LeafIn b l st) := fun w =>
  inferInstanceAs (Decidable ((∃ bt ∈ w.relay.court.batches[b]?, l < bt.leafCount) ∧ _ = st))

instance (t : Target) : DecidablePred (Filed t) := fun w =>
  inferInstanceAs (Decidable (w.relay.court.phase t ≠ .absent))

theorem recordIn_provisional (i : ℕ) (w : World) :
    w.RecordIn i .provisional ↔ w.relay.court.phase (.record i) = .undecided := by
  unfold RecordIn
  rcases hr : w.relay.court.records[i]? with _ | r
  · simp [Court.phase, hr]
  · rw [Court.phase_record hr]
    cases hst : r.state <;> simp [hst, RecordState.phase]

theorem recordIn_confirmed (i : ℕ) (w : World) :
    w.RecordIn i .confirmed ↔ w.relay.court.phase (.record i) = .confirmed := by
  unfold RecordIn
  rcases hr : w.relay.court.records[i]? with _ | r
  · simp [Court.phase, hr]
  · rw [Court.phase_record hr]
    cases hst : r.state <;> simp [hst, RecordState.phase]

/-- While its batch is not confirmed, a leaf is undecided as long as it is Undisputed or Upheld. -/
theorem leafIn_open {b l : ℕ} (hb : ¬ w.BatchIn b .confirmed) :
    w.LeafIn b l .undisputed ∨ w.LeafIn b l .upheld ↔ w.relay.court.phase (.leaf b l) = .undecided := by
  unfold LeafIn
  unfold BatchIn at hb
  rcases hbt : w.relay.court.batches[b]? with _ | bt
  · simp [Court.phase, hbt]
  · rw [hbt] at hb
    by_cases hl : l < bt.leafCount
    · rw [Court.phase_leaf hbt hl]
      have hst : bt.state ≠ .confirmed := by simpa using hb
      cases w.relay.court.batchLeafState b l <;> simp [hl, hst, LeafState.phase]
    · simp [Court.phase, hbt, hl]

/-- The leaves of a batch are confirmed with it. -/
theorem batchIn_of_phase {b l : ℕ} (hp : w.relay.court.phase (.leaf b l) = .confirmed) : w.BatchIn b .confirmed := by
  obtain ⟨bt, hb, hl⟩ := Court.leaf_of_phase (c := w.relay.court) (b := b) (l := l) (by rw [hp]; simp)
  rw [Court.phase_leaf hb hl] at hp
  have hstate : bt.state = .confirmed := by
    by_contra hst
    cases hls : w.relay.court.batchLeafState b l <;> simp [hls, hst, LeafState.phase] at hp
  unfold BatchIn
  rw [hb, Option.map_some, hstate]

theorem Reachable.batchIn_confirmed (hw : w.Reachable D) (h : Reaches (Step D) w w') {b : ℕ}
    (hb : w.BatchIn b .confirmed) : w'.BatchIn b .confirmed := by
  unfold BatchIn at hb
  obtain ⟨bt, hbt, hst⟩ := Option.map_eq_some_iff.1 hb
  unfold BatchIn
  rw [(hw.batch_final h hbt hst).1, Option.map_some, hst]

/-! ## Confirmations -/

/-- The target is open to a dispute. -/
def Challengeable (t : Target) (w : World) : Prop :=
  match t with
  | .record i => w.RecordIn i .provisional
  | .leaf b l => w.LeafIn b l .undisputed ∨ w.LeafIn b l .upheld

instance (t : Target) : DecidablePred (Challengeable t) := fun w =>
  match t with
  | .record i => inferInstanceAs (Decidable (w.RecordIn i .provisional))
  | .leaf b l => inferInstanceAs (Decidable (w.LeafIn b l .undisputed ∨ w.LeafIn b l .upheld))

/-- The step from `w` to `w'` confirms the record, or the batch with the leaf, which is not Revoked. -/
def Confirms (t : Target) (w w' : World) : Prop :=
  match t with
  | .record i => w'.RecordIn i .confirmed ∧ ¬ w.RecordIn i .confirmed
  | .leaf b l => w'.BatchIn b .confirmed ∧ ¬ w.BatchIn b .confirmed ∧ ∃ st, st ≠ .revoked ∧ w'.LeafIn b l st

theorem challengeable_iff (hb : ∀ b ∈ t.batch, ¬ w.BatchIn b .confirmed) :
    w.Challengeable t ↔ w.relay.court.phase t = .undecided := by
  cases t with
  | record i => exact recordIn_provisional i w
  | leaf b l => exact leafIn_open (hb b rfl)

/-- What is confirmed has the phase of what is final. -/
theorem Reachable.confirms_iff (hw : w.Reachable D) (hs : w.Step D w') :
    Confirms t w w' ↔ w'.relay.court.phase t = .confirmed ∧ w.relay.court.phase t ≠ .confirmed := by
  cases t with
  | record i => exact and_congr (recordIn_confirmed i w') (not_congr (recordIn_confirmed i w))
  | leaf b l =>
    constructor
    · rintro ⟨hb, hnew, st, hst, ⟨bt, hbt, hl⟩, rfl⟩
      refine ⟨?_, fun hp => hnew (batchIn_of_phase hp)⟩
      -- the leaf has the phase of its batch
      have hstate : bt.state = .confirmed := by
        unfold BatchIn at hb
        rw [Option.mem_def.1 hbt] at hb
        simpa using hb
      have hquiet := (hw.next hs).court.quiet b bt hbt hstate l
      rw [Court.phase_leaf hbt hl, hstate]
      cases hleaf : w'.relay.court.batchLeafState b l with
      | undisputed | upheld => rfl
      | disputed => exact absurd hleaf hquiet
      | revoked => exact absurd hleaf hst
    · rintro ⟨hp, hnew⟩
      obtain ⟨bt, hbt, hl⟩ := Court.leaf_of_phase (c := w'.relay.court) (b := b) (l := l) (by rw [hp]; simp)
      refine ⟨batchIn_of_phase hp, fun hb => hnew ?_, _, fun hrevoked => ?_, ⟨bt, hbt, hl⟩, rfl⟩
      · -- a batch that was confirmed before has the same leaves
        unfold BatchIn at hb
        obtain ⟨bt₀, hbt₀, hst⟩ := Option.map_eq_some_iff.1 hb
        obtain ⟨hkept, hleaves⟩ := hw.batch_final (.single hs) hbt₀ hst
        obtain rfl := Option.some.inj (hkept.symm.trans hbt)
        rw [Court.phase_leaf hbt hl, hleaves, ← Court.phase_leaf hbt₀ hl] at hp
        exact hp
      · rw [Court.phase_leaf hbt hl, hrevoked] at hp
        cases hp

end World

/-- The targets that the call finalizes. -/
def Call.finalizes (t : Target) : Call → Prop
  | .finalizeRecord recordIndex => t = .record recordIndex
  | .finalizeBatch batchIndex => t.batch = some batchIndex
  | _ => False

def Action.finalizes (t : Target) : Action → Prop
  | .call _ _ c => c.finalizes t
  | _ => False

/-- A call confirms the undecided targets that it finalizes, and no others. -/
theorem Effect.confirms_iff (he : Effect D env s call s') (hcourt : s.court.Inv s.verdicts) :
    s'.court.phase t = .confirmed ∧ s.court.phase t ≠ .confirmed ↔
      call.finalizes t ∧ s.court.phase t = .undecided := by
  have hother : ¬ call.finalizes t → (s'.court.phase t = .confirmed → s.court.phase t = .confirmed) →
      (s'.court.phase t = .confirmed ∧ s.court.phase t ≠ .confirmed ↔
        call.finalizes t ∧ s.court.phase t = .undecided) := by tauto
  have hwritten : ∀ {t₀ : Target} {p : Phase}, p ≠ .confirmed →
      Function.update s.court.phase t₀ p t = .confirmed → s.court.phase t = .confirmed := by
    intro t₀ p hp hconfirmed
    rw [Function.update_apply] at hconfirmed
    split at hconfirmed
    · exact absurd hconfirmed hp
    · exact hconfirmed
  have hverdict : ∀ v : Verdict, v.phase ≠ .confirmed := fun v => by cases v <;> simp [Verdict.phase]
  cases he with
  | @finalizeRecord _ i r hr hstate =>
    have hbefore := Court.phase_record hr
    rw [hstate] at hbefore
    have hafter := Court.phase_recordState hr .confirmed
    change (s.court.recordSet i { r with state := .confirmed }).phase t = _ ∧ _ ↔ t = _ ∧ _
    rw [hafter, Function.update_apply]
    by_cases ht : t = .record i
    · subst ht
      simp [hbefore, RecordState.phase]
    · simp [ht]
  | @finalizeBatch _ b bt hb hstate _ hopen =>
    change (s.court.batchSet b { bt with state := .confirmed }).phase t = _ ∧ _ ↔ t.batch = some b ∧ _
    rw [hcourt.phase_confirmBatch hb hstate hopen]
    split
    · rename_i hundecided
      simp [hundecided]
    · rename_i hnot
      exact ⟨fun hp => absurd hp.1 hp.2, fun hp => absurd hp hnot⟩
  | submitAccountable _ _ _ _ _ _ _ _ _ r hr =>
    refine hother id fun hconfirmed => ?_
    rcases Court.phase_submitRecord (c := s.court) (r := r) (by rw [hr]; rfl) t with hsame | ⟨-, hnew⟩
    · exact hsame.symm.trans hconfirmed
    · cases hnew.symm.trans hconfirmed
  | submitBatch _ _ _ _ _ _ _ _ _ _ _ _ bt hbt =>
    refine hother id fun hconfirmed => ?_
    have hfiled : bt.state = .provisional := by
      rw [hbt]
      rfl
    rcases hcourt.phase_submitBatch hfiled t with hsame | ⟨-, hnew⟩
    · exact hsame.symm.trans hconfirmed
    · cases hnew.symm.trans hconfirmed
  | @openDispute _ i r hr =>
    have hphase := (Court.phase_opened r.relay (newDispute D env 0 i 0)).trans (Court.phase_recordState hr .disputed)
    exact hother id fun hconfirmed => hwritten (by simp [RecordState.phase]) (hphase ▸ hconfirmed)
  | @openBatchLeafDispute _ b l bt _ _ _ _ _ hb _ hl =>
    have hphase := (Court.phase_opened bt.relay (newDispute D env 1 b l)).trans (Court.phase_leafOpened hb hl)
    exact hother id fun hconfirmed => hwritten (by simp) (hphase ▸ hconfirmed)
  | vote => exact hother id fun hconfirmed => by rwa [← Court.phase_votesSet (c := s.court)]
  | fraud _ hvote hfull =>
    exact hother id fun hconfirmed => hwritten (hverdict _) ((Ending.fraud hvote hfull).phase hcourt ▸ hconfirmed)
  | spurious _ hvote hshort hfull =>
    exact hother id fun hconfirmed =>
      hwritten (hverdict _) ((Ending.spurious hvote hshort hfull).phase hcourt ▸ hconfirmed)
  | expire _ hexp =>
    exact hother id fun hconfirmed => hwritten (hverdict _) ((Ending.expired hexp).phase hcourt ▸ hconfirmed)
  | stakeRelay | announceUnstake | unstakeRelay | stakeVerifier | joinVerifier | announceVerifierUnstake
  | unstakeVerifier | deregisterVerifier => exact hother id id

/-- A finalization finds the window past and the batch, when it is one, Provisional. -/
theorem Effect.finalizes_ok (he : Effect D env s call s') (hf : call.finalizes t) :
    (∃ e, s.court.windowEnd D t = some e ∧ e ≤ env.timestamp) ∧
      ∀ b ∈ t.batch, s.court.batches[b]?.map (·.state) = some .provisional := by
  cases he with
  | finalizeRecord _ hr _ hwindow =>
    obtain rfl := hf
    exact ⟨⟨_, Option.map_eq_some_iff.2 ⟨_, hr, rfl⟩, hwindow⟩, fun b hb => by cases hb⟩
  | finalizeBatch _ hb hstate hwindow =>
    cases t with
    | record i => cases hf
    | leaf b l =>
      obtain rfl := Option.some.inj hf
      refine ⟨⟨_, Option.map_eq_some_iff.2 ⟨_, hb, rfl⟩, hwindow⟩, fun b' hb' => ?_⟩
      obtain rfl := Option.some.inj hb'
      rw [hb, Option.map_some, hstate]
  | _ => exact absurd hf id

/-- An accepted action confirms what it finalizes and what is open to a dispute. -/
theorem World.Reachable.confirms_finalizes (hw : w.Reachable D) (hs : w.step D a = .ok w') :
    Confirms t w w' ↔ a.finalizes t ∧ w.Challengeable t := by
  rw [hw.confirms_iff ⟨a, hs⟩]
  by_cases hcall : ∀ sender value c, a ≠ .call sender value c
  · have hnot : ¬ a.finalizes t := by
      cases a with
      | call => exact absurd rfl (hcall _ _ _)
      | _ => exact id
    obtain ⟨_, _, _, hrelay, -⟩ := World.step_frame hs hcall
    rw [hrelay]
    exact ⟨fun hp => absurd hp.1 hp.2, fun hp => absurd hp.1 hnot⟩
  · push Not at hcall
    obtain ⟨sender, value, c, rfl⟩ := hcall
    obtain ⟨x, he, rfl⟩ := World.call_effect hs
    have hiff := he.confirms_iff (t := t) hw.court
    constructor
    · intro hp
      obtain ⟨hf, hundecided⟩ := hiff.1 hp
      refine ⟨hf, (challengeable_iff fun b hb hconfirmed => ?_).2 hundecided⟩
      have hprovisional := (he.finalizes_ok hf).2 b hb
      cases hprovisional.symm.trans hconfirmed
    · rintro ⟨hf, hc⟩
      refine hiff.2 ⟨hf, (challengeable_iff fun b hb hconfirmed => ?_).1 hc⟩
      have hprovisional := (he.finalizes_ok hf).2 b hb
      cases hprovisional.symm.trans hconfirmed

/-- A finalization comes after the window. -/
theorem World.finalizes_window (hs : w.step D a = .ok w') (hf : a.finalizes t) :
    (∃ e, w.relay.court.windowEnd D t = some e ∧ e ≤ w.now) ∧ w'.now = w.now := by
  cases a with
  | call sender value c =>
    obtain ⟨x, he, rfl⟩ := World.call_effect hs
    exact ⟨(he.finalizes_ok hf).1, rfl⟩
  | _ => exact absurd hf id

/-! ## Submissions -/

/-- What is submitted gets the time of the submission. -/
theorem World.Reachable.files (hw : w.Reachable D) (hs : w.Step D w') (hno : ¬ w.Filed t) (hyes : w'.Filed t) :
    w'.relay.court.windowEnd D t = some (uint64 w'.now + D.challengePeriod) := by
  have hno : w.relay.court.phase t = .absent := not_not.1 hno
  cases hs.change with
  | outside _ hrelay => exact absurd (hrelay ▸ hno) hyes
  | withdraw _ _ _ hw' | withdrawReturn _ hw' =>
    subst hw'
    exact absurd hno hyes
  | call he hnow =>
    rw [hnow]
    cases t with
    | record i =>
      obtain ⟨r', hr'⟩ := Court.record_of_phase hyes
      have hnone : w.relay.court.records[i]? = none := by
        rcases hr : w.relay.court.records[i]? with _ | r
        · rfl
        · rw [Court.phase_record hr] at hno
          cases hst : r.state <;> simp [hst, RecordState.phase] at hno
      obtain ⟨_, _, _, _, -, rfl⟩ := he.new_record hnone hr'
      exact Option.map_eq_some_iff.2 ⟨_, hr', rfl⟩
    | leaf b l =>
      obtain ⟨bt', hb', hl⟩ := Court.leaf_of_phase hyes
      have hnone : w.relay.court.batches[b]? = none := by
        rcases hb : w.relay.court.batches[b]? with _ | bt
        · rfl
        · -- a batch keeps the number of its leaves
          obtain ⟨ov, hstep, -⟩ := hw.courtStep hs
          obtain ⟨st, n, hkept, -⟩ := hstep.batch hb
          obtain rfl := Option.some.inj (hkept.symm.trans hb')
          rw [Court.phase_leaf hb hl] at hno
          cases hls : w.relay.court.batchLeafState b l <;> cases hst : bt.state <;>
            simp [hls, hst, LeafState.phase] at hno
      obtain ⟨_, _, _, _, -, -, -, rfl⟩ := he.new_batch hnone hb'
      exact Option.map_eq_some_iff.2 ⟨_, hb', rfl⟩

theorem World.filed_stays (w w' : World) (hw : w.Reachable D) (hf : w.Filed t) (hs : w.Step D w') : w'.Filed t :=
  (hw.phase_move hs t).ne_absent hf

/-- The window of a target is counted from its submission. -/
theorem World.windowEnd_since (hh : History World.Initial (World.Step D) (w :: h)) (hw : w.Filed t) :
    w.relay.court.windowEnd D t = some (uint64 (since World.now (World.Filed t) (w :: h)) + D.challengePeriod) := by
  induction h generalizing w with
  | nil =>
    cases hh with
    | start h0 =>
      obtain ⟨now, -, rfl⟩ := h0
      cases t <;> exact absurd rfl hw
  | cons u h ih =>
    cases hh with
    | step hh hs =>
      by_cases hu : u.Filed t
      · obtain ⟨ov, hstep, -⟩ := World.Reachable.courtStep hh.reachable hs
        rw [since_stays World.now hu]
        exact hstep.windowEnd (ih hh hu)
      · rw [since_began World.now World.filed_stays hh hu hw]
        exact World.Reachable.files hh.reachable hs hu hw

/-! ## Where the time goes -/

/-- Up to its confirmation, the time since a target was submitted is the time in which it could be disputed and the time
under dispute. -/
theorem time_split (hh : History World.Initial (World.Step D) (w' :: w :: h))
    (hconfirmed : w'.relay.court.phase t = .confirmed) (hnew : w.relay.court.phase t ≠ .confirmed) :
    since World.now (World.Filed t) (w' :: w :: h) + timeIn World.now (fun u => u.relay.court.phase t = .undecided)
      (w' :: w :: h) + timeIn World.now (World.UnderDispute t) (w' :: w :: h) = w'.now := by
  -- up to the last step but one, the target was not submitted, could be disputed or was under dispute
  have hphase : ∀ u ∈ w :: h, u.Reachable D ∧ (u.Filed t ↔
      u.relay.court.phase t = .undecided ∨ u.relay.court.phase t = .disputed) := by
    intro u hu
    obtain ⟨hr, huw'⟩ := hh.reaches u (List.mem_cons_of_mem _ hu)
    have hr : u.Reachable D := hr
    refine ⟨hr, ?_⟩
    unfold World.Filed
    cases hp : u.relay.court.phase t with
    | absent | undecided | disputed => simp
    | revoked =>
      -- a revoked target is not confirmed later
      rw [hr.phase_final huw' (.inl rfl) hp] at hconfirmed
      cases hconfirmed
    | confirmed =>
      cases hh with
      | step hh _ => exact absurd (hr.phase_final (hh.reaches u hu).2 (.inr rfl) hp) hnew
  have hfiled : w'.Filed t := by
    unfold World.Filed
    rw [hconfirmed]
    simp
  have hsince := since_add_timeIn World.now (P := World.Filed t) (fun _ _ hs => hs.now_le) World.filed_stays hh hfiled
  have hsplit := timeIn_or World.now (P := World.Filed t) (w := w') (fun u hu => (hphase u hu).2) (fun u _ hd => by
    rw [hd.1] at hd
    simp at hd)
  have hdispute := timeIn_congr World.now (P := World.UnderDispute t) (w := w')
    fun u hu => World.underDispute_iff (hphase u hu).1 t
  omega

/-! ## The claim along a run -/

/-- In the run of the attempts `as`, the action `a` is accepted in `w`, after the actions `l`, and leads to `w'`. -/
def Turn (D : Deployment) (now : ℕ) (as : List Action) (l : List (World × Action)) (w : World) (a : Action)
    (w' : World) : Prop :=
  ∃ bs cs, as = bs ++ a :: cs ∧ l = World.accepted D bs (World.init now) ∧
    w = World.attempts D bs (World.init now) ∧ w.step D a = .ok w'

/-- Whatever is confirmed in the run has been open to a dispute for a challenge period. -/
def WindowKept (D : Deployment) (now : ℕ) (as : List Action) : Prop := ∀ l w a w', Turn D now as l w a w' →
  ∀ t, World.Confirms t w w' →
    D.challengePeriod ≤ timeIn World.now (World.Challengeable t) (w' :: w :: World.past l)

/-- In `w`, after the actions `l`, a challenge period has passed since the submission of `t`, and as long again as the
disputes were open in which `t` was upheld. -/
def MadeUp (D : Deployment) (l : List (World × Action)) (w : World) (t : Target) : Prop :=
  since World.now (World.Filed t) (w :: World.past l) + D.challengePeriod + heldOn D t l ≤ w.now

instance (D : Deployment) (l : List (World × Action)) (w : World) (t : Target) : Decidable (MadeUp D l w t) :=
  inferInstanceAs (Decidable (_ ≤ w.now))

/-- What is promised when the step from `w` to `w'` confirms the target `t` after the actions `l`. -/
structure Windowed (D : Deployment) (l : List (World × Action)) (w w' : World) (t : Target) : Prop where
  /-- The guard of the finalizations; the time of the submission is stored in 64 bits. -/
  guard : uint64 (since World.now (World.Filed t) (w :: World.past l)) + D.challengePeriod ≤ w.now
  open_iff : D.challengePeriod ≤ timeIn World.now (World.Challengeable t) (w' :: w :: World.past l) ↔ MadeUp D l w t
  undisputed : (∀ d ∈ w.relay.court.disputes, d.target ≠ t) →
    since World.now (World.Filed t) (w :: World.past l) < uint64Size →
      D.challengePeriod ≤ timeIn World.now (World.Challengeable t) (w' :: w :: World.past l)

/-- What is promised of the run of the attempts `as`. -/
structure WindowExact (D : Deployment) (now : ℕ) (as : List Action) : Prop where
  confirmed : ∀ l w a w', Turn D now as l w a w' → ∀ t, World.Confirms t w w' → Windowed D l w w' t
  /-- The confirmations are the calls of the two finalizations. -/
  calls : ∀ l w a w', Turn D now as l w a w' → ∀ t, World.Confirms t w w' ↔ a.finalizes t ∧ w.Challengeable t
  kept_iff : WindowKept D now as ↔ ∀ l w a w', Turn D now as l w a w' → ∀ t, a.finalizes t → w.Challengeable t →
    MadeUp D l w t

namespace Turn

theorem history (hnow : 0 < now) (h : Turn D now as l w a w') :
    History World.Initial (World.Step D) (w' :: w :: World.past l) := by
  obtain ⟨bs, cs, -, rfl, rfl, hs⟩ := h
  exact .step (World.attempts_history hnow bs) ⟨a, hs⟩

theorem reachable (hnow : 0 < now) (h : Turn D now as l w a w') : w.Reachable D := by
  obtain ⟨bs, cs, -, -, rfl, -⟩ := h
  exact World.attempts_reachable hnow bs

theorem step (h : Turn D now as l w a w') : w.step D a = .ok w' := by
  obtain ⟨-, -, -, -, -, hs⟩ := h
  exact hs

theorem confirms_iff (hnow : 0 < now) (h : Turn D now as l w a w') :
    World.Confirms t w w' ↔ a.finalizes t ∧ w.Challengeable t :=
  (h.reachable hnow).confirms_finalizes h.step

/-- Until it is confirmed, a target is open to a dispute while it is undecided. -/
theorem challengeable_iff (hnow : 0 < now) (h : Turn D now as l w a w') (hc : World.Confirms t w w') :
    ∀ u ∈ w :: World.past l, u.Challengeable t ↔ u.relay.court.phase t = .undecided := by
  intro u hu
  refine World.challengeable_iff fun b hb hub => ?_
  cases h.history hnow with
  | step hh _ =>
    obtain ⟨hr, huw⟩ := hh.reaches u hu
    cases t with
    | record => cases hb
    | leaf b' _ =>
      obtain rfl := Option.some.inj hb
      exact hc.2.1 (World.Reachable.batchIn_confirmed (D := D) hr huw hub)

theorem undecided (hnow : 0 < now) (h : Turn D now as l w a w') (hc : World.Confirms t w w') :
    w.relay.court.phase t = .undecided :=
  (h.challengeable_iff hnow hc w (by simp)).1 ((h.confirms_iff hnow).1 hc).2

/-- What is confirmed was submitted a challenge period ago. -/
theorem guard (hnow : 0 < now) (h : Turn D now as l w a w') (hfiled : w.Filed t) (hf : a.finalizes t) :
    uint64 (since World.now (World.Filed t) (w :: World.past l)) + D.challengePeriod ≤ w.now := by
  obtain ⟨⟨e, he, hle⟩, -⟩ := World.finalizes_window h.step hf
  cases h.history hnow with
  | step hh _ =>
    obtain rfl := Option.some.inj ((World.windowEnd_since hh hfiled).symm.trans he)
    exact hle

/-- Up to its confirmation, the time under dispute is that of the disputes in which the target was upheld. -/
theorem time_under_dispute (hnow : 0 < now) (h : Turn D now as l w a w')
    (hundecided : w.relay.court.phase t = .undecided) :
    timeIn World.now (World.UnderDispute t) (w :: World.past l) = heldOn D t l := by
  obtain ⟨bs, cs, -, rfl, rfl, -⟩ := h
  exact World.time_under_dispute hnow bs (by simp [hundecided]) (by simp [hundecided])

/-- A target on which there is no dispute has never been under dispute. -/
theorem never_disputed (hnow : 0 < now) (h : Turn D now as l w a w')
    (hundisputed : ∀ d ∈ w.relay.court.disputes, d.target ≠ t) :
    timeIn World.now (World.UnderDispute t) (w :: World.past l) = 0 := by
  refine timeIn_eq_zero World.now fun u hu => ?_
  rintro ⟨d, hd, rfl, -⟩
  -- the dispute would still be there
  cases h.history hnow with
  | step hh _ =>
    obtain ⟨hr, huw⟩ := hh.reaches u (List.mem_cons_of_mem _ hu)
    obtain ⟨id, hd⟩ := List.mem_iff_getElem?.1 hd
    obtain ⟨_, _, _, hkept⟩ := World.Reachable.dispute_kept (D := D) hr huw hd
    exact hundisputed _ (List.mem_of_getElem? hkept) rfl

/-- A target that is confirmed has been open to a dispute since its submission, but for the disputes in which it was
upheld. -/
theorem open_iff (hnow : 0 < now) (h : Turn D now as l w a w') (hc : World.Confirms t w w') (hfiled : w.Filed t) :
    D.challengePeriod ≤ timeIn World.now (World.Challengeable t) (w' :: w :: World.past l) ↔ MadeUp D l w t := by
  have hundecided := h.undecided hnow hc
  obtain ⟨hconfirmed, hnew⟩ := ((h.reachable hnow).confirms_iff ⟨a, h.step⟩).1 hc
  have hsplit := time_split (h.history hnow) hconfirmed hnew
  have htime : w'.now = w.now := (World.finalizes_window h.step ((h.confirms_iff hnow).1 hc).1).2
  have hheld : timeIn World.now (World.UnderDispute t) (w' :: w :: World.past l) = heldOn D t l := by
    have hnot : ¬ w.UnderDispute t := by
      rw [World.underDispute_iff (h.reachable hnow), hundecided]
      simp
    rw [timeIn, if_neg hnot, h.time_under_dispute hnow hundecided]
    rfl
  rw [since_stays World.now hfiled, hheld, htime] at hsplit
  rw [timeIn_congr World.now (w := w') (h.challengeable_iff hnow hc), MadeUp]
  omega

theorem windowed (hnow : 0 < now) (h : Turn D now as l w a w') (hc : World.Confirms t w w') : Windowed D l w w' t := by
  have hundecided := h.undecided hnow hc
  have hfiled : w.Filed t := by
    unfold World.Filed
    rw [hundecided]
    simp
  have hguard := h.guard hnow hfiled ((h.confirms_iff hnow).1 hc).1
  have hopen := h.open_iff hnow hc hfiled
  refine ⟨hguard, hopen, fun hundisputed hsmall => hopen.2 ?_⟩
  have hnever : heldOn D t l = 0 := by
    rw [← h.time_under_dispute hnow hundecided]
    exact h.never_disputed hnow hundisputed
  rw [uint64_eq hsmall] at hguard
  unfold MadeUp
  omega

end Turn

/-- **The window is kept exactly in the runs whose finalizations make up for the disputes.** -/
theorem challenge_window {D : Deployment} {now : ℕ} (hnow : 0 < now) (as : List Action) : WindowExact D now as where
  confirmed := fun _ _ _ _ h _ hc => h.windowed hnow hc
  calls := fun _ _ _ _ h _ => h.confirms_iff hnow
  kept_iff := by
    constructor
    · intro hkept l w a w' h t hf hc
      have hconfirms := (h.confirms_iff hnow).2 ⟨hf, hc⟩
      exact (h.windowed hnow hconfirms).open_iff.1 (hkept l w a w' h t hconfirms)
    · intro hmade l w a w' h t hconfirms
      obtain ⟨hf, hc⟩ := (h.confirms_iff hnow).1 hconfirms
      exact (h.windowed hnow hconfirms).open_iff.2 (hmade l w a w' h t hf hc)

namespace Toy

/-- Disputes on the first record and on the second leaf of the batch, opened at once and upheld at their deadline. -/
def holding : List Action := filings ++ [
  .call 9 10 (.openDispute 0),
  .call 9 10 (.openBatchLeafDispute 0 1 did 5 did (sigHash 1) [leaf 0]),
  .tick 1100,
  vote 3 0 0 0 0 false,
  vote 4 0 0 0 0 false,
  vote 3 1 1 0 1 false,
  vote 4 1 1 0 1 false]

/-- The finalization of the record comes as much later as the dispute on it was open. -/
def patient : List Action := holding ++ [.tick 1200] ++ [.call 9 0 (.finalizeRecord 0)]

def hasty : List Action := holding ++ [.call 9 0 (.finalizeRecord 0)] ++ [.call 9 0 (.finalizeBatch 0)]

end Toy

/-- The record has been Provisional for a challenge period, after the dispute. -/
theorem challenge_window_toy : ∃ l w w',
    Turn (Deployment.toy 2) 1000 Toy.patient l w (.call 9 0 (.finalizeRecord 0)) w' ∧
    w'.RecordIn 0 .confirmed ∧ 100 ≤ timeIn World.now (World.RecordIn 0 .provisional) (w' :: w :: World.past l) := by
  let as := Toy.holding ++ [.tick 1200]
  let w := World.attempts (Deployment.toy 2) as (World.init 1000)
  let w' := World.after (Deployment.toy 2) [.call 9 0 (.finalizeRecord 0)] w
  obtain ⟨hstep, hconfirms, hmade⟩ : (w.step (Deployment.toy 2) (.call 9 0 (.finalizeRecord 0))).isOk ∧
      (w'.RecordIn 0 .confirmed ∧ ¬ w.RecordIn 0 .confirmed) ∧
      MadeUp (Deployment.toy 2) (World.accepted (Deployment.toy 2) as (World.init 1000)) w (.record 0) := by
    decide +kernel
  have hturn : Turn (Deployment.toy 2) 1000 Toy.patient _ w (.call 9 0 (.finalizeRecord 0)) w' :=
    ⟨as, [], rfl, rfl, rfl, World.after_step hstep⟩
  have hwindowed := (challenge_window (by decide) Toy.patient).confirmed _ _ _ _ hturn (.record 0) hconfirms
  exact ⟨_, w, w', hturn, hconfirms.1, hwindowed.open_iff.2 hmade⟩

/-- The record and the batch are confirmed at the end of their window, and while it lasted the record and the leaf were
under dispute all the time. -/
theorem window_bypassed : ∃ l w w' m w'',
    Turn (Deployment.toy 2) 1000 Toy.hasty l w (.call 9 0 (.finalizeRecord 0)) w' ∧
    w'.RecordIn 0 .confirmed ∧ ¬ w.RecordIn 0 .confirmed ∧
    ¬ (Deployment.toy 2).challengePeriod ≤
      timeIn World.now (World.RecordIn 0 .provisional) (w' :: w :: World.past l) ∧
    Turn (Deployment.toy 2) 1000 Toy.hasty m w' (.call 9 0 (.finalizeBatch 0)) w'' ∧
    w''.BatchIn 0 .confirmed ∧ ¬ w'.BatchIn 0 .confirmed ∧ w''.LeafIn 0 1 .upheld ∧
    ¬ (Deployment.toy 2).challengePeriod ≤
      timeIn World.now (fun u => u.LeafIn 0 1 .undisputed ∨ u.LeafIn 0 1 .upheld) (w'' :: w' :: World.past m) := by
  let as := Toy.holding ++ [.call 9 0 (.finalizeRecord 0)]
  let l := World.accepted (Deployment.toy 2) Toy.holding (World.init 1000)
  let m := World.accepted (Deployment.toy 2) as (World.init 1000)
  let w := World.attempts (Deployment.toy 2) Toy.holding (World.init 1000)
  let w' := World.after (Deployment.toy 2) [.call 9 0 (.finalizeRecord 0)] w
  let w'' := World.after (Deployment.toy 2) [.call 9 0 (.finalizeBatch 0)] w'
  obtain ⟨hstep, hstep', hrecord, hbatch⟩ : (w.step (Deployment.toy 2) (.call 9 0 (.finalizeRecord 0))).isOk ∧
      (w'.step (Deployment.toy 2) (.call 9 0 (.finalizeBatch 0))).isOk ∧
      (w'.RecordIn 0 .confirmed ∧ ¬ w.RecordIn 0 .confirmed ∧
        timeIn World.now (World.RecordIn 0 .provisional) (w' :: w :: World.past l) = 0) ∧
      w''.BatchIn 0 .confirmed ∧ ¬ w'.BatchIn 0 .confirmed ∧ w''.LeafIn 0 1 .upheld ∧
        timeIn World.now (fun u => u.LeafIn 0 1 .undisputed ∨ u.LeafIn 0 1 .upheld) (w'' :: w' :: World.past m) =
          0 := by
    decide +kernel
  have hs := World.after_step hstep
  have hnext : World.attempts (Deployment.toy 2) as (World.init 1000) = w' := World.attempts_concat hs
  refine ⟨l, w, w', m, w'', ⟨Toy.holding, [.call 9 0 (.finalizeBatch 0)], ?_, rfl, rfl, hs⟩, hrecord.1, hrecord.2.1, ?_,
    ⟨as, [], rfl, rfl, hnext.symm, World.after_step hstep'⟩, hbatch.1, hbatch.2.1, hbatch.2.2.1, ?_⟩
  · exact List.append_assoc _ _ _
  · rw [hrecord.2.2]
    decide
  · rw [hbatch.2.2.2]
    decide

end PqIotAuth
