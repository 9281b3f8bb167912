import PqIotAuth.Announcements
import PqIotAuth.Progress

/-!
# The exit of a relay

A relay that leaves should leave nothing behind that can still be challenged. The delay of an exit is counted from its
announcement and is not shorter than a challenge period, so what was submitted before the announcement is past its
window when the relay takes its stake back. But a relay with an announced exit may go on submitting. `relay_exit` is the
guarantee for the runs in which it does so only while the window of the submission ends before the exit;
`late_submission` says that every other submission can be left behind inside its window, and `submitted_and_gone` is a
run in which one is.
-/

namespace PqIotAuth

open Lib

variable {D : Deployment} {env : Env} {s s' : Storage} {call : Call} {w w' : World}

/-! ## What a relay answers for -/

/-- A record or a batch of `relay` was submitted at `time`. -/
def Court.Files (c : Court) (relay : Address) (time : ℕ) : Prop :=
  (∃ (i : ℕ) (r : Record), c.records[i]? = some r ∧ r.relay = relay ∧ r.submittedAt = time) ∨
    ∃ (b : ℕ) (bt : Batch), c.batches[b]? = some bt ∧ bt.relay = relay ∧ bt.submittedAt = time

/-- At the time `now`, what `relay` has submitted and is still Provisional is past its challenge window. -/
structure PastWindows (D : Deployment) (now : ℕ) (relay : Address) (c : Court) : Prop where
  record : ∀ (i : ℕ) (r : Record), c.records[i]? = some r → r.relay = relay → r.state = .provisional →
    r.submittedAt + D.challengePeriod ≤ now
  batch : ∀ (b : ℕ) (bt : Batch), c.batches[b]? = some bt → bt.relay = relay → bt.state = .provisional →
    bt.submittedAt + D.challengePeriod ≤ now

/-- The two calls that submit. -/
def Call.submits : Call → Bool
  | .submitAccountable .. | .submitBatch .. => true
  | _ => false

/-- A submission is not made while an exit is announced for a time inside its window. -/
def Punctual (D : Deployment) (w : World) : Action → Prop
  | .call sender _ call => call.submits → w.relay.exits.relayExitTime sender = 0 ∨
      w.now + D.challengePeriod ≤ w.relay.exits.relayExitTime sender
  | _ => True

instance (D : Deployment) (w : World) : DecidablePred (Punctual D w)
  | .call _ _ call => inferInstanceAs (Decidable (call.submits → _ ∨ _))
  | .tick _ | .registerDID .. | .deactivateDID .. | .submitTransaction .. | .withdraw _ | .withdrawReturn
  | .forceFeed _ => isTrue trivial

/-! ## What a step does to it -/

/-- What a court answers for after a call was there before, or is submitted now. -/
theorem Effect.files (he : Effect D env s call s') (hcourt : s.court.Inv s.verdicts) {a : Address} {time : ℕ}
    (h : s'.court.Files a time) :
    s.court.Files a time ∨ call.submits ∧ a = env.sender ∧ time = uint64 env.timestamp := by
  rcases h with ⟨i, r', hr', rfl, rfl⟩ | ⟨b, bt', hb', rfl, rfl⟩
  · rcases he.record_was hcourt hr' with ⟨r, st, hr, rfl⟩ | ⟨_, _, _, _, rfl, rfl⟩
    · exact .inl (.inl ⟨i, r, hr, rfl, rfl⟩)
    · exact .inr ⟨rfl, rfl, rfl⟩
  · rcases he.batch_was hcourt hb' with ⟨bt, st, n, hb, rfl⟩ | ⟨_, _, _, _, rfl, rfl⟩
    · exact .inl (.inr ⟨b, bt, hb, rfl, rfl⟩)
    · exact .inr ⟨rfl, rfl, rfl⟩

/-! ## The guarantee -/

theorem World.Reachable.files_le (hw : w.Reachable D) {a : Address} {time : ℕ} (h : w.relay.court.Files a time) :
    time ≤ w.now := by
  rcases h with ⟨i, r, hr, -, rfl⟩ | ⟨b, bt, hb, -, rfl⟩
  · obtain ⟨t, ht, htime⟩ := hw.filingTimes.record i r hr
    rw [htime]
    exact (uint64_le t).trans ht
  · obtain ⟨t, ht, htime⟩ := hw.filingTimes.batch b bt hb
    rw [htime]
    exact (uint64_le t).trans ht

/-- An exit that is announced comes after the windows of everything that the relay has submitted. -/
def ExitsLast (D : Deployment) (s : Storage) : Prop :=
  ∀ a time, s.court.Files a time → s.exits.relayExitTime a = 0 ∨ time + D.challengePeriod ≤ s.exits.relayExitTime a

theorem ExitsLast.step (hdelay : D.challengePeriod ≤ unstakeDelay) (hw : w.Reachable D) (h : ExitsLast D w.relay)
    (hs : World.StepIf D (Punctual D) w w') : ExitsLast D w'.relay := by
  obtain ⟨a, hpunctual, hs⟩ := hs
  by_cases ha : ∀ sender value c, a ≠ .call sender value c
  · obtain ⟨_, _, _, hrelay, -⟩ := World.step_frame hs ha
    rw [hrelay]
    exact h
  · push Not at ha
    obtain ⟨sender, value, c, rfl⟩ := ha
    obtain ⟨t, he, rfl⟩ := World.call_effect hs
    intro r time hfiles
    have hle : time ≤ w.now := by
      rcases he.files hw.court hfiles with hold | ⟨-, -, rfl⟩
      · exact hw.files_le hold
      · exact uint64_le w.now
    rcases he.exitTime .relay r with ⟨-, -, hexit⟩ | ⟨-, -, hexit⟩ | ⟨-, hexit⟩
    · change t.exits.relayExitTime r = w.now + unstakeDelay at hexit
      rw [hexit]
      right
      omega
    · exact .inl hexit
    · change t.exits.relayExitTime r = w.relay.exits.relayExitTime r at hexit
      rw [hexit]
      rcases he.files hw.court hfiles with hold | ⟨hsubmits, rfl, rfl⟩
      · exact h r time hold
      · exact (hpunctual hsubmits).imp_right fun hlate => by omega

/-- **In the runs whose submissions are punctual, a relay takes its stake back only when everything that it has
submitted is past its window.** -/
theorem relay_exit {D : Deployment} (hdelay : D.challengePeriod ≤ unstakeDelay) {w w' : World}
    (hw : Lib.Reachable World.Initial (World.StepIf D (Punctual D)) w) {r : Address} {value : ℕ}
    (hs : w.step D (.call r value .unstakeRelay) = .ok w') : PastWindows D w.now r w'.relay.court := by
  have hreach : w.Reachable D := hw.mono fun _ _ h => h.step
  have hlast : ExitsLast D w.relay := by
    refine Lib.Reachable.invariant (P := fun w => ExitsLast D w.relay) ?_ ?_ hw
    · rintro w ⟨now, -, rfl⟩ a time
      exact fun _ => .inl rfl
    · intro u u' hu h hs
      exact h.step hdelay (hu.mono fun _ _ h => h.step) hs
  obtain ⟨t, he, rfl⟩ := World.call_effect hs
  cases he with
  | unstakeRelay _ _ _ _ hannounced hexit =>
    have hpast : ∀ time, w.relay.court.Files r time → time + D.challengePeriod ≤ w.now := by
      intro time hfiles
      rcases hlast r time hfiles with hnone | hle
      · exact absurd hnone hannounced
      · exact hle.trans hexit
    constructor
    · intro i rec hrec hrel _
      exact hpast _ (.inl ⟨i, rec, hrec, hrel, rfl⟩)
    · intro b bt hbt hrel _
      exact hpast _ (.inr ⟨b, bt, hbt, hrel, rfl⟩)

/-! ## Late submissions -/

/-- A relay that has announced its exit, and has no dispute open, gets its stake back as soon as the exit is due. -/
theorem World.Reachable.unstake_returns (hw : w.Reachable D) (hether : w.balance < 2 ^ 250) (hidle : w.openCalls = [])
    {r : Address} (hstake : w.relay.ledger.relayStake r ≠ 0) (hfree : w.relay.court.relayActiveDisputes r = 0)
    (hannounced : w.relay.exits.relayExitTime r ≠ 0) :
    ∃ u u' : World, Reaches (World.Step D) w u ∧ u.now = max w.now (w.relay.exits.relayExitTime r) ∧
      u.step D (.call r 0 .unstakeRelay) = .ok u' ∧ u'.relay.court = w.relay.court := by
  have hguard := hw.guard_down hidle
  let u := { w with now := max w.now (w.relay.exits.relayExitTime r) }
  have htick : w.step D (.tick u.now) = .ok u := by
    rw [World.step, revertIf_of_not, ok_bind]
    · rfl
    · rintro (hlt | hopen)
      · exact absurd (le_max_left _ _) (Nat.not_le.2 hlt)
      · exact hopen hidle
  have hcovered := hw.covered
  rw [Storage.liabilities] at hcovered
  have hword : 3 * 2 ^ 250 < wordSize := by decide
  have hcredit := credit_eq (a := r) (n := w.relay.ledger.relayStake r)
    ((Ledger.total_relayStake_cleared (l := w.relay.ledger) r).trans_lt (by omega))
  have hrun : ∃ t, Call.run D (u.env r 0) .unstakeRelay u.relay = .ok t := by
    rw [Call.run, unstakeRelay]
    simp only [nonReentrant_ok, bind_eq_ok, revertIf_eq_ok, pure_eq_ok]
    refine ⟨_, hguard, _, ⟨(), hstake, (), not_not.2 hfree, (), ?_, _, hcredit, rfl⟩, rfl⟩
    rintro (hnone | hearly)
    · exact hannounced hnone
    · exact absurd (le_max_right _ _) (Nat.not_le.2 hearly)
  obtain ⟨u', hu'⟩ := World.step_of_run hrun
  refine ⟨u, u', .single ⟨_, htick⟩, rfl, hu', ?_⟩
  obtain ⟨t, he, rfl⟩ := World.call_effect hu'
  cases he with
  | unstakeRelay => rfl

/-- A submission leaves the stakes, the exit times and the counters of disputes as they are. -/
theorem Effect.submits_frame (he : Effect D env s call s') (hsubmits : call.submits) :
    env.value = 0 ∧ s'.ledger = s.ledger ∧ s'.exits = s.exits ∧
      s'.court.relayActiveDisputes = s.court.relayActiveDisputes := by
  cases he with
  | submitAccountable hfree | submitBatch hfree => exact ⟨hfree, rfl, rfl, rfl⟩
  | _ => cases hsubmits

/-- What has just been submitted is inside its window for a challenge period. -/
theorem Effect.not_pastWindows (he : Effect D env s call s') (hsubmits : call.submits) {now : ℕ}
    (hnow : now < uint64 env.timestamp + D.challengePeriod) : ¬ PastWindows D now env.sender s'.court := by
  intro hpast
  cases he with
  | submitAccountable _ _ _ _ _ _ _ _ _ r hr =>
    have hle := hpast.record s.court.records.length r List.getElem?_concat_length (by rw [hr]; rfl) (by rw [hr]; rfl)
    rw [hr] at hle
    exact absurd hnow (Nat.not_lt.2 hle)
  | submitBatch _ _ _ _ _ _ _ _ _ _ _ _ bt hbt =>
    have hle := hpast.batch s.court.batches.length bt List.getElem?_concat_length (by rw [hbt]; rfl) (by rw [hbt]; rfl)
    rw [hbt] at hle
    exact absurd hnow (Nat.not_lt.2 hle)
  | _ => cases hsubmits

/-- **Whatever a relay submits while an exit is announced for a time inside its window, it can leave behind there.** -/
theorem late_submission (hw : w.Reachable D) (hperiod : 0 < D.challengePeriod) (htime : w.now < uint64Size)
    (hether : w.balance < 2 ^ 250) (hidle : w.openCalls = []) {r : Address} {value : ℕ} {c : Call}
    (hsubmits : c.submits) (hlate : ¬ Punctual D w (.call r value c)) (hstake : w.relay.ledger.relayStake r ≠ 0)
    (hfree : w.relay.court.relayActiveDisputes r = 0) (hs : w.step D (.call r value c) = .ok w') :
    ∃ u u' : World, Reaches (World.Step D) w' u ∧ u.step D (.call r 0 .unstakeRelay) = .ok u' ∧
      ¬ PastWindows D u.now r u'.relay.court := by
  obtain ⟨hannounced, hexit⟩ : w.relay.exits.relayExitTime r ≠ 0 ∧
      w.relay.exits.relayExitTime r < w.now + D.challengePeriod := by
    simp only [Punctual, hsubmits, true_implies, not_or, not_le] at hlate
    exact hlate
  have hw' : w'.Reachable D := hw.next ⟨_, hs⟩
  obtain ⟨t, he, rfl⟩ := World.call_effect hs
  obtain ⟨hvalue, hledger, hexits, hactive⟩ := he.submits_frame hsubmits
  obtain ⟨u, u', hu, hnow, hu', hcourt⟩ := hw'.unstake_returns (r := r) (by
    change w.balance + value < _
    change value = 0 at hvalue
    omega) hidle (by rwa [hledger]) (by rwa [hactive]) (by rwa [hexits])
  refine ⟨u, u', hu, hu', ?_⟩
  rw [hnow, hcourt]
  refine he.not_pastWindows hsubmits ?_
  dsimp only [World.env]
  rw [hexits, uint64_eq htime]
  omega

namespace Toy

/-- The relay 2 submits a record, announces its exit and waits for it. -/
def waiting : List Action := [
  .registerDID 1 did (List.replicate 897 3),
  .call 2 100 .stakeRelay,
  .call 2 0 (.submitAccountable did did [1]),
  .call 2 0 .announceUnstake,
  .tick (1000 + unstakeDelay)]

def due : World := World.after (Deployment.toy 2) waiting (World.init 1000)

/-- It submits a second record before it leaves. -/
def busy : World := World.after (Deployment.toy 2) [.call 2 0 (.submitAccountable did did [2])] due

end Toy

theorem relay_exit_toy : ∃ w', Toy.due.step (Deployment.toy 2) (.call 2 0 .unstakeRelay) = .ok w' ∧
    PastWindows (Deployment.toy 2) Toy.due.now 2 w'.relay.court := by
  obtain ⟨hmeets, hok⟩ : World.meets (Deployment.toy 2) (Punctual (Deployment.toy 2)) Toy.waiting (World.init 1000) ∧
      (Toy.due.step (Deployment.toy 2) (.call 2 0 .unstakeRelay)).isOk := by decide +kernel
  have hs := World.after_step hok
  exact ⟨_, hs, relay_exit (by decide) (World.meets_reachable ⟨1000, by decide, rfl⟩ hmeets) hs⟩

/-- The second record is Provisional and inside its window when the stake of its relay is gone. -/
theorem submitted_and_gone : ∃ w', (Deployment.toy 2).challengePeriod ≤ unstakeDelay ∧
    Toy.busy.Reachable (Deployment.toy 2) ∧ Toy.busy.step (Deployment.toy 2) (.call 2 0 .unstakeRelay) = .ok w' ∧
    w'.relay.ledger.relayStake 2 = 0 ∧ ¬ PastWindows (Deployment.toy 2) Toy.busy.now 2 w'.relay.court := by
  let w' := World.after (Deployment.toy 2) [.call 2 0 .unstakeRelay] Toy.busy
  obtain ⟨hok, hstake, hrecord⟩ : (Toy.busy.step (Deployment.toy 2) (.call 2 0 .unstakeRelay)).isOk ∧
      w'.relay.ledger.relayStake 2 = 0 ∧ ∃ r ∈ w'.relay.court.records[1]?, r.relay = 2 ∧ r.state = .provisional ∧
        Toy.busy.now < r.submittedAt + (Deployment.toy 2).challengePeriod := by decide +kernel
  obtain ⟨r, hr, hrel, hstate, hopen⟩ := hrecord
  have hdue : Toy.due.Reachable (Deployment.toy 2) := World.after_reachable _ (World.init_reachable (by decide))
  refine ⟨w', by decide, World.after_reachable _ hdue, World.after_step hok, hstake, fun hpast => ?_⟩
  exact absurd hopen (Nat.not_lt.2 (hpast.record 1 r hr hrel hstate))

end PqIotAuth
