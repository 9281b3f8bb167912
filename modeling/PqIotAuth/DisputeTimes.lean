import PqIotAuth.Settlement
import PqIotAuth.Unchallenged

/-!
# The time under dispute

A dispute keeps its target out of the challenge window from the call that opens it to the vote that ends it. How long
that was is told by the call with the last vote: its time less the `openedAt` of the dispute (`World.heldBy`). As long
as a target is not revoked and no dispute on it is open, the time that it has spent under dispute is the sum of these
(`World.time_under_dispute`).
-/

namespace PqIotAuth

open Lib

variable {D : Deployment} {w w' : World} {a : Action} {t : Target} {id : ℕ} {d : Dispute} {now : ℕ}
  {l : List (World × Action)}

namespace World

/-- A dispute on the target is open. -/
def UnderDispute (t : Target) (w : World) : Prop := ∃ d ∈ w.relay.court.disputes, d.target = t ∧ d.resolved = false

instance (t : Target) : DecidablePred (UnderDispute t) := fun w =>
  inferInstanceAs (Decidable (∃ d ∈ w.relay.court.disputes, _))

theorem underDispute_iff (hw : w.Reachable D) (t : Target) : w.UnderDispute t ↔ w.relay.court.phase t = .disputed := by
  constructor
  · rintro ⟨d, hd, rfl, hun⟩
    obtain ⟨id, hid⟩ := List.mem_iff_getElem?.1 hd
    exact hw.court.disputed hid hun
  · intro hp
    obtain ⟨id, hid⟩ := hw.court.docket.open_of_disputed hp
    obtain ⟨d, hd, rfl, hun⟩ := Court.docket_case.1 hid
    exact ⟨d, List.mem_of_getElem? hd, rfl, hun⟩

/-! ## The votes that uphold a target -/

/-- The dispute that the action, if it is accepted, ends as spurious: the action is a vote with which the attesters
"valid" reach the quorum. -/
def upholds (D : Deployment) (w : World) (a : Action) : Option Dispute :=
  a.disputeId.bind fun id => w.relay.court.disputes[id]?.filter fun d => a.ends D id d = some .spurious

/-- For how long the dispute has been open that the action ends, when it upholds the target `t`. -/
def heldBy (D : Deployment) (t : Target) (w : World) (a : Action) : ℕ :=
  ((w.upholds D a).filter fun d => d.target = t).elim 0 fun d => w.now - d.openedAt

end World

/-- For how long the disputes have been open in which the accepted actions have upheld the target `t`. -/
def heldOn (D : Deployment) (t : Target) (l : List (World × Action)) : ℕ := (l.map fun p => p.1.heldBy D t p.2).sum

@[simp] theorem heldOn_append : heldOn D t (l ++ [(w, a)]) = heldOn D t l + w.heldBy D t a := by
  simp [heldOn]

namespace World

theorem upholds_eq_some : w.upholds D a = some d ↔ ∃ id, a.disputeId = some id ∧
    w.relay.court.disputes[id]? = some d ∧ a.ends D id d = some .spurious := by
  simp [upholds, Option.bind_eq_some_iff, Option.filter_eq_some_iff]

/-- An accepted vote that upholds a target ends an open dispute on it. -/
theorem Reachable.upheld (hw : w.Reachable D) (hs : w.step D a = .ok w') (hd : w.upholds D a = some d) :
    w.relay.court.phase d.target = .disputed ∧ w'.relay.court.phase d.target = .undecided := by
  obtain ⟨id, -, hid, hends⟩ := upholds_eq_some.1 hd
  cases a with
  | call sender value c =>
    obtain ⟨x, he, rfl⟩ := World.call_effect hs
    rcases he.ends hid with ⟨hnone, -⟩ | ⟨v, relay, e, hends', hend⟩
    · cases hnone.symm.trans hends
    · obtain rfl := Option.some.inj (hends'.symm.trans hends)
      have hphase := hend.phase hw.court
      refine ⟨hw.court.disputed hid ?_, ?_⟩
      · cases hend with
        | spurious hvote => exact hvote.unresolved
      · rw [hphase, Function.update_self]
        rfl
  | _ => cases hends

/-- An action that upholds no dispute on `t` adds nothing. -/
theorem heldBy_eq_zero (h : ∀ d, w.upholds D a = some d → d.target ≠ t) : w.heldBy D t a = 0 := by
  unfold heldBy
  rw [Option.filter_eq_none_iff.2 fun d hd => by simpa using h d hd]
  rfl

theorem heldBy_eq (hd : w.upholds D a = some d) (ht : d.target = t) : w.heldBy D t a = w.now - d.openedAt := by
  unfold heldBy
  rw [hd, Option.filter_some, if_pos (decide_eq_true ht)]
  rfl

/-- A step that does not end a dispute with the target undecided adds nothing. -/
theorem Reachable.heldBy_of_phase (hw : w.Reachable D) (hs : w.step D a = .ok w')
    (hp : w.relay.court.phase t = .disputed → w'.relay.court.phase t ≠ .undecided) : w.heldBy D t a = 0 := by
  refine heldBy_eq_zero fun d hd => ?_
  rintro rfl
  obtain ⟨hbefore, hafter⟩ := hw.upheld hs hd
  exact hp hbefore hafter

/-- The end of a dispute whose target is not revoked is a vote that upholds the target, before the deadline. -/
theorem Reachable.upholds_of_phase (hw : w.Reachable D) (hs : w.step D a = .ok w')
    (hd : w.relay.court.disputes[id]? = some d) (hun : d.resolved = false)
    (hp : w'.relay.court.phase d.target ≠ .disputed) (hr : w'.relay.court.phase d.target ≠ .revoked) :
    w.upholds D a = some d ∧ w.now ≤ d.deadline ∧ w'.now = w.now := by
  rcases hw.ends hs hd hun with ⟨-, fa, va, hopen⟩ | ⟨sender, value, call, v, relay, e, rfl, hends, hend, -⟩
  · have hdisputed := (hw.next ⟨a, hs⟩).court.disputed hopen hun
    exact absurd hdisputed hp
  · rw [hend.phase hw.court, Function.update_self] at hr
    obtain ⟨x, -, rfl⟩ := World.call_effect hs
    cases hend with
    | fraud | expired => exact absurd rfl hr
    | spurious hvote => exact ⟨upholds_eq_some.2 ⟨id, rfl, hd, hends⟩, hvote.in_time, rfl⟩

theorem step_now_of_opens (hs : w.step D a = .ok w') (ha : a.opens = some t) : w'.now = w.now := by
  unfold Action.opens at ha
  split at ha
  · obtain ⟨_, -, rfl⟩ := World.call_effect hs
    rfl
  · obtain ⟨_, -, rfl⟩ := World.call_effect hs
    rfl
  · cases ha

end World

/-! ## The time of a run -/

/-- What the accepted actions `l` tell about the time under dispute of `t` up to the world `w`. -/
structure HeldTimes (D : Deployment) (t : Target) (l : List (World × Action)) (w : World) : Prop where
  quiet : w.relay.court.phase t ≠ .disputed → w.relay.court.phase t ≠ .revoked →
    timeIn World.now (World.UnderDispute t) (w :: World.past l) = heldOn D t l
  /-- The dispute that is open on the target adds the time since it was opened. -/
  ongoing : ∀ (id : ℕ) (d : Dispute), w.relay.court.disputes[id]? = some d → d.target = t → d.resolved = false →
    ∃ opened ≤ w.now, d.openedAt = uint64 opened ∧ d.deadline < uint64Size ∧ d.openedAt ≤ d.deadline ∧
      timeIn World.now (World.UnderDispute t) (w :: World.past l) = heldOn D t l + (w.now - opened)

theorem HeldTimes.quiet_step (hw : w.Reachable D) (h : HeldTimes D t l w) (hs : w.step D a = .ok w')
    (hp : w'.relay.court.phase t ≠ .disputed) (hr : w'.relay.court.phase t ≠ .revoked) :
    timeIn World.now (World.UnderDispute t) (w' :: World.past (l ++ [(w, a)])) = heldOn D t (l ++ [(w, a)]) := by
  have hunder := World.underDispute_iff hw t
  rw [World.past_append, timeIn, heldOn_append]
  by_cases hdisputed : w.relay.court.phase t = .disputed
  · obtain ⟨id, hid⟩ := hw.court.docket.open_of_disputed hdisputed
    obtain ⟨d, hd, rfl, hun⟩ := Court.docket_case.1 hid
    obtain ⟨opened, hle, hopened, hrange, -, htime⟩ := h.ongoing id d hd rfl hun
    obtain ⟨hupholds, hdue, hnow⟩ := hw.upholds_of_phase hs hd hun hp hr
    -- the vote is before the deadline, so the time of the opening has not been cut
    rw [uint64_eq (by omega)] at hopened
    rw [if_pos (hunder.2 hdisputed), htime, World.heldBy_eq hupholds rfl, hopened, hnow]
    omega
  · have hstay : w.relay.court.phase t ≠ .revoked := fun he =>
      hr (hw.phase_final (.single ⟨a, hs⟩) (.inl rfl) he)
    rw [if_neg (fun hu => hdisputed (hunder.1 hu)), h.quiet hdisputed hstay,
      hw.heldBy_of_phase hs fun he => absurd he hdisputed]

theorem HeldTimes.ongoing_step (hw : w.Reachable D) (h : HeldTimes D t l w) (hs : w.step D a = .ok w')
    (hd : w'.relay.court.disputes[id]? = some d) (ht : d.target = t) (hun : d.resolved = false) :
    ∃ opened ≤ w'.now, d.openedAt = uint64 opened ∧ d.deadline < uint64Size ∧ d.openedAt ≤ d.deadline ∧
      timeIn World.now (World.UnderDispute t) (w' :: World.past (l ++ [(w, a)])) =
        heldOn D t (l ++ [(w, a)]) + (w'.now - opened) := by
  have hunder := World.underDispute_iff hw t
  have hafter : w'.relay.court.phase t = .disputed := ht ▸ (hw.next ⟨a, hs⟩).court.disputed hd hun
  rw [World.past_append, timeIn, heldOn_append, hw.heldBy_of_phase hs fun _ => by rw [hafter]; simp]
  rcases hw.dispute_was hs hd with ⟨d₀, hd₀, htarget, hopenedAt, hdeadline, hres⟩ | ⟨-, hopens, hphase, hfresh⟩
  · have hun₀ : d₀.resolved = false := by
      by_contra hne
      simp [hres (by simpa using hne)] at hun
    obtain ⟨opened, hle, hopened, hrange, hbound, htime⟩ := h.ongoing id d₀ hd₀ (htarget.symm.trans ht) hun₀
    have hnow : w.now ≤ w'.now := World.Step.now_le ⟨a, hs⟩
    have hdisputed : w.relay.court.phase t = .disputed := (htarget.symm.trans ht) ▸ hw.court.disputed hd₀ hun₀
    refine ⟨opened, hle.trans hnow, hopenedAt.trans hopened, hdeadline ▸ hrange, ?_, ?_⟩
    · rw [hopenedAt, hdeadline]
      exact hbound
    · rw [if_pos (hunder.2 hdisputed), htime]
      omega
  · rw [ht] at hopens hphase
    have hnow := World.step_now_of_opens hs hopens
    refine ⟨w.now, hnow.ge, hfresh.opened, hfresh.in_range, ?_, ?_⟩
    · rw [hfresh.deadline]
      exact Nat.le_add_right _ _
    · rw [if_neg (fun hu => by simp [hunder.1 hu] at hphase), h.quiet (by simp [hphase]) (by simp [hphase]), hnow]
      omega

theorem HeldTimes.step (hw : w.Reachable D) (h : HeldTimes D t l w) (hs : w.step D a = .ok w') :
    HeldTimes D t (l ++ [(w, a)]) w' where
  quiet := h.quiet_step hw hs
  ongoing := fun _ _ hd ht hun => h.ongoing_step hw hs hd ht hun

/-- **The time under dispute of a target that is not revoked is that of the disputes in which it has been upheld.** -/
theorem World.time_under_dispute (hnow : 0 < now) (as : List Action)
    (hdisputed : (attempts D as (init now)).relay.court.phase t ≠ .disputed)
    (hrevoked : (attempts D as (init now)).relay.court.phase t ≠ .revoked) :
    timeIn World.now (UnderDispute t) (attempts D as (init now) :: past (accepted D as (init now))) =
      heldOn D t (accepted D as (init now)) := by
  have h := attempts_invariant (P := HeldTimes D t) (.start ⟨now, hnow, rfl⟩)
    ⟨fun _ _ => rfl, fun id d hd => by simp [World.init, Storage.init] at hd⟩ (fun _ _ _ _ hu h hs => h.step hu hs) as
  exact h.quiet hdisputed hrevoked

end PqIotAuth
