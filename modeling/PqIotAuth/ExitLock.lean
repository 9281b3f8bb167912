import PqIotAuth.Committee
import PqIotAuth.Slashing

/-!
# The exit lock of verifiers

A verifier that has voted "valid" on a target should stay on the roster, with its stake, until the target is terminal.
What holds it there is the counter of its live exposures, and a vote is counted only when its dispute is resolved. So
the lock is closed exactly for a registered verifier that stands in for some target already
(`World.Reachable.exitLocked_iff`): a vote in a dispute that is still open locks nothing, and whoever leaves in between
is gone when the dispute is decided (`departed_unlocked`). The lock holds all along a run if and only if the verifier
never has a vote in an open dispute without standing in for another target (`exit_lock`).
-/

namespace PqIotAuth

open Lib

variable {D : Deployment} {env : Env} {s s' : Storage} {call : Call} {w w' : World} {v : Address}

/-! ## The lock -/

/-- `v` is on the roster, and can neither leave it nor take its stake back. -/
structure ExitLocked (D : Deployment) (w : World) (v : Address) : Prop where
  registered : w.relay.roster.isRegisteredVerifier v
  deregister : ∀ value w', w.step D (.call v value .deregisterVerifier) ≠ .ok w'
  unstake : ∀ value w', w.step D (.call v value .unstakeVerifier) ≠ .ok w'

/-- While a target is not terminal, its votes "valid" of `v` lock `v`. -/
def ExitLock (D : Deployment) (w : World) (v : Address) : Prop :=
  ∀ t, w.relay.court.NonTerminal t → w.relay.court.VotedValid t v → ExitLocked D w v

/-- `v` has voted "valid" in a dispute that is still open. -/
def Court.VotedOpen (c : Court) (v : Address) : Prop :=
  ∃ d ∈ c.disputes, d.resolved = false ∧ v ∈ d.validAttesters

/-- `v` has voted "valid" in a dispute that has been resolved as spurious, on a target that is not terminal yet. -/
def Storage.StandsIn (s : Storage) (v : Address) : Prop := ∃ t, s.court.NonTerminal t ∧ s.VotedSpurious t v

instance (c : Court) (t : Target) (v : Address) : Decidable (c.VotedValid t v) :=
  inferInstanceAs (Decidable (∃ d ∈ c.disputes, _))

instance (c : Court) (v : Address) : Decidable (c.VotedOpen v) := inferInstanceAs (Decidable (∃ d ∈ c.disputes, _))

/-- A dispute that is open is on a target that is not terminal. -/
theorem Court.Inv.votedValid_of_open {c : Court} {vs : List (ℕ × Verdict)} (h : c.Inv vs) (hv : c.VotedOpen v) :
    ∃ t, c.NonTerminal t ∧ c.VotedValid t v := by
  obtain ⟨d, hd, hun, hvd⟩ := hv
  obtain ⟨id, hid⟩ := List.mem_iff_getElem?.1 hd
  have hdisputed := h.disputed hid hun
  refine ⟨d.target, (h.nonTerminal_iff _).2 ⟨?_, not_final_of_disputed hdisputed⟩, d, hd, rfl, hvd⟩
  rw [hdisputed]
  simp

/-- A vote on a target that is not terminal is in an open dispute, or in one that was spurious. -/
theorem Storage.votedOpen_or (h : s.court.Inv s.verdicts) {t : Target} (ht : s.court.NonTerminal t)
    (hv : s.court.VotedValid t v) : s.court.VotedOpen v ∨ s.StandsIn v := by
  obtain ⟨d, hd, hdt, hvd⟩ := hv
  cases hres : d.resolved with
  | false => exact .inl ⟨d, hd, hres, hvd⟩
  | true =>
    refine .inr ⟨t, ht, ?_⟩
    rw [← s.vouches_iff h ((h.nonTerminal_iff t).1 ht).2]
    exact ⟨d, hd, hdt, hres, hvd⟩

/-! ## When the lock is closed -/

/-- A verifier has live exposures exactly while it stands in for some target. -/
theorem World.Reachable.live_eq_zero_iff (hw : w.Reachable D) (hkeys : KeysInjective D.toEvm) (v : Address) :
    w.relay.exposure.verifierLiveExposures v = 0 ↔ ¬ w.relay.StandsIn v := by
  have hr := hw.registry
  have hlive : w.relay.exposure.verifierLiveExposures v = (w.relay.exposure.registry.keysOf v).ncard := hr.wf.live_eq v
  rw [hlive, Set.ncard_eq_zero (hr.wf.finite v), (hw.exposures hkeys).keysOf_eq hr hw.court, Set.image_eq_empty,
    ← Set.not_nonempty_iff_eq_empty]
  rfl

/-- **The lock is closed exactly for the registered verifiers that stand in for some target.** -/
theorem World.Reachable.exitLocked_iff (hw : w.Reachable D) (hkeys : KeysInjective D.toEvm) (v : Address) :
    ExitLocked D w v ↔ w.relay.roster.isRegisteredVerifier v ∧ w.relay.StandsIn v := by
  constructor
  · intro h
    refine ⟨h.registered, ?_⟩
    by_contra hfree
    obtain ⟨value, w', hs⟩ :=
      (hw.deregisterVerifier_iff v).2 ⟨h.registered, (hw.live_eq_zero_iff hkeys v).2 hfree⟩
    exact h.deregister value w' hs
  · rintro ⟨hin, hstands⟩
    constructor
    · exact hin
    · intro value w' hs
      have hidle := ((hw.deregisterVerifier_iff v).1 ⟨value, w', hs⟩).2
      exact (hw.live_eq_zero_iff hkeys v).1 hidle hstands
    · intro value w' hs
      exact (World.unstakeVerifier_ok hs).1 hin

/-! ## What a step does to it -/

/-- Only a registered verifier votes. -/
theorem Effect.votedValid (he : Effect D env s call s') {t : Target} (hv : s'.court.VotedValid t v) :
    s.court.VotedValid t v ∨ s.roster.isRegisteredVerifier v := by
  obtain ⟨d, hd, rfl, hvd⟩ := hv
  obtain ⟨id, hid⟩ := List.mem_iff_getElem?.1 hd
  rcases he.votes.dispute hid with ⟨tt, ti, li, rfl⟩ | ⟨x, hx, htarget, -, hvalid⟩
  · cases hvd
  · refine (hvalid v hvd).imp_left fun hvx => ?_
    exact ⟨x, List.mem_of_getElem? hx, htarget.symm, hvx⟩

/-- A target that is not terminal after a step, and on which there was a dispute before it, was not terminal before. -/
theorem World.Reachable.nonTerminal_before (hw : w.Reachable D) (hs : w.Step D w') {t : Target}
    (ht : w'.relay.court.NonTerminal t) (hv : w.relay.court.VotedValid t v) : w.relay.court.NonTerminal t := by
  obtain ⟨d, hd, rfl, -⟩ := hv
  refine (hw.court.nonTerminal_iff _).2 ⟨hw.court.filed hd, fun hf => ?_⟩
  have hlive := (((hw.next hs).court.nonTerminal_iff _).1 ht).2
  rcases hf with hp | hp
  · exact hlive (.inl (hw.phase_final (.single hs) (.inl rfl) hp))
  · exact hlive (.inr (hw.phase_final (.single hs) (.inr rfl) hp))

/-- A step from a world in which the votes of `v` lock it leaves `v` on the roster as long as a vote of it counts. -/
theorem World.Reachable.registered_step (hw : w.Reachable D) (hkeys : KeysInjective D.toEvm) (hs : w.Step D w')
    (hbacked : w.relay.court.VotedOpen v → w.relay.StandsIn v)
    (hin : ∀ t, w.relay.court.NonTerminal t → w.relay.court.VotedValid t v → w.relay.roster.isRegisteredVerifier v)
    {t : Target} (ht : w'.relay.court.NonTerminal t) (hv : w'.relay.court.VotedValid t v) :
    w'.relay.roster.isRegisteredVerifier v := by
  -- who has voted before is registered, and stands in for some target
  have hbefore : w.relay.court.VotedValid t v → w.relay.roster.isRegisteredVerifier v ∧ w.relay.StandsIn v := by
    intro hvw
    have htw := hw.nonTerminal_before hs ht hvw
    exact ⟨hin t htw hvw, (w.relay.votedOpen_or hw.court htw hvw).elim hbacked id⟩
  cases hs.change with
  | outside _ hrelay =>
    rw [hrelay] at hv ⊢
    exact (hbefore hv).1
  | call he =>
    cases he.roster hw.roster with
    | same hroster =>
      rw [hroster]
      rcases he.votedValid hv with hv | hv
      · exact (hbefore hv).1
      · exact hv
    | joined _ hroster hcourt =>
      rw [hcourt] at hv
      rw [hroster]
      dsimp only [Roster.joined]
      rw [Function.update_apply]
      split
      · rfl
      · exact (hbefore hv).1
    | left _ hidle _ hflags hcourt =>
      rw [hcourt] at hv
      obtain ⟨hreg, hstands⟩ := hbefore hv
      rw [hflags, Function.update_apply]
      split
      · rename_i hsender
        subst hsender
        exact absurd hstands ((hw.live_eq_zero_iff hkeys _).1 hidle)
      · exact hreg
  | withdraw _ _ _ hw' | withdrawReturn _ hw' =>
    subst hw'
    exact (hbefore hv).1

/-- Along a run in which the votes of `v` in open disputes are always backed, `v` is registered while a vote of it
counts. -/
theorem registered_of_backed {h : List World} (hh : History World.Initial (World.Step D) h)
    (hkeys : KeysInjective D.toEvm) (hbacked : ∀ u ∈ h, u.relay.court.VotedOpen v → u.relay.StandsIn v) :
    ∀ u ∈ h, ∀ t, u.relay.court.NonTerminal t → u.relay.court.VotedValid t v →
      u.relay.roster.isRegisteredVerifier v := by
  induction hh with
  | start hinit =>
    intro u hu t _ hv
    obtain rfl := List.mem_singleton.1 hu
    obtain ⟨now, -, rfl⟩ := hinit
    obtain ⟨d, hd, -⟩ := hv
    cases hd
  | step hh hs ih =>
    intro u hu
    have ih := ih fun x hx => hbacked x (List.mem_cons_of_mem _ hx)
    rcases List.mem_cons.1 hu with rfl | hu
    · have hw : World.Reachable D _ := hh.reachable
      intro t ht hv
      exact hw.registered_step hkeys hs (hbacked _ (by simp)) (ih _ (by simp)) ht hv
    · exact ih u hu

/-! ## The lock along a run -/

/-- **The exit lock holds all along a run if and only if every vote "valid" in an open dispute is backed by another one
that has been registered.** -/
theorem exit_lock {D : Deployment} {h : List World} (hh : History World.Initial (World.Step D) h)
    (hkeys : KeysInjective D.toEvm) (v : Address) :
    (∀ u ∈ h, ExitLock D u v) ↔ ∀ u ∈ h, u.relay.court.VotedOpen v → u.relay.StandsIn v := by
  have hreach : ∀ u ∈ h, u.Reachable D := by
    cases h with
    | nil => cases hh
    | cons w h => exact fun u hu => (hh.reaches u hu).1
  constructor
  · intro hlock u hu hopen
    obtain ⟨t, ht, hv⟩ := (hreach u hu).court.votedValid_of_open hopen
    exact (((hreach u hu).exitLocked_iff hkeys v).1 (hlock u hu t ht hv)).2
  · intro hbacked u hu t ht hv
    have hin := registered_of_backed hh hkeys hbacked u hu t ht hv
    refine ((hreach u hu).exitLocked_iff hkeys v).2 ⟨hin, ?_⟩
    rcases u.relay.votedOpen_or (hreach u hu).court ht hv with hopen | hstands
    · exact hbacked u hu hopen
    · exact hstands

namespace Toy

/-- The first record is disputed and 3 and 4 uphold it, 4 with the vote that decides. -/
def upholding : List Action := filings ++ [.call 9 10 (.openDispute 0), vote 3 0 0 0 0 false, vote 4 0 0 0 0 false]

def upheld : World := World.after (Deployment.toy 2) upholding (World.init 1000)

/-- The verifier 3 announces its exit, waits, votes "valid" in a dispute on the first record, and leaves with its stake
before the dispute is decided. -/
def departed : World := World.after (Deployment.toy 2) (filings ++ [
  .call 3 0 .announceVerifierUnstake,
  .tick (1000 + unstakeDelay),
  .call 9 10 (.openDispute 0),
  vote 3 0 0 0 0 false,
  .call 3 0 .deregisterVerifier,
  .call 3 0 .unstakeVerifier]) (World.init 1000)

end Toy

theorem exit_lock_toy : ExitLocked (Deployment.toy 2) Toy.upheld 4 := by
  have hh := World.init_history (D := Deployment.toy 2) (show 0 < 1000 by decide) Toy.upholding
  obtain ⟨hok, hopen, hphase, hv⟩ : (World.run (Deployment.toy 2) Toy.upholding (World.init 1000)).isOk ∧
      (∀ u ∈ World.trail (Deployment.toy 2) Toy.upholding (World.init 1000) [], ¬ u.relay.court.VotedOpen 4) ∧
      Toy.upheld.relay.court.phase (.record 0) = .undecided ∧
      Toy.upheld.relay.court.VotedValid (.record 0) 4 := by decide +kernel
  obtain ⟨h, htrail⟩ := World.trail_after hok []
  rw [htrail] at hh hopen
  have hlive : Toy.upheld.relay.court.NonTerminal (.record 0) := by
    have hw : Toy.upheld.Reachable (Deployment.toy 2) := hh.reachable
    rw [hw.court.nonTerminal_iff, hphase]
    simp [Phase.Final]
  have hlock := (exit_lock hh (.of_injective Evm.toy_injective) 4).2 fun u hu ho => absurd ho (hopen u hu)
  exact hlock Toy.upheld (by simp [Toy.upheld]) _ hlive hv

/-- A vote in a dispute that is still open does not lock. -/
theorem departed_unlocked :
    Toy.departed.Reachable (Deployment.toy 2) ∧ Toy.departed.relay.court.NonTerminal (.record 0) ∧
      Toy.departed.relay.court.VotedValid (.record 0) 3 ∧ ¬ Toy.departed.relay.roster.isRegisteredVerifier 3 ∧
      Toy.departed.relay.ledger.verifierStake 3 = 0 ∧ ¬ ExitLock (Deployment.toy 2) Toy.departed 3 := by
  have hw : Toy.departed.Reachable (Deployment.toy 2) := World.after_reachable _ (World.init_reachable (by decide))
  obtain ⟨hphase, hv, hout, hstake⟩ : Toy.departed.relay.court.phase (.record 0) = .disputed ∧
      Toy.departed.relay.court.VotedValid (.record 0) 3 ∧ ¬ Toy.departed.relay.roster.isRegisteredVerifier 3 ∧
      Toy.departed.relay.ledger.verifierStake 3 = 0 := by decide +kernel
  have hlive : Toy.departed.relay.court.NonTerminal (.record 0) := by
    rw [hw.court.nonTerminal_iff, hphase]
    simp [Phase.Final]
  exact ⟨hw, hlive, hv, hout, hstake, fun hlock => hout (hlock _ hlive hv).registered⟩

end PqIotAuth
