import PqIotAuth.Committee
import PqIotAuth.Nonces

/-!
# Who is on the committee

The roster over whole runs: only `stakeVerifier` and `deregisterVerifier` change it, for their caller alone, and the
events tell of each change (`Effect.membership`). So whoever has left, slashed or not, is added again exactly once by
the stake that reaches the threshold, and is not added by the stakes after it (`roster_exact`).
-/

namespace PqIotAuth

open Lib

variable {D : Deployment} {env : Env} {s s' : Storage} {call : Call} {w w' : World}

/-! ## What a call does to the roster -/

/-- The event tells of a verifier that joins or leaves. -/
def Event.ofRoster : Event → Bool
  | .verifierRegistered _ | .verifierDeregistered _ => true
  | _ => false

/-- The scan and the swap remove the caller and keep all others. -/
theorem Roster.Wf.deregisterLoop_perm {r r' : Roster} (h : r.Wf) {a : Address} (ha : r.isRegisteredVerifier a)
    (hr : PqIotAuth.deregisterLoop a r.verifierRoster.length r.verifierRoster.length 0
      { r with isRegisteredVerifier := Function.update r.isRegisteredVerifier a false } = .ok r') :
    (a :: r'.verifierRoster).Perm r.verifierRoster := by
  obtain ⟨l, hl, hperm⟩ := deregisterLoop_eq (a := a) (n := r.verifierRoster.length)
    (r := { r with isRegisteredVerifier := Function.update r.isRegisteredVerifier a false }) rfl (Nat.zero_add _)
    h.count (by simpa using (h.mem a).2 ha)
  obtain rfl := Except.ok.inj (hl.symm.trans hr)
  exact hperm

/-- The roster and the events of it after a call. -/
inductive Membership (D : Deployment) (env : Env) (s s' : Storage) : Call → Prop
  | joined (hnew : ¬ s.roster.isRegisteredVerifier env.sender)
      (hstake : D.verifierStakeAmount ≤ s'.ledger.verifierStake env.sender)
      (hroster : s'.roster = s.roster.joined env.sender)
      (hlogs : s'.logs = s.logs ++ [.verifierRegistered env.sender]) : Membership D env s s' .stakeVerifier
  | left (hperm : (env.sender :: s'.roster.verifierRoster).Perm s.roster.verifierRoster)
      (hlogs : s'.logs = s.logs ++ [.verifierDeregistered env.sender]) : Membership D env s s' .deregisterVerifier
  | same {call : Call} (hcall : call ≠ .deregisterVerifier)
      (hjoin : call = .stakeVerifier → s.roster.isRegisteredVerifier env.sender ∨
        s'.ledger.verifierStake env.sender < D.verifierStakeAmount)
      (hroster : s'.roster = s.roster) (events : List Event) (hlogs : s'.logs = s.logs ++ events)
      (hquiet : ∀ e ∈ events, e.ofRoster = false) : Membership D env s s' call

theorem Effect.membership (he : Effect D env s call s') (h : s.roster.Wf) : Membership D env s s' call := by
  have hsingle : ∀ {e : Event}, e.ofRoster = false → ∀ e' ∈ [e], e'.ofRoster = false := by
    intro e he e' he'
    rwa [List.mem_singleton.1 he']
  have hrevocation : ∀ {d : Dispute} {e : Event}, e.ofRoster = false →
      ∀ e' ∈ s.revocation d ++ [e], e'.ofRoster = false := by
    intro d e he e' he'
    rcases List.mem_append.1 he' with he' | he'
    · rw [Storage.mem_revocation he']
      rfl
    · exact hsingle he e' he'
  cases he with
  | joinVerifier _ hnew hstake =>
    refine .joined hnew ?_ rfl rfl
    dsimp only [Storage.emit, Ledger.verifierStaked]
    rwa [Function.update_self]
  | deregisterVerifier _ hin _ hroster => exact .left (h.deregisterLoop_perm hin hroster) rfl
  | stakeVerifier _ hjoin =>
    refine .same nofun (fun _ => hjoin.imp_right fun hlt => ?_) rfl [] (List.append_nil _).symm nofun
    dsimp only [Ledger.verifierStaked]
    rwa [Function.update_self]
  | submitBatch _ _ _ _ _ _ _ _ _ _ hm =>
    obtain ⟨events, -, hlogs, htold, -, -⟩ := processLeaves_events hm
    have hquiet : ∀ e : Event, e.ofRoster = false → ∀ e' ∈ events ++ [e], e'.ofRoster = false := by
      intro e he e' he'
      rcases List.mem_append.1 he' with he' | he'
      · obtain ⟨_, _, _, _, _, rfl, -⟩ := htold e' he'
        rfl
      · exact hsingle he e' he'
    exact .same nofun nofun rfl _ ((congrArg (· ++ [_]) hlogs).trans (List.append_assoc ..)) (hquiet _ rfl)
  | announceUnstake | announceVerifierUnstake | vote => exact .same nofun nofun rfl [] (List.append_nil _).symm nofun
  | fraud | expire => exact .same nofun nofun rfl _ (List.append_assoc ..) (hrevocation rfl)
  | _ => exact .same nofun nofun rfl _ rfl (hsingle rfl)

/-! ## What the events tell -/

/-- Every time a verifier has joined it has left again, but for the last time where it is on the roster. -/
def Storage.RosterTold (s : Storage) : Prop := ∀ v, s.logs.count (.verifierRegistered v) =
  s.logs.count (.verifierDeregistered v) + s.roster.verifierRoster.count v

theorem count_of_quiet {events : List Event} (h : ∀ e ∈ events, e.ofRoster = false) (v : Address) :
    events.count (.verifierRegistered v) = 0 ∧ events.count (.verifierDeregistered v) = 0 := by
  constructor
  · exact List.count_eq_zero_of_not_mem fun hm => absurd (h _ hm) (by simp [Event.ofRoster])
  · exact List.count_eq_zero_of_not_mem fun hm => absurd (h _ hm) (by simp [Event.ofRoster])

theorem Storage.RosterTold.quiet (h : s.RosterTold) (hroster : s'.roster = s.roster) {events : List Event}
    (hlogs : s'.logs = s.logs ++ events) (hquiet : ∀ e ∈ events, e.ofRoster = false) : s'.RosterTold := by
  intro v
  obtain ⟨hjoined, hleft⟩ := count_of_quiet hquiet v
  rw [hlogs, List.count_append, List.count_append, hjoined, hleft, hroster, h v]
  rfl

theorem Membership.told (hm : Membership D env s s' call) (h : s.RosterTold) : s'.RosterTold := by
  intro v
  have hv := h v
  cases hm with
  | joined _ _ hroster hlogs =>
    rw [hlogs, hroster, List.count_append, List.count_append, Roster.joined, List.count_append, hv]
    by_cases he : env.sender = v
    · subst he
      simp
      omega
    · simp [he]
  | left hperm hlogs =>
    have hcount := hperm.count_eq v
    rw [List.count_cons] at hcount
    rw [hlogs, List.count_append, List.count_append, hv, ← hcount]
    by_cases he : env.sender = v
    · subst he
      simp
      omega
    · simp [he]
  | same _ _ hroster events hlogs hquiet => exact h.quiet hroster hlogs hquiet v

namespace World

theorem Reachable.rosterTold (hw : w.Reachable D) : w.relay.RosterTold := by
  refine Reachable.invariant (P := fun w => w.relay.RosterTold) (fun _ _ _ => rfl) ?_ hw
  intro w w' hw h hs
  cases hs.change with
  | outside _ hrelay => exact hrelay ▸ h
  | call he => exact (he.membership hw.roster).told h
  | withdraw _ _ _ hw' => exact hw' ▸ h
  | withdrawReturn _ hw' =>
    rw [hw']
    exact Storage.RosterTold.quiet h rfl rfl (by simp [Event.ofRoster])

/-- A call of another function, or no call, leaves the roster. -/
theorem Reachable.roster_kept (hw : w.Reachable D) {a : Action} (hs : w.step D a = .ok w')
    (ha : ∀ v value, a ≠ .call v value .stakeVerifier ∧ a ≠ .call v value .deregisterVerifier) :
    w'.relay.roster = w.relay.roster := by
  by_cases hcall : ∀ sender value c, a ≠ .call sender value c
  · obtain ⟨_, _, _, hrelay, -⟩ := step_frame hs hcall
    rw [hrelay]
  · push Not at hcall
    obtain ⟨sender, value, c, rfl⟩ := hcall
    obtain ⟨t, he, rfl⟩ := call_effect hs
    obtain ⟨hstake, hderegister⟩ := ha sender value
    cases he.membership hw.roster with
    | joined => exact absurd rfl hstake
    | left => exact absurd rfl hderegister
    | same _ _ hroster => exact hroster

end World

/-! ## The committee of every run -/

/-- The roster of the world `w`, and how it can change. -/
structure RosterExact (D : Deployment) (w : World) : Prop where
  /-- The roster holds the registered verifiers, each once, and the counter is its length. -/
  wf : w.relay.roster.Wf
  /-- Who leaves is removed, and all others stay. -/
  removed : ∀ (v : Address) (value : ℕ) (w' : World), w.step D (.call v value .deregisterVerifier) = .ok w' →
    (v :: w'.relay.roster.verifierRoster).Perm w.relay.roster.verifierRoster
  /-- The scan finds whoever may leave. -/
  leaves : ∀ v, w.relay.roster.isRegisteredVerifier v → w.relay.exposure.verifierLiveExposures v = 0 →
    ∃ value w', w.step D (.call v value .deregisterVerifier) = .ok w'
  /-- A stake adds its sender when it reaches the threshold and its sender is not on the roster. -/
  added : ∀ (v : Address) (value : ℕ) (w' : World), w.step D (.call v value .stakeVerifier) = .ok w' →
    w'.relay.roster = if w.relay.roster.isRegisteredVerifier v ∨
      w'.relay.ledger.verifierStake v < D.verifierStakeAmount then w.relay.roster else w.relay.roster.joined v
  kept : ∀ (a : Action) (w' : World), w.step D a = .ok w' →
    (∀ v value, a ≠ .call v value .stakeVerifier ∧ a ≠ .call v value .deregisterVerifier) →
      w'.relay.roster = w.relay.roster
  /-- Whoever is not on the roster and is on it later has joined once, unless it has left again in between. -/
  readded : ∀ (v : Address) (w' : World), ¬ w.relay.roster.isRegisteredVerifier v → Reaches (World.Step D) w w' →
    w'.relay.logs.count (.verifierDeregistered v) = w.relay.logs.count (.verifierDeregistered v) →
      w'.relay.roster.isRegisteredVerifier v → w'.relay.roster.verifierRoster.count v = 1 ∧
        w'.relay.logs.count (.verifierRegistered v) = w.relay.logs.count (.verifierRegistered v) + 1

/-- **The roster represents the committee in every run.** -/
theorem roster_exact (hw : w.Reachable D) : RosterExact D w where
  wf := hw.roster
  removed := fun v value w' hs => by
    obtain ⟨t, he, rfl⟩ := World.call_effect hs
    cases he.membership hw.roster with
    | left hperm => exact hperm
    | same hcall => exact absurd rfl hcall
  leaves := fun v hin hidle => (hw.deregisterVerifier_iff v).2 ⟨hin, hidle⟩
  added := fun v value w' hs => by
    obtain ⟨t, he, rfl⟩ := World.call_effect hs
    cases he.membership hw.roster with
    | joined hnew hstake hroster => exact hroster.trans (if_neg (not_or.2 ⟨hnew, Nat.not_lt.2 hstake⟩)).symm
    | same _ hjoin hroster => exact hroster.trans (if_pos (hjoin rfl)).symm
  kept := fun a w' hs ha => hw.roster_kept hs ha
  readded := fun v w' hout hrun hleft hin => by
    have hw' : w'.Reachable D := hw.trans hrun
    have hcount : w'.relay.roster.verifierRoster.count v = 1 :=
      List.count_eq_one_of_mem hw'.roster.nodup ((hw'.roster.mem v).2 hin)
    have hnone : w.relay.roster.verifierRoster.count v = 0 :=
      List.count_eq_zero_of_not_mem fun hm => hout ((hw.roster.mem v).1 hm)
    refine ⟨hcount, ?_⟩
    rw [hw'.rosterTold v, hw.rosterTold v, hleft, hcount, hnone]

namespace Toy

/-- The verifier 5, slashed for its vote on record 1, leaves the roster. -/
def retired : World := World.after (Deployment.toy 2) [.call 5 0 .deregisterVerifier] world

theorem retired_reachable : retired.Reachable (Deployment.toy 2) := World.after_reachable _ world_reachable

/-- It stakes twice more. -/
def rejoining : List Action := [.call 5 1 .stakeVerifier, .call 5 1 .stakeVerifier]

end Toy

theorem roster_exact_toy :
    Toy.world.relay.ledger.verifierStake 5 = 25 ∧ Toy.retired.relay.roster.verifierRoster = [3, 4] ∧
    (World.after (Deployment.toy 2) Toy.rejoining Toy.retired).relay.roster.verifierRoster.count 5 = 1 ∧
    (World.after (Deployment.toy 2) Toy.rejoining Toy.retired).relay.logs.count (.verifierRegistered 5) = 2 := by
  obtain ⟨hslashed, hroster, hout, hleft, hin, hjoined⟩ : Toy.world.relay.ledger.verifierStake 5 = 25 ∧
      Toy.retired.relay.roster.verifierRoster = [3, 4] ∧
      ¬ Toy.retired.relay.roster.isRegisteredVerifier 5 ∧
      (World.after (Deployment.toy 2) Toy.rejoining Toy.retired).relay.logs.count (.verifierDeregistered 5) =
        Toy.retired.relay.logs.count (.verifierDeregistered 5) ∧
      (World.after (Deployment.toy 2) Toy.rejoining Toy.retired).relay.roster.isRegisteredVerifier 5 ∧
      Toy.retired.relay.logs.count (.verifierRegistered 5) = 1 := by decide +kernel
  have hrun := World.after_reaches (D := Deployment.toy 2) Toy.rejoining Toy.retired
  obtain ⟨hcount, hevents⟩ := (roster_exact Toy.retired_reachable).readded 5 _ hout hrun hleft hin
  exact ⟨hslashed, hroster, hcount, hevents.trans (by rw [hjoined])⟩

end PqIotAuth
