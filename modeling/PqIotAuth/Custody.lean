import PqIotAuth.Announcements
import PqIotAuth.Committee
import PqIotAuth.Slashing

/-!
# Custody

What an account has with the contract is its two stakes and its credit. `custody` frames every action of every run
against the three of them: a stake goes down only when its owner takes it back, free of disputes and exposures and a
full delay after it has announced that, or when a fraud verdict falls against the owner; a credit goes down only when
its owner withdraws it, all of it. Whatever anyone else does leaves an account with at least what it had.
-/

namespace PqIotAuth

open Lib

variable {D : Deployment} {env : Env} {s s' : Storage} {call : Call} {w w' : World} {a : Address}

/-! ## How a stake or a credit can go down -/

/-- No unresolved dispute is on a target that `a` has endorsed; for the stake of a verifier, `a` is off the roster and
has no live exposures. -/
def Role.Free (a : Address) (s : Storage) : Role → Prop
  | .relay => ∀ d ∈ s.court.disputes, d.resolved = false → s.court.relayOf d.target ≠ some a
  | .verifier => ¬ s.roster.isRegisteredVerifier a ∧ a ∉ s.roster.verifierRoster ∧
      s.exposure.verifierLiveExposures a = 0

/-- The action is the exit of `a` from the role: free, and a full delay after its latest announcement. -/
structure OwnExit (D : Deployment) (role : Role) (a : Address) (w : World) (act : Action) : Prop where
  own : ∃ value, act = .call a value role.unstake
  free : role.Free a w.relay
  due : ∃ time, Announced D role a time w ∧ time + unstakeDelay ≤ w.now

/-- The action completes a fraud verdict on a target that `a` has endorsed or voted "valid" on. -/
structure FraudAgainst (a : Address) (w w' : World) (id : ℕ) (d : Dispute) (act : Action) : Prop where
  attests : ∃ sender value verdict signature, act = .call sender value (.submitAttestation id verdict signature)
  dispute : w.relay.court.disputes[id]? = some d
  unresolved : d.resolved = false
  verdict : .disputeResolved id true ∉ w.relay.logs ∧ .disputeResolved id true ∈ w'.relay.logs
  answers : w.relay.court.relayOf d.target = some a ∨ w'.relay.court.VotedValid d.target a

namespace Ledger

variable {l : Ledger}

theorem stake_credited (role : Role) (b : Address) (n : ℕ) : role.stake (l.credited b n) = role.stake l := by
  cases role <;> rfl

theorem stake_paid (role : Role) (attesters : List Address) (n : ℕ) :
    role.stake (l.paid attesters n) = role.stake l := by
  cases role
  · exact (stakes_paid attesters n).1
  · exact (stakes_paid attesters n).2

end Ledger

/-- The guards of an exit. -/
structure Exiting (role : Role) (env : Env) (s : Storage) (call : Call) : Prop where
  exit : call = role.unstake
  counters : match role with
    | .relay => s.court.relayActiveDisputes env.sender = 0
    | .verifier => ¬ s.roster.isRegisteredVerifier env.sender ∧ s.exposure.verifierLiveExposures env.sender = 0
  announced : role.exitTime s.exits env.sender ≠ 0
  due : role.exitTime s.exits env.sender ≤ env.timestamp

/-- A call that takes from a stake is the exit of its owner or completes a fraud verdict. -/
theorem Effect.stake_lost (he : Effect D env s call s') {role : Role} (hlost : role.stake s'.ledger a <
    role.stake s.ledger a) :
    (a = env.sender ∧ Exiting role env s call) ∨ ∃ id verdict signature signer d relay,
      call = .submitAttestation id verdict signature ∧ Voting D env s id verdict signature signer d relay ∧
        s' = (s.voted id verdict signer d).afterFraud D id (d.voted verdict signer) relay := by
  have hsame : role.stake s'.ledger = role.stake s.ledger → False := fun h => by
    rw [h] at hlost
    exact Nat.lt_irrefl _ hlost
  have hgrown : ∀ (f : Address → ℕ) (b : Address) (n : ℕ),
      ¬ Function.update f b (f b + n) a < f a := by
    intro f b n
    rw [Function.update_apply]
    split
    · rename_i hab
      rw [hab]
      omega
    · exact Nat.lt_irrefl _
  cases he with
  | stakeRelay =>
    cases role
    · exact absurd hlost (hgrown s.ledger.relayStake env.sender env.value)
    · exact (hsame rfl).elim
  | stakeVerifier | joinVerifier =>
    cases role
    · exact (hsame rfl).elim
    · exact absurd hlost (hgrown s.ledger.verifierStake env.sender env.value)
  | unstakeRelay _ _ _ hidle hannounced hexit =>
    cases role
    · refine .inl ⟨?_, rfl, hidle, hannounced, hexit⟩
      by_contra hne
      exact absurd hlost (Nat.not_lt.2 (Function.update_of_ne hne ..).ge)
    · exact (hsame rfl).elim
  | unstakeVerifier _ _ _ hout hidle hannounced hexit =>
    cases role
    · exact (hsame rfl).elim
    · refine .inl ⟨?_, rfl, ⟨hout, hidle⟩, hannounced, hexit⟩
      by_contra hne
      exact absurd hlost (Nat.not_lt.2 (Function.update_of_ne hne ..).ge)
  | fraud _ hvote => exact .inr ⟨_, _, _, _, _, _, rfl, hvote, rfl⟩
  | spurious => exact (hsame ((Ledger.stake_credited ..).trans (Ledger.stake_paid ..))).elim
  | expire => exact (hsame (Ledger.stake_credited ..)).elim
  | _ => exact (hsame rfl).elim

theorem Court.Inv.free_of_inactive {c : Court} {vs : List (ℕ × Verdict)} (h : c.Inv vs)
    (hidle : c.relayActiveDisputes a = 0) :
    ∀ d ∈ c.disputes, d.resolved = false → c.relayOf d.target ≠ some a := by
  intro d hd hun hrel
  rw [h.active, openOn, List.countP_eq_zero] at hidle
  exact hidle d hd (by simp [hun, hrel])

theorem World.Reachable.ownExit (hw : w.Reachable D) {role : Role} {value : ℕ} {c : Call}
    (h : Exiting role (w.env a value) w.relay c) : OwnExit D role a w (.call a value c) := by
  obtain ⟨time, hann, htime⟩ := hw.announced role a h.announced
  refine ⟨⟨value, by rw [h.exit]⟩, ?_, time, hann, htime ▸ h.due⟩
  cases role with
  | relay => exact hw.court.free_of_inactive h.counters
  | verifier =>
    obtain ⟨hout, hidle⟩ := h.counters
    exact ⟨hout, fun hmem => hout ((hw.roster.mem a).1 hmem), hidle⟩

/-- A fraud verdict that takes from a stake falls against its owner. -/
theorem FraudAgainst.of_vote (hw : w.Reachable D) (hkeys : KeysInjective D.toEvm) (hs : w.Step D w') {role : Role}
    {sender signer relay : Address} {value id : ℕ} {verdict : Bool} {signature : List Byte} {d : Dispute}
    (hvote : Voting D env w.relay id verdict signature signer d relay)
    (hw' : w'.relay = (w.relay.voted id verdict signer d).afterFraud D id (d.voted verdict signer) relay)
    (hlost : role.stake w'.relay.ledger a < role.stake w.relay.ledger a) :
    FraudAgainst a w w' id d (.call sender value (.submitAttestation id verdict signature)) := by
  have hslash := FraudSlashing.of_vote hw hkeys hs hvote hw'
  refine ⟨⟨_, _, _, _, rfl⟩, hvote.dispute, hvote.unresolved, ⟨?_, ?_⟩, ?_⟩
  · intro hlog
    exact hw.court.docket.not_open ((Storage.mem_verdicts (v := .fraud)).2 hlog) d.target
      (Court.docket_case.2 ⟨d, hvote.dispute, rfl, hvote.unresolved⟩)
  · rw [hw']
    exact List.mem_append_right _ (List.mem_singleton_self _)
  · by_contra hnone
    rw [not_or] at hnone
    obtain ⟨hv, hr⟩ := hslash.others a hnone.2 fun har => hnone.1 (har ▸ targetRelay_ok'.1 hvote.endorsed)
    cases role
    · exact absurd hlost (Nat.not_lt.2 hr.ge)
    · exact absurd hlost (Nat.not_lt.2 hv.ge)

/-- A stake goes down by the exit of its owner or by a fraud verdict against it. -/
theorem World.Reachable.stake_lost (hw : w.Reachable D) (hkeys : KeysInjective D.toEvm) {act : Action}
    (hs : w.step D act = .ok w') {role : Role} (hlost : role.stake w'.relay.ledger a < role.stake w.relay.ledger a) :
    OwnExit D role a w act ∨ ∃ id d, FraudAgainst a w w' id d act := by
  cases act with
  | call sender value c =>
    have hstep := hs
    obtain ⟨s, he, rfl⟩ := World.call_effect hs
    rcases he.stake_lost hlost with ⟨rfl, hexit⟩ | ⟨id, verdict, signature, signer, d, relay, rfl, hvote, hs'⟩
    · exact .inl (hw.ownExit hexit)
    · exact .inr ⟨id, d, .of_vote hw hkeys ⟨_, hstep⟩ hvote hs' hlost⟩
  | withdraw sender =>
    simp only [World.step, PqIotAuth.withdraw, bind_eq_ok, revertIf_eq_ok, pure_eq_ok] at hs
    obtain ⟨p, ⟨_, -, _, -, rfl⟩, _, -, rfl⟩ := hs
    cases role <;> exact absurd hlost (Nat.lt_irrefl _)
  | tick | registerDID | deactivateDID | submitTransaction | withdrawReturn | forceFeed =>
    obtain ⟨_, _, _, hrelay, hledger, -⟩ := World.step_frame hs (by simp)
    obtain rfl := hledger (by simp)
    rw [hrelay] at hlost
    exact absurd hlost (Nat.lt_irrefl _)

end PqIotAuth
