import PqIotAuth.Runs

/-!
# Announced exits

A relay and a verifier leave in the same way: they announce the exit and, a delay later, take the stake of that role
back. The storage keeps only the earliest time of the exit; what the time stands for is the announcement
(`Announced`), which every run has made when a time is set (`World.Reachable.announced`).
-/

namespace PqIotAuth

open Lib

variable {D : Deployment} {env : Env} {s s' : Storage} {call : Call} {w w' : World}

/-- In which an account has a stake. -/
inductive Role where
  | relay
  | verifier
  deriving DecidableEq

namespace Role

def announce : Role → Call
  | relay => .announceUnstake
  | verifier => .announceVerifierUnstake

def unstake : Role → Call
  | relay => .unstakeRelay
  | verifier => .unstakeVerifier

def stake : Role → Ledger → Address → ℕ
  | relay => Ledger.relayStake
  | verifier => Ledger.verifierStake

def exitTime : Role → Exits → Address → ℕ
  | relay => Exits.relayExitTime
  | verifier => Exits.verifierExitTime

end Role

/-! ## Exit times -/

/-- The exit time of `a` after a call: a full delay away when `a` has announced its exit, cleared when it has left, and
as before otherwise. -/
theorem Effect.exitTime (he : Effect D env s call s') (role : Role) (a : Address) :
    (a = env.sender ∧ call = role.announce ∧ role.exitTime s'.exits a = env.timestamp + unstakeDelay) ∨
      (a = env.sender ∧ call = role.unstake ∧ role.exitTime s'.exits a = 0) ∨
      ((a = env.sender → call ≠ role.announce ∧ call ≠ role.unstake) ∧
        role.exitTime s'.exits a = role.exitTime s.exits a) := by
  by_cases ha : a = env.sender
  · subst ha
    cases role
    · cases he with
      | announceUnstake => exact .inl ⟨rfl, rfl, Function.update_self ..⟩
      | unstakeRelay => exact .inr (.inl ⟨rfl, rfl, Function.update_self ..⟩)
      | _ => exact .inr (.inr ⟨fun _ => ⟨nofun, nofun⟩, rfl⟩)
    · cases he with
      | announceVerifierUnstake => exact .inl ⟨rfl, rfl, Function.update_self ..⟩
      | unstakeVerifier => exact .inr (.inl ⟨rfl, rfl, Function.update_self ..⟩)
      | _ => exact .inr (.inr ⟨fun _ => ⟨nofun, nofun⟩, rfl⟩)
  · refine .inr (.inr ⟨fun h => absurd h ha, ?_⟩)
    cases he with
    | announceUnstake | unstakeRelay =>
      cases role
      · exact Function.update_of_ne ha ..
      · rfl
    | announceVerifierUnstake | unstakeVerifier =>
      cases role
      · rfl
      · exact Function.update_of_ne ha ..
    | _ => rfl

/-! ## Announcements -/

/-- Not an announcement or an exit of `a`. -/
def Quiet (role : Role) (a : Address) (_ : World) (act : Action) : Prop :=
  ∀ value, act ≠ .call a value role.announce ∧ act ≠ .call a value role.unstake

/-- The latest announcement of `a` was made at `time`, and it has not left since. -/
def Announced (D : Deployment) (role : Role) (a : Address) (time : ℕ) (w : World) : Prop :=
  ∃ (u u' : World) (value : ℕ), u.Reachable D ∧ u.now = time ∧ u.step D (.call a value role.announce) = .ok u' ∧
    Reaches (World.StepIf D (Quiet role a)) u' w

theorem Announced.quiet {role : Role} {a : Address} {time : ℕ} {act : Action} (h : Announced D role a time w)
    (hquiet : Quiet role a w act) (hs : w.step D act = .ok w') : Announced D role a time w' := by
  obtain ⟨u, u', value, hu, hnow, hann, hreach⟩ := h
  exact ⟨u, u', value, hu, hnow, hann, hreach.tail ⟨act, hquiet, hs⟩⟩

/-- **An exit time that is set was announced a delay before.** -/
theorem World.Reachable.announced (hw : w.Reachable D) (role : Role) (a : Address)
    (hset : role.exitTime w.relay.exits a ≠ 0) :
    ∃ time, Announced D role a time w ∧ role.exitTime w.relay.exits a = time + unstakeDelay := by
  revert hset
  refine World.Reachable.invariant (P := fun w => role.exitTime w.relay.exits a ≠ 0 →
    ∃ time, Announced D role a time w ∧ role.exitTime w.relay.exits a = time + unstakeDelay) ?_ ?_ hw
  · intro now _ hset
    cases role <;> exact absurd rfl hset
  · rintro w w' hw ih ⟨act, hs⟩ hset
    -- a step that leaves the time as it is leaves the announcement as it is
    have hkeep : Quiet role a w act → role.exitTime w'.relay.exits a = role.exitTime w.relay.exits a →
        ∃ time, Announced D role a time w' ∧ role.exitTime w'.relay.exits a = time + unstakeDelay := by
      intro hquiet hsame
      rw [hsame] at hset ⊢
      obtain ⟨time, hann, htime⟩ := ih hset
      exact ⟨time, hann.quiet hquiet hs, htime⟩
    by_cases hcall : ∀ sender value c, act ≠ .call sender value c
    · refine hkeep (fun value => ⟨hcall _ _ _, hcall _ _ _⟩) ?_
      obtain ⟨_, _, _, hrelay, -⟩ := World.step_frame hs hcall
      rw [hrelay]
    · push Not at hcall
      obtain ⟨sender, value, c, rfl⟩ := hcall
      obtain ⟨t, he, rfl⟩ := World.call_effect hs
      rcases he.exitTime role a with ⟨rfl, rfl, htime⟩ | ⟨-, -, hcleared⟩ | ⟨hother, hsame⟩
      · exact ⟨w.now, ⟨w, _, value, hw, rfl, hs, .refl⟩, htime⟩
      · exact absurd hcleared hset
      · refine hkeep (fun v => ⟨?_, ?_⟩) hsame
        · rintro ⟨rfl, -, rfl⟩
          exact (hother rfl).1 rfl
        · rintro ⟨rfl, -, rfl⟩
          exact (hother rfl).2 rfl

end PqIotAuth
