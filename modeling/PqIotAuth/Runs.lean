import PqIotAuth.Relay.CourtInv
import PqIotAuth.System

/-!
# Runs of the chain

What one action does to the world (`World.Change`), and from it the first invariant of all runs: the books of the court
are kept (`World.Reachable.court`), so every call of a run makes a step on the court.
-/

namespace PqIotAuth

open Lib

/-- The storage the recipient of a withdrawal finds. -/
def Storage.withdrawing (a : Address) (s : Storage) : Storage := { s with guard := 2, ledger := s.ledger.withdrawn a }

namespace World

variable {D : Deployment} {w w' : World}

inductive Change (D : Deployment) (w w' : World) : Prop
  /-- Nothing happens to the relay but that ether is forced on it. -/
  | outside (hnow : w.now ≤ w'.now) (hrelay : w'.relay = w.relay)
      (hbalance : w'.balance + w.forceFed = w.balance + w'.forceFed) (hforced : w.forceFed ≤ w'.forceFed)
      (hopen : w'.openCalls = w.openCalls)
  | call {sender : Address} {value : ℕ} {c : Call} (he : Effect D (w.env sender value) w.relay c w'.relay)
      (hnow : w'.now = w.now) (hbalance : w'.balance = w.balance + value) (hforced : w'.forceFed = w.forceFed)
      (hopen : w'.openCalls = w.openCalls) (hstep : w.step D (.call sender value c) = .ok w')
  | withdraw {sender : Address} (hguard : w.relay.guard = 1) (hpending : w.relay.ledger.pendingWithdrawals sender ≠ 0)
      (hfunds : w.relay.ledger.pendingWithdrawals sender ≤ w.balance)
      (hw : w' = { w with
        relay := w.relay.withdrawing sender
        balance := w.balance - w.relay.ledger.pendingWithdrawals sender
        openCalls := (sender, w.relay.ledger.pendingWithdrawals sender) :: w.openCalls })
  | withdrawReturn {account : Address} {amount : ℕ} {calls : List (Address × ℕ)}
      (hopen : w.openCalls = (account, amount) :: calls)
      (hw : w' = { w with relay := PqIotAuth.withdrawReturn account amount w.relay, openCalls := calls })

/-- A call that succeeds has one of the effects, and brings its value. -/
theorem call_effect {sender : Address} {value : ℕ} {c : Call} (h : w.step D (.call sender value c) = .ok w') :
    ∃ s, Effect D (w.env sender value) w.relay c s ∧ w' = { w with relay := s, balance := w.balance + value } := by
  simp only [World.step, bind_eq_ok, pure_eq_ok] at h
  obtain ⟨s, hs, rfl⟩ := h
  exact ⟨s, exec_effect hs, rfl⟩

/-- Without a call the relay keeps everything but its guard, the events of withdrawals and, in a withdrawal, its
ledger. -/
theorem step_frame {a : Action} (hs : w.step D a = .ok w') (ha : ∀ sender value c, a ≠ .call sender value c) :
    ∃ ledger guard events, w'.relay = { w.relay with ledger, guard, logs := w.relay.logs ++ events } ∧
      ((∀ sender, a ≠ .withdraw sender) → ledger = w.relay.ledger) ∧
      ∀ e ∈ events, ∃ account amount, e = .withdrawn account amount := by
  cases a with
  | call sender value c => exact absurd rfl (ha sender value c)
  | tick timestamp =>
    simp only [World.step, bind_eq_ok, pure_eq_ok] at hs
    obtain ⟨_, -, rfl⟩ := hs
    exact ⟨_, _, [], by rw [List.append_nil], fun _ => rfl, by simp⟩
  | registerDID | deactivateDID | submitTransaction =>
    simp only [World.step, bind_eq_ok, pure_eq_ok] at hs
    obtain ⟨_, -, rfl⟩ := hs
    exact ⟨_, _, [], by rw [List.append_nil], fun _ => rfl, by simp⟩
  | withdraw sender =>
    simp only [World.step, PqIotAuth.withdraw, bind_eq_ok, revertIf_eq_ok, pure_eq_ok] at hs
    obtain ⟨p, ⟨_, -, _, -, rfl⟩, _, -, rfl⟩ := hs
    exact ⟨_, _, [], by rw [List.append_nil], fun h => absurd rfl (h sender), by simp⟩
  | withdrawReturn =>
    simp only [World.step] at hs
    split at hs
    · cases hs
    · obtain rfl := Except.ok.inj hs
      refine ⟨_, _, [_], rfl, fun _ => rfl, fun e he => ⟨_, _, List.mem_singleton.1 he⟩⟩
  | forceFeed amount =>
    obtain rfl := Except.ok.inj hs
    exact ⟨_, _, [], by rw [List.append_nil], fun _ => rfl, by simp⟩

theorem Step.change (h : Step D w w') : Change D w w' := by
  obtain ⟨a, h⟩ := h
  have hstep := h
  cases a with
  | tick timestamp =>
    simp only [World.step, bind_eq_ok, revertIf_eq_ok, pure_eq_ok, not_or, not_lt] at h
    obtain ⟨_, ⟨hnow, -⟩, rfl⟩ := h
    exact .outside hnow rfl rfl le_rfl rfl
  | registerDID | deactivateDID | submitTransaction =>
    simp only [World.step, bind_eq_ok, pure_eq_ok] at h
    obtain ⟨_, -, rfl⟩ := h
    exact .outside le_rfl rfl rfl le_rfl rfl
  | call sender value c =>
    obtain ⟨s, he, rfl⟩ := call_effect h
    exact .call he rfl rfl rfl rfl hstep
  | withdraw sender =>
    simp only [World.step, PqIotAuth.withdraw, bind_eq_ok, revertIf_eq_ok, pure_eq_ok, not_lt, not_not, ne_eq] at h
    obtain ⟨p, ⟨_, hguard, _, hpending, rfl⟩, _, hfunds, rfl⟩ := h
    exact .withdraw hguard hpending hfunds rfl
  | withdrawReturn =>
    simp only [World.step] at h
    split at h
    · simp at h
    · rename_i account amount calls hopen
      obtain rfl := Except.ok.inj h
      exact .withdrawReturn hopen rfl
  | forceFeed amount =>
    obtain rfl := Except.ok.inj h
    exact .outside le_rfl rfl (by dsimp only; omega) (by dsimp only; omega) rfl

/-- A call without a value whose function returns is an action that can be performed. -/
theorem step_of_run {sender : Address} {c : Call} (h : ∃ s', c.run D (w.env sender 0) w.relay = .ok s') :
    ∃ w', w.step D (.call sender 0 c) = .ok w' := by
  obtain ⟨s', hs'⟩ := h
  have hexec : c.exec D (w.env sender 0) w.relay = .ok s' := by
    unfold Call.exec
    rw [revertIf_of_not (by simp [World.env]), ok_bind, hs']
  rw [World.step, hexec]
  exact ⟨_, rfl⟩

theorem Step.now_le (h : Step D w w') : w.now ≤ w'.now := by
  cases h.change with
  | outside hnow => exact hnow
  | call _ hnow => exact hnow.ge
  | withdraw _ _ _ hw | withdrawReturn _ hw => exact hw ▸ le_rfl

theorem Reachable.next (hw : Reachable D w) (hs : Step D w w') : Reachable D w' := Lib.Reachable.step hw hs

/-- What holds of a fresh deployment and survives every action of a run holds in every run. -/
theorem Reachable.invariant {P : World → Prop} (h0 : ∀ now, 0 < now → P (init now))
    (hstep : ∀ w w', Reachable D w → P w → Step D w w' → P w') (h : Reachable D w) : P w := by
  refine Lib.Reachable.invariant ?_ hstep h
  rintro w ⟨now, hnow, rfl⟩
  exact h0 now hnow

/-- What survives every action of a run holds later in the run once it holds. -/
theorem Reachable.later {P : World → Prop} (hw : Reachable D w) (h : Reaches (Step D) w w')
    (hstep : ∀ u u', Reachable D u → P u → Step D u u' → P u') (hP : P w) : P w' :=
  h.invariant hstep hw hP

/-! ## The court of every run -/

theorem withdrawReturn_verdicts (account : Address) (amount : ℕ) (s : Storage) :
    (PqIotAuth.withdrawReturn account amount s).verdicts = s.verdicts :=
  (Storage.verdicts_append rfl).trans (List.append_nil _)

/-- What an action does to the court and to the verdicts. -/
theorem Change.courtStep (hinv : w.relay.court.Inv w.relay.verdicts) (h : Change D w w') :
    ∃ ov, CourtStep D w.now w.relay.court w'.relay.court ov ∧
      w'.relay.verdicts = w.relay.verdicts ++ ov.toList := by
  cases h with
  | outside _ hrelay => exact ⟨none, hrelay ▸ .idle, hrelay ▸ (List.append_nil _).symm⟩
  | call he => exact he.courtStep hinv
  | withdraw _ _ _ hw => exact ⟨none, hw ▸ .idle, hw ▸ (List.append_nil _).symm⟩
  | withdrawReturn _ hw =>
    subst hw
    exact ⟨none, .idle, (withdrawReturn_verdicts _ _ _).trans (List.append_nil _).symm⟩

/-- **The books of the court are kept in every run.** -/
theorem Reachable.court (h : Reachable D w) : w.relay.court.Inv w.relay.verdicts := by
  refine Reachable.invariant (P := fun w => w.relay.court.Inv w.relay.verdicts) (fun _ _ => Court.inv_init) ?_ h
  intro w w' _ hinv hs
  obtain ⟨ov, hstep, hv⟩ := hs.change.courtStep hinv
  rw [hv]
  exact hinv.step hstep

theorem Reachable.courtStep (h : Reachable D w) (hs : Step D w w') :
    ∃ ov, CourtStep D w.now w.relay.court w'.relay.court ov ∧
      w'.relay.verdicts = w.relay.verdicts ++ ov.toList :=
  hs.change.courtStep h.court

/-! ## Attempts -/

/-- The world after an attempt at an action: a call that reverts leaves everything as it was. -/
def attempt (D : Deployment) (w : World) (a : Action) : World :=
  match w.step D a with
  | .ok w' => w'
  | .error _ => w

def attempts (D : Deployment) (as : List Action) (w : World) : World := as.foldl (attempt D) w

/-- The attempts that succeed, each with the world in which it is made. -/
def accepted (D : Deployment) : List Action → World → List (World × Action)
  | [], _ => []
  | a :: as, w =>
    match w.step D a with
    | .ok w' => (w, a) :: accepted D as w'
    | .error _ => accepted D as w

theorem attempts_append (as bs : List Action) (w : World) :
    attempts D (as ++ bs) w = attempts D bs (attempts D as w) := List.foldl_append

theorem accepted_append (as bs : List Action) (w : World) :
    accepted D (as ++ bs) w = accepted D as w ++ accepted D bs (attempts D as w) := by
  induction as generalizing w with
  | nil => rfl
  | cons a as ih =>
    rw [List.cons_append, accepted, accepted]
    cases h : w.step D a with
    | ok w' =>
      simp only [ih, List.cons_append, attempts, List.foldl_cons, attempt, h]
    | error e =>
      simp only [ih, attempts, List.foldl_cons, attempt, h]

/-- One more attempt, that succeeds. -/
theorem attempts_concat {as : List Action} {a : Action} {u : World} (h : (attempts D as u).step D a = .ok w') :
    attempts D (as ++ [a]) u = w' := by
  rw [attempts_append, attempts, List.foldl_cons, attempt, h, List.foldl_nil]

/-- Each accepted action is one of the attempts, made in the world that those before have led to. -/
theorem mem_accepted {as : List Action} {u v : World} {a : Action} (h : (v, a) ∈ accepted D as u) :
    ∃ bs cs w', as = bs ++ a :: cs ∧ v = attempts D bs u ∧ v.step D a = .ok w' := by
  induction as generalizing u with
  | nil => cases h
  | cons b as ih =>
    rw [accepted] at h
    cases hb : u.step D b with
    | error e =>
      rw [hb] at h
      obtain ⟨bs, cs, w', rfl, rfl, hs⟩ := ih h
      refine ⟨b :: bs, cs, w', rfl, ?_, hs⟩
      rw [attempts, attempts, List.foldl_cons, attempt, hb]
    | ok u' =>
      rw [hb] at h
      rcases List.mem_cons.1 h with h | h
      · obtain ⟨rfl, rfl⟩ := Prod.mk.inj h
        exact ⟨[], as, u', rfl, rfl, hb⟩
      · obtain ⟨bs, cs, w', rfl, rfl, hs⟩ := ih h
        refine ⟨b :: bs, cs, w', rfl, ?_, hs⟩
        rw [attempts, attempts, List.foldl_cons, attempt, hb]

theorem attempts_reaches (as : List Action) (w : World) : Reaches (Step D) w (attempts D as w) := by
  induction as generalizing w with
  | nil => exact .refl
  | cons a as ih =>
    have hrest := ih (attempt D w a)
    unfold attempt at hrest
    rw [attempts, List.foldl_cons, attempt]
    cases h : w.step D a with
    | ok w' =>
      rw [h] at hrest
      exact .head ⟨a, h⟩ hrest
    | error e =>
      rw [h] at hrest
      exact hrest

theorem attempts_reachable {now : ℕ} (hnow : 0 < now) (as : List Action) : Reachable D (attempts D as (init now)) :=
  Lib.Reachable.trans (.start ⟨now, hnow, rfl⟩) (attempts_reaches as _)

/-- The worlds of all runs are those that attempts lead to. -/
theorem reachable_iff : Reachable D w ↔ ∃ now as, 0 < now ∧ w = attempts D as (init now) := by
  constructor
  · intro h
    induction h with
    | start h0 =>
      obtain ⟨now, hnow, rfl⟩ := h0
      exact ⟨now, [], hnow, rfl⟩
    | step _ hs ih =>
      obtain ⟨now, as, hnow, rfl⟩ := ih
      obtain ⟨a, ha⟩ := hs
      exact ⟨now, as ++ [a], hnow, (attempts_concat ha).symm⟩
  · rintro ⟨now, as, hnow, rfl⟩
    exact attempts_reachable hnow as

/-- The worlds in which the actions of a run are taken, the latest first. -/
def past (l : List (World × Action)) : List World := (l.map Prod.fst).reverse

theorem past_append (l : List (World × Action)) (a : Action) : past (l ++ [(w, a)]) = w :: past l := by
  unfold past
  rw [List.map_append, List.reverse_append]
  rfl

/-- What holds of no accepted action and survives each accepted action holds of the actions that have been accepted
and the world that they have led to. -/
theorem attempts_invariant {P : List (World × Action) → World → Prop} (hw : Reachable D w) (h0 : P [] w)
    (hstep : ∀ l u a u', Reachable D u → P l u → u.step D a = .ok u' → P (l ++ [(u, a)]) u') (as : List Action) :
    P (accepted D as w) (attempts D as w) := by
  induction as using List.reverseRecOn with
  | nil => exact h0
  | append_singleton as a ih =>
    rw [accepted_append, attempts_append]
    cases h : (attempts D as w).step D a with
    | ok w' =>
      simp only [accepted, attempts, List.foldl_cons, List.foldl_nil, attempt] at h ⊢
      rw [h]
      exact hstep _ _ _ _ (hw.trans (attempts_reaches as w)) ih h
    | error e =>
      simp only [accepted, attempts, List.foldl_cons, List.foldl_nil, attempt] at h ⊢
      rw [h, List.append_nil]
      exact ih

/-- The worlds on the way of the attempts make up a run. -/
theorem attempts_history {now : ℕ} (hnow : 0 < now) (as : List Action) :
    History Initial (Step D) (attempts D as (init now) :: past (accepted D as (init now))) := by
  refine attempts_invariant (P := fun l w => History Initial (Step D) (w :: past l)) (.start ⟨now, hnow, rfl⟩)
    (.start ⟨now, hnow, rfl⟩) ?_ as
  intro l u a u' _ hh hs
  rw [past_append]
  exact .step hh ⟨a, hs⟩

end World

end PqIotAuth
