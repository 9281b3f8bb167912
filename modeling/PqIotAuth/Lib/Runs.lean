import Mathlib.Logic.Relation
import Mathlib.Order.Basic
import Mathlib.Tactic.Common

/-!
# Runs of a transition system

A transition system is a predicate on its first states and a step relation. `Reachable` is the set of its states,
`Reaches` what comes later in a run, and a `History` is the list of the states of one run so far, the latest first.

* `Reachable.invariant` and `Reaches.invariant`: what the steps preserve holds of every state of a run.
* `Reachable.began`: what holds in a state and not at the start was brought about by some step before.
* `Reaches.exhaust`: where a positive measure can always be lowered, some run brings it to 0.
* A system with a clock: `timeIn P h` is the time that the run `h` has spent in states with `P`, and `since P h` the
  time at which `P` first held. When `P` stays once it holds, the time in `P` is the time since then
  (`since_add_timeIn`), and it is split by every partition of `P` (`timeIn_or`).
-/

namespace PqIotAuth.Lib

variable {W : Type}

/-! ## Reachability -/

/-- The states of the runs from the states with `init`. -/
inductive Reachable (init : W → Prop) (step : W → W → Prop) : W → Prop
  | start {w : W} : init w → Reachable init step w
  | step {w w' : W} : Reachable init step w → step w w' → Reachable init step w'

/-- `w'` comes after `w`, or is `w`, in some run. -/
abbrev Reaches (step : W → W → Prop) : W → W → Prop := Relation.ReflTransGen step

variable {init : W → Prop} {step step' : W → W → Prop}

theorem Reachable.mono (h : ∀ w w', step w w' → step' w w') {w : W} (hw : Reachable init step w) :
    Reachable init step' w := by
  induction hw with
  | start h0 => exact .start h0
  | step _ hs ih => exact .step ih (h _ _ hs)

/-- **Invariant rule.** What holds at the start and survives each step from a reachable state holds of every reachable
state. -/
theorem Reachable.invariant {P : W → Prop} (h0 : ∀ w, init w → P w)
    (hstep : ∀ w w', Reachable init step w → P w → step w w' → P w') {w : W} (hw : Reachable init step w) : P w := by
  induction hw with
  | start h => exact h0 _ h
  | step hr hs ih => exact hstep _ _ hr ih hs

theorem Reachable.trans {w w' : W} (hw : Reachable init step w) (h : Reaches step w w') :
    Reachable init step w' := by
  induction h with
  | refl => exact hw
  | tail _ hs ih => exact .step ih hs

/-- What each step from a reachable state preserves holds later in the run once it holds. -/
theorem Reaches.invariant {P : W → Prop} (hstep : ∀ w w', Reachable init step w → P w → step w w' → P w')
    {w w' : W} (hw : Reachable init step w) (hP : P w) (h : Reaches step w w') : P w' := by
  induction h with
  | refl => exact hP
  | tail hr hs ih => exact hstep _ _ (hw.trans hr) ih hs

/-- What holds now and not at the start began with some step of the run. -/
theorem Reachable.began {P : W → Prop} (h0 : ∀ w, init w → ¬ P w) {w : W} (hw : Reachable init step w) (hP : P w) :
    ∃ u u', Reachable init step u ∧ ¬ P u ∧ step u u' ∧ P u' ∧ Reaches step u' w := by
  induction hw with
  | start h => exact absurd hP (h0 _ h)
  | @step w w' hw hs ih =>
    by_cases hPw : P w
    · obtain ⟨u, u', hu, hnot, hs', hyes, hreach⟩ := ih hPw
      exact ⟨u, u', hu, hnot, hs', hyes, hreach.tail hs⟩
    · exact ⟨w, w', hw, hPw, hs, hP, .refl⟩

/-- **Exhaustion rule.** When some run leads from every state with `P` and a positive measure to one with `P` and a lower
measure, some run leads from every state with `P` to one with `P` and measure 0. -/
theorem Reaches.exhaust {P : W → Prop} (measure : W → ℕ)
    (hlower : ∀ w, P w → 0 < measure w → ∃ w', Reaches step w w' ∧ P w' ∧ measure w' < measure w) {w : W} (hw : P w) :
    ∃ w', Reaches step w w' ∧ P w' ∧ measure w' = 0 := by
  induction hn : measure w using Nat.strongRecOn generalizing w with
  | ind n ih =>
    subst hn
    rcases Nat.eq_zero_or_pos (measure w) with hzero | hpos
    · exact ⟨w, .refl, hw, hzero⟩
    · obtain ⟨u, hu, hPu, hlt⟩ := hlower w hw hpos
      obtain ⟨w', hw', hP, hzero⟩ := ih _ hlt hPu rfl
      exact ⟨w', hu.trans hw', hP, hzero⟩

/-! ## Histories -/

/-- The states of one run so far, the latest first. -/
inductive History (init : W → Prop) (step : W → W → Prop) : List W → Prop
  | start {w : W} : init w → History init step [w]
  | step {w w' : W} {h : List W} : History init step (w :: h) → step w w' → History init step (w' :: w :: h)

theorem History.reachable : ∀ {w : W} {h : List W}, History init step (w :: h) → Reachable init step w
  | _, _, .start h0 => .start h0
  | _, _, .step hh hs => .step hh.reachable hs

/-- The latest state of a run comes after each of its states. -/
theorem History.reaches {w : W} {h : List W} (hh : History init step (w :: h)) :
    ∀ u ∈ w :: h, Reachable init step u ∧ Reaches step u w := by
  induction h generalizing w with
  | nil =>
    intro u hu
    obtain rfl := List.mem_singleton.1 hu
    exact ⟨hh.reachable, .refl⟩
  | cons v h ih =>
    intro u hu
    rcases List.mem_cons.1 hu with rfl | hu
    · exact ⟨hh.reachable, .refl⟩
    · cases hh with
      | step hh hs =>
        obtain ⟨hr, hv⟩ := ih hh u hu
        exact ⟨hr, hv.tail hs⟩

/-- What stays once it holds and does not hold now has never held. -/
theorem History.never {P : W → Prop} (hstay : ∀ w w', Reachable init step w → P w → step w w' → P w') {u : W}
    {h : List W} (hh : History init step (u :: h)) (hu : ¬ P u) : ∀ v ∈ u :: h, ¬ P v := by
  intro v hv hpv
  obtain ⟨hr, hvu⟩ := hh.reaches v hv
  exact hu (hvu.invariant hstay hr hpv)

/-! ## Time -/

section Clock

variable (clock : W → ℕ) (P Q R : W → Prop) [DecidablePred P] [DecidablePred Q] [DecidablePred R]

/-- The time that a run has spent in states with `P`. -/
def timeIn : List W → ℕ
  | w' :: w :: h => timeIn (w :: h) + if P w then clock w' - clock w else 0
  | _ => 0

/-- The time at which `P` first held in a run, 0 when it never did. -/
def since : List W → ℕ
  | [] => 0
  | w :: h => if ∃ u ∈ h, P u then since h else if P w then clock w else 0

variable {P Q R}

/-- The time in a property is the sum of the times in two others when, before the latest state, it holds if and only if
exactly one of them does. -/
theorem timeIn_or {w : W} {h : List W} (hp : ∀ u ∈ h, P u ↔ Q u ∨ R u) (hd : ∀ u ∈ h, ¬ (Q u ∧ R u)) :
    timeIn clock P (w :: h) = timeIn clock Q (w :: h) + timeIn clock R (w :: h) := by
  induction h generalizing w with
  | nil => rfl
  | cons u h ih =>
    have hP := hp u (by simp)
    have hQR := hd u (by simp)
    simp only [timeIn, ih (fun x hx => hp x (by simp [hx])) fun x hx => hd x (by simp [hx])]
    by_cases hq : Q u
    · have hr : ¬ R u := fun hr => hQR ⟨hq, hr⟩
      simp only [hP, hq, hr, true_or, if_true, if_false]
      omega
    · by_cases hr : R u
      · simp only [hP, hq, hr, or_true, if_true, if_false]
        omega
      · simp only [hP, hq, hr, or_self, if_false]
        omega

/-- The latest state of a run has not spent any time yet. -/
theorem timeIn_congr {w : W} {h : List W} (hp : ∀ u ∈ h, P u ↔ Q u) :
    timeIn clock P (w :: h) = timeIn clock Q (w :: h) := by
  induction h generalizing w with
  | nil => rfl
  | cons u h ih =>
    simp only [timeIn, ih fun x hx => hp x (by simp [hx]), hp u (by simp)]

theorem timeIn_eq_zero {w : W} {h : List W} (hp : ∀ u ∈ h, ¬ P u) : timeIn clock P (w :: h) = 0 := by
  induction h generalizing w with
  | nil => rfl
  | cons u h ih =>
    rw [timeIn, ih fun x hx => hp x (by simp [hx]), if_neg (hp u (by simp))]

/-- The first time of what stays once it holds is that of the step that brings it about. -/
theorem since_began (hstay : ∀ w w', Reachable init step w → P w → step w w' → P w') {w u : W} {h : List W}
    (hh : History init step (u :: h)) (hu : ¬ P u) (hw : P w) : since clock P (w :: u :: h) = clock w := by
  have hnever := hh.never hstay hu
  rw [since, if_neg (by simpa using hnever), if_pos hw]

theorem since_stays {w u : W} {h : List W} (hu : P u) : since clock P (w :: u :: h) = since clock P (u :: h) := by
  rw [since, if_pos ⟨u, by simp, hu⟩]

/-- When `P` stays once it holds and the clock never goes back, the time since `P` first held is the time in `P`. -/
theorem since_add_timeIn (hclock : ∀ w w', step w w' → clock w ≤ clock w')
    (hstay : ∀ w w', Reachable init step w → P w → step w w' → P w') {w : W} {h : List W}
    (hh : History init step (w :: h)) (hw : P w) :
    since clock P (w :: h) + timeIn clock P (w :: h) = clock w := by
  induction h generalizing w with
  | nil => simp [since, timeIn, hw]
  | cons u h ih =>
    cases hh with
    | step hh hs =>
      by_cases hu : P u
      · have := ih hh hu
        have := hclock u w hs
        rw [since_stays clock hu, timeIn, if_pos hu]
        omega
      · rw [since_began clock hstay hh hu hw, timeIn_eq_zero clock (hh.never hstay hu), Nat.add_zero]

end Clock

end PqIotAuth.Lib
