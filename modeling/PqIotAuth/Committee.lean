import PqIotAuth.LiveExposures
import Mathlib.Data.List.Perm.Basic

/-!
# The committee

The roster is an array from which a verifier that leaves is removed by putting the last entry in its place. In every run
it holds exactly the verifiers that are flagged as registered, each once, and the counter is its length
(`World.Reachable.roster`). So the removal always finds its entry, and `deregisterVerifier` succeeds exactly for a
registered verifier without live exposures (`World.Reachable.deregisterVerifier_iff`); `unstakeVerifier` is for those
that have left the roster.
-/

namespace PqIotAuth

open Lib

variable {D : Deployment} {env : Env} {s s' : Storage} {call : Call}

/-! ## Removing an entry -/

/-- Putting the last entry in the place of the entry at `i` and dropping the last one removes the entry at `i`. -/
theorem cons_dropLast_set_perm {l : List Address} {i : ℕ} {a last : Address} (ha : l[i]? = some a)
    (hlast : l[l.length - 1]? = some last) : (a :: (l.set i last).dropLast).Perm l := by
  obtain ⟨hi, rfl⟩ := List.getElem?_eq_some_iff.1 ha
  obtain ⟨hn, rfl⟩ := List.getElem?_eq_some_iff.1 hlast
  obtain ⟨m, z, rfl⟩ : ∃ m z, l = m ++ [z] :=
    ⟨_, _, (List.dropLast_append_getLast (List.length_pos_iff.1 (by omega))).symm⟩
  simp only [List.length_append, List.length_singleton] at hi hn ⊢
  by_cases him : i < m.length
  · -- the last entry moves into the rest
    have hset : ((m ++ [z]).set i z).dropLast = m.set i z := by
      rw [List.set_append_left _ _ him, List.dropLast_concat]
    simp only [Nat.add_sub_cancel, List.getElem_concat_length, hset, List.getElem_append_left him]
    have h1 := (List.set_perm_cons_eraseIdx him z).cons m[i]
    have h2 := (List.getElem_cons_eraseIdx_perm him).cons z
    exact (h1.trans (List.Perm.swap ..)).trans (h2.trans (List.perm_append_singleton z m).symm)
  · -- the entry is the last one
    obtain rfl : i = m.length := by omega
    simp only [Nat.add_sub_cancel, List.getElem_concat_length, List.set_append_right _ _ le_rfl, Nat.sub_self,
      List.set_cons_zero, List.dropLast_concat]
    exact (List.perm_append_singleton z m).symm

/-- **The scan finds its entry and removes it.** -/
theorem deregisterLoop_eq {a : Address} {n turns i : ℕ} {r : Roster} (hn : n = r.verifierRoster.length)
    (hi : i + turns = n) (hcount : r.verifierCount = n) (ha : a ∈ r.verifierRoster.drop i) :
    ∃ l, deregisterLoop a n turns i r = .ok { r with verifierRoster := l, verifierCount := n - 1 } ∧
      (a :: l).Perm r.verifierRoster := by
  subst hn
  induction turns generalizing i with
  | zero =>
    rw [List.drop_eq_nil_of_le (by omega)] at ha
    cases ha
  | succ turns ih =>
    have hlt : i < r.verifierRoster.length := by omega
    have hpos : 1 ≤ r.verifierCount := by omega
    have hget : r.verifierRoster[i]? = some r.verifierRoster[i] := List.getElem?_eq_getElem hlt
    obtain ⟨last, hlast⟩ : ∃ last, r.verifierRoster[r.verifierRoster.length - 1]? = some last :=
      ⟨_, List.getElem?_eq_getElem (by omega)⟩
    rw [deregisterLoop, load_eq_ok.2 hget, ok_bind]
    split
    · rename_i hx
      refine ⟨_, ?_, cons_dropLast_set_perm (hx ▸ hget) hlast⟩
      rw [load_eq_ok.2 hlast, ok_bind, store, modifyAt_eq_ok.2 ⟨_, hget, rfl⟩, ok_bind, checkedSub,
        if_pos hpos, ok_bind, hcount]
      rfl
    · rename_i hx
      rw [List.drop_eq_getElem_cons hlt, List.mem_cons] at ha
      exact ih (ha.resolve_left (Ne.symm hx)) (by omega)

/-! ## The roster of every run -/

namespace Roster

/-- The roster holds the registered verifiers, each once, and the counter is their number. -/
structure Wf (r : Roster) : Prop where
  mem : ∀ v, v ∈ r.verifierRoster ↔ r.isRegisteredVerifier v
  nodup : r.verifierRoster.Nodup
  count : r.verifierCount = r.verifierRoster.length

variable {r r' : Roster}

theorem Wf.joined (h : r.Wf) {a : Address} (ha : ¬ r.isRegisteredVerifier a) : (r.joined a).Wf := by
  constructor
  · intro v
    dsimp only [Roster.joined]
    rw [List.mem_append, List.mem_singleton, h.mem, Function.update_apply]
    by_cases hv : v = a <;> simp [hv]
  · refine List.nodup_append.2 ⟨h.nodup, List.nodup_singleton a, ?_⟩
    intro u hu v hv
    rw [List.mem_singleton.1 hv]
    rintro rfl
    exact ha ((h.mem _).1 hu)
  · dsimp only [Roster.joined]
    rw [h.count, List.length_append, List.length_singleton]

/-- The roster after a registered verifier has left it. -/
theorem Wf.deregisterLoop (h : r.Wf) {a : Address} (ha : r.isRegisteredVerifier a) :
    ∃ r', PqIotAuth.deregisterLoop a r.verifierRoster.length r.verifierRoster.length 0
        { r with isRegisteredVerifier := Function.update r.isRegisteredVerifier a false } = .ok r' ∧ r'.Wf ∧
      r'.isRegisteredVerifier = Function.update r.isRegisteredVerifier a false := by
  obtain ⟨l, hl, hperm⟩ := deregisterLoop_eq (a := a) (n := r.verifierRoster.length)
    (r := { r with isRegisteredVerifier := Function.update r.isRegisteredVerifier a false }) rfl (Nat.zero_add _)
    h.count (by simpa using (h.mem a).2 ha)
  refine ⟨_, hl, ?_, rfl⟩
  have hnodup : (a :: l).Nodup := hperm.nodup_iff.2 h.nodup
  have hlength := hperm.length_eq
  constructor
  · intro v
    dsimp only
    rw [Function.update_apply]
    have hmem := hperm.mem_iff (a := v)
    rw [List.mem_cons, h.mem] at hmem
    split
    · rename_i hv
      rw [hv]
      simpa using (List.nodup_cons.1 hnodup).1
    · rename_i hv
      rw [← hmem, or_iff_right hv]
  · exact (List.nodup_cons.1 hnodup).2
  · dsimp only at hlength ⊢
    rw [List.length_cons] at hlength
    omega

end Roster

/-- The roster after a call: a verifier has joined, a verifier has left, or it is as before. -/
inductive RosterChange (env : Env) (s s' : Storage) : Prop
  | same (hroster : s'.roster = s.roster)
  | joined (hnew : ¬ s.roster.isRegisteredVerifier env.sender) (hroster : s'.roster = s.roster.joined env.sender)
      (hcourt : s'.court = s.court)
  | left (hin : s.roster.isRegisteredVerifier env.sender) (hidle : s.exposure.verifierLiveExposures env.sender = 0)
      (hwf : s'.roster.Wf) (hflags : s'.roster.isRegisteredVerifier =
        Function.update s.roster.isRegisteredVerifier env.sender false) (hcourt : s'.court = s.court)

theorem Effect.roster (he : Effect D env s call s') (h : s.roster.Wf) : RosterChange env s s' := by
  cases he with
  | joinVerifier _ hnew => exact .joined hnew rfl rfl
  | deregisterVerifier _ hin hidle hroster =>
    obtain ⟨r', hr', hwf, hflags⟩ := h.deregisterLoop hin
    obtain rfl := Except.ok.inj (hr'.symm.trans hroster)
    exact .left hin hidle hwf hflags rfl
  | _ => exact .same rfl

namespace World

variable {w w' : World}

/-- **The roster of every run.** -/
theorem Reachable.roster (hw : Reachable D w) : w.relay.roster.Wf := by
  refine Reachable.invariant (P := fun w => w.relay.roster.Wf) (fun _ _ => ?_) ?_ hw
  · exact ⟨fun v => by simp [init, Storage.init], List.nodup_nil, rfl⟩
  · intro w w' _ h hs
    cases hs.change with
    | outside _ hrelay => exact hrelay ▸ h
    | call he =>
      cases he.roster h with
      | same hroster => exact hroster ▸ h
      | joined hnew hroster => exact hroster ▸ h.joined hnew
      | left _ _ hwf => exact hwf
    | withdraw _ _ _ hw' | withdrawReturn _ hw' => exact hw' ▸ h

/-- Leaving the roster succeeds exactly for a registered verifier without live exposures. -/
theorem Reachable.deregisterVerifier_iff (hw : Reachable D w) (v : Address) :
    (∃ value w', w.step D (.call v value .deregisterVerifier) = .ok w') ↔
      w.relay.roster.isRegisteredVerifier v ∧ w.relay.exposure.verifierLiveExposures v = 0 := by
  constructor
  · rintro ⟨value, w', hs⟩
    obtain ⟨s, he, rfl⟩ := call_effect hs
    cases he with
    | deregisterVerifier _ hin hidle => exact ⟨hin, hidle⟩
  · rintro ⟨hin, hidle⟩
    obtain ⟨r', hr', -⟩ := hw.roster.deregisterLoop hin
    refine ⟨0, step_of_run ⟨{ w.relay with roster := r' }.emit (.verifierDeregistered v), ?_⟩⟩
    have hreg : ¬ ¬ w.relay.roster.isRegisteredVerifier (w.env v 0).sender := not_not.2 hin
    have hlive : ¬ w.relay.exposure.verifierLiveExposures (w.env v 0).sender ≠ 0 := not_not.2 hidle
    rw [Call.run, deregisterVerifier, revertIf_of_not hreg, ok_bind, revertIf_of_not hlive, ok_bind]
    exact bind_eq_ok.2 ⟨r', hr', rfl⟩

/-- Who takes its stake back has left the roster and has no live exposures. -/
theorem unstakeVerifier_ok {v : Address} {value : ℕ} (hs : w.step D (.call v value .unstakeVerifier) = .ok w') :
    ¬ w.relay.roster.isRegisteredVerifier v ∧ w.relay.exposure.verifierLiveExposures v = 0 := by
  obtain ⟨s, he, rfl⟩ := call_effect hs
  cases he with
  | unstakeVerifier _ _ _ hout hidle => exact ⟨hout, hidle⟩

end World

end PqIotAuth
