import PqIotAuth.ExitLock
import PqIotAuth.Nonces
import PqIotAuth.Progress

/-!
# Withdrawals are atomic

A withdrawal runs code of its recipient before it returns, and that code may call the contracts. It gains nothing by it:
what a call does depends neither on the guard nor on the events told so far (`Oblivious`), unless the guard makes it
revert. So the return of a withdrawal can be moved to its beginning, and every world of a run is, up to the place of the
withdrawals among the events, the world of a run in which every withdrawal returns at once (`withdraw_atomic`).
-/

namespace PqIotAuth

open Lib

variable {D : Deployment} {env : Env} {s s' : Storage} {call : Call} {w w' : World}

/-! ## What the functions do not read -/

/-- The storage with the guard `g`, and with `logs` told before its own events. -/
def Storage.behind (g : ℕ) (logs : List Event) (s : Storage) : Storage := { s with guard := g, logs := logs ++ s.logs }

/-- The function reads neither the guard nor the events. -/
def Oblivious (f : Storage → Except Error Storage) : Prop :=
  ∀ (g : ℕ) (logs : List Event) (s : Storage), f (s.behind g logs) = Storage.behind g logs <$> f s

theorem Storage.behind_emit (g : ℕ) (logs : List Event) (s : Storage) (e : Event) :
    (s.emit e).behind g logs = (s.behind g logs).emit e := by
  simp only [behind, emit, List.append_assoc]

section Functions

theorem stakeRelay_oblivious : Oblivious (stakeRelay env) := by
  intro g logs s
  simp only [stakeRelay, map_bind, map_pure, Storage.behind_emit]
  rfl

theorem announceUnstake_oblivious : Oblivious (announceUnstake env) := by
  intro g logs s
  simp only [announceUnstake, map_bind, map_pure]
  rfl

theorem announceVerifierUnstake_oblivious : Oblivious (announceVerifierUnstake env) := by
  intro g logs s
  simp only [announceVerifierUnstake, map_bind, map_pure]
  rfl

theorem stakeVerifier_oblivious : Oblivious (stakeVerifier D env) := by
  intro g logs s
  simp only [stakeVerifier, map_bind, map_pure, Storage.behind_emit, apply_ite (Storage.behind g logs <$> ·)]
  rfl

theorem submitAccountable_oblivious (dataHash didHash : Bytes32) (falconSignature : List Byte) :
    Oblivious (submitAccountable D env dataHash didHash falconSignature) := by
  intro g logs s
  simp only [submitAccountable, map_bind, map_pure, Storage.behind_emit]
  rfl

theorem finalizeRecord_oblivious (i : ℕ) : Oblivious (finalizeRecord D env i) := by
  intro g logs s
  simp only [finalizeRecord, map_bind, map_pure, Storage.behind_emit]
  rfl

theorem finalizeBatch_oblivious (i : ℕ) : Oblivious (finalizeBatch D env i) := by
  intro g logs s
  simp only [finalizeBatch, map_bind, map_pure, Storage.behind_emit]
  rfl

theorem openDispute_oblivious (i : ℕ) : Oblivious (openDispute D env i) := by
  intro g logs s
  simp only [openDispute, pushDispute, map_bind, map_pure, Storage.behind_emit]
  rfl

theorem openBatchLeafDispute_oblivious (b l : ℕ) (didHash : Bytes32) (nonce : Fin wordSize)
    (dataHash sigHash : Bytes32) (proof : List Bytes32) :
    Oblivious (openBatchLeafDispute D env b l didHash nonce dataHash sigHash proof) := by
  intro g logs s
  simp only [openBatchLeafDispute, pushDispute, map_bind, map_pure, Storage.behind_emit]
  rfl

theorem deregisterVerifier_oblivious : Oblivious (deregisterVerifier env) := by
  intro g logs s
  simp only [deregisterVerifier, map_bind, map_pure, Storage.behind_emit]
  rfl

theorem revokeTarget_oblivious (d : Dispute) : Oblivious (revokeTarget d) := by
  intro g logs s
  simp only [revokeTarget, map_bind, map_pure, Storage.behind_emit, apply_ite (Storage.behind g logs <$> ·)]
  rfl

theorem resolveSpurious_oblivious (id : ℕ) : Oblivious (resolveSpurious D id) := by
  intro g logs s
  simp only [resolveSpurious, map_bind, map_pure, Storage.behind_emit, apply_ite (Storage.behind g logs <$> ·)]
  rfl

theorem resolveFraud_oblivious (id : ℕ) : Oblivious (resolveFraud D id) := by
  intro g logs s
  simp only [resolveFraud, map_bind, map_pure, Storage.behind_emit, apply_ite (Storage.behind g logs <$> ·)]
  refine bind_congr fun d => ?_
  have hrevoke := revokeTarget_oblivious d g logs { s with court := s.court.markResolved id d }
  rw [show ({ s.behind g logs with court := (s.behind g logs).court.markResolved id d } : Storage) =
    ({ s with court := s.court.markResolved id d } : Storage).behind g logs from rfl, hrevoke, bind_map_left]
  rfl

theorem processLeaf_behind (b i : ℕ) (didHash dataHash : Bytes32) (data : List Byte) (g : ℕ) (logs : List Event)
    (m : Storage × List Bytes32) :
    processLeaf D env b i didHash dataHash data (m.1.behind g logs, m.2) =
      Prod.map (Storage.behind g logs) id <$> processLeaf D env b i didHash dataHash data m := by
  simp only [processLeaf, map_bind, map_pure, Prod.map, Storage.behind_emit]
  rfl

theorem submitBatch_oblivious (didHashes dataHashes : List Bytes32) (data : List Byte) :
    Oblivious (submitBatch D env didHashes dataHashes data) := by
  intro g logs s
  have hleaves : processLeaves D env s.court.batches.length didHashes.length didHashes dataHashes data
      (s.behind g logs) = Prod.map (Storage.behind g logs) id <$>
        processLeaves D env s.court.batches.length didHashes.length didHashes dataHashes data s := by
    refine foldlM_map (g := Prod.map (Storage.behind g logs) id) ?_ (s, _) _
    intro m i
    simp only [map_bind]
    refine bind_congr fun _ => bind_congr fun _ => ?_
    exact processLeaf_behind ..
  simp only [submitBatch, map_bind, map_pure, Storage.behind_emit]
  refine bind_congr fun _ => bind_congr fun _ => bind_congr fun _ => bind_congr fun _ => ?_
  rw [show (s.behind g logs).court.batches.length = s.court.batches.length from rfl, hleaves, bind_map_left]
  rfl

end Functions

/-! ## What the calls do not read -/

/-- A guarded function depends on the guard only in that it reverts while the guard is up. -/
theorem nonReentrant_behind {body : Storage → Except Error Storage} (hbody : Oblivious body) {g : ℕ}
    {logs : List Event} (h : nonReentrant body (s.behind g logs) = .ok s') :
    ∃ t : Storage, s' = t.behind g logs ∧ ∀ logs, nonReentrant body (s.behind 1 logs) = .ok (t.behind 1 logs) := by
  obtain ⟨hg, t', ht', rfl⟩ := nonReentrant_ok.1 h
  obtain rfl : g = 1 := hg
  have hraised : ∀ logs, body { s.behind 1 logs with guard := 2 } =
      Storage.behind 2 logs <$> body { s with guard := 2 } := fun logs => hbody 2 logs { s with guard := 2 }
  rw [hraised] at ht'
  cases ht : body { s with guard := 2 } with
  | error e =>
    rw [ht] at ht'
    cases ht'
  | ok t =>
    rw [ht] at ht'
    obtain rfl := Except.ok.inj ht'
    refine ⟨{ t with guard := 1 }, rfl, fun logs => nonReentrant_ok.2 ⟨rfl, t.behind 2 logs, ?_, rfl⟩⟩
    rw [hraised, ht]
    rfl

theorem Oblivious.returns {f : Storage → Except Error Storage} (hf : Oblivious f) {g : ℕ} {logs : List Event}
    (h : f (s.behind g logs) = .ok s') :
    ∃ t : Storage, s' = t.behind g logs ∧ ∀ logs, f (s.behind 1 logs) = .ok (t.behind 1 logs) := by
  rw [hf] at h
  cases ht : f s with
  | error e =>
    rw [ht] at h
    cases h
  | ok t =>
    rw [ht] at h
    refine ⟨t, (Except.ok.inj h).symm, fun logs => ?_⟩
    rw [hf, ht]
    rfl

/-- The function of a call reads neither the guard nor the events, or it is guarded and its body reads neither. -/
theorem Call.run_oblivious (D : Deployment) (env : Env) (c : Call) :
    Oblivious (c.run D env) ∨ ∃ body, Oblivious body ∧ c.run D env = nonReentrant body := by
  cases c with
  | stakeRelay => exact .inl stakeRelay_oblivious
  | announceUnstake => exact .inl announceUnstake_oblivious
  | stakeVerifier => exact .inl stakeVerifier_oblivious
  | announceVerifierUnstake => exact .inl announceVerifierUnstake_oblivious
  | deregisterVerifier => exact .inl deregisterVerifier_oblivious
  | submitAccountable => exact .inl (submitAccountable_oblivious _ _ _)
  | finalizeRecord => exact .inl (finalizeRecord_oblivious _)
  | submitBatch => exact .inl (submitBatch_oblivious _ _ _)
  | finalizeBatch => exact .inl (finalizeBatch_oblivious _)
  | openDispute => exact .inl (openDispute_oblivious _)
  | openBatchLeafDispute => exact .inl (openBatchLeafDispute_oblivious _ _ _ _ _ _ _)
  | unstakeRelay =>
    rw [run, PqIotAuth.unstakeRelay]
    refine .inr ⟨_, fun g logs s => ?_, rfl⟩
    simp only [map_bind, map_pure, Storage.behind_emit]
    rfl
  | unstakeVerifier =>
    rw [run, PqIotAuth.unstakeVerifier]
    refine .inr ⟨_, fun g logs s => ?_, rfl⟩
    simp only [map_bind, map_pure, Storage.behind_emit]
    rfl
  | expireDispute id =>
    rw [run, PqIotAuth.expireDispute]
    refine .inr ⟨_, fun g logs s => ?_, rfl⟩
    simp only [map_bind, map_pure, Storage.behind_emit]
    refine bind_congr fun d => bind_congr fun _ => bind_congr fun _ => bind_congr fun _ => ?_
    have hrevoke := revokeTarget_oblivious d g logs { s with court := s.court.markResolved id d }
    rw [show ({ s.behind g logs with court := (s.behind g logs).court.markResolved id d } : Storage) =
      ({ s with court := s.court.markResolved id d } : Storage).behind g logs from rfl, hrevoke, bind_map_left]
    rfl
  | submitAttestation id verdict signature =>
    rw [run, PqIotAuth.submitAttestation]
    refine .inr ⟨_, fun g logs s => ?_, rfl⟩
    simp only [map_bind, map_pure, apply_ite (Storage.behind g logs <$> ·), ← resolveFraud_oblivious id g logs,
      ← resolveSpurious_oblivious id g logs]
    rfl

/-- **A call that returns does the same, and tells the same, with the guard down and whatever was told before.** -/
theorem Call.exec_behind {g : ℕ} {logs : List Event} (h : call.exec D env (s.behind g logs) = .ok s') :
    ∃ t : Storage, s' = t.behind g logs ∧ ∀ logs, call.exec D env (s.behind 1 logs) = .ok (t.behind 1 logs) := by
  simp only [Call.exec, bind_eq_ok, revertIf_eq_ok] at h
  obtain ⟨_, hpay, h⟩ := h
  obtain ⟨t, rfl, ht⟩ : ∃ t : Storage, s' = t.behind g logs ∧
      ∀ logs, call.run D env (s.behind 1 logs) = .ok (t.behind 1 logs) := by
    rcases call.run_oblivious D env with hrun | ⟨body, hbody, hrun⟩
    · exact hrun.returns h
    · rw [hrun] at h ⊢
      exact nonReentrant_behind hbody h
  refine ⟨t, rfl, fun logs => ?_⟩
  rw [Call.exec, revertIf_of_not hpay, ok_bind, ht]

/-! ## Withdrawals among the events -/

/-- The withdrawal that an event tells. -/
def Event.withdrawal : Event → Option (Address × ℕ)
  | .withdrawn account amount => some (account, amount)
  | _ => none

namespace Storage

/-- The withdrawals so far, in their order. -/
def withdrawals (s : Storage) : List (Address × ℕ) := s.logs.filterMap Event.withdrawal

/-- The events of all else, in their order. -/
def others (s : Storage) : List Event := s.logs.filter fun e => e.withdrawal.isNone

theorem withdrawals_append {logs : List Event} (h : s'.logs = s.logs ++ logs) :
    s'.withdrawals = s.withdrawals ++ logs.filterMap Event.withdrawal := by
  rw [withdrawals, h, List.filterMap_append, withdrawals]

theorem others_append {logs : List Event} (h : s'.logs = s.logs ++ logs) :
    s'.others = s.others ++ logs.filter fun e => e.withdrawal.isNone := by
  rw [others, h, List.filter_append, others]

end Storage

/-- A call tells of no withdrawal. -/
theorem Effect.no_withdrawal (he : Effect D env s call s') :
    ∃ events, s'.logs = s.logs ++ events ∧ ∀ e ∈ events, e.withdrawal = none := by
  have hsingle : ∀ {e : Event}, e.withdrawal = none → ∀ e' ∈ [e], e'.withdrawal = none := by
    intro e he e' he'
    rwa [List.mem_singleton.1 he']
  have hafter : ∀ {events : List Event} {e : Event}, (∀ e' ∈ events, e'.withdrawal = none) → e.withdrawal = none →
      ∃ all, s.logs ++ events ++ [e] = s.logs ++ all ∧ ∀ e' ∈ all, e'.withdrawal = none := by
    intro events e hevents he
    refine ⟨events ++ [e], List.append_assoc .., fun e' he' => ?_⟩
    rcases List.mem_append.1 he' with he' | he'
    · exact hevents e' he'
    · exact hsingle he e' he'
  have hrevocation : ∀ {d : Dispute}, ∀ e ∈ s.revocation d, e.withdrawal = none := by
    intro d e he
    rw [Storage.mem_revocation he]
    rfl
  cases he with
  | announceUnstake | stakeVerifier | announceVerifierUnstake | vote =>
    exact ⟨[], (List.append_nil _).symm, nofun⟩
  | fraud | expire => exact hafter hrevocation rfl
  | submitBatch _ _ _ _ _ _ _ _ _ _ hm =>
    obtain ⟨events, -, hlogs, htold, -, -⟩ := processLeaves_events hm
    dsimp only [Storage.emit]
    rw [hlogs]
    refine hafter (fun e he => ?_) rfl
    obtain ⟨_, _, _, _, _, rfl, -⟩ := htold e he
    rfl
  | _ => exact ⟨_, rfl, hsingle rfl⟩

/-! ## Runs without reentrancy -/

namespace World

/-- One action, where a withdrawal returns at once. -/
inductive AtomicStep (D : Deployment) (w w' : World) : Prop
  | act {a : Action} (hs : w.step D a = .ok w') (hout : ∀ sender, a ≠ .withdraw sender) (hback : a ≠ .withdrawReturn)
  | withdraw {sender : Address} {u : World} (hs : w.step D (.withdraw sender) = .ok u)
      (hreturn : u.step D .withdrawReturn = .ok w')

/-- A run in which withdrawals return at once is a run. -/
theorem AtomicStep.reaches (h : AtomicStep D w w') : Reaches (Step D) w w' := by
  cases h with
  | act hs => exact .single ⟨_, hs⟩
  | withdraw hs hreturn => exact .tail (.single ⟨_, hs⟩) ⟨_, hreturn⟩

theorem atomic_reachable (h : Lib.Reachable Initial (AtomicStep D) w) : w.Reachable D := by
  refine h.invariant (fun w h0 => .start h0) fun w w' _ hw hs => ?_
  exact Lib.Reachable.trans hw hs.reaches

/-- The world when the withdrawal that is open has returned and the events are `logs`. -/
def returned (logs : List Event) (w : World) : World :=
  { w with relay := { w.relay with guard := 1, logs }, openCalls := [] }

/-- `u` is the world `w` if the withdrawal that is open in `w` had returned at once. -/
structure Returned (w u : World) : Prop where
  world : u = w.returned u.relay.logs
  others : u.relay.others = w.relay.others
  withdrawals : u.relay.withdrawals = w.relay.withdrawals ++ w.openCalls

theorem Returned.init (now : ℕ) : (World.init now).Returned (World.init now) := ⟨rfl, rfl, rfl⟩

/-- What does not touch the relay goes the same way when the open withdrawal has returned. -/
theorem step_returned (logs : List Event) {a : Action} (hs : w.step D a = .ok w')
    (hcall : ∀ sender value c, a ≠ .call sender value c) (hout : ∀ sender, a ≠ .withdraw sender)
    (hback : a ≠ .withdrawReturn) :
    (w.returned logs).step D a = .ok (w'.returned logs) ∧ w'.relay = w.relay ∧ w'.openCalls = w.openCalls := by
  cases a with
  | call sender value c => exact absurd rfl (hcall sender value c)
  | withdraw sender => exact absurd rfl (hout sender)
  | withdrawReturn => exact absurd rfl hback
  | tick timestamp =>
    simp only [World.step, bind_eq_ok, revertIf_eq_ok, pure_eq_ok, not_or] at hs
    obtain ⟨_, ⟨hnow, -⟩, rfl⟩ := hs
    refine ⟨?_, rfl, rfl⟩
    rw [World.step, revertIf_of_not (by simpa [returned] using hnow)]
    rfl
  | registerDID =>
    simp only [World.step, bind_eq_ok, pure_eq_ok] at hs
    obtain ⟨didRegistry, hreg, rfl⟩ := hs
    exact ⟨congrArg (· >>= _) hreg, rfl, rfl⟩
  | deactivateDID =>
    simp only [World.step, bind_eq_ok, pure_eq_ok] at hs
    obtain ⟨didRegistry, hreg, rfl⟩ := hs
    exact ⟨congrArg (· >>= _) hreg, rfl, rfl⟩
  | submitTransaction =>
    simp only [World.step, bind_eq_ok, pure_eq_ok] at hs
    obtain ⟨metaTxRelay, hmeta, rfl⟩ := hs
    exact ⟨congrArg (· >>= _) hmeta, rfl, rfl⟩
  | forceFeed amount =>
    obtain rfl := Except.ok.inj hs
    exact ⟨rfl, rfl, rfl⟩

/-- A call goes the same way when the open withdrawal has returned, and tells the same events. -/
theorem call_returned (logs : List Event) {sender : Address} {value : ℕ} {c : Call}
    (hs : w.step D (.call sender value c) = .ok w') : ∃ events,
      (w.returned logs).step D (.call sender value c) = .ok (w'.returned (logs ++ events)) ∧
      w'.relay.logs = w.relay.logs ++ events ∧ w'.openCalls = w.openCalls ∧ ∀ e ∈ events, e.withdrawal = none := by
  obtain ⟨s', he, rfl⟩ := call_effect hs
  obtain ⟨events, hlogs, hnone⟩ := he.no_withdrawal
  simp only [World.step, bind_eq_ok, pure_eq_ok] at hs
  obtain ⟨_, hexec, hs⟩ := hs
  obtain rfl := congrArg World.relay hs
  -- the relay, as it is behind its guard and its events
  have hbehind : w.relay = Storage.behind w.relay.guard w.relay.logs { w.relay with guard := 1, logs := [] } := by
    rw [Storage.behind, List.append_nil]
  rw [hbehind] at hexec
  obtain ⟨t, ht, hdown⟩ := Call.exec_behind hexec
  refine ⟨events, ?_, hlogs, rfl, hnone⟩
  have hevents : t.logs = events := by
    rw [ht] at hlogs
    exact List.append_cancel_left hlogs
  have hrelay : (w.returned logs).relay = Storage.behind 1 logs { w.relay with guard := 1, logs := [] } := by
    rw [Storage.behind, List.append_nil]
    rfl
  rw [World.step, hrelay, show (w.returned logs).env sender value = w.env sender value from rfl, hdown, ok_bind, ht,
    ← hevents]
  rfl

/-- An action of a run is one of the run in which withdrawals return at once, except that the return of one has
already happened there. -/
theorem Returned.step (hw : w.Reachable D) {u : World} (h : w.Returned u) (hs : w.Step D w') :
    ∃ u', Reaches (AtomicStep D) u u' ∧ w'.Returned u' := by
  obtain ⟨hu, hothers, hwithdrawals⟩ := h
  generalize u.relay.logs = logs at hu
  subst hu
  obtain ⟨a, hs⟩ := hs
  cases a with
  | call sender value c =>
    obtain ⟨events, hstep, hlogs, hopen, hnone⟩ := call_returned logs hs
    refine ⟨_, .single (.act hstep (by simp) (by simp)), rfl, ?_, ?_⟩
    · rw [Storage.others_append hlogs, ← hothers]
      exact Storage.others_append rfl
    · have hquiet := List.filterMap_eq_nil_iff.2 hnone
      rw [Storage.withdrawals_append hlogs, hquiet, List.append_nil, hopen, ← hwithdrawals]
      refine (Storage.withdrawals_append (s := (w.returned logs).relay) rfl).trans ?_
      rw [hquiet, List.append_nil]
  | withdraw sender =>
    simp only [World.step, PqIotAuth.withdraw, bind_eq_ok, revertIf_eq_ok, pure_eq_ok, not_lt, not_not, ne_eq] at hs
    obtain ⟨p, ⟨_, hguard, _, hpending, rfl⟩, _, hfunds, rfl⟩ := hs
    have hidle : w.openCalls = [] := by
      rcases hw.guard with ⟨-, hidle⟩ | ⟨hup, -⟩
      · exact hidle
      · rw [hguard] at hup
        cases hup
    have hout := withdraw_eq (D := D) (w := w.returned logs) rfl hpending hfunds
    refine ⟨_, .single (.withdraw hout rfl), rfl, ?_, ?_⟩
    · refine (Storage.others_append (s := (w.returned logs).relay) rfl).trans ?_
      rw [hothers]
      exact List.append_nil _
    · refine (Storage.withdrawals_append (s := (w.returned logs).relay) rfl).trans ?_
      rw [hwithdrawals, hidle, List.append_nil]
      rfl
  | withdrawReturn =>
    simp only [World.step] at hs
    split at hs
    · cases hs
    · rename_i account amount calls hopen
      obtain rfl := Except.ok.inj hs
      obtain rfl : calls = [] := by
        rcases hw.guard with ⟨-, hidle⟩ | ⟨-, p, hone⟩
        · rw [hidle] at hopen
          cases hopen
        · rw [hone] at hopen
          exact (List.cons.inj hopen).2.symm
      have hlogs : (PqIotAuth.withdrawReturn account amount w.relay).logs =
          w.relay.logs ++ [.withdrawn account amount] := rfl
      refine ⟨_, .refl, rfl, ?_, ?_⟩
      · rw [hothers, Storage.others_append hlogs]
        exact (List.append_nil _).symm
      · rw [hwithdrawals, hopen, Storage.withdrawals_append hlogs]
        exact (List.append_nil _).symm
  | tick | registerDID | deactivateDID | submitTransaction | forceFeed =>
    obtain ⟨hstep, hrelay, hopen⟩ := step_returned logs hs (by simp) (by simp) (by simp)
    refine ⟨_, .single (.act hstep (by simp) (by simp)), rfl, ?_, ?_⟩
    · rw [hrelay]
      exact hothers
    · rw [hrelay, hopen]
      exact hwithdrawals

end World

/-- **Withdrawals are atomic.** Whatever the recipients of withdrawals do before they return, the world is one of a run in
which every withdrawal returns at once, up to the place of the withdrawals among the events. -/
theorem withdraw_atomic (hw : w.Reachable D) :
    ∃ u, Lib.Reachable World.Initial (World.AtomicStep D) u ∧ u.Reachable D ∧ w.Returned u := by
  obtain ⟨u, hu, hret⟩ : ∃ u, Lib.Reachable World.Initial (World.AtomicStep D) u ∧ w.Returned u := by
    refine World.Reachable.invariant
      (P := fun w => ∃ u, Lib.Reachable World.Initial (World.AtomicStep D) u ∧ w.Returned u) ?_ ?_ hw
    · intro now hnow
      exact ⟨World.init now, .start ⟨now, hnow, rfl⟩, .init now⟩
    · rintro w w' hw ⟨u, hu, hret⟩ hs
      obtain ⟨u', hreaches, hret'⟩ := hret.step hw hs
      exact ⟨u', hu.trans hreaches, hret'⟩
  exact ⟨u, hu, World.atomic_reachable hu, hret⟩

/-- The verifier 4 stakes what it withdraws, files a dispute and registers a DID before its withdrawal returns. -/
def Toy.reentered : World := World.after (Deployment.toy 2) [
  .withdraw 4,
  .call 4 2 .stakeVerifier,
  .call 4 10 (.openDispute 2),
  .registerDID 4 (Toy.leaf 0) (List.replicate 897 5)] Toy.upheld

theorem withdraw_atomic_toy : Toy.reentered.relay.guard = 2 ∧ Toy.reentered.openCalls = [(4, 2)] ∧
    Toy.reentered.relay.ledger.verifierStake 4 = 42 ∧
    ∃ u, Lib.Reachable World.Initial (World.AtomicStep (Deployment.toy 2)) u ∧ u.Reachable (Deployment.toy 2) ∧
      Toy.reentered.Returned u := by
  obtain ⟨hguard, hopen, hstake⟩ : Toy.reentered.relay.guard = 2 ∧ Toy.reentered.openCalls = [(4, 2)] ∧
      Toy.reentered.relay.ledger.verifierStake 4 = 42 := by decide +kernel
  have hw : Toy.reentered.Reachable (Deployment.toy 2) :=
    World.after_reachable _ (World.after_reachable _ (World.init_reachable (by decide)))
  exact ⟨hguard, hopen, hstake, withdraw_atomic hw⟩

end PqIotAuth
