import PqIotAuth.Announcements
import PqIotAuth.ExitLock
import PqIotAuth.Progress
import PqIotAuth.Punishment

/-!
# Leaving without anyone's help

From every world of a run an account can leave with all that is due to it by its own calls alone: it waits until every
window is past, expires the disputes that are left, finalizes the records and batches that are left, announces its two
exits, leaves the committee, waits once more, and takes out its stakes and its credit (`self_exit`). What is due is the
same all along (`World.StepIf.dues`): the two stakes, the credit, what has been paid, and half of each bond that is
still out.
-/

namespace PqIotAuth

open Lib

variable {D : Deployment} {env : Env} {s s' : Storage} {call : Call} {w w' : World} {a : Address}

/-! ## Dues -/

/-- The ether that withdrawals have sent to `a`. -/
def Storage.paidTo (a : Address) (s : Storage) : ℕ :=
  (s.logs.map fun
    | .withdrawn account amount => if account = a then amount else 0
    | _ => 0).sum

/-- What `a` gets back for its open disputes when all of them expire. -/
def refundsOf (a : Address) (disputes : List Dispute) : ℕ :=
  (disputes.map fun d => if d.resolved = false ∧ d.challenger = a then d.bond / 2 else 0).sum

/-- What the contract holds for `a` when nobody votes any more. -/
def Storage.dues (a : Address) (s : Storage) : ℕ :=
  s.ledger.relayStake a + s.ledger.verifierStake a + s.ledger.pendingWithdrawals a + refundsOf a s.court.disputes

/-- What has been paid to `a`, is on its way to `a`, and is due to `a`. -/
def World.dues (a : Address) (w : World) : ℕ :=
  w.relay.paidTo a + (w.openCalls.map fun p => if p.1 = a then p.2 else 0).sum + w.relay.dues a

/-! ## What an account does alone -/

/-- The calls that close what is past its window. -/
def Call.settles : Call → Bool
  | .expireDispute _ | .finalizeRecord _ | .finalizeBatch _ => true
  | _ => false

/-- The calls with which an account leaves its roles. -/
def Call.leaves : Call → Bool
  | .announceUnstake | .unstakeRelay | .announceVerifierUnstake | .unstakeVerifier | .deregisterVerifier => true
  | _ => false

/-- To wait, to make one of these calls, and to withdraw. -/
def Winding (a : Address) (w : World) : Action → Prop
  | .tick _ => True
  | .call sender value c => sender = a ∧ value = 0 ∧ (c.settles ∨ c.leaves)
  | .withdraw sender => sender = a
  | .withdrawReturn => ∃ amount, w.openCalls = [(a, amount)]
  | _ => False

theorem refundsOf_close {ds : List Dispute} {id : ℕ} {d d' : Dispute} (hd : ds[id]? = some d) (hun : d.resolved = false)
    (hres : d'.resolved = true) :
    refundsOf a (ds.set id d') + (if a = d.challenger then d.bond / 2 else 0) = refundsOf a ds := by
  have hsum := sum_map_set (fun d : Dispute => if d.resolved = false ∧ d.challenger = a then d.bond / 2 else 0) hd d'
  simp only [hun, hres, Bool.true_eq_false, false_and, if_false, Nat.add_zero, true_and] at hsum
  rw [refundsOf, refundsOf, ← hsum]
  congr 1
  exact if_congr eq_comm rfl rfl

theorem Storage.paidTo_append {logs : List Event} (h : s'.logs = s.logs ++ logs)
    (hquiet : ∀ account amount, Event.withdrawn account amount ∉ logs) (a : Address) : s'.paidTo a = s.paidTo a := by
  rw [paidTo, paidTo, h, List.map_append, List.sum_append, Nat.add_eq_left, List.sum_eq_zero_iff]
  rintro n hn
  obtain ⟨e, he, rfl⟩ := List.mem_map.1 hn
  cases e with
  | withdrawn account amount => exact absurd he (hquiet account amount)
  | _ => rfl

namespace Ledger

variable {l : Ledger}

/-- What `a` has in the two pools and as a credit. -/
def sum (a : Address) (l : Ledger) : ℕ := l.relayStake a + l.verifierStake a + l.pendingWithdrawals a

theorem sum_credited (a b : Address) (n : ℕ) : (l.credited b n).sum a = l.sum a + if a = b then n else 0 := by
  rw [sum, pendingWithdrawals_credited]
  dsimp only [sum, credited]
  omega

theorem sum_relayUnstaked (a b : Address) : (l.relayUnstaked b).sum a = l.sum a := by
  rw [relayUnstaked, sum_credited]
  dsimp only [sum]
  by_cases hab : a = b
  · subst hab
    rw [Function.update_self, if_pos rfl]
    omega
  · rw [Function.update_of_ne hab, if_neg hab, Nat.add_zero]

theorem sum_verifierUnstaked (a b : Address) : (l.verifierUnstaked b).sum a = l.sum a := by
  rw [verifierUnstaked, sum_credited]
  dsimp only [sum]
  by_cases hab : a = b
  · subst hab
    rw [Function.update_self, if_pos rfl]
    omega
  · rw [Function.update_of_ne hab, if_neg hab, Nat.add_zero]

end Ledger

theorem Storage.dues_eq (a : Address) (s : Storage) : s.dues a = s.ledger.sum a + refundsOf a s.court.disputes := rfl

/-- Neither takes from what is due to an account. -/
theorem Effect.dues (he : Effect D env s call s') (hwinds : call.settles ∨ call.leaves) (b : Address) :
    s'.paidTo b = s.paidTo b ∧ s'.dues b = s.dues b := by
  cases he with
  | announceUnstake | announceVerifierUnstake => exact ⟨rfl, rfl⟩
  | deregisterVerifier => exact ⟨Storage.paidTo_append rfl (by simp) b, rfl⟩
  | finalizeRecord | finalizeBatch => exact ⟨Storage.paidTo_append rfl (by simp) b, rfl⟩
  | unstakeRelay =>
    refine ⟨Storage.paidTo_append rfl (by simp) b, ?_⟩
    rw [Storage.dues_eq, Storage.dues_eq]
    exact congrArg (· + _) (Ledger.sum_relayUnstaked b env.sender)
  | unstakeVerifier =>
    refine ⟨Storage.paidTo_append rfl (by simp) b, ?_⟩
    rw [Storage.dues_eq, Storage.dues_eq]
    exact congrArg (· + _) (Ledger.sum_verifierUnstaked b env.sender)
  | @expire _ id d relay hexp =>
    constructor
    · refine Storage.paidTo_append (List.append_assoc ..) (fun account amount hmem => ?_) b
      rcases List.mem_append.1 hmem with hmem | hmem
      · cases Storage.mem_revocation hmem
      · cases List.mem_singleton.1 hmem
    · have hsum : (s.ledger.afterExpiry d).sum b = s.ledger.sum b + if b = d.challenger then d.bond / 2 else 0 :=
        Ledger.sum_credited b d.challenger _
      have hclosed := refundsOf_close (a := b) hexp.dispute hexp.unresolved
        (show Dispute.resolved { d with resolved := true } = true from rfl)
      rw [Storage.dues_eq, Storage.dues_eq]
      dsimp only [Storage.afterExpiry]
      rw [hsum, Court.disputes_closed]
      omega
  | _ => exact absurd hwinds (by simp [Call.settles, Call.leaves])

/-- **Winding down costs nobody anything.** -/
theorem World.StepIf.dues (hs : World.StepIf D (Winding a) w w') (b : Address) : w'.dues b = w.dues b := by
  obtain ⟨act, hact, hs⟩ := hs
  cases act with
  | tick timestamp =>
    simp only [World.step, bind_eq_ok, revertIf_eq_ok, pure_eq_ok] at hs
    obtain ⟨_, -, rfl⟩ := hs
    rfl
  | registerDID | deactivateDID | submitTransaction | forceFeed => exact hact.elim
  | call sender value c =>
    obtain ⟨t, he, rfl⟩ := World.call_effect hs
    obtain ⟨hpaid, hdues⟩ := he.dues hact.2.2 b
    dsimp only [World.dues]
    rw [hpaid, hdues]
  | withdraw sender =>
    simp only [World.step, PqIotAuth.withdraw, bind_eq_ok, revertIf_eq_ok, pure_eq_ok] at hs
    obtain ⟨p, ⟨_, -, _, -, rfl⟩, _, -, rfl⟩ := hs
    dsimp only [World.dues, Storage.paidTo, Storage.dues, World.env]
    rw [List.map_cons, List.sum_cons, Function.update_apply]
    by_cases hb : b = sender
    · subst hb
      rw [if_pos rfl, if_pos rfl]
      omega
    · rw [if_neg hb, if_neg (Ne.symm hb)]
      omega
  | withdrawReturn =>
    obtain ⟨amount, hopen⟩ := hact
    rw [World.step, hopen] at hs
    obtain rfl := Except.ok.inj hs
    dsimp only [World.dues, Storage.dues, withdrawReturn, Storage.emit]
    rw [hopen, Storage.paidTo, Storage.paidTo, List.map_append, List.sum_append]
    simp

/-! ## Closing what is past its window -/

namespace Court

/-- Every window of the court is past at `now`. -/
structure Past (D : Deployment) (now : ℕ) (c : Court) : Prop where
  dispute : ∀ d ∈ c.disputes, d.deadline < now
  record : ∀ r ∈ c.records, r.submittedAt + D.challengePeriod ≤ now
  batch : ∀ bt ∈ c.batches, bt.submittedAt + D.challengePeriod ≤ now

/-- A dispute that is open, a record that is not final and a batch that is not confirmed are still to be settled. -/
def unsettled (c : Court) : ℕ :=
  c.disputes.countP (fun d => !d.resolved) +
    c.records.countP (fun r => r.state = .provisional ∨ r.state = .disputed) +
    c.batches.countP fun bt => bt.state = .provisional

variable {c c' : Court} {vs : List (ℕ × Verdict)}

theorem Past.later {now now' : ℕ} (h : c.Past D now) (hnow : now ≤ now') : c.Past D now' where
  dispute := fun d hd => (h.dispute d hd).trans_le hnow
  record := fun r hr => (h.record r hr).trans hnow
  batch := fun bt hb => (h.batch bt hb).trans hnow

theorem settled_of_unsettled (hzero : c.unsettled = 0) :
    (∀ d ∈ c.disputes, d.resolved) ∧ ∀ t, ¬ c.NonTerminal t := by
  rw [unsettled, Nat.add_eq_zero_iff, Nat.add_eq_zero_iff, List.countP_eq_zero, List.countP_eq_zero,
    List.countP_eq_zero] at hzero
  obtain ⟨⟨hdisputes, hrecords⟩, hbatches⟩ := hzero
  refine ⟨fun d hd => by simpa using hdisputes d hd, ?_⟩
  rintro (i | ⟨b, l⟩)
  · rintro ⟨r, hr, hstate⟩
    exact hrecords r (List.mem_of_getElem? hr) (decide_eq_true hstate)
  · rintro ⟨bt, hb, hstate, -⟩
    exact hbatches bt (List.mem_of_getElem? hb) (decide_eq_true hstate)

/-- Something is settled, and no time is rewritten. -/
structure Settles (c c' : Court) : Prop where
  fewer : c'.unsettled < c.unsettled
  deadlines : c'.disputes.map (·.deadline) = c.disputes.map (·.deadline)
  records : c'.records.map (·.submittedAt) = c.records.map (·.submittedAt)
  batches : c'.batches.map (·.submittedAt) = c.batches.map (·.submittedAt)

theorem Settles.past (hs : c.Settles c') {now : ℕ} (h : c.Past D now) : c'.Past D now := by
  constructor
  · intro d' hd'
    obtain ⟨d, hd, htime⟩ := List.mem_map.1 (hs.deadlines ▸ List.mem_map_of_mem hd')
    exact htime ▸ h.dispute d hd
  · intro r' hr'
    obtain ⟨r, hr, htime⟩ := List.mem_map.1 (hs.records ▸ List.mem_map_of_mem hr')
    exact htime ▸ h.record r hr
  · intro bt' hb'
    obtain ⟨bt, hb, htime⟩ := List.mem_map.1 (hs.batches ▸ List.mem_map_of_mem hb')
    exact htime ▸ h.batch bt hb

theorem settles_record {i : ℕ} {r : Record} (hr : c.records[i]? = some r) (hstate : r.state = .provisional) :
    c.Settles (c.recordSet i { r with state := .confirmed }) := by
  refine ⟨?_, rfl, map_set_eq hr rfl, rfl⟩
  have hcount := countP_set (fun r => r.state = .provisional ∨ r.state = .disputed) hr { r with state := .confirmed }
  simp only [hstate, true_or, decide_true, if_true, reduceCtorEq, or_self, decide_false, Bool.false_eq_true, if_false]
    at hcount
  dsimp only [unsettled, recordSet]
  omega

theorem settles_batch {b : ℕ} {bt : Batch} (hb : c.batches[b]? = some bt) (hstate : bt.state = .provisional) :
    c.Settles (c.batchSet b { bt with state := .confirmed }) := by
  refine ⟨?_, rfl, rfl, map_set_eq hb rfl⟩
  have hcount := countP_set (fun bt => bt.state = .provisional) hb { bt with state := .confirmed }
  simp only [hstate, decide_true, if_true, reduceCtorEq, decide_false, Bool.false_eq_true, if_false] at hcount
  dsimp only [unsettled, batchSet]
  omega

end Court

/-- A verdict settles its dispute, and opens nothing. -/
theorem CourtStep.settles {c c' : Court} {now : ℕ} {p : ℕ × Verdict} (hs : CourtStep D now c c' (some p)) :
    c.Settles c' := by
  cases hs with
  | @closeRecord id i d r hd hun _ hr hstate fa va v =>
    refine ⟨?_, map_set_eq hd rfl, map_set_eq hr rfl, rfl⟩
    have hdispute := countP_set (fun d => !d.resolved) hd (d.close fa va)
    have hrecord := countP_set (fun r => r.state = .provisional ∨ r.state = .disputed) hr
      { r with state := recordAfter v }
    simp only [hun, Dispute.close, Bool.not_true, Bool.not_false, Bool.false_eq_true, if_true, if_false] at hdispute
    simp only [hstate, or_true, decide_true, if_true] at hrecord
    dsimp only [Court.unsettled, Dispute.close]
    split at hrecord <;> omega
  | @closeLeaf id b l d bt hd hun _ hb hstate hl hleaf fa va v =>
    refine ⟨?_, map_set_eq hd rfl, rfl, map_set_eq hb rfl⟩
    have hdispute := countP_set (fun d => !d.resolved) hd (d.close fa va)
    have hbatch := countP_set (fun bt => bt.state = .provisional) hb
      { bt with revokedLeafCount := bt.revokedLeafCount + revocations v }
    simp only [hun, Dispute.close, Bool.not_true, Bool.not_false, Bool.false_eq_true, if_true, if_false] at hdispute
    dsimp only [Court.unsettled, Dispute.close, Court.setLeaf] at hbatch ⊢
    omega

/-- What a call that closes something settles. -/
theorem Effect.settles (he : Effect D env s call s') (hcall : call.settles) (hcourt : s.court.Inv s.verdicts) :
    s.court.Settles s'.court := by
  cases he with
  | finalizeRecord _ hr hstate => exact Court.settles_record hr hstate
  | finalizeBatch _ hb hstate => exact Court.settles_batch hb hstate
  | @expire _ id d relay hexp =>
    have hclosed : CourtStep D env.timestamp s.court _ (some (id, .expired)) :=
      hcourt.closed_step hexp.dispute hexp.unresolved hexp.endorsed d.fraudAttesters d.validAttesters .expired
    exact hclosed.settles
  | _ => cases hcall

/-- Leaving a role leaves the court as it is. -/
theorem Effect.court_of_leaves (he : Effect D env s call s') (hcall : call.leaves) : s'.court = s.court := by
  cases he with
  | announceUnstake | unstakeRelay | announceVerifierUnstake | unstakeVerifier | deregisterVerifier => rfl
  | _ => cases hcall

/-- What holds from the end of the last window on, while an account winds things down. -/
structure Closing (D : Deployment) (time : ℕ) (w : World) : Prop where
  reachable : w.Reachable D
  now : w.now = time
  idle : w.openCalls = []
  ether : w.balance < 2 ^ 250
  past : w.relay.court.Past D time

/-- Time can pass between transactions. -/
theorem World.tick_returns (hidle : w.openCalls = []) {time : ℕ} (hnow : w.now ≤ time) :
    w.step D (.tick time) = .ok { w with now := time } := by
  rw [World.step, revertIf_of_not, ok_bind]
  · rfl
  · rintro (hlt | hopen)
    · exact absurd hnow (Nat.not_le.2 hlt)
    · exact hopen hidle

/-- When a challenge period has passed, so have all windows. -/
theorem World.Reachable.past (hw : w.Reachable D) (htime : w.now < uint64Size) :
    w.relay.court.Past D (w.now + D.challengePeriod + 1) := by
  have hsmall : ∀ t ≤ w.now, uint64 t = t := fun t ht => uint64_eq (by omega)
  constructor
  · intro d hd
    obtain ⟨t, -, ht, hdeadline⟩ := hw.filingTimes.dispute d hd
    rw [hdeadline, hsmall t ht]
    omega
  · intro r hr
    obtain ⟨i, hi⟩ := List.mem_iff_getElem?.1 hr
    obtain ⟨t, ht, hfiled⟩ := hw.filingTimes.record i r hi
    rw [hfiled, hsmall t ht]
    omega
  · intro bt hbt
    obtain ⟨b, hb⟩ := List.mem_iff_getElem?.1 hbt
    obtain ⟨t, ht, hfiled⟩ := hw.filingTimes.batch b bt hb
    rw [hfiled, hsmall t ht]
    omega

namespace Closing

variable {time : ℕ}

theorem later (h : Closing D time w) {time' : ℕ} (htime : time ≤ time') :
    ∃ w', World.StepIf D (Winding a) w w' ∧ Closing D time' w' ∧ w'.relay = w.relay := by
  have hs : w.step D (.tick time') = .ok { w with now := time' } := World.tick_returns h.idle (h.now.trans_le htime)
  exact ⟨_, ⟨.tick time', trivial, hs⟩, ⟨h.reachable.next ⟨_, hs⟩, rfl, h.idle, h.ether, h.past.later htime⟩, rfl⟩

/-- Closing something that is past its window. -/
theorem settle (h : Closing D time w) {c : Call} (hcall : c.settles) (hs : ∃ w', w.step D (.call a 0 c) = .ok w') :
    ∃ w', Reaches (World.StepIf D (Winding a)) w w' ∧ Closing D time w' ∧
      w'.relay.court.unsettled < w.relay.court.unsettled := by
  obtain ⟨w', hs⟩ := hs
  have hnext := h.reachable.next ⟨_, hs⟩
  refine ⟨w', .single ⟨.call a 0 c, ⟨rfl, rfl, .inl hcall⟩, hs⟩, ?_⟩
  obtain ⟨t, he, rfl⟩ := World.call_effect hs
  have hsettles := he.settles hcall h.reachable.court
  exact ⟨⟨hnext, h.now, h.idle, h.ether, hsettles.past h.past⟩, hsettles.fewer⟩

/-- As long as something is unsettled, there is a call that settles something. -/
theorem lower (h : Closing D time w) (htime : time + D.challengePeriod < uint64Size)
    (hpos : 0 < w.relay.court.unsettled) (a : Address) :
    ∃ w', Reaches (World.StepIf D (Winding a)) w w' ∧ Closing D time w' ∧
      w'.relay.court.unsettled < w.relay.court.unsettled := by
  obtain rfl := h.now
  have hcourt := h.reachable.court
  by_cases hopen : ∃ d ∈ w.relay.court.disputes, d.resolved = false
  · -- a dispute that nobody can vote on any more expires
    obtain ⟨d, hd, hun⟩ := hopen
    obtain ⟨id, hid⟩ := List.mem_iff_getElem?.1 hd
    exact h.settle (c := .expireDispute id) rfl
      (h.reachable.expire_returns htime h.ether h.idle hid hun (h.past.dispute d hd) a)
  -- with all disputes resolved no target is disputed
  have hquiet : ∀ t, w.relay.court.phase t ≠ .disputed := by
    intro t ht
    obtain ⟨id, hid⟩ := hcourt.docket.open_of_disputed ht
    obtain ⟨d, hd, -, hun⟩ := Court.docket_case.1 hid
    exact hopen ⟨d, List.mem_of_getElem? hd, hun⟩
  have hdisputes : w.relay.court.disputes.countP (fun d => !d.resolved) = 0 := by
    rw [List.countP_eq_zero]
    intro d hd hun
    exact hopen ⟨d, hd, by simpa using hun⟩
  by_cases hrecords : ∃ r ∈ w.relay.court.records, r.state = .provisional ∨ r.state = .disputed
  · obtain ⟨r, hr, hstate⟩ := hrecords
    obtain ⟨i, hi⟩ := List.mem_iff_getElem?.1 hr
    have hprovisional : r.state = .provisional := hstate.resolve_right fun hdisputed =>
      hquiet (.record i) (by rw [Court.phase_record hi, hdisputed]; rfl)
    exact h.settle (c := .finalizeRecord i) rfl
      (h.reachable.finalizeRecord_returns (by omega) hi hprovisional (h.past.record r hr) a)
  · have hbatches : 0 < w.relay.court.batches.countP fun bt => bt.state = .provisional := by
      have hnone : w.relay.court.records.countP (fun r => r.state = .provisional ∨ r.state = .disputed) = 0 := by
        rw [List.countP_eq_zero]
        exact fun r hr hstate => hrecords ⟨r, hr, of_decide_eq_true hstate⟩
      rw [Court.unsettled, hdisputes, hnone] at hpos
      omega
    obtain ⟨bt, hbt, hstate⟩ := List.countP_pos_iff.1 hbatches
    obtain ⟨b, hb⟩ := List.mem_iff_getElem?.1 hbt
    refine h.settle (c := .finalizeBatch b) rfl (h.reachable.finalizeBatch_returns (by omega) hb
      (of_decide_eq_true hstate) (h.past.batch bt hbt) (fun l hl => ?_) a)
    obtain ⟨bt', hb', hlt⟩ := hcourt.range b l (by rw [hl]; simp)
    exact hquiet (.leaf b l) (by rw [Court.phase_leaf hb' hlt, hl]; rfl)

/-- **Everything is settled by the calls of one account.** -/
theorem settle_all (h : Closing D time w) (htime : time + D.challengePeriod < uint64Size) (a : Address) :
    ∃ w', Reaches (World.StepIf D (Winding a)) w w' ∧ Closing D time w' ∧ w'.relay.court.unsettled = 0 :=
  Reaches.exhaust (fun w => w.relay.court.unsettled) (fun _ hu hpos => hu.lower htime hpos a) h

end Closing

/-! ## Leaving -/

/-- Everything is settled. -/
structure Leaving (D : Deployment) (time : ℕ) (w : World) : Prop extends Closing D time w where
  settled : w.relay.court.unsettled = 0

/-- The stake that `a` has in the role can be taken out at `time`. -/
def Role.Due (a : Address) (time : ℕ) (s : Storage) (role : Role) : Prop :=
  role.stake s.ledger a ≠ 0 → role.exitTime s.exits a ≠ 0 ∧ role.exitTime s.exits a ≤ time

theorem Effect.announces {role : Role} (he : Effect D env s call s') (hcall : call = role.announce) :
    s'.ledger = s.ledger := by
  cases role
  · subst hcall
    cases he
    rfl
  · subst hcall
    cases he
    rfl

/-- The stake of one role is taken out, and that of the other stays. -/
theorem Effect.unstakes {role : Role} (he : Effect D env s call s') (hcall : call = role.unstake) :
    role.stake s'.ledger env.sender = 0 ∧ s'.roster = s.roster ∧
      ∀ role' : Role, role' ≠ role → role'.stake s'.ledger = role'.stake s.ledger := by
  cases role
  · subst hcall
    cases he
    refine ⟨Function.update_self .., rfl, fun role' hrole => ?_⟩
    cases role'
    · exact absurd rfl hrole
    · rfl
  · subst hcall
    cases he
    refine ⟨Function.update_self .., rfl, fun role' hrole => ?_⟩
    cases role'
    · rfl
    · exact absurd rfl hrole

theorem Effect.deregisters (he : Effect D env s .deregisterVerifier s') (h : s.roster.Wf) :
    ¬ s'.roster.isRegisteredVerifier env.sender ∧ s'.ledger = s.ledger ∧ s'.exits = s.exits := by
  cases he with
  | deregisterVerifier _ hin _ hroster =>
    obtain ⟨r, hr, -, hflags⟩ := h.deregisterLoop hin
    obtain rfl := Except.ok.inj (hr.symm.trans hroster)
    refine ⟨?_, rfl, rfl⟩
    dsimp only [Storage.emit]
    rw [hflags, Function.update_self]
    exact Bool.false_ne_true

namespace Leaving

variable {time : ℕ}

/-- Nothing keeps an account in its roles. -/
theorem free (h : Leaving D time w) (hkeys : KeysInjective D.toEvm) (a : Address) :
    w.relay.court.relayActiveDisputes a = 0 ∧ w.relay.exposure.verifierLiveExposures a = 0 := by
  obtain ⟨hresolved, hterminal⟩ := Court.settled_of_unsettled h.settled
  constructor
  · rw [h.reachable.court.active, openOn, List.countP_eq_zero]
    intro d hd
    simp [hresolved d hd]
  · rw [h.reachable.live_eq_zero_iff hkeys]
    rintro ⟨t, ht, -⟩
    exact hterminal t ht

theorem leave (h : Leaving D time w) {c : Call} (hcall : c.leaves) (hs : ∃ w', w.step D (.call a 0 c) = .ok w') :
    ∃ w', World.StepIf D (Winding a) w w' ∧ Leaving D time w' ∧ Effect D (w.env a 0) w.relay c w'.relay := by
  obtain ⟨w', hs⟩ := hs
  have hnext := h.reachable.next ⟨_, hs⟩
  refine ⟨w', ⟨.call a 0 c, ⟨rfl, rfl, .inr hcall⟩, hs⟩, ?_⟩
  obtain ⟨t, he, rfl⟩ := World.call_effect hs
  have hcourt := he.court_of_leaves hcall
  exact ⟨⟨⟨hnext, h.now, h.idle, h.ether, by dsimp only; rw [hcourt]; exact h.past⟩, by
    dsimp only
    rw [hcourt]
    exact h.settled⟩, he⟩

/-- The exit from the role is announced, unless there is nothing to take out. -/
theorem announce (h : Leaving D time w) (hkeys : KeysInjective D.toEvm) (htime : time + unstakeDelay < wordSize)
    (a : Address) (role : Role) :
    ∃ w', Reaches (World.StepIf D (Winding a)) w w' ∧ Leaving D time w' ∧ role.Due a (time + unstakeDelay) w'.relay ∧
      ∀ role' : Role, role'.Due a (time + unstakeDelay) w.relay → role'.Due a (time + unstakeDelay) w'.relay := by
  by_cases hstake : role.stake w.relay.ledger a = 0
  · exact ⟨w, .refl, h, fun hne => absurd hstake hne, fun _ hdue => hdue⟩
  obtain ⟨hactive, hlive⟩ := h.free hkeys a
  have hreturns : ∃ w', w.step D (.call a 0 role.announce) = .ok w' := by
    refine World.step_of_run ?_
    have hnow : w.now + unstakeDelay < wordSize := by rw [h.now]; exact htime
    cases role with
    | relay =>
      rw [Role.announce, Call.run, announceUnstake]
      simp only [bind_eq_ok, revertIf_eq_ok, checkedAdd_eq_ok, pure_eq_ok]
      exact ⟨_, (), hstake, (), not_not.2 hactive, _, ⟨hnow, rfl⟩, rfl⟩
    | verifier =>
      rw [Role.announce, Call.run, announceVerifierUnstake]
      simp only [bind_eq_ok, revertIf_eq_ok, checkedAdd_eq_ok, pure_eq_ok]
      exact ⟨_, (), hstake, (), not_not.2 hlive, _, ⟨hnow, rfl⟩, rfl⟩
  obtain ⟨w', hs, hnext, he⟩ := h.leave (by cases role <;> rfl) hreturns
  have hledger := he.announces rfl
  have hset : role.exitTime w'.relay.exits a = time + unstakeDelay := by
    rcases he.exitTime role a with ⟨-, -, hset⟩ | ⟨-, hcall, -⟩ | ⟨hother, -⟩
    · exact h.now ▸ hset
    · cases role <;> cases hcall
    · exact absurd rfl (hother rfl).1
  have hdue : role.Due a (time + unstakeDelay) w'.relay := fun _ => by
    rw [hset]
    exact ⟨by simp [unstakeDelay], le_rfl⟩
  refine ⟨w', .single hs, hnext, hdue, fun role' hdue' => ?_⟩
  by_cases hrole : role' = role
  · exact hrole ▸ hdue
  · rcases he.exitTime role' a with ⟨-, hcall, -⟩ | ⟨-, hcall, -⟩ | ⟨-, hsame⟩
    · cases role <;> cases role' <;> first | exact absurd rfl hrole | cases hcall
    · cases role <;> cases role' <;> cases hcall
    · rw [Role.Due, hledger, hsame]
      exact hdue'

/-- The account leaves the committee, unless it is not in it. -/
theorem deregister (h : Leaving D time w) (hkeys : KeysInjective D.toEvm) (a : Address) :
    ∃ w', Reaches (World.StepIf D (Winding a)) w w' ∧ Leaving D time w' ∧ ¬ w'.relay.roster.isRegisteredVerifier a ∧
      ∀ (role : Role) (time' : ℕ), role.Due a time' w.relay → role.Due a time' w'.relay := by
  by_cases hin : w.relay.roster.isRegisteredVerifier a
  · obtain ⟨value, u, hu⟩ := (h.reachable.deregisterVerifier_iff a).2 ⟨hin, (h.free hkeys a).2⟩
    obtain rfl : value = 0 := by
      obtain ⟨t, he, -⟩ := World.call_effect hu
      cases he with
      | deregisterVerifier hfree => exact hfree
    obtain ⟨w', hs, hnext, he⟩ := h.leave (c := .deregisterVerifier) rfl ⟨u, hu⟩
    obtain ⟨hout, hledger, hexits⟩ := he.deregisters h.reachable.roster
    refine ⟨w', .single hs, hnext, hout, fun role time' hdue => ?_⟩
    rw [Role.Due, hledger, hexits]
    exact hdue
  · exact ⟨w, .refl, h, hin, fun _ _ hdue => hdue⟩

/-- The stake of a role that is due is taken out. -/
theorem unstake (h : Leaving D time w) (hkeys : KeysInjective D.toEvm) (role : Role)
    (hdue : role.Due a time w.relay) (hout : ¬ w.relay.roster.isRegisteredVerifier a) :
    ∃ w', Reaches (World.StepIf D (Winding a)) w w' ∧ Leaving D time w' ∧ role.stake w'.relay.ledger a = 0 ∧
      ¬ w'.relay.roster.isRegisteredVerifier a ∧ ∀ role' : Role, role' ≠ role →
        role'.stake w'.relay.ledger a = role'.stake w.relay.ledger a ∧
        (role'.Due a time w.relay → role'.Due a time w'.relay) := by
  by_cases hstake : role.stake w.relay.ledger a = 0
  · exact ⟨w, .refl, h, hstake, hout, fun _ _ => ⟨rfl, id⟩⟩
  obtain ⟨hactive, hlive⟩ := h.free hkeys a
  obtain ⟨hset, hexit⟩ := hdue hstake
  obtain rfl := h.now
  have hearly : ∀ t : ℕ, t ≠ 0 → t ≤ w.now → ¬ (t = 0 ∨ w.now < t) := by omega
  have hreturns : ∃ w', w.step D (.call a 0 role.unstake) = .ok w' := by
    refine World.step_of_run ?_
    have hguard := h.reachable.guard_down h.idle
    have hcovered := h.reachable.covered
    have hether := h.ether
    have hword : 2 ^ 250 < wordSize := by decide
    rw [Storage.liabilities] at hcovered
    cases role with
    | relay =>
      have hcredit := credit_eq (a := a) (n := w.relay.ledger.relayStake a)
        ((Ledger.total_relayStake_cleared (l := w.relay.ledger) a).trans_lt (by omega))
      rw [Role.unstake, Call.run, unstakeRelay]
      simp only [nonReentrant_ok, bind_eq_ok, revertIf_eq_ok, pure_eq_ok]
      exact ⟨_, hguard, _, ⟨(), hstake, (), not_not.2 hactive, (), hearly _ hset hexit, _, hcredit, rfl⟩, rfl⟩
    | verifier =>
      have hcredit := credit_eq (a := a) (n := w.relay.ledger.verifierStake a)
        ((Ledger.total_verifierStake_cleared (l := w.relay.ledger) a).trans_lt (by omega))
      rw [Role.unstake, Call.run, unstakeVerifier]
      simp only [nonReentrant_ok, bind_eq_ok, revertIf_eq_ok, pure_eq_ok]
      exact ⟨_, hguard, _, ⟨(), hstake, (), hout, (), not_not.2 hlive, (), hearly _ hset hexit, _, hcredit, rfl⟩, rfl⟩
  obtain ⟨w', hs, hnext, he⟩ := h.leave (by cases role <;> rfl) hreturns
  obtain ⟨hzero, hroster, hother⟩ := he.unstakes rfl
  refine ⟨w', .single hs, hnext, hzero, hroster ▸ hout, fun role' hrole => ⟨by rw [hother role' hrole], ?_⟩⟩
  rcases he.exitTime role' a with ⟨-, hcall, -⟩ | ⟨-, hcall, -⟩ | ⟨-, hsame⟩
  · cases role <;> cases role' <;> cases hcall
  · cases role <;> cases role' <;> first | exact absurd rfl hrole | cases hcall
  · rw [Role.Due, Role.Due, hother role' hrole, hsame]
    exact id

/-- The credit is paid out. -/
theorem withdraw (h : Leaving D time w) (a : Address) :
    ∃ w', Reaches (World.StepIf D (Winding a)) w w' ∧ Leaving D time w' ∧
      w'.relay.ledger.pendingWithdrawals a = 0 ∧ w'.relay.roster = w.relay.roster ∧
      ∀ role : Role, role.stake w'.relay.ledger = role.stake w.relay.ledger := by
  by_cases hpending : w.relay.ledger.pendingWithdrawals a = 0
  · exact ⟨w, .refl, h, hpending, rfl, fun _ => rfl⟩
  have hcovered := h.reachable.covered
  have hle := World.pendingWithdrawals_le_liabilities w.relay a
  have hfunds : w.relay.ledger.pendingWithdrawals a ≤ w.balance := by omega
  have hguard := h.reachable.guard_down h.idle
  have hs := World.withdraw_eq (D := D) (h.reachable.guard_down h.idle) hpending hfunds
  generalize hu : ({ w with
    relay := w.relay.withdrawing a
    balance := w.balance - w.relay.ledger.pendingWithdrawals a
    openCalls := (a, w.relay.ledger.pendingWithdrawals a) :: w.openCalls } : World) = u at hs
  have hopen : u.openCalls = [(a, w.relay.ledger.pendingWithdrawals a)] := by rw [← hu, h.idle]
  -- the recipient returns at once
  have hret : u.step D .withdrawReturn = .ok { u with
      relay := withdrawReturn a (w.relay.ledger.pendingWithdrawals a) u.relay
      openCalls := [] } := by rw [World.step, hopen]
  have hreach := (h.reachable.next ⟨_, hs⟩).next ⟨_, hret⟩
  refine ⟨_, .tail (.single ⟨.withdraw a, rfl, hs⟩) ⟨.withdrawReturn, ⟨_, hopen⟩, hret⟩,
    ⟨⟨hreach, ?_, rfl, ?_, ?_⟩, ?_⟩, ?_, ?_, ?_⟩
  · exact hu ▸ h.now
  · exact hu ▸ (Nat.sub_le ..).trans_lt h.ether
  · exact hu ▸ h.past
  · exact hu ▸ h.settled
  · exact hu ▸ Function.update_self ..
  · exact hu ▸ rfl
  · intro role
    cases role <;> exact hu ▸ rfl

end Leaving

/-! ## The exit -/

theorem World.dues_run (h : Reaches (World.StepIf D (Winding a)) w w') (b : Address) : w'.dues b = w.dues b := by
  induction h with
  | refl => rfl
  | tail _ hs ih => exact (hs.dues b).trans ih

/-- What `a` has reached in `w'` when it set out to leave in `w`. -/
structure SelfExit (D : Deployment) (a : Address) (w w' : World) : Prop where
  time : w'.now = w.now + D.challengePeriod + 1 + unstakeDelay
  idle : w'.openCalls = []
  settled : (∀ d ∈ w'.relay.court.disputes, d.resolved) ∧ ∀ t, ¬ w'.relay.court.NonTerminal t
  committee : ¬ w'.relay.roster.isRegisteredVerifier a ∧ a ∉ w'.relay.roster.verifierRoster
  nothing_left : w'.relay.holdings a = 0
  /-- Everything that was due to `a` has been paid to it. -/
  paid : w'.relay.paidTo a = w.dues a
  /-- What is due to anybody is as before. -/
  others : ∀ b, w'.dues b = w.dues b

/-- **Every account can leave with all that is due to it, by its own calls alone.** -/
theorem self_exit {D : Deployment} {w : World} (hw : w.Reachable D) (hkeys : KeysInjective D.toEvm)
    (hidle : w.openCalls = []) (hether : w.balance < 2 ^ 250)
    (htime : w.now + 2 * D.challengePeriod + 1 < uint64Size) (a : Address) :
    ∃ w', Reaches (World.StepIf D (Winding a)) w w' ∧ SelfExit D a w w' := by
  -- all windows close
  have htick : w.step D (.tick (w.now + D.challengePeriod + 1)) = .ok { w with now := w.now + D.challengePeriod + 1 } :=
    World.tick_returns hidle (by omega)
  have hclosing : Closing D (w.now + D.challengePeriod + 1) { w with now := w.now + D.challengePeriod + 1 } :=
    ⟨hw.next ⟨_, htick⟩, rfl, hidle, hether, hw.past (by omega)⟩
  obtain ⟨u1, hr1, h1, hsettled⟩ := hclosing.settle_all (by omega) a
  have hleaving : Leaving D (w.now + D.challengePeriod + 1) u1 := ⟨h1, hsettled⟩
  -- the two exits are announced, and the committee is left
  have hword : uint64Size + unstakeDelay < wordSize := by decide
  obtain ⟨u2, hr2, h2, hdue2, -⟩ := hleaving.announce hkeys (by omega) a .relay
  obtain ⟨u3, hr3, h3, hdue3, hkept3⟩ := h2.announce hkeys (by omega) a .verifier
  obtain ⟨u4, hr4, h4, hout4, hkept4⟩ := h3.deregister hkeys a
  -- a delay passes
  obtain ⟨u5, hs5, hclosing5, hrelay5⟩ :=
    h4.toClosing.later (a := a) (Nat.le_add_right (w.now + D.challengePeriod + 1) unstakeDelay)
  have h5 : Leaving D (w.now + D.challengePeriod + 1 + unstakeDelay) u5 := ⟨hclosing5, hrelay5 ▸ h4.settled⟩
  -- the stakes and the credit are taken out
  obtain ⟨u6, hr6, h6, hrelay6, hout6, hkept6⟩ := h5.unstake hkeys .relay
    (hrelay5 ▸ hkept4 _ _ (hkept3 _ hdue2)) (hrelay5 ▸ hout4)
  obtain ⟨u7, hr7, h7, hverifier7, hout7, hkept7⟩ := h6.unstake hkeys .verifier
    ((hkept6 .verifier (by simp)).2 (hrelay5 ▸ hkept4 _ _ hdue3)) hout6
  obtain ⟨w', hr8, h8, hpending, hroster, hstakes⟩ := h7.withdraw a
  have hreach : Reaches (World.StepIf D (Winding a)) w w' :=
    (((((((Relation.ReflTransGen.single ⟨.tick _, trivial, htick⟩).trans hr1).trans hr2).trans hr3).trans hr4).tail
      hs5).trans (hr6.trans hr7)).trans hr8
  have hdues := World.dues_run hreach
  obtain ⟨hresolved, hterminal⟩ := Court.settled_of_unsettled h8.settled
  have hrelay : w'.relay.ledger.relayStake a = 0 := by
    have hkept : w'.relay.ledger.relayStake = u7.relay.ledger.relayStake := hstakes .relay
    rw [hkept]
    exact (hkept7 .relay (by simp)).1.trans hrelay6
  have hverifier : w'.relay.ledger.verifierStake a = 0 := by
    have hkept : w'.relay.ledger.verifierStake = u7.relay.ledger.verifierStake := hstakes .verifier
    rw [hkept]
    exact hverifier7
  -- no bond is out any more
  have hnone : ∀ f : Dispute → ℕ,
      (w'.relay.court.disputes.map fun d => if d.resolved = false ∧ d.challenger = a then f d else 0).sum = 0 := by
    intro f
    rw [List.sum_eq_zero_iff, List.forall_mem_map]
    intro d hd
    rw [if_neg]
    simp [hresolved d hd]
  refine ⟨w', hreach, h8.now, h8.idle, ⟨hresolved, hterminal⟩, ?_, ?_, ?_, hdues⟩
  · rw [hroster]
    exact ⟨hout7, fun hmem => hout7 ((h7.reachable.roster.mem a).1 hmem)⟩
  · have hbonds : bondsOf a w'.relay.court.disputes = 0 := hnone Dispute.bond
    rw [Storage.holdings, hrelay, hverifier, hpending, hbonds]
  · have hrefunds : refundsOf a w'.relay.court.disputes = 0 := hnone fun d => d.bond / 2
    rw [← hdues a, World.dues, h8.idle, Storage.dues, hrelay, hverifier, hpending, hrefunds]
    rfl

/-- In a run with a leaf under dispute, verifier 3 leaves. -/
theorem self_exit_toy : ∃ w', Reaches (World.StepIf (Deployment.toy 2) (Winding 3)) Toy.world w' ∧
    SelfExit (Deployment.toy 2) 3 Toy.world w' ∧ 0 < Toy.world.dues 3 := by
  obtain ⟨hidle, hether, htime, hdues⟩ : Toy.world.openCalls = [] ∧ Toy.world.balance < 2 ^ 250 ∧
      Toy.world.now + 2 * (Deployment.toy 2).challengePeriod + 1 < uint64Size ∧ 0 < Toy.world.dues 3 := by
    decide +kernel
  obtain ⟨w', hreach, hexit⟩ :=
    self_exit Toy.world_reachable (.of_injective Evm.toy_injective) hidle hether htime 3
  exact ⟨w', hreach, hexit, hdues⟩

end PqIotAuth
