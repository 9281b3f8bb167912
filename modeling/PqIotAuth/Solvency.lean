import PqIotAuth.Votes

/-!
# Solvency

What the contract owes is the sum of all stakes, all credits and the bonds of the unresolved disputes (`liabilities`).
The ether it holds, without what was forced on it, always covers that, and the rest, the `surplus`, never falls: it
grows by the forfeited half of a bond when a dispute expires and by the rounding of a settlement, at most one wei for
each vote of a quorum, when one is resolved (`solvency`). So whatever a withdrawal asks for is there.
-/

namespace PqIotAuth

open Lib

variable {D : Deployment} {env : Env} {s s' : Storage} {c : Call}

/-! ## Liabilities -/

/-- The bonds of the unresolved disputes. -/
def openBonds (disputes : List Dispute) : ℕ := (disputes.map fun d => if d.resolved then 0 else d.bond).sum

/-- What the contract owes. -/
def Storage.liabilities (s : Storage) : ℕ := s.ledger.total + openBonds s.court.disputes

section Bonds

variable {ds : List Dispute} {id : ℕ} {d d' : Dispute}

theorem openBonds_append (ds : List Dispute) (hd : d.resolved = false) :
    openBonds (ds ++ [d]) = openBonds ds + d.bond := by
  simp [openBonds, hd]

theorem openBonds_vote (hd : ds[id]? = some d) (hbond : d'.bond = d.bond) (hres : d'.resolved = d.resolved) :
    openBonds (ds.set id d') = openBonds ds := by
  have := sum_map_set (fun d : Dispute => if d.resolved then 0 else d.bond) hd d'
  simp only [hbond, hres] at this
  exact Nat.add_right_cancel this

theorem openBonds_close (hd : ds[id]? = some d) (hun : d.resolved = false) (hres : d'.resolved = true) :
    openBonds (ds.set id d') + d.bond = openBonds ds := by
  simpa [openBonds, hun, hres] using sum_map_set (fun d : Dispute => if d.resolved then 0 else d.bond) hd d'

end Bonds

namespace Ledger

variable {l : Ledger}

theorem total_relayStaked (a : Address) (n : ℕ) : (l.relayStaked a n).total = l.total + n := by
  have := sum_update l.relayStake a (l.relayStake a + n)
  simp only [total, relayStaked]
  omega

theorem total_verifierStaked (a : Address) (n : ℕ) : (l.verifierStaked a n).total = l.total + n := by
  have := sum_update l.verifierStake a (l.verifierStake a + n)
  simp only [total, verifierStaked]
  omega

theorem total_relayStake_cleared (a : Address) :
    ({ l with relayStake := Function.update l.relayStake a 0 } : Ledger).total + l.relayStake a = l.total := by
  have := sum_update l.relayStake a 0
  simp only [total]
  omega

theorem total_relayUnstaked (a : Address) : (l.relayUnstaked a).total = l.total := by
  rw [relayUnstaked, total_credited]
  exact total_relayStake_cleared a

theorem total_verifierStake_cleared (a : Address) :
    ({ l with verifierStake := Function.update l.verifierStake a 0 } : Ledger).total + l.verifierStake a = l.total := by
  have := sum_update l.verifierStake a 0
  simp only [total]
  omega

theorem total_verifierUnstaked (a : Address) : (l.verifierUnstaked a).total = l.total := by
  rw [verifierUnstaked, total_credited]
  exact total_verifierStake_cleared a

theorem total_withdrawn (a : Address) : (l.withdrawn a).total + l.pendingWithdrawals a = l.total := by
  have := sum_update l.pendingWithdrawals a 0
  simp only [total, withdrawn]
  omega

end Ledger

/-! ## What a call does to them -/

/-- What a call may add to the surplus: the forfeited half of a bond at an expiry, rounding at a resolution, nothing
otherwise. -/
def Call.Gain (D : Deployment) (s : Storage) (c : Call) (s' : Storage) (gain : ℕ) : Prop :=
  match c with
  | .expireDispute id => ∃ d, s.court.disputes[id]? = some d ∧ gain = d.bond - d.bond / 2
  | .submitAttestation id _ _ =>
    gain ≤ D.quorum ∧ (gain ≠ 0 → ∃ d, s'.court.disputes[id]? = some d ∧ d.resolved)
  | _ => gain = 0

/-- A settlement that pays out `bond` up to `dust`, of a dispute that holds that bond. -/
theorem liabilities_settled {s : Storage} (s' : Storage) {id : ℕ} {d d' : Dispute} (hd : s.court.disputes[id]? = some d)
    (hun : d.resolved = false) (hres : d'.resolved = true) (hds : s'.court.disputes = s.court.disputes.set id d')
    {dust : ℕ} (hledger : s'.ledger.total + dust = s.ledger.total + d.bond) :
    s'.liabilities + dust = s.liabilities := by
  have := openBonds_close hd hun hres
  rw [Storage.liabilities, Storage.liabilities, hds]
  omega

/-- A call pays out no more than it is sent; what it keeps is bounded as soon as a verdict takes a vote. -/
theorem Effect.gain (he : Effect D env s c s') :
    ∃ gain, s'.liabilities + gain = s.liabilities + env.value ∧
      (0 < D.quorum → VotesInv D s → c.Gain D s s' gain) := by
  cases he with
  | stakeRelay =>
    refine ⟨0, ?_, fun _ _ => rfl⟩
    have := s.ledger.total_relayStaked env.sender env.value
    simp only [Storage.liabilities, Storage.emit]
    omega
  | stakeVerifier | joinVerifier =>
    refine ⟨0, ?_, fun _ _ => rfl⟩
    have := s.ledger.total_verifierStaked env.sender env.value
    simp only [Storage.liabilities, Storage.emit]
    omega
  | unstakeRelay hfree =>
    refine ⟨0, ?_, fun _ _ => rfl⟩
    have := s.ledger.total_relayUnstaked env.sender
    simp only [Storage.liabilities, Storage.emit]
    omega
  | unstakeVerifier hfree =>
    refine ⟨0, ?_, fun _ _ => rfl⟩
    have := s.ledger.total_verifierUnstaked env.sender
    simp only [Storage.liabilities, Storage.emit]
    omega
  | announceUnstake hfree | announceVerifierUnstake hfree | deregisterVerifier hfree | submitAccountable hfree
  | finalizeRecord hfree | submitBatch hfree | finalizeBatch hfree =>
    refine ⟨0, ?_, fun _ _ => rfl⟩
    rw [hfree]
    rfl
  | openDispute | openBatchLeafDispute =>
    refine ⟨0, ?_, fun _ _ => rfl⟩
    have := fun tt ti li => openBonds_append s.court.disputes (d := newDispute D env tt ti li) rfl
    simp only [Storage.liabilities, Storage.emit, Court.opened, Court.recordSet, Court.leafOpened, Court.setLeaf, this]
    simp only [newDispute]
    omega
  | @vote hfree id verdict _ signer d relay hvote =>
    refine ⟨0, ?_, fun _ _ => ⟨Nat.zero_le _, fun h => absurd rfl h⟩⟩
    rw [hfree]
    simp only [Storage.liabilities, Storage.voted]
    rw [openBonds_vote hvote.dispute (Dispute.bond_voted verdict signer d) (Dispute.resolved_voted verdict signer d)]
  | @fraud hfree id verdict _ signer d relay hvote hfraud =>
    have hds := s.disputes_voted_closed id verdict signer d relay .fraud
    obtain ⟨dust, hdust, hle⟩ := Ledger.total_afterFraud (l := s.ledger) D (d.voted verdict signer) relay
      ((s.voted id verdict signer d).wrongSide D (d.voted verdict signer))
    rw [Dispute.bond_voted] at hdust
    refine ⟨dust, ?_, fun hq hv => ⟨?_, fun _ => ⟨{ d.voted verdict signer with resolved := true }, ?_, rfl⟩⟩⟩
    · rw [hfree, Nat.add_zero]
      exact liabilities_settled (Storage.afterFraud D id _ relay _) hvote.dispute hvote.unresolved rfl hds hdust
    · exact (hle (List.length_pos_iff.1 (by omega))).trans (hvote.length_le hv hq).1
    · exact hds ▸ (getElem?_set_some hvote.dispute).2 (.inl ⟨rfl, rfl⟩)
  | @spurious hfree id verdict _ signer d relay hvote hfraud hvalid =>
    have hds := s.disputes_voted_closed id verdict signer d relay .spurious
    obtain ⟨dust, hdust, hle⟩ := Ledger.total_afterSpurious (l := s.ledger) (d.voted verdict signer) relay
    rw [Dispute.bond_voted] at hdust
    refine ⟨dust, ?_, fun hq hv => ⟨?_, fun _ => ⟨{ d.voted verdict signer with resolved := true }, ?_, rfl⟩⟩⟩
    · rw [hfree, Nat.add_zero]
      exact liabilities_settled (Storage.afterSpurious D id _ relay _) hvote.dispute hvote.unresolved rfl hds hdust
    · exact (hle (List.length_pos_iff.1 (by omega))).trans (hvote.length_le hv hq).2
    · exact hds ▸ (getElem?_set_some hvote.dispute).2 (.inl ⟨rfl, rfl⟩)
  | @expire hfree id d relay hexp =>
    refine ⟨d.bond - d.bond / 2, ?_, fun _ _ => ⟨d, hexp.dispute, rfl⟩⟩
    rw [hfree, Nat.add_zero]
    have hledger := s.ledger.total_afterExpiry (d := d)
    exact liabilities_settled (s.afterExpiry D id d relay) hexp.dispute hexp.unresolved rfl
      (Court.disputes_closed _ _ _ _ _) hledger

/-! ## The surplus -/

namespace World

/-- What is left of the ether that was not forced on the contract when everything owed is paid. -/
def surplus (w : World) : ℤ := w.balance - w.forceFed - w.relay.liabilities

/-- What an action may add to the surplus. -/
def Gain (D : Deployment) (w : World) (a : Action) (w' : World) (gain : ℕ) : Prop :=
  match a with
  | .call _ _ c => c.Gain D w.relay w'.relay gain
  | _ => gain = 0

variable {w w' : World}

theorem liabilities_withdrawing (s : Storage) (a : Address) :
    (s.withdrawing a).liabilities + s.ledger.pendingWithdrawals a = s.liabilities := by
  have := s.ledger.total_withdrawn a
  simp only [Storage.liabilities, Storage.withdrawing]
  omega

/-- The contract never owes more than the ether that came with calls. -/
theorem Reachable.covered (hw : w.Reachable D) : w.relay.liabilities + w.forceFed ≤ w.balance := by
  refine Reachable.invariant (P := fun w => w.relay.liabilities + w.forceFed ≤ w.balance) (fun now _ => ?_) ?_ hw
  · simp [World.init, Storage.liabilities, Storage.init, Ledger.total, openBonds]
  intro w w' hw h hs
  cases hs.change with
  | outside _ hrelay hbalance => rw [hrelay]; omega
  | call he _ hbalance hforced =>
    obtain ⟨gain, hgain, -⟩ := he.gain
    rw [hbalance, hforced]
    simp only [World.env] at hgain
    omega
  | @withdraw sender _ _ hfunds hw' =>
    have := liabilities_withdrawing w.relay sender
    subst hw'
    dsimp only
    omega
  | withdrawReturn _ hw' =>
    subst hw'
    exact h

theorem pendingWithdrawals_le_liabilities (s : Storage) (a : Address) :
    s.ledger.pendingWithdrawals a ≤ s.liabilities :=
  (s.ledger.pendingWithdrawals_le_total a).trans (Nat.le_add_right _ _)

/-- The world in which the recipient of a withdrawal runs. -/
theorem withdraw_eq {sender : Address} (hguard : w.relay.guard = 1)
    (hpending : w.relay.ledger.pendingWithdrawals sender ≠ 0)
    (hfunds : w.relay.ledger.pendingWithdrawals sender ≤ w.balance) :
    w.step D (.withdraw sender) = .ok { w with
      relay := w.relay.withdrawing sender
      balance := w.balance - w.relay.ledger.pendingWithdrawals sender
      openCalls := (sender, w.relay.ledger.pendingWithdrawals sender) :: w.openCalls } := by
  have hcall : PqIotAuth.withdraw (w.env sender 0) w.relay =
      .ok (w.relay.withdrawing sender, w.relay.ledger.pendingWithdrawals sender) := by
    unfold PqIotAuth.withdraw
    rw [revertIf_of_not (not_not.2 hguard), ok_bind]
    dsimp only [World.env]
    rw [revertIf_of_not hpending]
    rfl
  rw [World.step, hcall, ok_bind]
  dsimp only
  rw [revertIf_of_not (Nat.not_lt.2 hfunds)]
  rfl

theorem withdraw_returns {sender : Address} (hguard : w.relay.guard = 1)
    (hpending : w.relay.ledger.pendingWithdrawals sender ≠ 0)
    (hfunds : w.relay.ledger.pendingWithdrawals sender ≤ w.balance) : ∃ w', w.step D (.withdraw sender) = .ok w' :=
  ⟨_, withdraw_eq hguard hpending hfunds⟩

/-- The change of the surplus by one action. -/
theorem Reachable.surplus_step (hq : 0 < D.quorum) (hw : w.Reachable D) {a : Action} (h : w.step D a = .ok w') :
    ∃ gain : ℕ, w'.surplus = w.surplus + gain ∧ w.Gain D a w' gain := by
  cases a with
  | tick | registerDID | deactivateDID | submitTransaction =>
    simp only [World.step, bind_eq_ok, pure_eq_ok] at h
    obtain ⟨_, -, rfl⟩ := h
    exact ⟨0, by simp [surplus], rfl⟩
  | call sender value c =>
    obtain ⟨s, he, rfl⟩ := call_effect h
    obtain ⟨gain, hgain, hc⟩ := he.gain
    refine ⟨gain, ?_, hc hq hw.votes⟩
    simp only [World.env] at hgain
    simp only [surplus]
    omega
  | withdraw sender =>
    simp only [World.step, PqIotAuth.withdraw, bind_eq_ok, revertIf_eq_ok, pure_eq_ok, not_lt] at h
    obtain ⟨p, ⟨_, hguard, _, hpending, rfl⟩, _, hfunds, rfl⟩ := h
    refine ⟨0, ?_, rfl⟩
    have : _ + w.relay.ledger.pendingWithdrawals sender = _ := liabilities_withdrawing w.relay sender
    change ((w.balance - w.relay.ledger.pendingWithdrawals sender : ℕ) : ℤ) - w.forceFed -
      (w.relay.withdrawing sender).liabilities = w.surplus + (0 : ℕ)
    simp only [surplus]
    dsimp only [World.env] at hfunds
    omega
  | withdrawReturn =>
    simp only [World.step] at h
    split at h
    · simp at h
    · obtain rfl := Except.ok.inj h
      refine ⟨0, ?_, rfl⟩
      rw [Nat.cast_zero, Int.add_zero]
      rfl
  | forceFeed amount =>
    obtain rfl := Except.ok.inj h
    refine ⟨0, ?_, rfl⟩
    simp only [surplus]
    push_cast
    ring

end World

/-- What is promised of the funds in the world `w` of a run. -/
structure Solvent (D : Deployment) (w : World) : Prop where
  covered : w.relay.liabilities ≤ w.balance
  starts : ∀ now, (World.init now).surplus = 0
  nonneg : 0 ≤ w.surplus
  /-- The surplus never falls, and grows by the given amounts only. -/
  surplus_step : ∀ (a : Action) (w' : World), w.step D a = .ok w' →
    ∃ gain : ℕ, w'.surplus = w.surplus + gain ∧ w.Gain D a w' gain
  /-- A withdrawal, not being a reentrant one, finds what it sends. -/
  funded : ∀ sender, w.relay.guard = 1 → w.relay.ledger.pendingWithdrawals sender ≠ 0 →
    w.relay.ledger.pendingWithdrawals sender ≤ w.balance ∧ ∃ w', w.step D (.withdraw sender) = .ok w'

/-- **The contract is solvent in every run, with an exact surplus.** -/
theorem solvency {D : Deployment} {w : World} (hq : 1 ≤ D.quorum) (hw : w.Reachable D) : Solvent D w := by
  have hcovered := hw.covered
  refine ⟨by omega, fun now => ?_, ?_, fun a w' h => hw.surplus_step hq h, fun sender hguard hpending => ?_⟩
  · simp [World.surplus, World.init, Storage.liabilities, Storage.init, Ledger.total, openBonds]
  · simp only [World.surplus]
    omega
  · have hle := World.pendingWithdrawals_le_liabilities w.relay sender
    have hfunds : w.relay.ledger.pendingWithdrawals sender ≤ w.balance := by omega
    exact ⟨hfunds, World.withdraw_returns hguard hpending hfunds⟩

/-- In a run with a fraud verdict, a spurious one and an open dispute. -/
theorem solvency_toy : Solvent (Deployment.toy 2) Toy.world := solvency (by decide) Toy.world_reachable

end PqIotAuth
