import PqIotAuth.Evaluation

/-!
# The votes in a dispute

`VotesInv` is what every run keeps about the attesters of a dispute: they are the accounts that `hasAttested` flags,
each of them once and on one side, the endorsing relay is not among them, and while the dispute is open neither side has
reached the quorum. So the side that decides a dispute has exactly a quorum of votes (`Voting.length_le`).
-/

namespace PqIotAuth

open Lib

variable {D : Deployment} {env : Env} {s s' : Storage} {c : Call}

/-- The attesters of one side. -/
def Dispute.attesters (verdictIsFraud : Bool) (d : Dispute) : List Address :=
  if verdictIsFraud then d.fraudAttesters else d.validAttesters

/-- The dispute that a call is about, for the calls that can decide one. -/
def Call.disputeId : Call → Option ℕ
  | .submitAttestation id _ _ => some id
  | .expireDispute id => some id
  | _ => none

def Action.disputeId : Action → Option ℕ
  | .call _ _ c => c.disputeId
  | _ => none

/-- The verdict that the votes of a dispute complete. -/
def Dispute.outcome (D : Deployment) (d : Dispute) : Option Verdict :=
  if D.quorum ≤ d.fraudAttesters.length then some .fraud
  else if D.quorum ≤ d.validAttesters.length then some .spurious
  else none

/-! ## How a call changes the disputes -/

@[simp] theorem Dispute.attesters_voted (verdict : Bool) (signer : Address) (d : Dispute) :
    (d.voted verdict signer).attesters verdict = d.attesters verdict ++ [signer] := by
  cases verdict <;> rfl

@[simp] theorem Dispute.attesters_voted_not (verdict : Bool) (signer : Address) (d : Dispute) :
    (d.voted verdict signer).attesters (!verdict) = d.attesters (!verdict) := by
  cases verdict <;> rfl

@[simp] theorem Dispute.target_voted (verdict : Bool) (signer : Address) (d : Dispute) :
    (d.voted verdict signer).target = d.target := by
  cases verdict <;> rfl

@[simp] theorem Dispute.bond_voted (verdict : Bool) (signer : Address) (d : Dispute) :
    (d.voted verdict signer).bond = d.bond := by
  cases verdict <;> rfl

@[simp] theorem Dispute.resolved_voted (verdict : Bool) (signer : Address) (d : Dispute) :
    (d.voted verdict signer).resolved = d.resolved := by
  cases verdict <;> rfl

theorem Dispute.mem_attesters_voted {verdict : Bool} {signer v : Address} {d : Dispute} :
    v ∈ (d.voted verdict signer).fraudAttesters ∨ v ∈ (d.voted verdict signer).validAttesters ↔
      v ∈ d.fraudAttesters ∨ v ∈ d.validAttesters ∨ v = signer := by
  cases verdict
  · simp [Dispute.voted]
  · simp [Dispute.voted]
    tauto

/-- The disputes and the flags after a call: as before, one more dispute, a vote, which may close its dispute, or an
expiry. -/
inductive VotesChange (D : Deployment) (env : Env) (s s' : Storage) : Prop
  | same (hds : s'.court.disputes = s.court.disputes) (hflags : s'.hasAttested = s.hasAttested)
  | opened (tt ti li : ℕ) (hds : s'.court.disputes = s.court.disputes ++ [newDispute D env tt ti li])
      (hflags : s'.hasAttested = s.hasAttested)
  | voted {id : ℕ} {verdict : Bool} {signature : List Byte} {signer : Address} {d : Dispute} {relay : Address}
      (hvote : Voting D env s id verdict signature signer d relay) (resolved : Bool)
      (hds : s'.court.disputes = s.court.disputes.set id { d.voted verdict signer with resolved })
      (hflags : s'.hasAttested = Function.update s.hasAttested id (Function.update (s.hasAttested id) signer true))
      (hshort : resolved = false → (d.voted verdict signer).fraudAttesters.length < D.quorum ∧
        (d.voted verdict signer).validAttesters.length < D.quorum)
  | expired {id : ℕ} {d : Dispute} {relay : Address} (hexp : Expiring env s id d relay)
      (hds : s'.court.disputes = s.court.disputes.set id { d with resolved := true })
      (hflags : s'.hasAttested = s.hasAttested)

/-- The resolution of a dispute closes it in the list of disputes. -/
theorem Court.disputes_closed (c : Court) (id : ℕ) (d : Dispute) (relay : Address) (v : Verdict) :
    (c.closed id d relay v).disputes = c.disputes.set id { d with resolved := true } := by
  have hrevoked : ∀ c : Court, (c.revoked d).disputes = c.disputes := fun c => by
    unfold revoked
    split
    · rfl
    · split <;> rfl
  have hupheld : ∀ c : Court, (c.upheld d).disputes = c.disputes := fun c => by
    unfold upheld
    split <;> rfl
  unfold closed discharged
  dsimp only
  split
  · rw [hupheld]
    rfl
  · rw [hrevoked]
    rfl

theorem Storage.disputes_voted_closed (s : Storage) (id : ℕ) (verdict : Bool) (signer : Address) (d : Dispute)
    (relay : Address) (v : Verdict) :
    ((s.voted id verdict signer d).court.closed id (d.voted verdict signer) relay v).disputes =
      s.court.disputes.set id { d.voted verdict signer with resolved := true } := by
  rw [Court.disputes_closed]
  simp [Storage.voted]

theorem Effect.votes (he : Effect D env s c s') : VotesChange D env s s' := by
  cases he with
  | openDispute => exact .opened _ _ _ rfl rfl
  | openBatchLeafDispute => exact .opened _ _ _ rfl rfl
  | @vote _ id verdict _ signer d _ hvote hfraud hvalid =>
    refine .voted hvote false ?_ rfl fun _ => ⟨hfraud, hvalid⟩
    rw [← hvote.unresolved, ← Dispute.resolved_voted verdict signer d]
    rfl
  | fraud _ hvote | spurious _ hvote =>
    exact .voted hvote true (s.disputes_voted_closed _ _ _ _ _ _) rfl (by simp)
  | expire _ hexp => exact .expired hexp (Court.disputes_closed _ _ _ _ _) rfl
  | stakeRelay | announceUnstake | unstakeRelay | stakeVerifier | joinVerifier | announceVerifierUnstake
  | unstakeVerifier | deregisterVerifier | submitAccountable | finalizeRecord | submitBatch | finalizeBatch =>
    exact .same rfl rfl

/-- A dispute after a call has been opened by it, or was there before, with the votes "valid" of registered verifiers
added at most. -/
theorem VotesChange.dispute (h : VotesChange D env s s') {id : ℕ} {d' : Dispute}
    (hd' : s'.court.disputes[id]? = some d') :
    (∃ tt ti li, d' = newDispute D env tt ti li) ∨
      ∃ d, s.court.disputes[id]? = some d ∧ d'.target = d.target ∧ d'.deadline = d.deadline ∧
        ∀ v ∈ d'.validAttesters, v ∈ d.validAttesters ∨ s.roster.isRegisteredVerifier v := by
  cases h with
  | same hds =>
    rw [hds] at hd'
    exact .inr ⟨d', hd', rfl, rfl, fun v hv => .inl hv⟩
  | opened tt ti li hds =>
    rw [hds] at hd'
    rcases getElem?_append_singleton.1 hd' with ⟨-, rfl⟩ | ⟨-, hd'⟩
    · exact .inl ⟨tt, ti, li, rfl⟩
    · exact .inr ⟨d', hd', rfl, rfl, fun v hv => .inl hv⟩
  | @voted _ verdict _ signer d _ hvote resolved hds =>
    rw [hds] at hd'
    rcases (getElem?_set_some hvote.dispute).1 hd' with ⟨rfl, rfl⟩ | ⟨-, hd'⟩
    · refine .inr ⟨d, hvote.dispute, Dispute.target_voted verdict signer d, by cases verdict <;> rfl, ?_⟩
      intro v hv
      cases verdict with
      | true => exact .inl hv
      | false =>
        rcases List.mem_append.1 hv with hv | hv
        · exact .inl hv
        · rw [List.mem_singleton.1 hv]
          exact .inr hvote.registered
    · exact .inr ⟨d', hd', rfl, rfl, fun v hv => .inl hv⟩
  | @expired _ d _ hexp hds =>
    rw [hds] at hd'
    rcases (getElem?_set_some hexp.dispute).1 hd' with ⟨rfl, rfl⟩ | ⟨-, hd'⟩
    · exact .inr ⟨d, hexp.dispute, rfl, rfl, fun v hv => .inl hv⟩
    · exact .inr ⟨d', hd', rfl, rfl, fun v hv => .inl hv⟩

/-! ## What every run keeps -/

/-- What is asked of one dispute, given who has attested in it and who endorsed its target. -/
structure Dispute.VotesOk (D : Deployment) (flags : Address → Bool) (relay : Option Address) (d : Dispute) : Prop where
  attested : ∀ v, flags v ↔ v ∈ d.fraudAttesters ∨ v ∈ d.validAttesters
  fraud_nodup : d.fraudAttesters.Nodup
  valid_nodup : d.validAttesters.Nodup
  disjoint : ∀ v ∈ d.fraudAttesters, v ∉ d.validAttesters
  independent : ∀ a, relay = some a → a ∉ d.fraudAttesters ∧ a ∉ d.validAttesters
  short : 0 < D.quorum → d.resolved = false →
    d.fraudAttesters.length < D.quorum ∧ d.validAttesters.length < D.quorum

structure VotesInv (D : Deployment) (s : Storage) : Prop where
  each : ∀ (id : ℕ) (d : Dispute), s.court.disputes[id]? = some d →
    d.VotesOk D (s.hasAttested id) (s.court.relayOf d.target)
  unopened : ∀ id, s.court.disputes.length ≤ id → ∀ v, ¬ s.hasAttested id v

namespace Dispute.VotesOk

variable {flags : Address → Bool} {relay : Option Address} {d : Dispute}

theorem new (tt ti li : ℕ) (hflags : ∀ v, ¬ flags v) : (newDispute D env tt ti li).VotesOk D flags relay where
  attested := fun v => by simp [newDispute, hflags v]
  fraud_nodup := List.nodup_nil
  valid_nodup := List.nodup_nil
  disjoint := fun v hv => by simp [newDispute] at hv
  independent := fun a _ => by simp [newDispute]
  short := fun hq _ => ⟨hq, hq⟩

theorem closed (h : d.VotesOk D flags relay) : ({ d with resolved := true } : Dispute).VotesOk D flags relay where
  attested := h.attested
  fraud_nodup := h.fraud_nodup
  valid_nodup := h.valid_nodup
  disjoint := h.disjoint
  independent := h.independent
  short := fun _ hun => by simp at hun

theorem voted (h : d.VotesOk D flags relay) {signer : Address} {a : Address} (hrelay : relay = some a)
    (himp : signer ≠ a) (hfresh : ¬ flags signer) (verdict : Bool) {resolved : Bool}
    (hshort : resolved = false → (d.voted verdict signer).fraudAttesters.length < D.quorum ∧
      (d.voted verdict signer).validAttesters.length < D.quorum) :
    ({ d.voted verdict signer with resolved } : Dispute).VotesOk D (Function.update flags signer true) relay := by
  have hnew : signer ∉ d.fraudAttesters ∧ signer ∉ d.validAttesters := by
    rw [h.attested, not_or] at hfresh
    exact hfresh
  have hflags : ∀ v, Function.update flags signer true v ↔ flags v ∨ v = signer := by
    intro v
    by_cases hv : v = signer <;> simp [hv]
  have hnodup : ∀ {l : List Address}, l.Nodup → signer ∉ l → (l ++ [signer]).Nodup := by
    intro l hl hs
    rw [List.nodup_append]
    refine ⟨hl, List.nodup_singleton _, fun u hu v hv => ?_⟩
    rw [List.mem_singleton.1 hv]
    exact ne_of_mem_of_not_mem hu hs
  have hout : ∀ b, relay = some b → b ≠ signer := by
    rintro b hb rfl
    exact himp (Option.some.inj (hb.symm.trans hrelay))
  refine ⟨fun v => ?_, ?_, ?_, ?_, fun b hb => ?_, fun _ hun => hshort hun⟩
  · rw [hflags, h.attested]
    exact or_assoc.trans Dispute.mem_attesters_voted.symm
  · cases verdict
    · exact h.fraud_nodup
    · exact hnodup h.fraud_nodup hnew.1
  · cases verdict
    · exact hnodup h.valid_nodup hnew.2
    · exact h.valid_nodup
  · intro v hv
    cases verdict
    · simp only [Dispute.voted, Bool.false_eq_true, if_false, List.mem_append, List.mem_singleton] at hv ⊢
      rintro (hv' | rfl)
      · exact h.disjoint v hv hv'
      · exact hnew.1 hv
    · simp only [Dispute.voted, if_true, List.mem_append, List.mem_singleton] at hv ⊢
      rcases hv with hv | rfl
      · exact h.disjoint v hv
      · exact hnew.2
  · have hold := h.independent b hb
    cases verdict <;> simp [Dispute.voted, hold, hout b hb]

end Dispute.VotesOk

theorem VotesInv.init : VotesInv D Storage.init where
  each := fun id d hd => by simp [Storage.init] at hd
  unopened := fun id _ v => by simp [Storage.init]

theorem VotesInv.step (h : VotesInv D s) (hcourt : s.court.Inv s.verdicts) (he : Effect D env s c s') :
    VotesInv D s' := by
  obtain ⟨ov, hstep, -⟩ := he.courtStep hcourt
  -- a dispute that was there has the same relay as before
  have hrel : ∀ {d : Dispute}, d ∈ s.court.disputes → s'.court.relayOf d.target = s.court.relayOf d.target := by
    intro d hd
    obtain ⟨a, ha⟩ := hcourt.relay_of_dispute hd
    rw [hstep.relayOf ha, ha]
  cases he.votes with
  | same hds hflags =>
    refine ⟨fun id d hd => ?_, fun id hid => ?_⟩
    · rw [hds] at hd
      rw [hflags, hrel (List.mem_of_getElem? hd)]
      exact h.each id d hd
    · rw [hds] at hid
      rw [hflags]
      exact h.unopened id hid
  | opened tt ti li hds hflags =>
    refine ⟨fun id d hd => ?_, fun id hid => ?_⟩
    · rw [hds] at hd
      rw [hflags]
      rcases getElem?_append_singleton.1 hd with ⟨rfl, rfl⟩ | ⟨-, hd⟩
      · exact .new tt ti li (h.unopened _ le_rfl)
      · rw [hrel (List.mem_of_getElem? hd)]
        exact h.each id d hd
    · rw [hds, List.length_append, List.length_singleton] at hid
      rw [hflags]
      exact h.unopened id (by omega)
  | @voted id₀ verdict _ signer d₀ relay hvote resolved hds hflags hshort =>
    refine ⟨fun id d hd => ?_, fun id hid => ?_⟩
    · rw [hds] at hd
      rw [hflags]
      rcases (getElem?_set_some hvote.dispute).1 hd with ⟨rfl, rfl⟩ | ⟨hne, hd⟩
      · rw [Function.update_self]
        have hr : s'.court.relayOf (d₀.voted verdict signer).target = s.court.relayOf d₀.target := by
          rw [Dispute.target_voted]
          exact hrel (List.mem_of_getElem? hvote.dispute)
        change Dispute.VotesOk D _ (s'.court.relayOf (d₀.voted verdict signer).target) _
        rw [hr]
        exact (h.each id d₀ hvote.dispute).voted (targetRelay_ok'.1 hvote.endorsed) hvote.independent hvote.fresh
          verdict hshort
      · rw [Function.update_of_ne hne, hrel (List.mem_of_getElem? hd)]
        exact h.each id d hd
    · rw [hds, List.length_set] at hid
      have hne : id ≠ id₀ := by
        rintro rfl
        have := (List.getElem?_eq_some_iff.1 hvote.dispute).1
        omega
      rw [hflags, Function.update_of_ne hne]
      exact h.unopened id hid
  | @expired id₀ d₀ relay hexp hds hflags =>
    refine ⟨fun id d hd => ?_, fun id hid => ?_⟩
    · rw [hds] at hd
      rw [hflags]
      rcases (getElem?_set_some hexp.dispute).1 hd with ⟨rfl, rfl⟩ | ⟨hne, hd⟩
      · change Dispute.VotesOk D _ (s'.court.relayOf d₀.target) _
        rw [hrel (List.mem_of_getElem? hexp.dispute)]
        exact (h.each id d₀ hexp.dispute).closed
      · rw [hrel (List.mem_of_getElem? hd)]
        exact h.each id d hd
    · rw [hds, List.length_set] at hid
      rw [hflags]
      exact h.unopened id hid

/-- **The votes of every run.** -/
theorem World.Reachable.votes {w : World} (hw : w.Reachable D) : VotesInv D w.relay := by
  refine World.Reachable.invariant (P := fun w => VotesInv D w.relay) (fun _ _ => .init) ?_ hw
  intro w w' hw h hs
  cases hs.change with
  | outside _ hrelay => exact hrelay ▸ h
  | call he => exact h.step hw.court he
  | withdraw _ _ _ hw' | withdrawReturn _ hw' => exact hw' ▸ ⟨h.each, h.unopened⟩

/-! ## The deciding side -/

/-- In a dispute whose sides are short of the quorum, a vote brings a side to the quorum at most. -/
theorem Voting.length_le {id : ℕ} {verdict : Bool} {signature : List Byte} {signer : Address} {d : Dispute}
    {relay : Address} (h : VotesInv D s) (hq : 0 < D.quorum)
    (hvote : Voting D env s id verdict signature signer d relay) :
    (d.voted verdict signer).fraudAttesters.length ≤ D.quorum ∧
      (d.voted verdict signer).validAttesters.length ≤ D.quorum := by
  obtain ⟨hf, hv⟩ := (h.each id d hvote.dispute).short hq hvote.unresolved
  cases verdict
  · simp only [Dispute.voted, Bool.false_eq_true, if_false, List.length_append, List.length_singleton]
    omega
  · simp only [Dispute.voted, if_true, List.length_append, List.length_singleton]
    omega

end PqIotAuth
