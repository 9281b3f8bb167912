import PqIotAuth.LiveExposures

/-!
# Cross-dispute slashing

What the attestation that completes a fraud verdict does to the stakes (`fraud_slashing`): it slashes everyone who voted
"valid" in any dispute on the target, each once and for the full amount as far as the stakes reach, and takes from the
endorsing relay and from no one else. A target gets one fraud verdict in a run, so this happens to it once.
-/

namespace PqIotAuth

open Lib

variable {D : Deployment} {w w' : World}

/-! ## Fraud verdicts -/

/-- An attestation on the dispute `id` that leaves a fraud verdict on it has just completed the verdict. -/
theorem World.Reachable.fraud_step (hw : w.Reachable D) {sender : Address} {value id : ℕ} {verdict : Bool}
    {signature : List Byte} (hs : w.step D (.call sender value (.submitAttestation id verdict signature)) = .ok w')
    (hfraud : .disputeResolved id true ∈ w'.relay.logs) :
    ∃ signer d relay, Voting D (w.env sender value) w.relay id verdict signature signer d relay ∧
      w'.relay = (w.relay.voted id verdict signer d).afterFraud D id (d.voted verdict signer) relay := by
  obtain ⟨s, he, rfl⟩ := World.call_effect hs
  -- before the call the dispute was open, so there was no verdict on it
  have hno : ∀ {d : Dispute}, w.relay.court.disputes[id]? = some d → d.resolved = false →
      Event.disputeResolved id true ∉ w.relay.logs := by
    intro d hd hun hlog
    exact hw.court.docket.not_open (v := .fraud) (Storage.mem_verdicts.2 hlog) d.target
      (Court.docket_case.2 ⟨d, hd, rfl, hun⟩)
  cases he with
  | vote _ hvote => exact absurd hfraud (hno hvote.dispute hvote.unresolved)
  | fraud _ hvote => exact ⟨_, _, _, hvote, rfl⟩
  | spurious _ hvote =>
    dsimp only [Storage.afterSpurious, Storage.voted] at hfraud
    rcases List.mem_append.1 hfraud with hlog | hlog
    · exact absurd hlog (hno hvote.dispute hvote.unresolved)
    · simp at hlog

/-- Verdicts are kept. -/
theorem World.Reachable.verdict_kept (hw : w.Reachable D) (h : Reaches (World.Step D) w w') {p : ℕ × Verdict}
    (hp : p ∈ w.relay.verdicts) : p ∈ w'.relay.verdicts := by
  refine World.Reachable.later (P := fun u => p ∈ u.relay.verdicts) hw h (fun u u' hu hup hs => ?_) hp
  obtain ⟨ov, -, hverdicts⟩ := hu.courtStep hs
  rw [hverdicts]
  exact List.mem_append_left _ hup

/-- A closed dispute keeps its target and stays closed. -/
theorem World.Reachable.case_closed (hw : w.Reachable D) (h : Reaches (World.Step D) w w') {id : ℕ} {t : Target}
    (ht : (w.relay.court.docket w.relay.verdicts).cases[id]? = some (t, true)) :
    (w'.relay.court.docket w'.relay.verdicts).cases[id]? = some (t, true) := by
  refine World.Reachable.later (P := fun u => (u.relay.court.docket u.relay.verdicts).cases[id]? = some (t, true)) hw h
    (fun u u' hu hut hs => ?_) ht
  obtain ⟨ov, hstep, hverdicts⟩ := hu.courtStep hs
  rw [hverdicts]
  exact (hstep.docket hu.court).cases_closed hut

/-- A verdict on a dispute is told once. -/
theorem World.Reachable.count_verdict (hw : w.Reachable D) (id : ℕ) (v : Verdict) :
    w.relay.logs.count (v.event id) ≤ 1 := by
  rw [← Storage.count_verdicts]
  exact List.nodup_iff_count_le_one.1 (hw.court.docket.once.of_map _) _

/-! ## Slashes -/

/-- In some dispute on `t`, resolved or not, `v` voted "valid". -/
def Court.VotedValid (c : Court) (t : Target) (v : Address) : Prop :=
  ∃ d ∈ c.disputes, d.target = t ∧ v ∈ d.validAttesters

/-- On a final target every vote is in a resolved dispute. -/
theorem Court.Inv.votedValid_iff {c : Court} {vs : List (ℕ × Verdict)} (h : c.Inv vs) {t : Target}
    (ht : (c.phase t).Final) (v : Address) : c.VotedValid t v ↔ c.Vouches t v := by
  constructor
  · rintro ⟨d, hd, rfl, hv⟩
    obtain ⟨id, hid⟩ := List.mem_iff_getElem?.1 hd
    exact ⟨d, hd, rfl, h.resolved_of_final hid ht, hv⟩
  · rintro ⟨d, hd, hdt, -, hv⟩
    exact ⟨d, hd, hdt, hv⟩

/-- The verifiers that a fraud verdict slashes are those that voted "valid" in any dispute on the target. -/
theorem World.Reachable.wrongSide (hw : w.Reachable D) (hkeys : KeysInjective D.toEvm) {env : Env} {id : ℕ}
    {verdict : Bool} {signature : List Byte} {signer : Address} {d : Dispute} {relay : Address}
    (hvote : Voting D env w.relay id verdict signature signer d relay) :
    let s := w.relay.voted id verdict signer d
    let d' := d.voted verdict signer
    (s.wrongSide D d').Nodup ∧
      ∀ v, v ∈ s.wrongSide D d' ↔ w.relay.court.Vouches d.target v ∨ v ∈ d'.validAttesters := by
  have hx := hw.exposures hkeys
  have hdisputed := hw.court.disputed hvote.dispute hvote.unresolved
  have hlive := not_final_of_disputed hdisputed
  have hrange : d.target.InRange := hw.court.inRange (by rw [hdisputed]; simp)
  have hkey := hw.court.targetKey_voted D.toEvm hvote
  have hlist : (w.relay.voted id verdict signer d).wrongSide D (d.voted verdict signer) =
      (w.relay.exposure.registry.enterAll (d.target.key D.toEvm) (d.voted verdict signer).validAttesters).list
        (d.target.key D.toEvm) := by
    rw [← hkey, ← Exposure.registry_afterSpurious]
    rfl
  obtain ⟨-, hmem⟩ := Register.mem_enterAll (hx.flagged d.target hrange hlive) (d.voted verdict signer).validAttesters
  dsimp only
  rw [hlist]
  refine ⟨(hw.registry.wf.enterAll _ _).nodup _, fun v => ?_⟩
  rw [hmem, hx.listed d.target hrange hlive]

/-- The relay is not among them: it votes in no dispute on its targets. -/
theorem World.Reachable.relay_not_wrongSide (hw : w.Reachable D) (hkeys : KeysInjective D.toEvm) {env : Env} {id : ℕ}
    {verdict : Bool} {signature : List Byte} {signer : Address} {d : Dispute} {relay : Address}
    (hvote : Voting D env w.relay id verdict signature signer d relay) :
    relay ∉ (w.relay.voted id verdict signer d).wrongSide D (d.voted verdict signer) := by
  have hrelay := targetRelay_ok'.1 hvote.endorsed
  rw [(hw.wrongSide hkeys hvote).2]
  rintro (⟨e, he, het, -, hv⟩ | hv)
  · obtain ⟨j, hj⟩ := List.mem_iff_getElem?.1 he
    exact ((hw.votes.each j e hj).independent relay (by rw [het, hrelay])).2 hv
  · have hold := ((hw.votes.each id d hvote.dispute).independent relay hrelay).2
    cases verdict with
    | true => exact hold hv
    | false =>
      rcases List.mem_append.1 hv with hv | hv
      · exact hold hv
      · exact hvote.independent (List.mem_singleton.1 hv).symm

/-- After the verdict they are those who have voted "valid" in some dispute on the target. -/
theorem World.Reachable.votedValid_wrongSide (hw : w.Reachable D) (hkeys : KeysInjective D.toEvm)
    (hs : w.Step D w') {env : Env} {id : ℕ} {verdict : Bool} {signature : List Byte} {signer : Address} {d : Dispute}
    {relay : Address} (hvote : Voting D env w.relay id verdict signature signer d relay)
    (hw' : w'.relay = (w.relay.voted id verdict signer d).afterFraud D id (d.voted verdict signer) relay)
    (v : Address) : w'.relay.court.VotedValid d.target v ↔
      v ∈ (w.relay.voted id verdict signer d).wrongSide D (d.voted verdict signer) := by
  have hphase : w'.relay.court.phase d.target = .revoked := by
    rw [hw']
    dsimp only [Storage.afterFraud]
    rw [hw.court.phase_voted_closed hvote, Function.update_self]
    rfl
  rw [(hw.next hs).court.votedValid_iff (.inl hphase), (hw.wrongSide hkeys hvote).2, hw']
  dsimp only [Storage.afterFraud]
  rw [Court.vouches_close hvote.dispute hvote.unresolved (Dispute.target_voted ..)
    (w.relay.disputes_voted_closed id verdict signer d relay .fraud)]
  simp

/-- `amount` taken from `account`, its verifier pool first, as far as its stakes reach. -/
structure SlashedOnce (account : Address) (amount : ℕ) (l l' : Ledger) : Prop where
  lost : l'.verifierStake account + l'.relayStake account +
    min amount (l.verifierStake account + l.relayStake account) = l.verifierStake account + l.relayStake account
  verifier_pool : l'.verifierStake account + min amount (l.verifierStake account) = l.verifierStake account

/-- What is promised of the call from `w` to `w'` that completes a fraud verdict in the dispute `id` on `t`, a target of
`relay`. -/
structure FraudSlashing (D : Deployment) (w w' : World) (id : ℕ) (t : Target) (relay : Address) : Prop where
  /-- The loop of slashes runs over those who voted "valid" in any dispute on `t`, over each of them once. -/
  slashes : ∃ (wrongSide : List Address) (d : Dispute), w'.relay.court.disputes[id]? = some d ∧ d.target = t ∧
    wrongSide.Nodup ∧ (∀ v, v ∈ wrongSide ↔ w'.relay.court.VotedValid t v) ∧
    w'.relay.ledger = w.relay.ledger.afterFraud D d relay wrongSide
  wrong_side : ∀ v, w'.relay.court.VotedValid t v →
    SlashedOnce v D.verifierSlashAmount w.relay.ledger w'.relay.ledger
  relay_apart : ¬ w'.relay.court.VotedValid t relay
  /-- Nobody else but the relay loses stake. -/
  others : ∀ a, ¬ w'.relay.court.VotedValid t a → a ≠ relay →
    w'.relay.ledger.verifierStake a = w.relay.ledger.verifierStake a ∧
      w'.relay.ledger.relayStake a = w.relay.ledger.relayStake a
  /-- In the whole run, before this call and after it, no other fraud verdict falls on `t`. -/
  only : ∀ u : World, Reaches (World.Step D) w' u → u.relay.logs.count (.disputeResolved id true) = 1 ∧
    ∀ (j : ℕ) (e : Dispute), u.relay.court.disputes[j]? = some e → e.target = t →
      .disputeResolved j true ∈ u.relay.logs → j = id

theorem FraudSlashing.of_vote (hw : w.Reachable D) (hkeys : KeysInjective D.toEvm) (hs : w.Step D w') {env : Env}
    {id : ℕ} {verdict : Bool} {signature : List Byte} {signer : Address} {d : Dispute} {relay : Address}
    (hvote : Voting D env w.relay id verdict signature signer d relay)
    (hw' : w'.relay = (w.relay.voted id verdict signer d).afterFraud D id (d.voted verdict signer) relay) :
    FraudSlashing D w w' id d.target relay := by
  have hreach' : w'.Reachable D := hw.next hs
  have hnodup := (hw.wrongSide hkeys hvote).1
  have hvoted := hw.votedValid_wrongSide hkeys hs hvote hw'
  have hrelay := hw.relay_not_wrongSide hkeys hvote
  have hapart : ¬ w'.relay.court.VotedValid d.target relay := by
    rw [hvoted]
    exact hrelay
  have hledger : w'.relay.ledger = w.relay.ledger.afterFraud D (d.voted verdict signer) relay
      ((w.relay.voted id verdict signer d).wrongSide D (d.voted verdict signer)) := by
    rw [hw']
    rfl
  have hstakes := Ledger.stakes_afterFraud (l := w.relay.ledger) hnodup hrelay D (d.voted verdict signer)
  have hdispute : w'.relay.court.disputes[id]? = some { d.voted verdict signer with resolved := true } := by
    rw [hw']
    dsimp only [Storage.afterFraud]
    rw [Storage.disputes_voted_closed]
    exact List.getElem?_set_self (List.getElem?_eq_some_iff.1 hvote.dispute).1
  constructor
  case slashes =>
    exact ⟨_, { d.voted verdict signer with resolved := true }, hdispute, Dispute.target_voted .., hnodup,
      fun v => (hvoted v).symm, hledger⟩
  case wrong_side =>
    intro v hv
    rw [hvoted] at hv
    obtain ⟨hverifier, hrel⟩ := hstakes v
    rw [← hledger, if_pos hv] at hverifier hrel
    constructor
    · rw [hverifier, hrel]
      omega
    · rw [hverifier]
      omega
  case relay_apart => exact hapart
  case others =>
    intro a ha hne
    rw [hvoted] at ha
    obtain ⟨hverifier, hrel⟩ := hstakes a
    rw [← hledger, if_neg ha, if_neg hne] at hverifier hrel
    exact ⟨hverifier, hrel⟩
  case only =>
    intro u hu
    have hreach : u.Reachable D := Lib.Reachable.trans hreach' hu
    have hfraud : .disputeResolved id true ∈ w'.relay.logs := by
      rw [hw']
      exact List.mem_append_right _ (List.mem_singleton_self _)
    have hclosed : (w'.relay.court.docket w'.relay.verdicts).cases[id]? = some (d.target, true) :=
      Court.docket_case.2 ⟨_, hdispute, Dispute.target_voted .., rfl⟩
    have hverdict := hreach'.verdict_kept hu ((Storage.mem_verdicts (v := .fraud)).2 hfraud)
    constructor
    · have hpos : 0 < u.relay.logs.count (.disputeResolved id true) :=
        List.count_pos_iff.2 (Storage.mem_verdicts.1 hverdict)
      have hle : u.relay.logs.count (.disputeResolved id true) ≤ 1 := hreach.count_verdict id .fraud
      omega
    · intro j e he het hlog
      have hj := (Storage.mem_verdicts (v := .fraud)).2 hlog
      obtain ⟨t, ht, -, -⟩ := hreach.court.docket.decided j _ hj
      obtain ⟨e', he', rfl, -⟩ := Court.docket_case.1 ht
      obtain rfl := Option.some.inj (he.symm.trans he')
      rw [het] at ht
      exact hreach.court.docket.single j _ id _ d.target hj (by simp) hverdict (by simp) ht
        (hreach'.case_closed hu hclosed)

/-- **Cross-dispute slashing is complete and exact.** -/
theorem fraud_slashing {D : Deployment} {w w' : World} (hw : w.Reachable D) (hkeys : KeysInjective D.toEvm)
    {sender : Address} {value id : ℕ} {verdict : Bool} {signature : List Byte}
    (hs : w.step D (.call sender value (.submitAttestation id verdict signature)) = .ok w')
    (hfraud : .disputeResolved id true ∈ w'.relay.logs) :
    ∃ (d : Dispute) (relay : Address), w.relay.court.disputes[id]? = some d ∧
      w.relay.court.relayOf d.target = some relay ∧ FraudSlashing D w w' id d.target relay := by
  obtain ⟨signer, d, relay, hvote, hw'⟩ := hw.fraud_step hs hfraud
  exact ⟨d, relay, hvote.dispute, targetRelay_ok'.1 hvote.endorsed, .of_vote hw hkeys ⟨_, hs⟩ hvote hw'⟩

namespace Toy

/-- The first record disputed again: of those who upheld it, 3 changes sides and completes a fraud verdict with 5. -/
def secondTrial : World := World.after (Deployment.toy 2) [.call 9 10 (.openDispute 0), vote 5 3 0 0 0 true] world

theorem secondTrial_reachable : secondTrial.Reachable (Deployment.toy 2) := World.after_reachable _ world_reachable

def secondVerdict : World := World.after (Deployment.toy 2) [vote 3 3 0 0 0 true] secondTrial

end Toy

theorem fraud_slashing_toy :
    (∃ d relay, FraudSlashing (Deployment.toy 2) Toy.secondTrial Toy.secondVerdict 3 d relay) ∧
      Toy.secondVerdict.relay.ledger.verifierStake 3 = 25 ∧ Toy.secondVerdict.relay.ledger.verifierStake 4 = 25 := by
  obtain ⟨hok, hfraud, hstakes⟩ : (Toy.secondTrial.step (Deployment.toy 2) (Toy.vote 3 3 0 0 0 true)).isOk ∧
      .disputeResolved 3 true ∈ Toy.secondVerdict.relay.logs ∧
      Toy.secondVerdict.relay.ledger.verifierStake 3 = 25 ∧ Toy.secondVerdict.relay.ledger.verifierStake 4 = 25 := by
    decide +kernel
  have hs : Toy.secondTrial.step (Deployment.toy 2) (Toy.vote 3 3 0 0 0 true) = .ok Toy.secondVerdict :=
    World.after_step hok
  obtain ⟨d, relay, -, -, h⟩ := fraud_slashing Toy.secondTrial_reachable (.of_injective Evm.toy_injective) hs hfraud
  exact ⟨⟨_, _, h⟩, hstakes⟩

end PqIotAuth
