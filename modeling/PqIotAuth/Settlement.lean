import PqIotAuth.Slashing

/-!
# Settlement

What the end of a dispute does to the balances of every account (`settlement`), whichever roles the account has in it.
The accounts that pay are told by `Ledger.stakes_afterFraud`, and an account is credited the sum over its roles: the
slashes, the bounty and the bond as the challenger, a share as an attester, a half of the bond as the relay. The shares
are those of a full side, since a side that decides has exactly the quorum.
-/

namespace PqIotAuth

open Lib

variable {D : Deployment} {env : Env} {s s' : Storage} {call : Call} {w w' : World} {id : ℕ} {d d' : Dispute}

/-! ## Which steps end a dispute -/

/-- The verdict with which a call ends the open dispute `d` at `id`, if the call is accepted. -/
def Call.ends (D : Deployment) (id : ℕ) (d : Dispute) : Call → Option Verdict
  | .submitAttestation disputeId verdictIsFraud signature =>
    if disputeId = id then
      (recover D.toEvm (attestDigest D.toEvm id verdictIsFraud d) signature).toOption.bind fun signer =>
        (d.voted verdictIsFraud signer).outcome D
    else none
  | .expireDispute disputeId => if disputeId = id then some .expired else none
  | _ => none

def Action.ends (D : Deployment) (id : ℕ) (d : Dispute) : Action → Option Verdict
  | .call _ _ c => c.ends D id d
  | _ => none

theorem Voting.ends {verdict : Bool} {signature : List Byte} {signer relay : Address}
    (h : Voting D env s id verdict signature signer d relay) :
    (Call.submitAttestation id verdict signature).ends D id d = (d.voted verdict signer).outcome D := by
  rw [Call.ends, if_pos rfl, h.signed]
  rfl

theorem Call.ends_of_ne (h : call.disputeId ≠ some id) : call.ends D id d = none := by
  cases call with
  | submitAttestation | expireDispute => exact if_neg fun hid => h (congrArg some hid)
  | _ => rfl

/-- A call ends the open dispute `d` with a verdict; the last argument but one is the dispute with its last vote. -/
inductive Ending (D : Deployment) (env : Env) (s : Storage) (id : ℕ) (d : Dispute) :
    Call → Verdict → Address → Dispute → Storage → Prop
  | fraud {verdict : Bool} {signature : List Byte} {signer relay : Address}
      (hvote : Voting D env s id verdict signature signer d relay)
      (hfull : D.quorum ≤ (d.voted verdict signer).fraudAttesters.length) :
      Ending D env s id d (.submitAttestation id verdict signature) .fraud relay (d.voted verdict signer)
        ((s.voted id verdict signer d).afterFraud D id (d.voted verdict signer) relay)
  | spurious {verdict : Bool} {signature : List Byte} {signer relay : Address}
      (hvote : Voting D env s id verdict signature signer d relay)
      (hshort : (d.voted verdict signer).fraudAttesters.length < D.quorum)
      (hfull : D.quorum ≤ (d.voted verdict signer).validAttesters.length) :
      Ending D env s id d (.submitAttestation id verdict signature) .spurious relay (d.voted verdict signer)
        ((s.voted id verdict signer d).afterSpurious D id (d.voted verdict signer) relay)
  | expired {relay : Address} (hexp : Expiring env s id d relay) :
      Ending D env s id d (.expireDispute id) .expired relay d (s.afterExpiry D id d relay)

/-- What a call does to a dispute: it ends it, or it adds votes at most. -/
theorem Effect.ends (he : Effect D env s call s') (hd : s.court.disputes[id]? = some d) :
    (call.ends D id d = none ∧ ∃ fraudAttesters validAttesters,
      s'.court.disputes[id]? = some { d with fraudAttesters, validAttesters }) ∨
      ∃ v relay e, call.ends D id d = some v ∧ Ending D env s id d call v relay e s' := by
  -- a call on another dispute
  have hother : ∀ {id₀ : ℕ} {e : Dispute}, call.disputeId = some id₀ → id ≠ id₀ →
      s'.court.disputes = s.court.disputes.set id₀ e → call.ends D id d = none ∧ ∃ fraudAttesters validAttesters,
        s'.court.disputes[id]? = some { d with fraudAttesters, validAttesters } := by
    intro id₀ e hcall hid hds
    refine ⟨Call.ends_of_ne (by rw [hcall]; simpa using Ne.symm hid), d.fraudAttesters, d.validAttesters, ?_⟩
    rw [hds, List.getElem?_set_ne (Ne.symm hid)]
    exact hd
  cases he with
  | @vote _ id₀ verdict _ signer _ _ hvote hfraud hvalid =>
    by_cases hid : id = id₀
    · subst hid
      obtain rfl := Option.some.inj (hd.symm.trans hvote.dispute)
      obtain ⟨fa, va, hvoted⟩ := Dispute.voted_eq verdict signer d
      refine .inl ⟨?_, fa, va, ?_⟩
      · rw [hvote.ends, Dispute.outcome, if_neg (Nat.not_le.2 hfraud), if_neg (Nat.not_le.2 hvalid)]
      · exact hvoted ▸ List.getElem?_set_self (List.getElem?_eq_some_iff.1 hd).1
    · exact .inl (hother rfl hid rfl)
  | @fraud _ id₀ _ _ _ _ _ hvote hfull =>
    by_cases hid : id = id₀
    · subst hid
      obtain rfl := Option.some.inj (hd.symm.trans hvote.dispute)
      refine .inr ⟨_, _, _, ?_, .fraud hvote hfull⟩
      rw [hvote.ends, Dispute.outcome, if_pos hfull]
    · exact .inl (hother rfl hid (s.disputes_voted_closed ..))
  | @spurious _ id₀ _ _ _ _ _ hvote hshort hfull =>
    by_cases hid : id = id₀
    · subst hid
      obtain rfl := Option.some.inj (hd.symm.trans hvote.dispute)
      refine .inr ⟨_, _, _, ?_, .spurious hvote hshort hfull⟩
      rw [hvote.ends, Dispute.outcome, if_neg (Nat.not_le.2 hshort), if_pos hfull]
    · exact .inl (hother rfl hid (s.disputes_voted_closed ..))
  | @expire _ id₀ _ _ hexp =>
    by_cases hid : id = id₀
    · subst hid
      obtain rfl := Option.some.inj (hd.symm.trans hexp.dispute)
      exact .inr ⟨_, _, _, if_pos rfl, .expired hexp⟩
    · exact .inl (hother rfl hid (Court.disputes_closed ..))
  | openDispute | openBatchLeafDispute =>
    exact .inl ⟨rfl, _, _, getElem?_append_singleton.2 (.inr ⟨(List.getElem?_eq_some_iff.1 hd).1, hd⟩)⟩
  | _ => exact .inl ⟨rfl, _, _, hd⟩

namespace Ending

variable {v : Verdict} {relay : Address} {e : Dispute}

theorem told (h : Ending D env s id d call v relay e s') : v.event id ∈ s'.logs := by
  cases h <;> exact List.mem_append_right _ (List.mem_singleton_self _)

theorem endorsed (h : Ending D env s id d call v relay e s') : s.court.relayOf d.target = some relay := by
  cases h with
  | fraud hvote | spurious hvote => exact targetRelay_ok'.1 hvote.endorsed
  | expired hexp => exact targetRelay_ok'.1 hexp.endorsed

theorem kept (h : Ending D env s id d call v relay e s') :
    e = { d with fraudAttesters := e.fraudAttesters, validAttesters := e.validAttesters } := by
  cases h with
  | @fraud verdict _ signer | @spurious verdict _ signer => cases verdict <;> rfl
  | expired => rfl

theorem disputes (h : Ending D env s id d call v relay e s') :
    s'.court.disputes = s.court.disputes.set id { e with resolved := true } := by
  cases h with
  | fraud | spurious => exact s.disputes_voted_closed ..
  | expired => exact Court.disputes_closed ..

theorem resolved (h : Ending D env s id d call v relay e s') (hd : s.court.disputes[id]? = some d) :
    s'.court.disputes[id]? = some { e with resolved := true } := by
  rw [h.disputes]
  exact List.getElem?_set_self (List.getElem?_eq_some_iff.1 hd).1

/-- What a verdict does to the phases. -/
theorem phase (h : Ending D env s id d call v relay e s') (hcourt : s.court.Inv s.verdicts) :
    s'.court.phase = Function.update s.court.phase d.target v.phase := by
  cases h with
  | fraud hvote => exact hcourt.phase_voted_closed hvote .fraud
  | spurious hvote => exact hcourt.phase_voted_closed hvote .spurious
  | expired hexp =>
    exact hcourt.phase_closed D hexp.dispute hexp.unresolved hexp.endorsed d.fraudAttesters d.validAttesters .expired

end Ending

/-- What an action does to an open dispute, and the verdict that it tells. -/
theorem World.Reachable.ends (hw : w.Reachable D) {a : Action} (hs : w.step D a = .ok w')
    (hd : w.relay.court.disputes[id]? = some d) (hun : d.resolved = false) :
    (a.ends D id d = none ∧ ∃ fraudAttesters validAttesters,
      w'.relay.court.disputes[id]? = some { d with fraudAttesters, validAttesters }) ∨
      ∃ sender value call v relay e, a = .call sender value call ∧ a.ends D id d = some v ∧
        Ending D (w.env sender value) w.relay id d call v relay e w'.relay ∧
        w'.relay.verdicts = w.relay.verdicts ++ [(id, v)] := by
  by_cases hcall : ∀ sender value c, a ≠ .call sender value c
  · obtain ⟨_, _, _, hrelay, -⟩ := World.step_frame hs hcall
    refine .inl ⟨?_, d.fraudAttesters, d.validAttesters, ?_⟩
    · cases a with
      | call => exact absurd rfl (hcall _ _ _)
      | _ => rfl
    · rw [hrelay]
      exact hd
  · push Not at hcall
    obtain ⟨sender, value, c, rfl⟩ := hcall
    obtain ⟨ov, -, hverdicts⟩ := hw.courtStep ⟨_, hs⟩
    obtain ⟨x, he, rfl⟩ := World.call_effect hs
    rcases he.ends hd with hopen | ⟨v, relay, e, hends, hend⟩
    · exact .inl hopen
    · -- the verdict is told now, and was not told before
      have htold : (id, v) ∈ w.relay.verdicts ++ ov.toList := hverdicts ▸ Storage.mem_verdicts.2 hend.told
      have hno : (id, v) ∉ w.relay.verdicts := fun hold =>
        hw.court.docket.not_open hold d.target (Court.docket_case.2 ⟨d, hd, rfl, hun⟩)
      have hov : ov = some (id, v) := Option.mem_toList.1 ((List.mem_append.1 htold).resolve_left hno)
      exact .inr ⟨sender, value, c, v, relay, e, rfl, hends, hend, by rw [hverdicts, hov]; rfl⟩

/-! ## The three settlements -/

/-- A side of the dispute has as many attesters as the quorum asks for, all different. -/
structure FullSide (D : Deployment) (attesters : List Address) : Prop where
  nodup : attesters.Nodup
  length : attesters.length = D.quorum

/-- What a fraud verdict on a target of `relay` does to the balances; `wrongSide` are those who voted "valid" on the
target. -/
structure SettledFraud (D : Deployment) (d : Dispute) (relay : Address) (wrongSide : List Address) (l l' : Ledger) :
    Prop where
  attesters : FullSide D d.fraudAttesters
  /-- Each verifier of the wrong side pays once, from its verifier pool first. -/
  slashed : ∀ v ∈ wrongSide, l'.verifierStake v = l.verifierStake v - D.verifierSlashAmount ∧
    l'.relayStake v = l.relayStake v - (D.verifierSlashAmount - l.verifierStake v)
  apart : relay ∉ wrongSide
  /-- What is collected from the relay leaves its relay pool first. -/
  collected : let c := min D.relaySlashAmount (l.relayStake relay + l.verifierStake relay)
    l'.relayStake relay = l.relayStake relay - c ∧
      l'.verifierStake relay = l.verifierStake relay - (c - l.relayStake relay)
  others : ∀ a ∉ wrongSide, a ≠ relay →
    l'.relayStake a = l.relayStake a ∧ l'.verifierStake a = l.verifierStake a
  credits : let c := min D.relaySlashAmount (l.relayStake relay + l.verifierStake relay)
    let slashes := (wrongSide.map fun v => min D.verifierSlashAmount (l.relayStake v + l.verifierStake v)).sum
    ∀ a, l'.pendingWithdrawals a = l.pendingWithdrawals a +
      (if a = d.challenger then slashes + 3 * c / 5 + d.bond else 0) +
      if a ∈ d.fraudAttesters then 2 * c / 5 / D.quorum else 0

structure SettledSpurious (D : Deployment) (d : Dispute) (relay : Address) (l l' : Ledger) : Prop where
  attesters : FullSide D d.validAttesters
  stakes : l'.relayStake = l.relayStake ∧ l'.verifierStake = l.verifierStake
  credits : ∀ a, l'.pendingWithdrawals a = l.pendingWithdrawals a +
    (if a ∈ d.validAttesters then d.bond / 2 / D.quorum else 0) + if a = relay then d.bond - d.bond / 2 else 0

structure SettledExpiry (d : Dispute) (l l' : Ledger) : Prop where
  stakes : l'.relayStake = l.relayStake ∧ l'.verifierStake = l.verifierStake
  credits : ∀ a, l'.pendingWithdrawals a = l.pendingWithdrawals a + if a = d.challenger then d.bond / 2 else 0

/-- What the end of the dispute `d` with a verdict does from `w` to `w'`. -/
def Settled (D : Deployment) (w w' : World) (d : Dispute) (relay : Address) : Verdict → Prop
  | .fraud => ∃ wrongSide : List Address, wrongSide.Nodup ∧
      (∀ v, v ∈ wrongSide ↔ w'.relay.court.VotedValid d.target v) ∧
      SettledFraud D d relay wrongSide w.relay.ledger w'.relay.ledger
  | .spurious => SettledSpurious D d relay w.relay.ledger w'.relay.ledger
  | .expired => SettledExpiry d w.relay.ledger w'.relay.ledger

namespace Ledger

variable {l : Ledger}

theorem settledFraud {wrongSide : List Address} (hnd : wrongSide.Nodup) {relay : Address} (hrelay : relay ∉ wrongSide)
    (hside : FullSide D d.fraudAttesters) :
    SettledFraud D { d with resolved := true } relay wrongSide l (l.afterFraud D d relay wrongSide) := by
  have hstakes := stakes_afterFraud (l := l) hnd hrelay D d
  refine ⟨hside, fun v hv => ?_, hrelay, ?_, fun a ha hne => ?_, fun a => ?_⟩
  · obtain ⟨hverifier, hrel⟩ := hstakes v
    rw [if_pos hv] at hverifier hrel
    exact ⟨hverifier, hrel⟩
  · obtain ⟨hverifier, hrel⟩ := hstakes relay
    rw [if_neg hrelay, if_pos rfl] at hverifier hrel
    dsimp only
    rw [hverifier, hrel]
    omega
  · obtain ⟨hverifier, hrel⟩ := hstakes a
    rw [if_neg ha, if_neg hne] at hverifier hrel
    exact ⟨hrel, hverifier⟩
  · rw [pendingWithdrawals_afterFraud hnd hrelay, hside.nodup.count, hside.length, ite_mul, one_mul, zero_mul]
    simp only [seizedAll, seized, Nat.mul_comm _ 3, Nat.mul_comm _ 2]

theorem settledSpurious {relay : Address} (hside : FullSide D d.validAttesters) :
    SettledSpurious D { d with resolved := true } relay l (l.afterSpurious d relay) := by
  refine ⟨hside, stakes_paid _ _, fun a => ?_⟩
  rw [pendingWithdrawals_afterSpurious, hside.nodup.count, hside.length, ite_mul, one_mul, zero_mul]

theorem settledExpiry : SettledExpiry { d with resolved := true } l (l.afterExpiry d) :=
  ⟨⟨rfl, rfl⟩, pendingWithdrawals_credited d.challenger (d.bond / 2)⟩

end Ledger

/-! ## Every outcome -/

/-- An attestation that leaves a fraud verdict ends the dispute with it. -/
theorem World.Reachable.fraud_ending (hw : w.Reachable D) {sender : Address} {value : ℕ} {verdict : Bool}
    {signature : List Byte} (hs : w.step D (.call sender value (.submitAttestation id verdict signature)) = .ok w')
    (hfraud : .disputeResolved id true ∈ w'.relay.logs) :
    ∃ d relay e, w.relay.court.disputes[id]? = some d ∧ d.resolved = false ∧
      Ending D (w.env sender value) w.relay id d (.submitAttestation id verdict signature) .fraud relay e
        w'.relay := by
  have hnext := (hw.next ⟨_, hs⟩).court.docket
  obtain ⟨signer, d, relay, hvote, hrelay⟩ := hw.fraud_step hs hfraud
  have hd' : w'.relay.court.disputes[id]? = some { d.voted verdict signer with resolved := true } := by
    rw [hrelay]
    dsimp only [Storage.afterFraud]
    rw [Storage.disputes_voted_closed]
    exact List.getElem?_set_self (List.getElem?_eq_some_iff.1 hvote.dispute).1
  obtain ⟨s, he, rfl⟩ := World.call_effect hs
  rcases he.ends hvote.dispute with ⟨-, fa, va, hopen⟩ | ⟨v, relay', e, -, hend⟩
  · have hsame := congrArg Dispute.resolved (Option.some.inj (hopen.symm.trans hd'))
    cases hvote.unresolved.symm.trans hsame
  -- a dispute has one verdict
  obtain ⟨-, rfl⟩ := Prod.mk.inj (List.inj_on_of_nodup_map hnext.once (Storage.mem_verdicts.2 hend.told)
    ((Storage.mem_verdicts (v := .fraud)).2 hfraud) rfl)
  exact ⟨d, relay', e, hvote.dispute, hvote.unresolved, hend⟩

theorem Ending.settled (hq : 0 < D.quorum) (hw : w.Reachable D) (hkeys : KeysInjective D.toEvm) (hs : w.Step D w')
    (hd : w.relay.court.disputes[id]? = some d) {v : Verdict} {relay : Address} {e : Dispute}
    (h : Ending D env w.relay id d call v relay e w'.relay) : Settled D w w' { e with resolved := true } relay v := by
  have hsides := (hw.next hs).votes.each id _ (h.resolved hd)
  generalize hrelay : w'.relay = s' at h hsides
  cases h with
  | @fraud verdict signature signer _ hvote hfull =>
    have hlength := (hvote.length_le hw.votes hq).1
    have hvoted := hw.votedValid_wrongSide hkeys hs hvote hrelay
    rw [← Dispute.target_voted verdict signer d] at hvoted
    refine ⟨_, (hw.wrongSide hkeys hvote).1, fun a => (hvoted a).symm, ?_⟩
    rw [hrelay]
    exact Ledger.settledFraud (hw.wrongSide hkeys hvote).1 (hw.relay_not_wrongSide hkeys hvote)
      ⟨hsides.fraud_nodup, le_antisymm hlength hfull⟩
  | @spurious verdict signature signer _ hvote _ hfull =>
    have hlength := (hvote.length_le hw.votes hq).2
    rw [Settled, hrelay]
    exact Ledger.settledSpurious ⟨hsides.valid_nodup, le_antisymm hlength hfull⟩
  | expired hexp =>
    rw [Settled, hrelay]
    exact Ledger.settledExpiry

/-- **The settlement of every dispute.** An accepted action resolves an open dispute when it is an expiry of it or a vote
that fills a side, and only then, and settles it. -/
theorem settlement {D : Deployment} {w w' : World} (hq : 0 < D.quorum) (hw : w.Reachable D)
    (hkeys : KeysInjective D.toEvm) {act : Action} (hs : w.step D act = .ok w') {id : ℕ} {d : Dispute}
    (hd : w.relay.court.disputes[id]? = some d) (hun : d.resolved = false) :
    ∃ d', w'.relay.court.disputes[id]? = some d' ∧
      d' = { d with
        fraudAttesters := d'.fraudAttesters
        validAttesters := d'.validAttesters
        resolved := (act.ends D id d).isSome } ∧
      ∀ v, act.ends D id d = some v → ∃ relay : Address, w.relay.court.relayOf d.target = some relay ∧
        w'.relay.verdicts = w.relay.verdicts ++ [(id, v)] ∧ Settled D w w' d' relay v := by
  rcases hw.ends hs hd hun with ⟨hends, fa, va, hopen⟩ | ⟨_, _, _, v, relay, e, -, hends, hend, htold⟩
  · exact ⟨_, hopen, by rw [hends, Option.isSome_none, ← hun], fun v hv => by simp [hends] at hv⟩
  · refine ⟨_, hend.resolved hd, by rw [hends, hend.kept]; rfl, fun v' hv => ?_⟩
    obtain rfl := Option.some.inj (hends.symm.trans hv)
    exact ⟨relay, hend.endorsed, htold, hend.settled hq hw hkeys ⟨act, hs⟩ hd⟩

/-- The fraud verdict on the first record: its challenger 9 gets two slashes of 15, three fifths of the 30 that are
collected from the relay, and its bond. -/
theorem settlement_toy :
    (∃ d relay v, Settled (Deployment.toy 2) Toy.secondTrial Toy.secondVerdict d relay v) ∧
      Toy.secondVerdict.relay.ledger.pendingWithdrawals 9 =
        Toy.secondTrial.relay.ledger.pendingWithdrawals 9 + (15 + 15 + 3 * 30 / 5 + 10) := by
  obtain ⟨hok, ⟨d, hd, hun, hends⟩, hcredit⟩ :
      (Toy.secondTrial.step (Deployment.toy 2) (Toy.vote 3 3 0 0 0 true)).isOk ∧
      (∃ d ∈ Toy.secondTrial.relay.court.disputes[3]?, d.resolved = false ∧
        (Toy.vote 3 3 0 0 0 true).ends (Deployment.toy 2) 3 d = some .fraud) ∧
      Toy.secondVerdict.relay.ledger.pendingWithdrawals 9 =
        Toy.secondTrial.relay.ledger.pendingWithdrawals 9 + (15 + 15 + 3 * 30 / 5 + 10) := by decide +kernel
  have hs : Toy.secondTrial.step (Deployment.toy 2) (Toy.vote 3 3 0 0 0 true) = .ok Toy.secondVerdict :=
    World.after_step hok
  obtain ⟨d', -, -, hsettled⟩ := settlement (by decide) Toy.secondTrial_reachable (.of_injective Evm.toy_injective) hs
    hd hun
  obtain ⟨relay, -, -, h⟩ := hsettled _ hends
  exact ⟨⟨d', relay, _, h⟩, hcredit⟩

end PqIotAuth
