import PqIotAuth.Custody
import PqIotAuth.Verdicts

/-!
# The stake behind a verdict

A verdict is given by a quorum of verifiers, and each of them was registered and staked when it voted. Between the first
vote and the last one it can go: it deregisters, or a fraud verdict in another dispute takes its stake (`Bonded.step`).
So along a run every attester of an open dispute has voted at one turn, and is bonded unless it has gone at a later one
(`VotesBonded`). When the verdict falls, the attesters that have not gone since their vote hold a stake each, all at the
same time (`verdict_backing`), and of the others nothing may be left (`verdict_unbacked`).
-/

namespace PqIotAuth

open Lib

variable {D : Deployment} {env : Env} {s s' : Storage} {call : Call} {w w' : World} {v : Address} {id : ℕ} {d : Dispute}
  {verdict : Bool} {act : Action} {l : List (World × Action)} {now : ℕ}

/-- `v` is on the roster with the stake that a vote asks for. -/
structure Bonded (D : Deployment) (w : World) (v : Address) : Prop where
  registered : w.relay.roster.isRegisteredVerifier v
  staked : D.verifierStakeAmount ≤ w.relay.ledger.verifierStake v

/-- At a turn of a run, `v` leaves the roster, or a fraud verdict falls against it. -/
def Departs (D : Deployment) (v : Address) (p : World × Action) : Prop :=
  (∃ value, p.2 = .call v value .deregisterVerifier) ∨
    ∃ w' id d, p.1.step D p.2 = .ok w' ∧ FraudAgainst v p.1 w' id d p.2

/-- At a turn of a run, someone brings a signature of `v` under the verdict on the dispute `id`, which is `d`, in time
and while `v` is bonded. -/
structure VotesAt (D : Deployment) (id : ℕ) (d : Dispute) (verdict : Bool) (v : Address) (p : World × Action) :
    Prop where
  signed : ∃ sender value signature, p.2 = .call sender value (.submitAttestation id verdict signature) ∧
    recover D.toEvm (attestDigest D.toEvm id verdict d) signature = .ok v
  bonded : Bonded D p.1 v
  in_time : p.1.now ≤ d.deadline

/-- Only its own call takes a verifier off the roster. -/
theorem Effect.registered_lost (he : Effect D env s call s') (hwf : s.roster.Wf)
    (hin : s.roster.isRegisteredVerifier v) (hout : ¬ s'.roster.isRegisteredVerifier v) :
    call = .deregisterVerifier ∧ v = env.sender := by
  cases he with
  | joinVerifier =>
    refine absurd ?_ hout
    dsimp only [Storage.emit, Roster.joined]
    rw [Function.update_apply]
    split
    · rfl
    · exact hin
  | deregisterVerifier _ hsender _ hroster =>
    obtain ⟨r', hr', -, hflags⟩ := hwf.deregisterLoop hsender
    obtain rfl := Except.ok.inj (hr'.symm.trans hroster)
    refine ⟨rfl, ?_⟩
    by_contra hne
    refine hout ?_
    change r'.isRegisteredVerifier v
    rw [hflags, Function.update_of_ne hne]
    exact hin
  | _ => exact absurd hin hout

/-- A bond lasts until its verifier departs. -/
theorem Bonded.step (hw : w.Reachable D) (hkeys : KeysInjective D.toEvm) (h : Bonded D w v)
    (hs : w.step D act = .ok w') : Bonded D w' v ∨ Departs D v (w, act) := by
  by_cases hlost : Role.verifier.stake w'.relay.ledger v < Role.verifier.stake w.relay.ledger v
  · rcases hw.stake_lost hkeys hs hlost with hexit | ⟨id, d, hfraud⟩
    · exact absurd h.registered hexit.free.1
    · exact .inr (.inr ⟨w', id, d, hs, hfraud⟩)
  · have hstaked : D.verifierStakeAmount ≤ w'.relay.ledger.verifierStake v := h.staked.trans (Nat.le_of_not_lt hlost)
    by_cases hreg : w'.relay.roster.isRegisteredVerifier v
    · exact .inl ⟨hreg, hstaked⟩
    · by_cases hcall : ∀ sender value c, act ≠ .call sender value c
      · obtain ⟨_, _, _, hrelay, -⟩ := World.step_frame hs hcall
        rw [hrelay] at hreg
        exact absurd h.registered hreg
      · push Not at hcall
        obtain ⟨sender, value, c, rfl⟩ := hcall
        obtain ⟨x, he, rfl⟩ := World.call_effect hs
        obtain ⟨rfl, rfl⟩ := he.registered_lost hw.roster h.registered hreg
        exact .inr (.inl ⟨value, rfl⟩)

/-! ## The attesters of a run -/

/-- Whoever stands on a side after an action stood there before, or the action is its vote. -/
theorem World.Reachable.attester_was (hw : w.Reachable D) (hs : w.step D act = .ok w')
    (hd : w'.relay.court.disputes[id]? = some d) (hv : v ∈ d.attesters verdict) :
    (∃ d₀, w.relay.court.disputes[id]? = some d₀ ∧ v ∈ d₀.attesters verdict ∧
      ∀ p, VotesAt D id d₀ verdict v p → VotesAt D id d verdict v p) ∨
      VotesAt D id d verdict v (w, act) := by
  by_cases hold : w.relay.court.Attests id verdict v
  · obtain ⟨d₀, hd₀, hv₀⟩ := hold
    obtain ⟨fa, va, r, hkept⟩ := hw.dispute_kept (.single ⟨act, hs⟩) hd₀
    obtain rfl := Option.some.inj (hkept.symm.trans hd)
    exact .inl ⟨d₀, hd₀, hv₀, fun p h => ⟨h.signed, h.bonded, h.in_time⟩⟩
  · refine .inr ?_
    have hyes : w'.relay.court.Attests id verdict v := ⟨d, hd, hv⟩
    by_cases hcall : ∀ sender value c, act ≠ .call sender value c
    · obtain ⟨_, _, _, hrelay, -⟩ := World.step_frame hs hcall
      rw [hrelay] at hyes
      exact absurd hyes hold
    · push Not at hcall
      obtain ⟨sender, value, c, rfl⟩ := hcall
      have hstep := hs
      obtain ⟨x, he, rfl⟩ := World.call_effect hs
      obtain ⟨signature, d₀, relay, rfl, hvote⟩ := he.attests hold hyes
      obtain ⟨fa, va, r, hkept⟩ := hw.dispute_kept (.single ⟨_, hstep⟩) hvote.dispute
      obtain rfl := Option.some.inj (hkept.symm.trans hd)
      exact ⟨⟨sender, value, signature, rfl, hvote.signed⟩, ⟨hvote.registered, hvote.staked⟩, hvote.in_time⟩

/-- The attesters of every open dispute have voted at one of the turns `l`, and are bonded unless they have departed at
a later one. -/
def VotesBonded (D : Deployment) (l : List (World × Action)) (w : World) : Prop :=
  ∀ (id : ℕ) (d : Dispute), w.relay.court.disputes[id]? = some d → d.resolved = false →
    ∀ (verdict : Bool) (v : Address), v ∈ d.attesters verdict →
      ∃ before p after, l = before ++ p :: after ∧ VotesAt D id d verdict v p ∧
        (Bonded D w v ∨ ∃ q ∈ after, Departs D v q)

theorem VotesBonded.step (hw : w.Reachable D) (hkeys : KeysInjective D.toEvm) (h : VotesBonded D l w)
    (hs : w.step D act = .ok w') : VotesBonded D (l ++ [(w, act)]) w' := by
  intro id d hd hun verdict v hv
  rcases hw.attester_was hs hd hv with ⟨d₀, hd₀, hv₀, hvotes⟩ | hvotes
  · have hun₀ : d₀.resolved = false := by
      by_contra hres
      have hfrozen := hw.dispute_frozen (.single ⟨act, hs⟩) hd₀ (Bool.eq_true_of_not_eq_false hres)
      obtain rfl := Option.some.inj (hfrozen.symm.trans hd)
      exact hres hun
    obtain ⟨before, p, after, rfl, hat, hbond⟩ := h id d₀ hd₀ hun₀ verdict v hv₀
    refine ⟨before, p, after ++ [(w, act)], by simp, hvotes p hat, ?_⟩
    rcases hbond with hbond | ⟨q, hq, hdeparts⟩
    · rcases hbond.step hw hkeys hs with hbond | hdeparts
      · exact .inl hbond
      · exact .inr ⟨_, List.mem_append_right _ (List.mem_singleton_self _), hdeparts⟩
    · exact .inr ⟨q, List.mem_append_left _ hq, hdeparts⟩
  · refine ⟨l, (w, act), [], rfl, hvotes, ?_⟩
    rcases hvotes.bonded.step hw hkeys hs with hbond | ⟨value, hact⟩ | ⟨x, j, e, hx, hfraud⟩
    · exact .inl hbond
    · -- a vote is no departure, and a fraud verdict would have resolved the dispute
      obtain ⟨sender, _, signature, hvote, -⟩ := hvotes.signed
      cases hact.symm.trans hvote
    · obtain rfl := Except.ok.inj (hs.symm.trans hx)
      obtain ⟨_, _, _, hvote, -⟩ := hvotes.signed
      obtain ⟨_, _, _, _, hact⟩ := hfraud.attests
      cases hact.symm.trans hvote
      have hverdict := (Storage.mem_verdicts (v := .fraud)).2 hfraud.verdict.2
      exact absurd (Court.docket_case.2 ⟨d, hd, rfl, hun⟩) ((hw.next ⟨_, hs⟩).court.docket.not_open hverdict d.target)

/-! ## The stake behind a verdict -/

/-- What is promised of the attesters of the deciding side of the dispute `d` at `id` when the action `act`, taken in
`w` after the turns `l`, gives the verdict. -/
structure VerdictBacking (D : Deployment) (l : List (World × Action)) (w : World) (act : Action) (id : ℕ) (d : Dispute)
    (verdict : Bool) : Prop where
  /-- As many accounts as the quorum asks for, all different. -/
  quorum : (d.attesters verdict).length = D.quorum
  distinct : (d.attesters verdict).Nodup
  /-- Each was bonded at the turn at which it voted, and is when the verdict falls unless it departed in between. -/
  bonded : ∀ v ∈ d.attesters verdict, VotesAt D id d verdict v (w, act) ∨
    ∃ before p after, l = before ++ p :: after ∧ VotesAt D id d verdict v p ∧
      (Bonded D w v ∨ ∃ q ∈ after, Departs D v q)
  /-- If none has departed since its vote, the stakes that they hold at the same time back the verdict. -/
  backed : (∀ v ∈ d.attesters verdict, ∀ before p after, l = before ++ p :: after → VotesAt D id d verdict v p →
    ∀ q ∈ after, ¬ Departs D v q) →
      D.quorum * D.verifierStakeAmount ≤ ((d.attesters verdict).map w.relay.ledger.verifierStake).sum

/-- A dispute that gets its verdict was open before. -/
theorem World.Reachable.decided_open (hw : w.Reachable D) (hs : w.Step D w') {v : Verdict}
    (hold : v.event id ∉ w.relay.logs) (hnew : v.event id ∈ w'.relay.logs) :
    ∃ d, w.relay.court.disputes[id]? = some d ∧ d.resolved = false := by
  obtain ⟨ov, hstep, hverdicts⟩ := hw.courtStep hs
  have hold : (id, v) ∉ w.relay.verdicts := fun h => hold (Storage.mem_verdicts.1 h)
  have hnew : (id, v) ∈ w.relay.verdicts ++ ov.toList := hverdicts ▸ Storage.mem_verdicts.2 hnew
  obtain rfl := Option.mem_toList.1 ((List.mem_append.1 hnew).resolve_left hold)
  obtain ⟨t, ht, -⟩ := (hstep.docket hw.court).closed rfl
  obtain ⟨d, hd, -, hun⟩ := Court.docket_case.1 ht
  exact ⟨d, hd, hun⟩

/-- **A verdict is backed by the stakes of the attesters that have not departed since their votes.** -/
theorem verdict_backing {D : Deployment} (hq : 0 < D.quorum) (hkeys : KeysInjective D.toEvm) {now : ℕ} (hnow : 0 < now)
    (as : List Action) {act : Action} {w' : World}
    (hs : (World.attempts D as (World.init now)).step D act = .ok w') {id : ℕ} {verdict : Bool}
    (hverdict : .disputeResolved id verdict ∉ (World.attempts D as (World.init now)).relay.logs ∧
      .disputeResolved id verdict ∈ w'.relay.logs) :
    ∃ d, w'.relay.court.disputes[id]? = some d ∧ VerdictBacking D (World.accepted D as (World.init now))
      (World.attempts D as (World.init now)) act id d verdict := by
  have hw := World.attempts_reachable (D := D) hnow as
  have hrun := World.attempts_invariant (P := VotesBonded D) (.start ⟨now, hnow, rfl⟩) (fun id d hd => by cases hd)
    (fun _ _ _ _ hu h hs => h.step hu hkeys hs) as
  generalize World.accepted D as (World.init now) = l at hrun ⊢
  generalize World.attempts D as (World.init now) = w at hs hverdict hw hrun ⊢
  have hw' : w'.Reachable D := hw.next ⟨act, hs⟩
  obtain ⟨v, hv⟩ : ∃ v : Verdict, v.event id = .disputeResolved id verdict := by
    cases verdict
    · exact ⟨.spurious, rfl⟩
    · exact ⟨.fraud, rfl⟩
  obtain ⟨d₀, hd₀, hun⟩ := hw.decided_open ⟨act, hs⟩ (v := v) (hv ▸ hverdict.1) (hv ▸ hverdict.2)
  obtain ⟨d, hd⟩ : ∃ d, w'.relay.court.disputes[id]? = some d := by
    obtain ⟨_, _, _, hkept⟩ := hw.dispute_kept (.single ⟨act, hs⟩) hd₀
    exact ⟨_, hkept⟩
  have hlength := hw'.length_attesters hq hd hverdict.2
  have hsides := hw'.votes.each id _ hd
  have hbonded : ∀ v ∈ d.attesters verdict, VotesAt D id d verdict v (w, act) ∨
      ∃ before p after, l = before ++ p :: after ∧ VotesAt D id d verdict v p ∧
        (Bonded D w v ∨ ∃ q ∈ after, Departs D v q) := by
    intro v hv
    rcases hw.attester_was hs hd hv with ⟨d₁, hd₁, hv₁, hvotes⟩ | hvotes
    · obtain rfl := Option.some.inj (hd₀.symm.trans hd₁)
      obtain ⟨before, p, after, hl, hat, hbond⟩ := hrun id d₀ hd₀ hun verdict v hv₁
      exact .inr ⟨before, p, after, hl, hvotes p hat, hbond⟩
    · exact .inl hvotes
  refine ⟨d, hd, hlength, ?_, hbonded, fun hstay => ?_⟩
  · cases verdict
    · exact hsides.valid_nodup
    · exact hsides.fraud_nodup
  · have hstakes : ∀ stake ∈ (d.attesters verdict).map w.relay.ledger.verifierStake,
        D.verifierStakeAmount ≤ stake := by
      intro stake hstake
      obtain ⟨v, hv, rfl⟩ := List.mem_map.1 hstake
      rcases hbonded v hv with hlast | ⟨before, p, after, hl, hat, hbond | ⟨q, hq, hdeparts⟩⟩
      · exact hlast.bonded.staked
      · exact hbond.staked
      · exact absurd hdeparts (hstay v hv before p after hl hat q hq)
    have hsum := List.card_nsmul_le_sum _ _ hstakes
    rwa [List.length_map, hlength] at hsum

namespace Toy

/-- The first record is disputed again, and 5 votes "fraud". -/
def retrial : List Action := filings ++ disputes ++ [.call 9 10 (.openDispute 0), vote 5 3 0 0 0 true]

/-- The verifier 3 votes "fraud" in a dispute on the first record, leaves with its stake under an exit that it has
announced before, and withdraws it; 6 joins with less. -/
def moved : World := World.after (Deployment.toy 2) (filings ++ [
  .call 3 0 .announceVerifierUnstake,
  .tick (1000 + unstakeDelay),
  .call 9 10 (.openDispute 0),
  vote 3 0 0 0 0 true,
  .call 3 0 .deregisterVerifier,
  .call 3 0 .unstakeVerifier,
  .withdraw 3,
  .withdrawReturn,
  .call 6 20 .stakeVerifier]) (World.init 1000)

/-- The vote of 6 completes the verdict. -/
def unbacked : World := World.after (Deployment.toy 2) [vote 6 0 0 0 0 true] moved

end Toy

theorem verdict_backing_toy : ∃ d, VerdictBacking (Deployment.toy 2)
    (World.accepted (Deployment.toy 2) Toy.retrial (World.init 1000))
    (World.attempts (Deployment.toy 2) Toy.retrial (World.init 1000)) (Toy.vote 3 3 0 0 0 true) 3 d true := by
  obtain ⟨hok, hold, hnew⟩ : ((World.attempts (Deployment.toy 2) Toy.retrial (World.init 1000)).step
        (Deployment.toy 2) (Toy.vote 3 3 0 0 0 true)).isOk ∧
      Event.disputeResolved 3 true ∉ (World.attempts (Deployment.toy 2) Toy.retrial (World.init 1000)).relay.logs ∧
      Event.disputeResolved 3 true ∈ (World.after (Deployment.toy 2) [Toy.vote 3 3 0 0 0 true]
        (World.attempts (Deployment.toy 2) Toy.retrial (World.init 1000))).relay.logs := by
    decide +kernel
  have hs := World.after_step hok
  obtain ⟨d, -, h⟩ := verdict_backing (by decide) (.of_injective Evm.toy_injective) (by decide) Toy.retrial hs
    ⟨hold, hnew⟩
  exact ⟨d, h⟩

/-- Of the two attesters of a fraud verdict the first is off the roster without a stake when the verdict falls, and what
the two of them hold is less than the stakes of two. -/
theorem verdict_unbacked : 0 < (Deployment.toy 2).quorum ∧ Toy.moved.Reachable (Deployment.toy 2) ∧
    Toy.moved.step (Deployment.toy 2) (Toy.vote 6 0 0 0 0 true) = .ok Toy.unbacked ∧
    .disputeResolved 0 true ∉ Toy.moved.relay.logs ∧ .disputeResolved 0 true ∈ Toy.unbacked.relay.logs ∧
    ∃ d ∈ Toy.unbacked.relay.court.disputes[0]?, d.fraudAttesters = [3, 6] ∧
      ¬ Toy.moved.relay.roster.isRegisteredVerifier 3 ∧ Toy.moved.relay.ledger.verifierStake 3 = 0 ∧
      (d.fraudAttesters.map Toy.moved.relay.ledger.verifierStake).sum <
        (Deployment.toy 2).quorum * (Deployment.toy 2).verifierStakeAmount := by
  obtain ⟨hok, hnew, hverdict, hd⟩ : (Toy.moved.step (Deployment.toy 2) (Toy.vote 6 0 0 0 0 true)).isOk ∧
      .disputeResolved 0 true ∉ Toy.moved.relay.logs ∧ .disputeResolved 0 true ∈ Toy.unbacked.relay.logs ∧
      ∃ d ∈ Toy.unbacked.relay.court.disputes[0]?, d.fraudAttesters = [3, 6] ∧
        ¬ Toy.moved.relay.roster.isRegisteredVerifier 3 ∧ Toy.moved.relay.ledger.verifierStake 3 = 0 ∧
        (d.fraudAttesters.map Toy.moved.relay.ledger.verifierStake).sum <
          (Deployment.toy 2).quorum * (Deployment.toy 2).verifierStakeAmount := by decide +kernel
  exact ⟨by decide, World.after_reachable _ (World.init_reachable (by decide)), World.after_step hok, hnew, hverdict,
    hd⟩

end PqIotAuth
