import PqIotAuth.Atomicity
import PqIotAuth.SelfExit
import PqIotAuth.Verdicts

/-!
# A minority of liars

Of every target it is either true or not that it is genuine; the contract cannot tell, and relies on its committee. Let
fewer verifiers than the quorum be faulty, and let everybody else sign an attestation only where it is true. Then
every verdict is true, a target that is not genuine is never confirmed once it has been disputed, and a genuine one is
revoked by silence only; and an account that is not faulty, endorses genuine targets and disputes others never loses
anything that is due to it (`minority_harmless`).
-/

namespace PqIotAuth

open Lib

variable {D : Deployment} {genuine : Target → Bool} {faulty : List Address} {env : Env} {s s' : Storage} {call : Call}
  {w w' : World} {a : Address}

/-! ## Truth -/

/-- The attestation that an action submits: its dispute, its verdict and the signature under it. -/
def Action.attestation : Action → Option (ℕ × Bool × List Byte)
  | .call _ _ (.submitAttestation id verdict signature) => some (id, verdict, signature)
  | _ => none

/-- An attestation that is submitted is signed by a faulty verifier, or is true. -/
def Truthful (D : Deployment) (genuine : Target → Bool) (faulty : List Address) (w : World) (act : Action) : Prop :=
  ∀ p ∈ act.attestation, ∀ d ∈ w.relay.court.disputes[p.1]?,
    ∀ signer ∈ (recover D.toEvm (attestDigest D.toEvm p.1 p.2.1 d) p.2.2).toOption,
      signer ∈ faulty ∨ p.2.1 = !genuine d.target

theorem Address.lawfulBEq : LawfulBEq Address := inferInstance

-- the quantifier over the signers ranges over the one that is recovered, not over all accounts
instance (w : World) : DecidablePred (Truthful D genuine faulty w) := fun act =>
  have (p : ℕ × Bool × List Byte) (d : Dispute) :
      Decidable (∀ signer ∈ (recover D.toEvm (attestDigest D.toEvm p.1 p.2.1 d) p.2.2).toOption,
        signer ∈ faulty ∨ p.2.1 = !genuine d.target) :=
    have (signer : Address) : Decidable (signer ∈ faulty) :=
      @List.instDecidableMemOfLawfulBEq Address _ Address.lawfulBEq signer faulty
    Option.decidableForallMem _
  inferInstanceAs (Decidable (∀ p ∈ act.attestation, ∀ d ∈ w.relay.court.disputes[p.1]?, _))

/-- The votes that are not faulty are true. -/
def Court.VotesTrue (genuine : Target → Bool) (faulty : List Address) (c : Court) : Prop :=
  ∀ (id : ℕ) (d : Dispute), c.disputes[id]? = some d →
    ∀ verdict, ∀ v ∈ d.attesters verdict, v ∈ faulty ∨ verdict = !genuine d.target

/-- A side without a repetition that is longer than the list of the faulty has a member that is not. -/
theorem exists_not_faulty (faulty : List Address) {side : List Address} (hnodup : side.Nodup)
    (hlt : faulty.length < side.length) :
    ∃ v ∈ side, v ∉ faulty := by
  by_contra hno
  push Not at hno
  exact absurd (hnodup.subperm hno).length_le (Nat.not_le.2 hlt)

theorem Effect.votesTrue (he : Effect D env w.relay call s') {sender : Address} {value : ℕ}
    (htrue : Truthful D genuine faulty w (.call sender value call)) (h : w.relay.court.VotesTrue genuine faulty) :
    s'.court.VotesTrue genuine faulty := by
  intro id d' hd' verdict v hv
  by_cases hold : w.relay.court.Attests id verdict v
  · obtain ⟨d, hd, hold⟩ := hold
    obtain ⟨_, _, _, hkept⟩ := he.votes.kept hd
    obtain rfl := Option.some.inj (hkept.symm.trans hd')
    exact h id d hd verdict v hold
  · obtain ⟨signature, d, relay, rfl, hvote⟩ := he.attests hold ⟨d', hd', hv⟩
    obtain ⟨_, _, _, hkept⟩ := he.votes.kept hvote.dispute
    obtain rfl := Option.some.inj (hkept.symm.trans hd')
    exact htrue (id, verdict, signature) rfl d hvote.dispute v (by rw [hvote.signed]; rfl)

/-- The runs in which all is true that is not faulty. -/
abbrev World.TruthfulRun (D : Deployment) (genuine : Target → Bool) (faulty : List Address) : World → Prop :=
  Lib.Reachable World.Initial (World.StepIf D (Truthful D genuine faulty))

namespace World.TruthfulRun

theorem reachable (hw : w.TruthfulRun D genuine faulty) : w.Reachable D :=
  Lib.Reachable.mono (fun _ _ hs => hs.step) hw

theorem votesTrue (hw : w.TruthfulRun D genuine faulty) : w.relay.court.VotesTrue genuine faulty := by
  refine Lib.Reachable.invariant (P := fun w : World => w.relay.court.VotesTrue genuine faulty) ?_ ?_ hw
  · rintro w ⟨now, -, rfl⟩ id d hd
    cases hd
  · rintro u u' - h ⟨act, htrue, hs⟩
    by_cases hcall : ∃ sender value c, act = .call sender value c
    · obtain ⟨sender, value, c, rfl⟩ := hcall
      obtain ⟨t, he, rfl⟩ := World.call_effect hs
      exact he.votesTrue htrue h
    · push Not at hcall
      obtain ⟨ledger, guard, events, hrelay, -⟩ := World.step_frame hs hcall
      rw [hrelay]
      exact h

theorem revokedBy (hw : w.TruthfulRun D genuine faulty) :
    (w.relay.court.docket w.relay.verdicts).RevokedBy := by
  refine World.Reachable.invariant (P := fun w => (w.relay.court.docket w.relay.verdicts).RevokedBy) ?_ ?_ hw.reachable
  · rintro now - t ht
    exact absurd ht (by cases t <;> simp [Court.docket, World.init, Storage.init, Court.phase])
  · intro u u' hu h hs
    obtain ⟨ov, hstep, hverdicts⟩ := hu.courtStep hs
    rw [hverdicts]
    exact (hstep.docket hu.court).revokedBy h

end World.TruthfulRun

/-! ## Verdicts -/

/-- What the verdicts say of the targets. -/
structure Court.Just (genuine : Target → Bool) (s : Storage) : Prop where
  fraud : ∀ (id : ℕ) (d : Dispute), s.court.disputes[id]? = some d →
    .disputeResolved id true ∈ s.logs → genuine d.target = false
  spurious : ∀ (id : ℕ) (d : Dispute), s.court.disputes[id]? = some d →
    .disputeResolved id false ∈ s.logs → genuine d.target = true
  /-- A target that is not genuine does not get away. -/
  caught : ∀ d ∈ s.court.disputes, genuine d.target = false →
    s.court.phase d.target = .disputed ∨ s.court.phase d.target = .revoked
  /-- Only silence harms a genuine target. -/
  silence : ∀ t, genuine t = true → s.court.phase t = .revoked →
    ∃ (id : ℕ) (d : Dispute), s.court.disputes[id]? = some d ∧ d.target = t ∧ .disputeExpired id ∈ s.logs

theorem World.TruthfulRun.verdict (hw : w.TruthfulRun D genuine faulty) (hq : faulty.length < D.quorum) {id : ℕ}
    {d : Dispute} (hd : w.relay.court.disputes[id]? = some d) {verdict : Bool}
    (h : .disputeResolved id verdict ∈ w.relay.logs) : verdict = !genuine d.target := by
  have hvotes := hw.reachable.votes.each id d hd
  have hlength := hw.reachable.length_attesters (Nat.zero_lt_of_lt hq) hd h
  have hnodup : (d.attesters verdict).Nodup := by
    cases verdict
    · exact hvotes.valid_nodup
    · exact hvotes.fraud_nodup
  obtain ⟨v, hv, hnot⟩ := exists_not_faulty faulty hnodup (by omega)
  exact (hw.votesTrue id d hd verdict v hv).resolve_left hnot

theorem World.TruthfulRun.just (hw : w.TruthfulRun D genuine faulty) (hq : faulty.length < D.quorum) :
    Court.Just genuine w.relay where
  fraud := fun id d hd h => by simpa using (hw.verdict hq hd h).symm
  spurious := fun id d hd h => by simpa using (hw.verdict hq hd h).symm
  caught := by
    intro d hd hfalse
    obtain ⟨id, hd⟩ := List.mem_iff_getElem?.1 hd
    cases hres : d.resolved with
    | false => exact .inl (hw.reachable.court.disputed hd hres)
    | true =>
      have hcase : (w.relay.court.docket w.relay.verdicts).cases[id]? = some (d.target, true) :=
        Court.docket_case.2 ⟨d, hd, rfl, hres⟩
      obtain ⟨v, hv⟩ := hw.reachable.court.docket.has_verdict id d.target hcase
      by_contra hnot
      -- a dispute that is closed without revoking its target has been found spurious
      obtain rfl := hw.reachable.court.docket.spurious_of_not_revoked hv hcase fun h => hnot (.inr h)
      have : false = !genuine d.target := hw.verdict hq hd (Storage.mem_verdicts.1 hv)
      rw [hfalse] at this
      cases this
  silence := by
    intro t htrue ht
    obtain ⟨id, v, hv, hne, hcase⟩ := hw.revokedBy t ht
    obtain ⟨d, hd, rfl, -⟩ := Court.docket_case.1 hcase
    refine ⟨id, d, hd, rfl, ?_⟩
    cases v with
    | spurious => exact absurd rfl hne
    | expired => exact Storage.mem_verdicts.1 hv
    | fraud =>
      have : true = !genuine d.target := hw.verdict hq hd (Storage.mem_verdicts.1 hv)
      rw [htrue] at this
      cases this

/-! ## Dues -/

theorem refundsOf_append (a : Address) (ds : List Dispute) (d : Dispute) :
    refundsOf a ds ≤ refundsOf a (ds ++ [d]) := by
  rw [refundsOf, refundsOf, List.map_append, List.sum_append]
  exact Nat.le_add_right _ _

theorem refundsOf_set {ds : List Dispute} {id : ℕ} {d d' : Dispute} (hd : ds[id]? = some d)
    (hresolved : d'.resolved = d.resolved) (hchallenger : d'.challenger = d.challenger) (hbond : d'.bond = d.bond) :
    refundsOf a (ds.set id d') = refundsOf a ds := by
  rw [refundsOf, map_set_eq hd (by rw [hresolved, hchallenger, hbond])]
  rfl

/-- A call pays nothing out. -/
theorem Effect.paidTo (he : Effect D env s call s') (a : Address) : s'.paidTo a = s.paidTo a := by
  obtain ⟨events, hlogs, hnone⟩ := he.no_withdrawal
  exact Storage.paidTo_append hlogs (fun account amount hmem => by cases hnone _ hmem) a

/-- What a call does to the dues of `a`, unless it ends a dispute with a verdict of the committee. -/
theorem Effect.dues_le (he : Effect D env s call s') (a : Address) :
    s.dues a ≤ s'.dues a ∨ ∃ id d relay e v, s.court.disputes[id]? = some d ∧ d.resolved = false ∧ v ≠ .expired ∧
      Ending D env s id d call v relay e s' := by
  have hgrows : ∀ (f : Address → ℕ) (b : Address) (n : ℕ), f a ≤ Function.update f b (f b + n) a := by
    intro f b n
    rw [Function.update_apply]
    split
    · rename_i hab
      rw [hab]
      exact Nat.le_add_right _ _
    · exact le_rfl
  have hwinds : call.settles ∨ call.leaves → s.dues a ≤ s'.dues a := fun h => (he.dues h a).2.ge
  cases he with
  | announceUnstake | announceVerifierUnstake | deregisterVerifier | finalizeRecord | finalizeBatch | unstakeRelay
  | unstakeVerifier | expire => exact .inl (hwinds (by simp [Call.settles, Call.leaves]))
  | fraud _ hvote hfull => exact .inr ⟨_, _, _, _, _, hvote.dispute, hvote.unresolved, by simp, .fraud hvote hfull⟩
  | spurious _ hvote hshort hfull =>
    exact .inr ⟨_, _, _, _, _, hvote.dispute, hvote.unresolved, by simp, .spurious hvote hshort hfull⟩
  | stakeRelay =>
    have := hgrows s.ledger.relayStake env.sender env.value
    dsimp only [Storage.dues, Storage.emit, Ledger.relayStaked]
    omega
  | stakeVerifier | joinVerifier =>
    have := hgrows s.ledger.verifierStake env.sender env.value
    dsimp only [Storage.dues, Storage.emit, Ledger.verifierStaked]
    omega
  | submitAccountable | submitBatch => exact .inl le_rfl
  | openDispute | openBatchLeafDispute => exact .inl (Nat.add_le_add_left (refundsOf_append ..) _)
  | @vote _ id verdict _ signer d _ hvote =>
    refine .inl (Nat.add_le_add_left (refundsOf_set hvote.dispute ?_ ?_ ?_).ge _)
    · exact Dispute.resolved_voted ..
    · cases verdict <;> rfl
    · exact Dispute.bond_voted ..

/-- An account that tells the truth in its other roles: it endorses genuine targets, and disputes others. -/
structure World.Honest (genuine : Target → Bool) (a : Address) (w : World) : Prop where
  endorses : ∀ t, w.relay.court.relayOf t = some a → genuine t = true
  challenges : ∀ d ∈ w.relay.court.disputes, d.challenger = a → genuine d.target = false

/-- Without a record or a batch an account has endorsed nothing. -/
theorem Court.relayOf_ne {c : Court} (hrecords : ∀ r ∈ c.records, r.relay ≠ a) (hbatches : ∀ b ∈ c.batches, b.relay ≠ a)
    (t : Target) : c.relayOf t ≠ some a := by
  intro ht
  cases t with
  | record i =>
    obtain ⟨r, hr, hrelay⟩ := Option.map_eq_some_iff.1 ht
    exact hrecords r (List.mem_of_getElem? hr) hrelay
  | leaf b l =>
    obtain ⟨bt, hb, hrelay⟩ := Option.map_eq_some_iff.1 ht
    exact hbatches bt (List.mem_of_getElem? hb) hrelay

/-- It has been honest before. -/
theorem World.Honest.before (hw : w.Reachable D) (hs : w.Step D w') (h : w'.Honest genuine a) : w.Honest genuine a := by
  obtain ⟨ov, hstep, -⟩ := hw.courtStep hs
  refine ⟨fun t ht => h.endorses t (hstep.relayOf ht), fun d hd hchallenger => ?_⟩
  obtain ⟨id, hd⟩ := List.mem_iff_getElem?.1 hd
  obtain ⟨_, _, _, hd'⟩ := hw.dispute_kept (.single hs) hd
  have hfalse := h.challenges _ (List.mem_of_getElem? hd') hchallenger
  exact hfalse

/-- **The verdicts of an honest majority cost the honest nothing.** -/
theorem Ending.dues_le (hw : w.TruthfulRun D genuine faulty) (hs : w.StepIf D (Truthful D genuine faulty) w')
    (hq : faulty.length < D.quorum) (hkeys : KeysInjective D.toEvm) (ha : a ∉ faulty) (hhonest : w'.Honest genuine a)
    {id : ℕ} {d e : Dispute} {v : Verdict} {relay : Address} (hd : w.relay.court.disputes[id]? = some d)
    (hun : d.resolved = false) (hne : v ≠ .expired) (hend : Ending D env w.relay id d call v relay e w'.relay) :
    w.relay.dues a ≤ w'.relay.dues a := by
  have hw' : w'.TruthfulRun D genuine faulty := .step hw hs
  have hd' := hend.resolved hd
  have htarget : e.target = d.target := by
    rw [hend.kept]
    rfl
  have hsettled := hend.settled (Nat.zero_lt_of_lt hq) hw.reachable hkeys hs.step hd
  have hrefund := refundsOf_close (a := a) hd hun (show Dispute.resolved { e with resolved := true } = true from rfl)
  rw [← hend.disputes] at hrefund
  have hchallenger : e.challenger = d.challenger := by rw [hend.kept]
  have hbond : e.bond = d.bond := by rw [hend.kept]
  cases v with
  | expired => exact absurd rfl hne
  | fraud =>
    -- the target is not genuine, so `a` has not endorsed it and has not upheld it
    have hfalse : genuine d.target = false := by
      have := (hw'.just hq).fraud id _ hd' hend.told
      rwa [← htarget]
    obtain ⟨wrongSide, -, hwrong, hcredits⟩ := hsettled
    have hout : a ∉ wrongSide := by
      rw [hwrong]
      rintro ⟨f, hf, hft, hv⟩
      obtain ⟨j, hf⟩ := List.mem_iff_getElem?.1 hf
      have := (hw'.votesTrue j f hf false a hv).resolve_left ha
      rw [hft, show Dispute.target { e with resolved := true } = d.target from htarget, hfalse] at this
      cases this
    have hrelay : a ≠ relay := by
      rintro rfl
      have hendorsed := (hhonest.before hw.reachable hs.step).endorses d.target hend.endorsed
      rw [hfalse] at hendorsed
      cases hendorsed
    obtain ⟨hrelayStake, hverifierStake⟩ := hcredits.others a hout hrelay
    have hcredit := hcredits.credits a
    dsimp only at hcredit
    rw [hchallenger, hbond] at hcredit
    rw [Storage.dues, Storage.dues, hrelayStake, hverifierStake, hcredit, ← hrefund]
    split <;> omega
  | spurious =>
    -- the target is genuine, so `a` has not challenged it
    have htrue : genuine d.target = true := by
      have := (hw'.just hq).spurious id _ hd' hend.told
      rwa [← htarget]
    have hother : a ≠ d.challenger := by
      rintro rfl
      have := (hhonest.before hw.reachable hs.step).challenges d (List.mem_of_getElem? hd) rfl
      rw [htrue] at this
      cases this
    obtain ⟨-, ⟨hrelayStake, hverifierStake⟩, hcredits⟩ := hsettled
    have hcredit := hcredits a
    rw [if_neg hother, Nat.add_zero] at hrefund
    rw [Storage.dues, Storage.dues, hrelayStake, hverifierStake, hcredit, ← hrefund]
    omega

theorem World.TruthfulRun.dues_le (hw : w.TruthfulRun D genuine faulty)
    (hs : w.StepIf D (Truthful D genuine faulty) w') (hq : faulty.length < D.quorum) (hkeys : KeysInjective D.toEvm)
    (ha : a ∉ faulty) (hhonest : w'.Honest genuine a) : w.dues a ≤ w'.dues a := by
  cases hs.step.change with
  | outside _ hrelay _ _ hopen => rw [World.dues, World.dues, hrelay, hopen]
  | call he _ _ _ hopen =>
    rw [World.dues, World.dues, hopen, he.paidTo]
    refine Nat.add_le_add_left ?_ _
    rcases he.dues_le a with hle | ⟨id, d, relay, e, v, hd, hun, hne, hend⟩
    · exact hle
    · exact hend.dues_le hw hs hq hkeys ha hhonest hd hun hne
  | @withdraw sender _ _ _ hw' =>
    -- the credit is on its way
    rw [hw']
    dsimp only [World.dues, Storage.paidTo, Storage.dues, Storage.withdrawing, Ledger.withdrawn]
    rw [List.map_cons, List.sum_cons, Function.update_apply]
    by_cases hb : a = sender
    · subst hb
      rw [if_pos rfl, if_pos rfl]
      omega
    · rw [if_neg hb, if_neg (Ne.symm hb)]
      omega
  | @withdrawReturn account amount calls hopen hw' =>
    have hpaid : (PqIotAuth.withdrawReturn account amount w.relay).paidTo a =
        w.relay.paidTo a + if account = a then amount else 0 := by
      simp [PqIotAuth.withdrawReturn, Storage.emit, Storage.paidTo]
    rw [hw', World.dues, World.dues, hpaid, hopen, List.map_cons, List.sum_cons]
    dsimp only [Storage.dues, PqIotAuth.withdrawReturn, Storage.emit]
    omega

/-! ## The minority -/

/-- **A minority of liars is harmless.** When fewer verifiers than the quorum are faulty and all other attestations are
true, the verdicts are just, and nothing that is due to an honest account is lost. -/
theorem minority_harmless {D : Deployment} {genuine : Target → Bool} {faulty : List Address} {w w' : World}
    (hq : faulty.length < D.quorum) (hkeys : KeysInjective D.toEvm) (hw : w.TruthfulRun D genuine faulty)
    (hreach : Reaches (World.StepIf D (Truthful D genuine faulty)) w w') :
    Court.Just genuine w'.relay ∧ ∀ a ∉ faulty, w'.Honest genuine a → w.dues a ≤ w'.dues a := by
  refine ⟨World.TruthfulRun.just (Lib.Reachable.trans hw hreach) hq, fun a ha hhonest => ?_⟩
  induction hreach with
  | refl => exact le_rfl
  | @tail u u' hu hs ih =>
    have hu' : u.TruthfulRun D genuine faulty := Lib.Reachable.trans hw hu
    exact (ih (hhonest.before hu'.reachable hs.step)).trans (hu'.dues_le hs hq hkeys ha hhonest)

namespace Toy

/-- Of what the relay 2 files, all but the record 1 is genuine. -/
def real : Target → Bool
  | .record i => i != 1
  | .leaf _ _ => true

/-- The record 1 disputed by 9, and revoked by 3 and 4 against the faulty 5. -/
def trial : List Action :=
  [.call 9 10 (.openDispute 1), vote 5 0 0 1 0 false, vote 3 0 0 1 0 true, vote 4 0 0 1 0 true]

def filed : World := World.after (Deployment.toy 2) filings (World.init 1000)

def tried : World := World.after (Deployment.toy 2) trial filed

end Toy

/-- The challenger 9 gets its bond back, three fifths of what the relay loses, and the slash of 5. -/
theorem minority_harmless_toy : Court.Just Toy.real Toy.tried.relay ∧ Toy.filed.dues 9 ≤ Toy.tried.dues 9 ∧
    Toy.filed.dues 9 = 0 ∧ Toy.tried.dues 9 = 10 + 18 + 15 := by
  obtain ⟨hfiled, htried, hrecords, hbatches, hchallenges, hdues⟩ :
      World.meets (Deployment.toy 2) (Truthful (Deployment.toy 2) Toy.real [5]) Toy.filings (World.init 1000) ∧
      World.meets (Deployment.toy 2) (Truthful (Deployment.toy 2) Toy.real [5]) Toy.trial Toy.filed ∧
      (∀ r ∈ Toy.tried.relay.court.records, r.relay ≠ 9) ∧ (∀ b ∈ Toy.tried.relay.court.batches, b.relay ≠ 9) ∧
      (∀ d ∈ Toy.tried.relay.court.disputes, d.challenger = 9 → Toy.real d.target = false) ∧
      Toy.filed.dues 9 = 0 ∧ Toy.tried.dues 9 = 10 + 18 + 15 := by decide +kernel
  obtain ⟨w', hrun, hreach⟩ := World.meets_run htried
  obtain rfl : Toy.tried = w' := by rw [Toy.tried, World.after, hrun]
  have hquorum : ([5] : List Address).length < (Deployment.toy 2).quorum := Nat.one_lt_two
  have hreached : Toy.filed.TruthfulRun (Deployment.toy 2) Toy.real [5] :=
    World.meets_reachable ⟨1000, by decide, rfl⟩ hfiled
  obtain ⟨hjust, hhonest⟩ := minority_harmless hquorum (.of_injective Evm.toy_injective) hreached hreach
  exact ⟨hjust, hhonest 9 (by simp) ⟨fun t ht => absurd ht (Court.relayOf_ne hrecords hbatches t), hchallenges⟩, hdues⟩

end PqIotAuth
