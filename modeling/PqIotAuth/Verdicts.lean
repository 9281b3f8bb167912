import PqIotAuth.Votes

/-!
# Attesters and verdicts

What a dispute says about how it was decided (`verdict_integrity`). Each attester has cast its vote in time, by a
signature on the digest of its verdict, as a registered and staked verifier, and no one stands in the lists twice, on
both sides, or for a target of its own. A dispute ends once: as fraud or as spurious exactly when that side has reached
the quorum, and as expired only after its deadline and with both sides short of it. From then on nothing about it
changes.
-/

namespace PqIotAuth

open Lib

variable {D : Deployment} {env : Env} {s s' : Storage} {call : Call} {w w' : World} {id : ℕ} {d d' : Dispute}

/-! ## How a dispute changes -/

/-- A dispute keeps all but its attesters and its resolution. -/
theorem VotesChange.kept (h : VotesChange D env s s') (hd : s.court.disputes[id]? = some d) :
    ∃ fraudAttesters validAttesters resolved,
      s'.court.disputes[id]? = some { d with fraudAttesters, validAttesters, resolved } := by
  cases h with
  | same hds => exact ⟨_, _, _, hds ▸ hd⟩
  | opened tt ti li hds =>
    exact ⟨_, _, _, hds ▸ getElem?_append_singleton.2 (.inr ⟨(List.getElem?_eq_some_iff.1 hd).1, hd⟩)⟩
  | @voted id₀ verdict _ signer d₀ _ hvote resolved hds =>
    rw [hds]
    by_cases hid : id = id₀
    · subst hid
      obtain rfl := Option.some.inj (hd.symm.trans hvote.dispute)
      obtain ⟨fa, va, e⟩ := Dispute.voted_eq verdict signer d
      rw [e]
      exact ⟨_, _, _, (getElem?_set_some hd).2 (.inl ⟨rfl, rfl⟩)⟩
    · exact ⟨_, _, _, (getElem?_set_some hvote.dispute).2 (.inr ⟨hid, hd⟩)⟩
  | @expired id₀ d₀ _ hexp hds =>
    rw [hds]
    by_cases hid : id = id₀
    · subst hid
      obtain rfl := Option.some.inj (hd.symm.trans hexp.dispute)
      exact ⟨_, _, _, (getElem?_set_some hd).2 (.inl ⟨rfl, rfl⟩)⟩
    · exact ⟨_, _, _, (getElem?_set_some hexp.dispute).2 (.inr ⟨hid, hd⟩)⟩

/-- A resolved dispute stays as it is. -/
theorem VotesChange.frozen (h : VotesChange D env s s') (hd : s.court.disputes[id]? = some d) (hres : d.resolved) :
    s'.court.disputes[id]? = some d := by
  cases h with
  | same hds => exact hds ▸ hd
  | opened tt ti li hds =>
    exact hds ▸ getElem?_append_singleton.2 (.inr ⟨(List.getElem?_eq_some_iff.1 hd).1, hd⟩)
  | voted hvote _ hds =>
    rw [hds]
    refine (getElem?_set_some hvote.dispute).2 (.inr ⟨?_, hd⟩)
    rintro rfl
    obtain rfl := Option.some.inj (hd.symm.trans hvote.dispute)
    simp [hvote.unresolved] at hres
  | expired hexp hds =>
    rw [hds]
    refine (getElem?_set_some hexp.dispute).2 (.inr ⟨?_, hd⟩)
    rintro rfl
    obtain rfl := Option.some.inj (hd.symm.trans hexp.dispute)
    simp [hexp.unresolved] at hres

/-- The disputes and the flags of an action are those of its call. -/
theorem World.Change.votes (h : World.Change D w w') : w'.relay.court = w.relay.court ∨
    ∃ env, VotesChange D env w.relay w'.relay := by
  cases h with
  | outside _ hrelay => exact .inl (hrelay ▸ rfl)
  | call he => exact .inr ⟨_, he.votes⟩
  | withdraw _ _ _ hw | withdrawReturn _ hw => exact .inl (hw ▸ rfl)

theorem World.Reachable.dispute_kept (hw : w.Reachable D) (h : Reaches (World.Step D) w w')
    (hd : w.relay.court.disputes[id]? = some d) : ∃ fraudAttesters validAttesters resolved,
      w'.relay.court.disputes[id]? = some { d with fraudAttesters, validAttesters, resolved } := by
  refine World.Reachable.later (P := fun u => ∃ fa va r, u.relay.court.disputes[id]? =
    some { d with fraudAttesters := fa, validAttesters := va, resolved := r }) hw h ?_ ⟨_, _, _, hd⟩
  rintro u u' - ⟨fa, va, r, hu⟩ hs
  rcases hs.change.votes with hsame | ⟨env, hvotes⟩
  · exact ⟨fa, va, r, hsame ▸ hu⟩
  · obtain ⟨fa', va', r', hu'⟩ := hvotes.kept hu
    exact ⟨fa', va', r', hu'⟩

theorem World.Reachable.dispute_frozen (hw : w.Reachable D) (h : Reaches (World.Step D) w w')
    (hd : w.relay.court.disputes[id]? = some d) (hres : d.resolved) : w'.relay.court.disputes[id]? = some d := by
  refine World.Reachable.later (P := fun u => u.relay.court.disputes[id]? = some d) hw h ?_ hd
  intro u u' _ hu hs
  rcases hs.change.votes with hsame | ⟨env, hvotes⟩
  · exact hsame ▸ hu
  · exact hvotes.frozen hu hres

/-! ## How the attesters got into the lists -/

/-- The attesters of a dispute with one more vote. -/
theorem Dispute.mem_attesters_voted_iff {verdict verdict' : Bool} {signer v : Address} :
    v ∈ (d.voted verdict signer).attesters verdict' ↔
      v ∈ d.attesters verdict' ∨ verdict' = verdict ∧ v = signer := by
  cases verdict <;> cases verdict' <;> simp [Dispute.voted, Dispute.attesters]

/-- `v` stands on a side of the dispute `id`. -/
def Court.Attests (c : Court) (id : ℕ) (verdict : Bool) (v : Address) : Prop :=
  ∃ d, c.disputes[id]? = some d ∧ v ∈ d.attesters verdict

/-- An account that comes to stand on a side has attested to it. -/
theorem Effect.attests (he : Effect D env s call s') {verdict : Bool} {v : Address}
    (hnew : ¬ s.court.Attests id verdict v) (h : s'.court.Attests id verdict v) : ∃ signature d relay,
      call = .submitAttestation id verdict signature ∧ Voting D env s id verdict signature v d relay := by
  obtain ⟨d', hd', hv⟩ := h
  -- in a list that is written at one dispute only that dispute has a new attester, the one that was added
  have hvoted : ∀ {id₀ : ℕ} {verdict₀ : Bool} {signature : List Byte} {signer : Address} {d : Dispute}
      {relay : Address} (resolved : Bool), Voting D env s id₀ verdict₀ signature signer d relay →
      s'.court.disputes = s.court.disputes.set id₀ { d.voted verdict₀ signer with resolved } →
      id = id₀ ∧ verdict = verdict₀ ∧ v = signer := by
    intro id₀ verdict₀ signature signer d relay resolved hvote hds
    rw [hds] at hd'
    rcases (getElem?_set_some hvote.dispute).1 hd' with ⟨rfl, rfl⟩ | ⟨-, hd'⟩
    · rcases Dispute.mem_attesters_voted_iff.1 hv with hv | ⟨rfl, rfl⟩
      · exact absurd ⟨d, hvote.dispute, hv⟩ hnew
      · exact ⟨rfl, rfl, rfl⟩
    · exact absurd ⟨d', hd', hv⟩ hnew
  cases he with
  | @vote _ id₀ verdict₀ _ signer d₀ _ hvote =>
    obtain ⟨rfl, rfl, rfl⟩ := hvoted (d₀.voted verdict₀ signer).resolved hvote rfl
    exact ⟨_, _, _, rfl, hvote⟩
  | fraud _ hvote | spurious _ hvote =>
    obtain ⟨rfl, rfl, rfl⟩ := hvoted true hvote (s.disputes_voted_closed ..)
    exact ⟨_, _, _, rfl, hvote⟩
  | openDispute | openBatchLeafDispute =>
    rcases getElem?_append_singleton.1 hd' with ⟨-, rfl⟩ | ⟨-, hd'⟩
    · cases verdict <;> cases hv
    · exact absurd ⟨d', hd', hv⟩ hnew
  | @expire _ id₀ d₀ _ hexp =>
    change (s.court.closed _ _ _ _).disputes[id]? = _ at hd'
    rw [Court.disputes_closed] at hd'
    rcases (getElem?_set_some hexp.dispute).1 hd' with ⟨rfl, rfl⟩ | ⟨-, hd'⟩
    · exact absurd ⟨d₀, hexp.dispute, hv⟩ hnew
    · exact absurd ⟨d', hd', hv⟩ hnew
  | _ => exact absurd ⟨d', hd', hv⟩ hnew

/-- What withdrawals do not bring about, and does not hold at the start, has begun with a call. -/
theorem World.Reachable.began_call {P : Storage → Prop} (hw : w.Reachable D) (h : P w.relay) (h0 : ¬ P Storage.init)
    (hwithdraw : ∀ (s : Storage) (a : Address), P (s.withdrawing a) → P s)
    (hreturn : ∀ (s : Storage) (a : Address) (n : ℕ), P (withdrawReturn a n s) → P s) :
    ∃ (u u' : World) (sender : Address) (value : ℕ) (c : Call), u.Reachable D ∧ ¬ P u.relay ∧
      Effect D (u.env sender value) u.relay c u'.relay ∧ u.step D (.call sender value c) = .ok u' ∧ P u'.relay ∧
      Reaches (World.Step D) u' w := by
  have hnone : ∀ u : World, u.Initial → ¬ P u.relay := by
    rintro u ⟨now, -, rfl⟩
    exact h0
  obtain ⟨u, u', hu, hnot, hs, hyes, hreach⟩ := Lib.Reachable.began hnone hw h
  cases hs.change with
  | outside _ hrelay => exact absurd (hrelay ▸ hyes) hnot
  | withdraw _ _ _ hw' => exact absurd (hwithdraw _ _ (by rwa [hw'] at hyes)) hnot
  | withdrawReturn _ hw' => exact absurd (hreturn _ _ _ (by rwa [hw'] at hyes)) hnot
  | @call sender value c he _ _ _ _ hstep => exact ⟨u, u', sender, value, c, hu, hnot, he, hstep, hyes, hreach⟩

/-- Before `w`, in `u`, a call brought a signature of `v` under the verdict on the dispute `id`, which is `d`; it was
accepted in time, and `v` was eligible. -/
structure Cast (D : Deployment) (u w : World) (id : ℕ) (d : Dispute) (verdict : Bool) (v : Address) : Prop where
  reachable : u.Reachable D
  accepted : ∃ sender value signature u',
    u.step D (.call sender value (.submitAttestation id verdict signature)) = .ok u' ∧
      recover D.toEvm (attestDigest D.toEvm id verdict d) signature = .ok v ∧ Reaches (World.Step D) u' w
  registered : u.relay.roster.isRegisteredVerifier v
  staked : D.verifierStakeAmount ≤ u.relay.ledger.verifierStake v
  in_time : u.now ≤ d.deadline

/-- **Every attester has cast its vote.** -/
theorem World.Reachable.cast (hw : w.Reachable D) (hd : w.relay.court.disputes[id]? = some d) {verdict : Bool}
    {v : Address} (hv : v ∈ d.attesters verdict) : ∃ u, Cast D u w id d verdict v := by
  have hnone : ¬ Storage.init.court.Attests id verdict v := by
    rintro ⟨d, hd, -⟩
    cases hd
  obtain ⟨u, u', sender, value, c, hu, hnot, he, hstep, hyes, hreach⟩ :=
    hw.began_call (P := fun s => s.court.Attests id verdict v) ⟨d, hd, hv⟩ hnone (fun _ _ h => h) fun _ _ _ h => h
  obtain ⟨signature, d₀, relay, rfl, hvote⟩ := he.attests hnot hyes
  -- the dispute still has the fields that the digest is made of
  obtain ⟨fa, va, r, hkept⟩ := hu.dispute_kept (hreach.head ⟨_, hstep⟩) hvote.dispute
  obtain rfl := Option.some.inj (hkept.symm.trans hd)
  exact ⟨u, hu, ⟨sender, value, signature, u', hstep, hvote.signed, hreach⟩, hvote.registered, hvote.staked,
    hvote.in_time⟩

/-! ## How a dispute ends -/

/-- The lengths of the two sides under which a dispute ends with the verdict. -/
def Dispute.Decides (q : ℕ) (d : Dispute) : Verdict → Prop
  | .fraud => d.fraudAttesters.length = q ∧ d.validAttesters.length < q
  | .spurious => d.fraudAttesters.length < q ∧ d.validAttesters.length = q
  | .expired => d.fraudAttesters.length < q ∧ d.validAttesters.length < q

/-- Every resolved dispute has the verdict that its sides ask for. -/
def DecidedOk (D : Deployment) (s : Storage) : Prop := ∀ (id : ℕ) (d : Dispute), s.court.disputes[id]? = some d →
  d.resolved → ∃ v : Verdict, v.event id ∈ s.logs ∧ d.Decides D.quorum v

theorem Effect.decided (he : Effect D env s call s') (hq : 0 < D.quorum) (hcourt : s.court.Inv s.verdicts)
    (hvotes : VotesInv D s) (h : DecidedOk D s) : DecidedOk D s' := by
  obtain ⟨ov, -, hverdicts⟩ := he.courtStep hcourt
  intro id d' hd' hres
  -- a dispute that was resolved before keeps its verdict
  have hold : s.court.disputes[id]? = some d' → ∃ v : Verdict, v.event id ∈ s'.logs ∧ d'.Decides D.quorum v := by
    intro hd
    obtain ⟨v, hv, hsides⟩ := h id d' hd hres
    refine ⟨v, Storage.mem_verdicts.1 ?_, hsides⟩
    rw [hverdicts]
    exact List.mem_append_left _ (Storage.mem_verdicts.2 hv)
  cases he with
  | @vote _ id₀ verdict _ signer d₀ _ hvote =>
    rcases (getElem?_set_some hvote.dispute).1 hd' with ⟨rfl, rfl⟩ | ⟨-, hd⟩
    · simp [hvote.unresolved] at hres
    · exact hold hd
  | @fraud _ id₀ verdict _ signer d₀ _ hvote hfraud =>
    change (Court.closed _ _ _ _ _).disputes[id]? = _ at hd'
    rw [Storage.disputes_voted_closed] at hd'
    rcases (getElem?_set_some hvote.dispute).1 hd' with ⟨rfl, rfl⟩ | ⟨-, hd⟩
    · have hle := (hvote.length_le hvotes hq).1
      obtain ⟨hf, hv⟩ := (hvotes.each id d₀ hvote.dispute).short hq hvote.unresolved
      refine ⟨.fraud, List.mem_append_right _ (List.mem_singleton_self _), le_antisymm hle hfraud, ?_⟩
      cases verdict
      · exact absurd hfraud (Nat.not_le.2 hf)
      · exact hv
    · exact hold hd
  | @spurious _ id₀ verdict _ signer d₀ _ hvote hfraud hvalid =>
    change (Court.closed _ _ _ _ _).disputes[id]? = _ at hd'
    rw [Storage.disputes_voted_closed] at hd'
    rcases (getElem?_set_some hvote.dispute).1 hd' with ⟨rfl, rfl⟩ | ⟨-, hd⟩
    · have hle := (hvote.length_le hvotes hq).2
      exact ⟨.spurious, List.mem_append_right _ (List.mem_singleton_self _), hfraud, le_antisymm hle hvalid⟩
    · exact hold hd
  | @expire _ id₀ d₀ _ hexp =>
    change (Court.closed _ _ _ _ _).disputes[id]? = _ at hd'
    rw [Court.disputes_closed] at hd'
    rcases (getElem?_set_some hexp.dispute).1 hd' with ⟨rfl, rfl⟩ | ⟨-, hd⟩
    · exact ⟨.expired, List.mem_append_right _ (List.mem_singleton_self _),
        (hvotes.each id d₀ hexp.dispute).short hq hexp.unresolved⟩
    · exact hold hd
  | openDispute | openBatchLeafDispute =>
    rcases getElem?_append_singleton.1 hd' with ⟨-, rfl⟩ | ⟨-, hd⟩
    · simp [newDispute] at hres
    · exact hold hd
  | _ => exact hold hd'

theorem World.Reachable.decided (hw : w.Reachable D) (hq : 0 < D.quorum) : DecidedOk D w.relay := by
  refine World.Reachable.invariant (P := fun w => DecidedOk D w.relay) (fun _ _ => nofun) ?_ hw
  intro u u' hu h hs
  cases hs.change with
  | outside _ hrelay => exact hrelay ▸ h
  | call he => exact he.decided hq hu.court hu.votes h
  | withdraw _ _ _ hw' => exact hw' ▸ h
  | withdrawReturn _ hw' =>
    subst hw'
    intro id d hd hres
    obtain ⟨v, hv, hsides⟩ := h id d hd hres
    exact ⟨v, List.mem_append_left _ hv, hsides⟩

/-- A resolved dispute has been told by one event, an open one by none. -/
theorem World.Reachable.count_verdicts (hw : w.Reachable D) (hd : w.relay.court.disputes[id]? = some d) :
    w.relay.logs.count (.disputeResolved id true) + w.relay.logs.count (.disputeResolved id false) +
      w.relay.logs.count (.disputeExpired id) = if d.resolved then 1 else 0 := by
  have hsum : ∀ l : List (ℕ × Verdict),
      l.count (id, .fraud) + l.count (id, .spurious) + l.count (id, .expired) = (l.map Prod.fst).count id := by
    intro l
    induction l with
    | nil => rfl
    | cons p l ih =>
      obtain ⟨j, v⟩ := p
      by_cases hj : j = id
      · subst hj
        cases v <;> simp [← ih] <;> omega
      · simp [← ih, hj]
  have hcount := hsum w.relay.verdicts
  rw [Storage.count_verdicts, Storage.count_verdicts, Storage.count_verdicts] at hcount
  change w.relay.logs.count (Verdict.event id .fraud) + w.relay.logs.count (Verdict.event id .spurious) +
    w.relay.logs.count (Verdict.event id .expired) = _
  rw [hcount]
  split
  · rename_i hres
    obtain ⟨v, hv⟩ := hw.court.docket.has_verdict id d.target (Court.docket_case.2 ⟨d, hd, rfl, hres⟩)
    exact List.count_eq_one_of_mem hw.court.docket.once (List.mem_map_of_mem hv)
  · rename_i hun
    refine List.count_eq_zero_of_not_mem fun hmem => ?_
    obtain ⟨⟨j, v⟩, hv, rfl⟩ := List.mem_map.1 hmem
    exact hw.court.docket.not_open hv d.target (Court.docket_case.2 ⟨d, hd, rfl, by simpa using hun⟩)

/-- The verdict that is told of a dispute is the one that its sides ask for. -/
theorem World.Reachable.verdict_iff (hw : w.Reachable D) (hq : 0 < D.quorum)
    (hd : w.relay.court.disputes[id]? = some d) (v : Verdict) :
    v.event id ∈ w.relay.logs ↔ d.resolved ∧ d.Decides D.quorum v := by
  constructor
  · intro hv
    obtain ⟨t, ht, -⟩ := hw.court.docket.decided id v (Storage.mem_verdicts.2 hv)
    obtain ⟨d', hd', -, hres⟩ := Court.docket_case.1 ht
    obtain rfl := Option.some.inj (hd.symm.trans hd')
    obtain ⟨u, hu, hsides⟩ := hw.decided hq id d hd hres
    -- the dispute has one verdict only
    have huv : u = v := by
      have hinj := List.inj_on_of_nodup_map hw.court.docket.once (Storage.mem_verdicts.2 hu)
        (Storage.mem_verdicts.2 hv) rfl
      exact (Prod.mk.inj hinj).2
    exact ⟨hres, huv ▸ hsides⟩
  · rintro ⟨hres, hv⟩
    obtain ⟨u, hu, hsides⟩ := hw.decided hq id d hd hres
    have huv : u = v := by
      cases u <;> cases v <;> simp only [Dispute.Decides] at hsides hv <;> first | rfl | omega
    exact huv ▸ hu

/-- The side that has decided a dispute is as long as the quorum asks for. -/
theorem World.Reachable.length_attesters (hw : w.Reachable D) (hq : 0 < D.quorum)
    (hd : w.relay.court.disputes[id]? = some d) {verdict : Bool} (h : .disputeResolved id verdict ∈ w.relay.logs) :
    (d.attesters verdict).length = D.quorum := by
  cases verdict
  · exact ((hw.verdict_iff hq hd .spurious).1 h).2.2
  · exact ((hw.verdict_iff hq hd .fraud).1 h).2.1

/-- The expiry of a dispute is told by the call that expires it only. -/
theorem Effect.expires (he : Effect D env s call s') (hnew : .disputeExpired id ∉ s.logs)
    (h : .disputeExpired id ∈ s'.logs) : ∃ d relay, call = .expireDispute id ∧ Expiring env s id d relay := by
  have hlast : ∀ {logs : List Event} {e : Event},
      .disputeExpired id ∈ logs ++ [e] → .disputeExpired id ∈ logs ∨ .disputeExpired id = e := by
    intro logs e hmem
    rw [List.mem_append, List.mem_singleton] at hmem
    exact hmem
  have hrevoked : ∀ (d : Dispute), .disputeExpired id ∈ s.logs ++ s.revocation d → False := by
    intro d hmem
    rcases List.mem_append.1 hmem with hmem | hmem
    · exact hnew hmem
    · cases Storage.mem_revocation hmem
  cases he with
  | announceUnstake | stakeVerifier | announceVerifierUnstake | vote => exact absurd h hnew
  | stakeRelay | unstakeRelay | joinVerifier | unstakeVerifier | deregisterVerifier | submitAccountable
  | finalizeRecord | finalizeBatch | openDispute | openBatchLeafDispute | spurious =>
    exact absurd ((hlast h).resolve_right nofun) hnew
  | submitBatch _ _ _ _ _ _ _ _ _ _ hm =>
    obtain ⟨nonces, events, hms, hevents⟩ := processLeaves_filed hm
    rw [hms] at h
    rcases List.mem_append.1 ((hlast h).resolve_right nofun) with h | h
    · exact absurd h hnew
    · obtain ⟨_, _, _, _, _, e⟩ := hevents _ h
      cases e
  | fraud => exact (hrevoked _ ((hlast h).resolve_right nofun)).elim
  | @expire _ id₀ d relay hexp =>
    by_cases hid : id₀ = id
    · subst hid
      exact ⟨d, relay, rfl, hexp⟩
    · exact (hrevoked _ ((hlast h).resolve_right fun e => hid (Event.disputeExpired.inj e).symm)).elim

/-- An expired dispute was expired by a call after its deadline. -/
theorem World.Reachable.expired (hw : w.Reachable D) (hd : w.relay.court.disputes[id]? = some d)
    (h : .disputeExpired id ∈ w.relay.logs) : ∃ (u u' : World) (sender : Address) (value : ℕ), u.Reachable D ∧
      d.deadline < u.now ∧ u.step D (.call sender value (.expireDispute id)) = .ok u' ∧
      Reaches (World.Step D) u' w := by
  have hreturn : ∀ (s : Storage) (a : Address) (n : ℕ), .disputeExpired id ∈ (withdrawReturn a n s).logs →
      .disputeExpired id ∈ s.logs := by
    intro s a n hmem
    rcases List.mem_append.1 hmem with hmem | hmem
    · exact hmem
    · cases List.mem_singleton.1 hmem
  obtain ⟨u, u', sender, value, c, hu, hnot, he, hstep, hyes, hreach⟩ :=
    hw.began_call (P := fun s => .disputeExpired id ∈ s.logs) h List.not_mem_nil (fun _ _ h => h) hreturn
  obtain ⟨d₀, relay, rfl, hexp⟩ := he.expires hnot hyes
  obtain ⟨fa, va, r, hkept⟩ := hu.dispute_kept (hreach.head ⟨_, hstep⟩) hexp.dispute
  obtain rfl := Option.some.inj (hkept.symm.trans hd)
  exact ⟨u, u', sender, value, hu, hexp.late, hstep, hreach⟩

/-- What is promised of the dispute `d`, the one at `id` in the world `w` of a run. -/
structure VerdictIntegrity (D : Deployment) (w : World) (id : ℕ) (d : Dispute) : Prop where
  fraud_nodup : d.fraudAttesters.Nodup
  valid_nodup : d.validAttesters.Nodup
  disjoint : ∀ v ∈ d.fraudAttesters, v ∉ d.validAttesters
  /-- The relay that endorsed the target is in neither list. -/
  independent : ∃ relay, w.relay.court.relayOf d.target = some relay ∧ relay ∉ d.fraudAttesters ∧
    relay ∉ d.validAttesters
  cast : ∀ verdict, ∀ v ∈ d.attesters verdict, ∃ u, Cast D u w id d verdict v
  short : d.resolved = false → d.fraudAttesters.length < D.quorum ∧ d.validAttesters.length < D.quorum
  once : w.relay.logs.count (.disputeResolved id true) + w.relay.logs.count (.disputeResolved id false) +
    w.relay.logs.count (.disputeExpired id) = if d.resolved then 1 else 0
  fraud : .disputeResolved id true ∈ w.relay.logs ↔ d.fraudAttesters.length = D.quorum
  spurious : .disputeResolved id false ∈ w.relay.logs ↔ d.validAttesters.length = D.quorum
  expired : .disputeExpired id ∈ w.relay.logs →
    d.fraudAttesters.length < D.quorum ∧ d.validAttesters.length < D.quorum ∧
      ∃ (u u' : World) (sender : Address) (value : ℕ), u.Reachable D ∧ d.deadline < u.now ∧
        u.step D (.call sender value (.expireDispute id)) = .ok u' ∧ Reaches (World.Step D) u' w
  frozen : d.resolved → ∀ w', Reaches (World.Step D) w w' → w'.relay.court.disputes[id]? = some d

/-- **Attester and verdict integrity.** -/
theorem verdict_integrity {D : Deployment} (hq : 0 < D.quorum) {w : World} (hw : w.Reachable D) {id : ℕ} {d : Dispute}
    (hd : w.relay.court.disputes[id]? = some d) : VerdictIntegrity D w id d := by
  have hvotes := hw.votes.each id d hd
  obtain ⟨relay, hrelay⟩ := hw.court.relay_of_dispute (List.mem_of_getElem? hd)
  -- a side of an open dispute is short of the quorum, so a side at the quorum belongs to a resolved one
  have hresolved : d.fraudAttesters.length = D.quorum ∨ d.validAttesters.length = D.quorum → d.resolved := by
    intro hfull
    by_contra hun
    have := hvotes.short hq (by simpa using hun)
    omega
  have hside := hw.verdict_iff hq hd
  constructor
  case fraud_nodup => exact hvotes.fraud_nodup
  case valid_nodup => exact hvotes.valid_nodup
  case disjoint => exact hvotes.disjoint
  case independent => exact ⟨relay, hrelay, hvotes.independent relay hrelay⟩
  case cast => exact fun verdict v hv => hw.cast hd hv
  case short => exact hvotes.short hq
  case once => exact hw.count_verdicts hd
  case fraud =>
    refine (hside .fraud).trans ⟨fun h => h.2.1, fun hfull => ?_⟩
    obtain ⟨v, hv, hsides⟩ := hw.decided hq id d hd (hresolved (.inl hfull))
    cases v with
    | fraud => exact ⟨hresolved (.inl hfull), hsides⟩
    | spurious | expired => exact absurd hfull hsides.1.ne
  case spurious =>
    refine (hside .spurious).trans ⟨fun h => h.2.2, fun hfull => ?_⟩
    obtain ⟨v, hv, hsides⟩ := hw.decided hq id d hd (hresolved (.inr hfull))
    cases v with
    | spurious => exact ⟨hresolved (.inr hfull), hsides⟩
    | fraud | expired => exact absurd hfull hsides.2.ne
  case expired =>
    intro h
    obtain ⟨-, hf, hv⟩ := (hside .expired).1 h
    exact ⟨hf, hv, hw.expired hd h⟩
  case frozen => exact fun hres w' h => hw.dispute_frozen h hd hres

/-- The second record of the run was revoked by 3 and 4 against 5. -/
theorem verdict_integrity_toy : ∃ d ∈ Toy.world.relay.court.disputes[1]?,
    VerdictIntegrity (Deployment.toy 2) Toy.world 1 d ∧ d.fraudAttesters = [3, 4] ∧ d.validAttesters = [5] := by
  have hsides : ∃ d ∈ Toy.world.relay.court.disputes[1]?, d.fraudAttesters = [3, 4] ∧ d.validAttesters = [5] := by
    decide +kernel
  obtain ⟨d, hd, hsides⟩ := hsides
  exact ⟨d, hd, verdict_integrity (by decide) Toy.world_reachable hd, hsides⟩

end PqIotAuth
