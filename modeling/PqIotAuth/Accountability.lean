import PqIotAuth.InclusionProofs
import PqIotAuth.Progress
import PqIotAuth.Settlement

/-!
# A quorum decides

As long as a dispute is open and in time, a quorum of verifiers whose votes are due decides it: whoever sends their
signed votes, one after the other, and however the others have voted, the last vote that is needed completes the verdict
(`quorum_decides`). So a target that is undecided can be revoked by one challenger with a bond and a quorum of verifiers:
a record by its index, a leaf with what its events tell. The endorsing relay is slashed for it, and the challenger and
the verifiers are paid (`accountability`).
-/

namespace PqIotAuth

open Lib

variable {D : Deployment} {w w' : World} {id : ℕ} {d : Dispute} {verdict : Bool}

/-! ## One vote -/

/-- The verdict that a quorum of such votes completes. -/
def Lib.Verdict.ofVote (verdict : Bool) : Verdict := if verdict then .fraud else .spurious

/-- The votes of `vs` on the dispute `id`, with their signatures, sent by `sender`. -/
def Ballot (sender : Address) (id : ℕ) (verdict : Bool) (sign : Address → List Byte) (vs : List Address) (_ : World)
    (act : Action) : Prop :=
  ∃ v ∈ vs, act = .call sender 0 (.submitAttestation id verdict (sign v))

namespace Dispute

theorem lengths_lt_iff {n : ℕ} : (∀ verdict, (d.attesters verdict).length < n) ↔
    d.fraudAttesters.length < n ∧ d.validAttesters.length < n := by
  rw [Bool.forall_bool]
  exact and_comm

theorem attestDigest_voted (E : Evm) (id : ℕ) (verdict : Bool) (v : Address) (d : Dispute) :
    attestDigest E id verdict (d.voted verdict v) = attestDigest E id verdict d := by
  cases verdict <;> rfl

end Dispute

/-- A vote that is due is accepted; it completes the verdict or is recorded. -/
theorem World.Reachable.ballot (hq : 0 < D.quorum) (hw : w.Reachable D) (hether : w.balance < 2 ^ 250)
    (hidle : w.openCalls = []) (hd : w.relay.court.disputes[id]? = some d) (hopen : d.Attestable w.now)
    {signature : List Byte} {v : Address} (hv : Eligible D w id verdict signature d v) (sender : Address) :
    ∃ w', w.step D (.call sender 0 (.submitAttestation id verdict signature)) = .ok w' ∧
      ((∃ relay, D.quorum ≤ ((d.voted verdict v).attesters verdict).length ∧
          Ending D (w.env sender 0) w.relay id d (.submitAttestation id verdict signature) (.ofVote verdict) relay
            (d.voted verdict v) w'.relay) ∨
        ((d.voted verdict v).attesters verdict).length < D.quorum ∧
          w' = { w with relay := w.relay.voted id verdict v d }) := by
  obtain ⟨w', hs⟩ := hw.attest_returns hether hidle hd hopen.1 hopen.2.1 hopen.2.2 hv sender
  refine ⟨w', hs, ?_⟩
  obtain ⟨t, he, rfl⟩ := World.call_effect hs
  have hshort := Dispute.lengths_lt_iff.2 ((hw.votes.each id d hd).short hq hopen.2.1)
  have hother : ((d.voted verdict v).attesters (!verdict)).length < D.quorum := by
    rw [Dispute.attesters_voted_not]
    exact hshort _
  cases he with
  | vote _ hvote hfraud hvalid =>
    obtain ⟨rfl, rfl⟩ := hvote.same hd hv.signed
    exact .inr ⟨Dispute.lengths_lt_iff.2 ⟨hfraud, hvalid⟩ verdict, rfl⟩
  | fraud _ hvote hfull =>
    obtain ⟨rfl, rfl⟩ := hvote.same hd hv.signed
    cases verdict with
    | true => exact .inl ⟨_, hfull, .fraud hvote hfull⟩
    | false => exact absurd hfull (Nat.not_le.2 hother)
  | spurious _ hvote hless hfull =>
    obtain ⟨rfl, rfl⟩ := hvote.same hd hv.signed
    cases verdict with
    | true => exact absurd hfull (Nat.not_le.2 hother)
    | false => exact .inl ⟨_, hfull, .spurious hvote hless hfull⟩

/-- A vote leaves the votes of the others due. -/
theorem Eligible.voted {signature : List Byte} {u v : Address} (h : Eligible D w id verdict signature d u)
    (hne : u ≠ v) :
    Eligible D { w with relay := w.relay.voted id verdict v d } id verdict signature (d.voted verdict v) u where
  signed := by
    rw [Dispute.attestDigest_voted]
    exact h.signed
  registered := h.registered
  staked := h.staked
  independent := by
    rw [Dispute.target_voted]
    exact h.independent
  fresh := by
    rw [← not_or, Dispute.mem_attesters_voted, not_or, not_or]
    exact ⟨h.fresh.1, h.fresh.2, hne⟩

/-! ## All the votes -/

/-- The vote from `u` to `w'` ends the dispute `d` of `w`, whose deciding side is that of `w` and some of `vs`. -/
structure LastVote (D : Deployment) (w u w' : World) (id : ℕ) (d : Dispute) (verdict : Bool) (vs : List Address) :
    Prop where
  reachable : u.Reachable D
  step : u.Step D w'
  now : u.now = w.now ∧ w'.now = w.now
  ledger : u.relay.ledger = w.relay.ledger
  phase : u.relay.court.phase = w.relay.court.phase
  relayOf : u.relay.court.relayOf = w.relay.court.relayOf
  ending : ∃ (env : Env) (call : Call) (relay : Address) (e e' : Dispute) (us : List Address),
    u.relay.court.disputes[id]? = some e ∧ e.resolved = false ∧
      Ending D env u.relay id e call (.ofVote verdict) relay e' w'.relay ∧
      e' = { d with fraudAttesters := e'.fraudAttesters, validAttesters := e'.validAttesters } ∧
      e'.attesters verdict = d.attesters verdict ++ us ∧ e'.attesters (!verdict) = d.attesters (!verdict) ∧ us <+: vs

/-- **Enough votes that are due complete the verdict.** -/
theorem World.Reachable.ballots (hq : 0 < D.quorum) (sender : Address) (sign : Address → List Byte) {vs : List Address}
    (hnodup : vs.Nodup) (hw : w.Reachable D) (hether : w.balance < 2 ^ 250) (hidle : w.openCalls = [])
    (hd : w.relay.court.disputes[id]? = some d) (hopen : d.Attestable w.now)
    (hquorum : D.quorum ≤ (d.attesters verdict).length + vs.length)
    (hvs : ∀ v ∈ vs, Eligible D w id verdict (sign v) d v) :
    ∃ u w', Reaches (World.StepIf D (Ballot sender id verdict sign vs)) w w' ∧ LastVote D w u w' id d verdict vs := by
  induction vs generalizing w d with
  | nil =>
    have hshort := Dispute.lengths_lt_iff.2 ((hw.votes.each id d hd).short hq hopen.2.1) verdict
    rw [List.length_nil] at hquorum
    omega
  | cons v vs ih =>
    have hv := hvs v List.mem_cons_self
    rw [List.nodup_cons] at hnodup
    obtain ⟨w₁, hs, hlast | ⟨hless, rfl⟩⟩ := hw.ballot hq hether hidle hd hopen hv sender
    · obtain ⟨relay, -, hend⟩ := hlast
      refine ⟨w, w₁, .single ⟨_, ⟨v, List.mem_cons_self, rfl⟩, hs⟩, hw, ⟨_, hs⟩, ⟨rfl, ?_⟩, rfl, rfl, rfl, _, _, relay,
        d, _, [v], hd, hopen.2.1, hend, hend.kept, Dispute.attesters_voted .., Dispute.attesters_voted_not .., ?_⟩
      · obtain ⟨t, -, rfl⟩ := World.call_effect hs
        rfl
      · exact ⟨vs, rfl⟩
    · have hd₁ : (w.relay.voted id verdict v d).court.disputes[id]? = some (d.voted verdict v) :=
        List.getElem?_set_self (List.getElem?_eq_some_iff.1 hd).1
      have hopen₁ : (d.voted verdict v).Attestable w.now := by
        cases verdict <;> exact hopen
      obtain ⟨u, w', hreach, hlast⟩ := ih hnodup.2 (w := { w with relay := w.relay.voted id verdict v d })
        (d := d.voted verdict v) (hw.next ⟨_, hs⟩) hether hidle hd₁ hopen₁
        (by
          rw [Dispute.attesters_voted, List.length_append, List.length_singleton]
          rw [List.length_cons] at hquorum
          omega)
        fun u hu => (hvs u (List.mem_cons_of_mem v hu)).voted (ne_of_mem_of_not_mem hu hnodup.1)
      obtain ⟨env, call, relay, e, e', us, he, hun, hend, hkept, hside, hother, hpre⟩ := hlast.ending
      refine ⟨u, w', .head ⟨_, ⟨v, List.mem_cons_self, rfl⟩, hs⟩ (Relation.ReflTransGen.mono ?_ _ _ hreach),
        hlast.reachable, hlast.step, hlast.now, hlast.ledger, hlast.phase.trans (Court.phase_votesSet _),
        hlast.relayOf.trans (funext fun t => by cases t <;> rfl), env, call, relay, e, e', v :: us, he, hun, hend, ?_,
        ?_, ?_, ?_⟩
      · rintro a b ⟨act, ⟨x, hx, hact⟩, hstep⟩
        exact ⟨act, ⟨x, List.mem_cons_of_mem v hx, hact⟩, hstep⟩
      · rw [hkept]
        cases verdict <;> rfl
      · rw [hside, Dispute.attesters_voted, List.append_assoc]
        rfl
      · rw [hother, Dispute.attesters_voted_not]
      · exact List.cons_prefix_cons.2 ⟨rfl, hpre⟩

/-- The side that decides has the quorum. -/
theorem Ending.full {env : Env} {s s' : Storage} {call : Call} {relay : Address} {e : Dispute}
    (h : Ending D env s id d call (.ofVote verdict) relay e s') (hvotes : VotesInv D s) (hq : 0 < D.quorum) :
    (e.attesters verdict).length = D.quorum := by
  generalize hv : Verdict.ofVote verdict = v at h
  cases h with
  | fraud hvote hfull =>
    cases verdict
    · cases hv
    · exact le_antisymm (hvote.length_le hvotes hq).1 hfull
  | spurious hvote _ hfull =>
    cases verdict
    · exact le_antisymm (hvote.length_le hvotes hq).2 hfull
    · cases hv
  | expired => cases verdict <;> cases hv

/-- The dispute `d` of `w` has been decided in `w'` by votes of `vs`. -/
structure Decided (D : Deployment) (w w' : World) (id : ℕ) (d : Dispute) (verdict : Bool) (vs : List Address) :
    Prop where
  /-- The deciding side has been filled up by the first of `vs`, and the other one is as before. -/
  dispute : ∃ d', w'.relay.court.disputes[id]? = some d' ∧
    d' = { d with fraudAttesters := d'.fraudAttesters, validAttesters := d'.validAttesters, resolved := true } ∧
    (∃ us, us <+: vs ∧ d'.attesters verdict = d.attesters verdict ++ us) ∧
    d'.attesters (!verdict) = d.attesters (!verdict) ∧ (d'.attesters verdict).length = D.quorum
  told : (id, .ofVote verdict) ∈ w'.relay.verdicts
  phase : w'.relay.court.phase = Function.update w.relay.court.phase d.target (Verdict.ofVote verdict).phase
  now : w'.now = w.now

theorem LastVote.decided {u : World} {vs : List Address} (h : LastVote D w u w' id d verdict vs) (hq : 0 < D.quorum) :
    Decided D w w' id d verdict vs := by
  obtain ⟨env, call, relay, e, e', us, he, -, hend, hkept, hside, hother, hpre⟩ := h.ending
  have htarget : e.target = d.target := by
    have hboth : e'.target = e.target ∧ e'.target = d.target := ⟨by rw [hend.kept]; rfl, by rw [hkept]; rfl⟩
    exact hboth.1.symm.trans hboth.2
  refine ⟨⟨_, hend.resolved he, by rw [hkept], ⟨us, hpre, ?_⟩, ?_, ?_⟩, Storage.mem_verdicts.2 hend.told, ?_, h.now.2⟩
  · exact hside
  · exact hother
  · exact hend.full h.reachable.votes hq
  · rw [hend.phase h.reachable.court, h.phase, htarget]

/-- **A quorum of verifiers whose votes are due decides an open dispute, whatever the others have voted.** -/
theorem quorum_decides {D : Deployment} {w : World} (hq : 0 < D.quorum) (hw : w.Reachable D)
    (hether : w.balance < 2 ^ 250) (hidle : w.openCalls = []) {id : ℕ} {d : Dispute}
    (hd : w.relay.court.disputes[id]? = some d) (hopen : d.Attestable w.now) (verdict : Bool) {vs : List Address}
    (hnodup : vs.Nodup) (hquorum : D.quorum ≤ (d.attesters verdict).length + vs.length) (sign : Address → List Byte)
    (hvs : ∀ v ∈ vs, Eligible D w id verdict (sign v) d v) (sender : Address) :
    ∃ w', Reaches (World.StepIf D (Ballot sender id verdict sign vs)) w w' ∧ Decided D w w' id d verdict vs := by
  obtain ⟨u, w', hreach, hlast⟩ := hw.ballots hq sender sign hnodup hether hidle hd hopen hquorum hvs
  exact ⟨w', hreach, hlast.decided hq⟩

/-- What `toy` signs, it recovers. -/
theorem Evm.recover_toySignature (digest : Bytes32) {signer : Address} (h : signer ≠ 0) :
    recover toy digest (toySignature digest signer) = .ok signer := by
  have hlen := digest.length_eq
  have hr : Bytes32.ofBytes ((toySignature digest signer).take 32) = digest := by
    refine Bytes32.ext' ?_
    rw [toySignature, Bytes32.ofBytes]
    simp [hlen]
  have hs : (Bytes32.ofBytes (((toySignature digest signer).drop 32).take 32)).bytes.headD 0 = signer.val := by
    rw [toySignature, Bytes32.ofBytes]
    simp [hlen]
  have hv : load boundsPanic (toySignature digest signer) 64 = .ok 27 := by
    rw [load_eq_ok, toySignature]
    simp [hlen]
  unfold recover
  rw [revertIf_of_not (by simp [toySignature, hlen]), ok_bind, hv, ok_bind]
  dsimp only [toy]
  rw [if_pos hr, hs, Fin.ofNat_val_eq_self, revertIf_of_not h]
  rfl

namespace Toy

/-- The signatures of the votes "fraud" on the leaf under dispute. -/
def sign (v : Address) : List Byte :=
  Evm.toySignature (attestDigest Evm.toy 2 true ⟨1, 0, 1, 0, 0, 0, 0, [], [], false⟩) v

end Toy

/-- The verifiers 4 and 5 outvote 3. -/
theorem quorum_decides_toy : ∃ w', Reaches (World.StepIf (Deployment.toy 2) (Ballot 9 2 true Toy.sign [4, 5]))
    Toy.world w' ∧
      Decided (Deployment.toy 2) Toy.world w' 2 ⟨1, 0, 1, 8, 10, 1000, 1100, [], [3], false⟩ true [4, 5] := by
  obtain ⟨hether, hidle, hd, hnow, hrelay, h4, h5⟩ : Toy.world.balance < 2 ^ 250 ∧ Toy.world.openCalls = [] ∧
      Toy.world.relay.court.disputes[2]? = some ⟨1, 0, 1, 8, 10, 1000, 1100, [], [3], false⟩ ∧
      Toy.world.now = 1100 ∧ Toy.world.relay.court.relayOf (.leaf 0 1) = some 2 ∧
      (Toy.world.relay.roster.isRegisteredVerifier 4 ∧ 20 ≤ Toy.world.relay.ledger.verifierStake 4) ∧
      (Toy.world.relay.roster.isRegisteredVerifier 5 ∧ 20 ≤ Toy.world.relay.ledger.verifierStake 5) := by
    decide +kernel
  have hvs : ∀ v ∈ ([4, 5] : List Address), Eligible (Deployment.toy 2) Toy.world 2 true (Toy.sign v)
      ⟨1, 0, 1, 8, 10, 1000, 1100, [], [3], false⟩ v := by
    intro v hv
    have hne : v ≠ 0 ∧ some 2 ≠ some v ∧ v ∉ ([3] : List Address) := by
      rcases List.mem_cons.1 hv with rfl | hv
      · exact ⟨by decide, by decide, by decide⟩
      · obtain rfl := List.mem_singleton.1 hv
        exact ⟨by decide, by decide, by decide⟩
    refine ⟨Evm.recover_toySignature _ hne.1, ?_, ?_, hrelay ▸ hne.2.1, List.not_mem_nil, hne.2.2⟩
    · rcases List.mem_cons.1 hv with rfl | hv
      · exact h4.1
      · exact List.mem_singleton.1 hv ▸ h5.1
    · rcases List.mem_cons.1 hv with rfl | hv
      · exact h4.2
      · exact List.mem_singleton.1 hv ▸ h5.2
  exact quorum_decides (by decide) Toy.world_reachable hether hidle hd ⟨by decide, rfl, hnow.le⟩ true (by decide)
    (by decide) Toy.sign hvs 9

/-! ## From the challenge to the slash -/

/-- The dispute that is opened on a target. -/
def Target.dispute (D : Deployment) (env : Env) : Target → Dispute
  | .record i => newDispute D env 0 i 0
  | .leaf b l => newDispute D env 1 b l

/-- The calls that open a dispute on a target. -/
def Target.Opens : Target → Call → Prop
  | .record i, c => c = .openDispute i
  | .leaf b l, c => ∃ didHash nonce dataHash sigHash proof,
      c = .openBatchLeafDispute b l didHash nonce dataHash sigHash proof

/-- An undecided record can be put under dispute. -/
theorem World.Reachable.openDispute_returns (hw : w.Reachable D) {challenger : Address} {value : ℕ}
    (hbond : D.challengerBondAmount ≤ value) (htime : w.now + D.challengePeriod < uint64Size)
    (hroom : w.relay.court.disputes.length + 1 < wordSize) {i : ℕ} {r : Record}
    (hr : w.relay.court.records[i]? = some r) (hstate : r.state = .provisional) :
    ∃ w', w.step D (.call challenger value (.openDispute i)) = .ok w' := by
  have hactive : w.relay.court.relayActiveDisputes r.relay + 1 < wordSize := by
    rw [hw.court.active]
    exact (Nat.succ_le_succ List.countP_le_length).trans_lt hroom
  have hclock : uint64 w.now + D.challengePeriod < uint64Size :=
    (Nat.add_le_add_right (Nat.mod_le _ _) _).trans_lt htime
  have hrun : ∃ s', openDispute D (w.env challenger value) i w.relay = .ok s' := by
    unfold openDispute addActiveDispute pushDispute
    simp only [bind_eq_ok, load_eq_ok, revertIf_eq_ok, store, modifyAt_eq_ok, checkedAdd_eq_ok, checkedAdd64_eq_ok,
      push_eq_ok, pure_eq_ok]
    exact ⟨_, (), Nat.not_lt.2 hbond, r, hr, (), by simp [hstate], _, ⟨r, hr, rfl⟩, _, ⟨_, ⟨hactive, rfl⟩, rfl⟩, _,
      ⟨hclock, rfl⟩, _, ⟨hroom, rfl⟩, rfl⟩
  obtain ⟨s', hs'⟩ := hrun
  rw [World.step, Call.exec, revertIf_of_not (by simp [Call.payable]), ok_bind, Call.run, hs']
  exact ⟨_, rfl⟩

/-- An undecided leaf can be put under dispute, with the tuple and the proof that its events tell. -/
theorem World.Reachable.openLeaf_returns (hw : w.Reachable D) {challenger : Address} {value : ℕ}
    (hbond : D.challengerBondAmount ≤ value) (htime : w.now + D.challengePeriod < uint64Size)
    (hroom : w.relay.court.disputes.length + 1 < wordSize) {b l : ℕ}
    (hphase : w.relay.court.phase (.leaf b l) = .undecided) :
    ∃ c w', (Target.leaf b l).Opens c ∧ w.step D (.call challenger value c) = .ok w' := by
  obtain ⟨bt, hb, hl⟩ := Court.leaf_of_phase (c := w.relay.court) (b := b) (l := l) (by rw [hphase]; simp)
  obtain ⟨hlen, hroot, hleaves⟩ := hw.published hb
  have hne : w.relay.published D b ≠ [] := by
    intro hnil
    rw [hnil, List.length_nil] at hlen
    omega
  obtain ⟨root, proofs, htrees⟩ := treesAgree D.toEvm hne
  obtain rfl := Except.ok.inj (htrees.contract.symm.trans hroot)
  obtain ⟨didHash, nonce, dataHash, sigHash, hevent, hleaf⟩ := hleaves l hl
  obtain ⟨proof, -, hverified⟩ := htrees.verified l _ hleaf
  -- a leaf that is undecided is neither disputed nor revoked, and its batch is not confirmed
  rw [Court.phase_leaf hb hl] at hphase
  have hstate : bt.state = .provisional := by
    rcases hw.court.batch_state b bt hb with hst | hst
    · exact hst
    · rw [hst] at hphase
      cases hls : w.relay.court.batchLeafState b l <;> rw [hls] at hphase <;> cases hphase
  obtain ⟨w', hs⟩ := (hw.disputable hb hl hevent hverified).opens challenger value hbond hstate
    (fun hls => by rw [hls] at hphase; cases hphase) (fun hls => by rw [hls] at hphase; cases hphase) htime hroom
  exact ⟨_, w', ⟨didHash, nonce, dataHash, sigHash, proof, rfl⟩, hs⟩

/-- Every undecided target can be put under dispute. -/
theorem World.Reachable.open_returns (hw : w.Reachable D) (challenger : Address) {value : ℕ}
    (hbond : D.challengerBondAmount ≤ value) (htime : w.now + D.challengePeriod < uint64Size)
    (hroom : w.relay.court.disputes.length + 1 < wordSize) {t : Target}
    (hphase : w.relay.court.phase t = .undecided) :
    ∃ c w', t.Opens c ∧ w.step D (.call challenger value c) = .ok w' := by
  cases t with
  | record i =>
    obtain ⟨r, hr⟩ := Court.record_of_phase (c := w.relay.court) (i := i) (by rw [hphase]; simp)
    rw [Court.phase_record hr] at hphase
    have hstate : r.state = .provisional := by
      cases hst : r.state <;> rw [hst] at hphase <;> first | rfl | cases hphase
    obtain ⟨w', hs⟩ : ∃ w', w.step D (.call challenger value (.openDispute i)) = .ok w' :=
      hw.openDispute_returns hbond htime hroom hr hstate
    exact ⟨_, w', rfl, hs⟩
  | leaf b l => exact hw.openLeaf_returns hbond htime hroom hphase

/-- What putting a target under dispute does. -/
theorem Effect.opens {env : Env} {s s' : Storage} {c : Call} (he : Effect D env s c s') {t : Target} (ht : t.Opens c) :
    s'.court.disputes = s.court.disputes ++ [t.dispute D env] ∧
      s'.court.phase = Function.update s.court.phase t .disputed ∧ s'.ledger = s.ledger ∧ s'.roster = s.roster := by
  cases t with
  | record i =>
    obtain rfl : c = .openDispute i := ht
    cases he with
    | openDispute _ hr =>
      refine ⟨rfl, ?_, rfl, rfl⟩
      exact (Court.phase_opened _ _).trans (Court.phase_recordState hr .disputed)
  | leaf b l =>
    obtain ⟨didHash, nonce, dataHash, sigHash, proof, rfl⟩ : ∃ didHash nonce dataHash sigHash proof,
      c = .openBatchLeafDispute b l didHash nonce dataHash sigHash proof := ht
    cases he with
    | openBatchLeafDispute _ hb _ hl =>
      refine ⟨rfl, ?_, rfl, rfl⟩
      exact (Court.phase_opened _ _).trans (Court.phase_leafOpened hb hl)

@[simp] theorem Target.target_dispute (D : Deployment) (env : Env) (t : Target) : (t.dispute D env).target = t := by
  cases t <;> rfl

/-- The digest of a dispute that has just been opened tells its target, whoever has opened it. -/
theorem Target.attestDigest_dispute (E : Evm) (id : ℕ) (env env' : Env) (t : Target) :
    attestDigest E id verdict (t.dispute D env) = attestDigest E id verdict (t.dispute D env') := by
  cases t <;> rfl

/-- A verifier that may judge the target `t`, and its signature of a vote "fraud" in the next dispute. -/
structure Judge (D : Deployment) (w : World) (t : Target) (signature : List Byte) (v : Address) : Prop where
  registered : w.relay.roster.isRegisteredVerifier v
  staked : D.verifierStakeAmount ≤ w.relay.ledger.verifierStake v
  independent : w.relay.court.relayOf t ≠ some v
  signed : recover D.toEvm (attestDigest D.toEvm w.relay.court.disputes.length true (t.dispute D (w.env 0 0)))
    signature = .ok v

/-- What the dispute that `challenger` has opened in `w` on `t`, with the bond `value`, has led to when `vs` have
voted. -/
structure Punished (D : Deployment) (w w' : World) (t : Target) (challenger : Address) (value : ℕ) (vs : List Address)
    (relay : Address) : Prop where
  endorsed : w.relay.court.relayOf t = some relay
  phase : w'.relay.court.phase = Function.update w.relay.court.phase t .revoked
  now : w'.now = w.now
  /-- The relay and the verifiers that stood in for the target have been slashed, and the challenger and the attesters
  have been paid. -/
  settled : ∃ (d : Dispute) (wrongSide : List Address), d.target = t ∧ d.challenger = challenger ∧ d.bond = value ∧
    d.fraudAttesters <+: vs ∧ d.validAttesters = [] ∧ (∀ v, v ∈ wrongSide ↔ w'.relay.court.VotedValid t v) ∧
    SettledFraud D d relay wrongSide w.relay.ledger w'.relay.ledger

/-- **One challenger with a bond and a quorum of verifiers revoke any undecided target, and the relay pays for it.** -/
theorem accountability {D : Deployment} {w : World} (hq : 0 < D.quorum) (hw : w.Reachable D)
    (hkeys : KeysInjective D.toEvm) (hidle : w.openCalls = []) (challenger : Address) {value : ℕ}
    (hether : w.balance + value < 2 ^ 250) (htime : w.now + D.challengePeriod < uint64Size)
    (hroom : w.relay.court.disputes.length + 1 < wordSize) {t : Target} (ht : w.relay.court.phase t = .undecided)
    (hbond : D.challengerBondAmount ≤ value) {vs : List Address} (hnodup : vs.Nodup) (hquorum : D.quorum ≤ vs.length)
    (sign : Address → List Byte) (hvs : ∀ v ∈ vs, Judge D w t (sign v) v) :
    ∃ (c : Call) (w₁ w' : World) (relay : Address), t.Opens c ∧ w.step D (.call challenger value c) = .ok w₁ ∧
      Reaches (World.StepIf D (Ballot challenger w.relay.court.disputes.length true sign vs)) w₁ w' ∧
      Punished D w w' t challenger value vs relay := by
  obtain ⟨c, w₁, hopens, hs⟩ := hw.open_returns challenger hbond htime hroom ht
  have hw₁ := hw.next ⟨_, hs⟩
  obtain ⟨ov, hcourt, -⟩ := hw.courtStep ⟨_, hs⟩
  obtain ⟨s, he, rfl⟩ := World.call_effect hs
  obtain ⟨hdisputes, hphase, hledger, hroster⟩ := he.opens hopens
  dsimp only at hcourt hw₁
  -- the new dispute is open, and the judges can vote in it
  have hd : s.court.disputes[w.relay.court.disputes.length]? = some (t.dispute D (w.env challenger value)) := by
    rw [hdisputes, List.getElem?_concat_length]
  have hclock : uint64 w.now = w.now := uint64_eq (by omega)
  have hopen : (t.dispute D (w.env challenger value)).Attestable w.now := by
    have hnow := hw.now_pos
    cases t <;> exact ⟨by dsimp only [Target.dispute, newDispute, World.env]; omega, rfl, by
      dsimp only [Target.dispute, newDispute, World.env]; omega⟩
  obtain ⟨relay, hrelay⟩ : ∃ relay, w.relay.court.relayOf t = some relay := by
    cases t with
    | record i =>
      obtain ⟨r, hr⟩ := Court.record_of_phase (c := w.relay.court) (i := i) (by rw [ht]; simp)
      exact ⟨r.relay, by simp [Court.relayOf, hr]⟩
    | leaf b l =>
      obtain ⟨bt, hb, -⟩ := Court.leaf_of_phase (c := w.relay.court) (b := b) (l := l) (by rw [ht]; simp)
      exact ⟨bt.relay, by simp [Court.relayOf, hb]⟩
  have hrelay₁ : s.court.relayOf t = some relay := hcourt.relayOf hrelay
  have heligible : ∀ v ∈ vs, Eligible D { w with relay := s, balance := w.balance + value }
      w.relay.court.disputes.length true (sign v) (t.dispute D (w.env challenger value)) v := by
    intro v hv
    have hjudge := hvs v hv
    refine ⟨?_, ?_, ?_, ?_, by cases t <;> exact ⟨List.not_mem_nil, List.not_mem_nil⟩⟩
    · rw [Target.attestDigest_dispute D.toEvm _ _ (w.env 0 0)]
      exact hjudge.signed
    · exact hroster ▸ hjudge.registered
    · exact hledger ▸ hjudge.staked
    · rw [Target.target_dispute]
      exact fun hv => hjudge.independent (hrelay.trans (hrelay₁.symm.trans hv))
  obtain ⟨u, w', hreach, hlast⟩ := hw₁.ballots hq challenger sign hnodup hether hidle hd hopen
    (by cases t <;> exact hquorum.trans (Nat.le_add_left _ _)) heligible
  obtain ⟨env, call, relay', e, e', us, hu, hun, hend, hkept, hside, hother, hpre⟩ := hlast.ending
  have htarget : e.target = t := by
    have hboth : e'.target = e.target ∧ e'.target = (t.dispute D (w.env challenger value)).target :=
      ⟨by rw [hend.kept]; rfl, by rw [hkept]; rfl⟩
    rw [← hboth.1, hboth.2, Target.target_dispute]
  have hrelay' : u.relay.court.relayOf t = some relay' := htarget ▸ hend.endorsed
  rw [hlast.relayOf, hrelay₁] at hrelay'
  obtain rfl := Option.some.inj hrelay'
  obtain ⟨wrongSide, -, hmem, hset⟩ := hend.settled hq hlast.reachable hkeys hlast.step hu
  have htarget' : e'.target = t := by rw [hend.kept]; exact htarget
  refine ⟨c, _, w', relay, hopens, hs, hreach, hrelay, ?_, hlast.now.2, { e' with resolved := true }, wrongSide,
    htarget', ?_, ?_, ?_, ?_, fun v => htarget' ▸ hmem v, ?_⟩
  · rw [hend.phase hlast.reachable.court, htarget, hlast.phase, hphase, Function.update_idem]
    rfl
  · rw [hkept]
    cases t <;> rfl
  · rw [hkept]
    cases t <;> rfl
  · have hall : e'.fraudAttesters = (t.dispute D (w.env challenger value)).fraudAttesters ++ us := hside
    have hnone : (t.dispute D (w.env challenger value)).fraudAttesters = [] := by cases t <;> rfl
    dsimp only
    rw [hall, hnone]
    exact hpre
  · have hall : e'.validAttesters = (t.dispute D (w.env challenger value)).validAttesters := hother
    dsimp only
    rw [hall]
    cases t <;> rfl
  · rw [← hledger, ← hlast.ledger]
    exact hset

/-- Nobody has disputed the first leaf of the batch of a run: 9 does, and the verifiers 3 and 4 revoke it. -/
theorem accountability_toy : ∃ (w' : World) (relay : Address),
    Punished (Deployment.toy 2) Toy.world w' (.leaf 0 0) 9 10 [3, 4] relay := by
  obtain ⟨hidle, hether, htime, hroom, hphase, hrelay, h3, h4⟩ : Toy.world.openCalls = [] ∧
      Toy.world.balance + 10 < 2 ^ 250 ∧ Toy.world.now + (Deployment.toy 2).challengePeriod < uint64Size ∧
      Toy.world.relay.court.disputes.length + 1 < wordSize ∧ Toy.world.relay.court.phase (.leaf 0 0) = .undecided ∧
      Toy.world.relay.court.relayOf (.leaf 0 0) = some 2 ∧
      (Toy.world.relay.roster.isRegisteredVerifier 3 ∧ 20 ≤ Toy.world.relay.ledger.verifierStake 3) ∧
      (Toy.world.relay.roster.isRegisteredVerifier 4 ∧ 20 ≤ Toy.world.relay.ledger.verifierStake 4) := by
    decide +kernel
  have hvs : ∀ v ∈ ([3, 4] : List Address), Judge (Deployment.toy 2) Toy.world (.leaf 0 0)
      (Evm.toySignature (attestDigest Evm.toy Toy.world.relay.court.disputes.length true
        ((Target.leaf 0 0).dispute (Deployment.toy 2) (Toy.world.env 0 0))) v) v := by
    intro v hv
    rcases List.mem_cons.1 hv with rfl | hv
    · exact ⟨h3.1, h3.2, by rw [hrelay]; decide, Evm.recover_toySignature _ (by decide)⟩
    · obtain rfl := List.mem_singleton.1 hv
      exact ⟨h4.1, h4.2, by rw [hrelay]; decide, Evm.recover_toySignature _ (by decide)⟩
  obtain ⟨-, -, w', relay, -, -, -, hpunished⟩ := accountability (by decide) Toy.world_reachable
    (.of_injective Evm.toy_injective) hidle 9 hether htime hroom hphase (by decide) (by decide)
    (by decide) _ hvs
  exact ⟨w', relay, hpunished⟩

end PqIotAuth
