import PqIotAuth.Slashing

/-!
# Rulings

A vote in a dispute and the expiry of a dispute do the same kind of thing, a *ruling*: the dispute is written, and when
it is decided now, its target gets the verdict, the counters of open disputes go down, the "valid" votes are registered
or released and the stakes and the bond are settled. `Storage.ruled` is all of it as one operation on the storage, in
which every part is a function of the ruling, and `Effect.ruling` says that a call on a dispute does this. What a call
rules depends on the dispute and on the relay of its target only (`Ruling.Of.unique`).
-/

namespace PqIotAuth

open Lib

variable {D : Deployment} {env : Env} {s s' : Storage} {call : Call} {c : Court} {vs : List (ℕ × Verdict)}

structure Ruling where
  /-- The index of the dispute. -/
  id : ℕ
  /-- The dispute with the vote in it. -/
  dispute : Dispute
  /-- Whose vote it is; an expiry has none. -/
  voter : Option Address
  relay : Address
  verdict : Option Verdict

/-- What a call rules that passes its checks. -/
inductive Ruling.Of (D : Deployment) (env : Env) (s : Storage) : Call → Ruling → Prop
  | vote {id : ℕ} {verdict : Bool} {signature : List Byte} {signer : Address} {d : Dispute} {relay : Address}
      (hvote : Voting D env s id verdict signature signer d relay) :
      Of D env s (.submitAttestation id verdict signature)
        ⟨id, d.voted verdict signer, some signer, relay, (d.voted verdict signer).outcome D⟩
  | expire {id : ℕ} {d : Dispute} {relay : Address} (hexp : Expiring env s id d relay) :
      Of D env s (.expireDispute id) ⟨id, d, none, relay, some .expired⟩

/-! ## The operation -/

/-- A verdict on a target of `relay` entered. -/
def Court.decided (t : Target) (v : Verdict) (relay : Address) (c : Court) : Court :=
  let relayActiveDisputes := Function.update c.relayActiveDisputes relay (c.relayActiveDisputes relay - 1)
  match t with
  | .record i =>
    { c with
      records := c.records.modify i fun r => { r with state := recordAfter v }
      relayActiveDisputes }
  | .leaf b l =>
    { c.setLeaf b l (leafAfter v) with
      batches := c.batches.modify b fun bt => { bt with revokedLeafCount := bt.revokedLeafCount + revocations v }
      relayActiveDisputes
      batchOpenLeafDisputes := Function.update c.batchOpenLeafDisputes b (c.batchOpenLeafDisputes b - 1) }

namespace Ruling

def court (h : Ruling) (c : Court) : Court :=
  let c := { c with disputes := c.disputes.set h.id { h.dispute with resolved := h.verdict.isSome } }
  match h.verdict with
  | none => c
  | some v => c.decided h.dispute.target v h.relay

def flags (h : Ruling) (f : ℕ → Address → Bool) : ℕ → Address → Bool :=
  match h.voter with
  | none => f
  | some signer => Function.update f h.id (Function.update (f h.id) signer true)

def exposure (E : Evm) (h : Ruling) (x : Exposure) : Exposure :=
  match h.verdict with
  | none => x
  | some .fraud => x.afterFraud E h.dispute
  | some .spurious => x.afterSpurious E h.dispute
  | some .expired => x.afterExpiry E h.dispute

def ledger (D : Deployment) (h : Ruling) (wrongSide : List Address) (l : Ledger) : Ledger :=
  match h.verdict with
  | none => l
  | some .fraud => l.afterFraud D h.dispute h.relay wrongSide
  | some .spurious => l.afterSpurious h.dispute h.relay
  | some .expired => l.afterExpiry h.dispute

/-- What the revocation of a target emits. -/
def revocation : Target → List Event
  | .record _ => []
  | .leaf b l => [.leafRevoked b l]

def events (h : Ruling) : List Event :=
  match h.verdict with
  | none => []
  | some .spurious => [Verdict.spurious.event h.id]
  | some .fraud => revocation h.dispute.target ++ [Verdict.fraud.event h.id]
  | some .expired => revocation h.dispute.target ++ [Verdict.expired.event h.id]

end Ruling

def Storage.ruled (D : Deployment) (h : Ruling) (s : Storage) : Storage :=
  { s with
    ledger := h.ledger D (s.wrongSide D h.dispute) s.ledger
    court := h.court s.court
    exposure := h.exposure D.toEvm s.exposure
    hasAttested := h.flags s.hasAttested
    logs := s.logs ++ h.events }

/-! ## Calls are rulings -/

/-- The ruling is on `d`, an open dispute, to which it adds votes at most. -/
structure Ruling.On (c : Court) (d : Dispute) (r : Ruling) : Prop where
  dispute : c.disputes[r.id]? = some d
  unresolved : d.resolved = false
  votes : ∃ fraudAttesters validAttesters, r.dispute = { d with fraudAttesters, validAttesters }
  endorsed : c.relayOf d.target = some r.relay

theorem Ruling.Of.on {r : Ruling} (h : r.Of D env s call) : ∃ d, r.On s.court d := by
  cases h with
  | vote hvote =>
    exact ⟨_, hvote.dispute, hvote.unresolved, Dispute.voted_eq _ _ _, targetRelay_ok'.1 hvote.endorsed⟩
  | expire hexp => exact ⟨_, hexp.dispute, hexp.unresolved, ⟨_, _, rfl⟩, targetRelay_ok'.1 hexp.endorsed⟩

namespace Ruling.On

variable {d : Dispute} {r : Ruling}

theorem target (h : r.On c d) : r.dispute.target = d.target := by
  obtain ⟨fa, va, e⟩ := h.votes
  rw [e]
  rfl

/-- The resolution of the dispute is the verdict on its target. -/
theorem closed_eq (h : r.On c d) (hinv : c.Inv vs) {v : Verdict} (hv : r.verdict = some v) :
    c.closed r.id r.dispute r.relay v = r.court c := by
  have htarget := h.target
  obtain ⟨fa, va, e⟩ := h.votes
  rw [Ruling.court, hv, htarget, e]
  rcases hinv.kinds d (List.mem_of_getElem? h.dispute) with ⟨ht, -⟩ | ht
  · rw [Dispute.target_record ht]
    cases v <;>
      simp [Court.closed, Court.upheld, Court.revoked, Court.discharged, Court.markResolved, Court.decided, ht,
        recordAfter]
  · have hleaf := Dispute.target_leaf ht
    obtain ⟨bt, hb, -, -, hl⟩ := hinv.leaf_disputed h.dispute h.unresolved hleaf
    rw [hleaf]
    cases v <;>
      simp [Court.closed, Court.upheld, Court.revoked, Court.discharged, Court.markResolved, Court.decided,
        Court.setLeaf, ht, hl, leafAfter, revocations, modify_eq_set hb, set_self hb]

/-- The revocation of the target is told when it is a leaf. -/
theorem revocation_eq (h : r.On s.court d) (hinv : s.court.Inv vs) :
    s.revocation r.dispute = Ruling.revocation r.dispute.target := by
  rw [h.target]
  obtain ⟨fa, va, e⟩ := h.votes
  rw [Storage.revocation, e]
  dsimp only
  rcases hinv.kinds d (List.mem_of_getElem? h.dispute) with ⟨ht, -⟩ | ht
  · rw [Dispute.target_record ht, if_neg (by simp [ht])]
    rfl
  · have hleaf := Dispute.target_leaf ht
    obtain ⟨bt, -, -, -, hl⟩ := hinv.leaf_disputed h.dispute h.unresolved hleaf
    rw [hleaf, if_pos (by simp [ht, hl])]
    rfl

end Ruling.On

/-- The vote that completes a fraud verdict. -/
theorem Voting.ruled_fraud (hinv : s.court.Inv s.verdicts) {id : ℕ} {verdict : Bool} {signature : List Byte}
    {signer : Address} {d : Dispute} {relay : Address} (hvote : Voting D env s id verdict signature signer d relay)
    (hout : (d.voted verdict signer).outcome D = some .fraud) :
    s.ruled D ⟨id, d.voted verdict signer, some signer, relay, (d.voted verdict signer).outcome D⟩ =
      (s.voted id verdict signer d).afterFraud D id (d.voted verdict signer) relay := by
  obtain ⟨d', hon⟩ := (Ruling.Of.vote hvote).on
  rw [Storage.ruled, ← hon.closed_eq hinv hout, Storage.afterFraud, Storage.voted, Court.closed_voted]
  simp only [Ruling.ledger, Ruling.exposure, Ruling.flags, Ruling.events, hout, ← hon.revocation_eq hinv,
    ← List.append_assoc]
  rfl

/-- **A call on a dispute that succeeds rules, and does nothing else.** -/
theorem Effect.ruling (hinv : s.court.Inv s.verdicts) (he : Effect D env s call s') {id : ℕ}
    (hid : call.disputeId = some id) :
    env.value = 0 ∧ ∃ r : Ruling, r.id = id ∧ r.Of D env s call ∧ s' = s.ruled D r := by
  cases he with
  | @vote hfree _ verdict _ signer d relay hvote hfraud hvalid =>
    obtain rfl := Option.some.inj hid
    refine ⟨hfree, _, rfl, .vote hvote, ?_⟩
    have hout : (d.voted verdict signer).outcome D = none := by
      rw [Dispute.outcome, if_neg (by omega), if_neg (by omega)]
    have hsame : ({ d.voted verdict signer with resolved := false } : Dispute) = d.voted verdict signer := by
      rw [← hvote.unresolved, ← Dispute.resolved_voted verdict signer d]
    simp only [Storage.ruled, Ruling.court, Ruling.ledger, Ruling.exposure, Ruling.events, Ruling.flags, hout,
      Option.isSome_none, hsame, List.append_nil]
    rfl
  | @fraud hfree _ verdict _ signer d relay hvote hfraud =>
    obtain rfl := Option.some.inj hid
    have hout : (d.voted verdict signer).outcome D = some .fraud := by rw [Dispute.outcome, if_pos hfraud]
    exact ⟨hfree, _, rfl, .vote hvote, (hvote.ruled_fraud hinv hout).symm⟩
  | @spurious hfree _ verdict _ signer d relay hvote hfraud hvalid =>
    obtain rfl := Option.some.inj hid
    have hof := Ruling.Of.vote hvote
    obtain ⟨d', hon⟩ := hof.on
    have hout : (d.voted verdict signer).outcome D = some .spurious := by
      rw [Dispute.outcome, if_neg (by omega), if_pos hvalid]
    refine ⟨hfree, _, rfl, hof, ?_⟩
    rw [Storage.ruled, ← hon.closed_eq hinv hout, Storage.afterSpurious, Storage.voted, Court.closed_voted]
    simp only [Ruling.ledger, Ruling.exposure, Ruling.flags, Ruling.events, hout]
    rfl
  | @expire hfree _ d relay hexp =>
    obtain rfl := Option.some.inj hid
    have hof := Ruling.Of.expire (D := D) hexp
    obtain ⟨d', hon⟩ := hof.on
    refine ⟨hfree, _, rfl, hof, ?_⟩
    rw [Storage.ruled, ← hon.closed_eq hinv rfl, Storage.afterExpiry]
    simp only [Ruling.ledger, Ruling.exposure, Ruling.flags, Ruling.events, ← hon.revocation_eq hinv,
      ← List.append_assoc]
    rfl
  | stakeRelay | announceUnstake | unstakeRelay | stakeVerifier | joinVerifier | announceVerifierUnstake
  | unstakeVerifier | deregisterVerifier | submitAccountable | finalizeRecord | submitBatch | finalizeBatch
  | openDispute | openBatchLeafDispute => cases hid

theorem World.Reachable.ruling {w w' : World} (hw : w.Reachable D) {sender : Address} {value id : ℕ}
    (hid : call.disputeId = some id) (hs : w.step D (.call sender value call) = .ok w') :
    ∃ r : Ruling, r.id = id ∧ r.Of D (w.env sender value) w.relay call ∧
      w' = { w with relay := w.relay.ruled D r } := by
  obtain ⟨s, he, rfl⟩ := World.call_effect hs
  obtain ⟨hfree, r, hr, hof, rfl⟩ := he.ruling hw.court hid
  obtain rfl : value = 0 := hfree
  exact ⟨r, hr, hof, rfl⟩

/-- **What a call rules is a matter of its dispute and of the relay of its target.** -/
theorem Ruling.Of.unique {r r' : Ruling} (h : r.Of D env s call) (h' : r'.Of D env s' call) {id : ℕ}
    (hid : call.disputeId = some id) (hdispute : s'.court.disputes[id]? = s.court.disputes[id]?)
    (hrelays : s'.court.relays = s.court.relays) : r' = r := by
  cases h with
  | vote hvote =>
    obtain rfl := Option.some.inj hid
    cases h' with
    | vote hvote' =>
      have hd := hvote'.dispute
      rw [hdispute, hvote.dispute] at hd
      obtain rfl := Option.some.inj hd
      obtain rfl := Except.ok.inj (hvote.signed.symm.trans hvote'.signed)
      obtain rfl := Except.ok.inj (hvote.endorsed.symm.trans ((targetRelay_congr hrelays).1 hvote'.endorsed))
      rfl
  | expire hexp =>
    obtain rfl := Option.some.inj hid
    cases h' with
    | expire hexp' =>
      have hd := hexp'.dispute
      rw [hdispute, hexp.dispute] at hd
      obtain rfl := Option.some.inj hd
      obtain rfl := Except.ok.inj (hexp.endorsed.symm.trans ((targetRelay_congr hrelays).1 hexp'.endorsed))
      rfl

end PqIotAuth
