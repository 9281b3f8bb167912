import PqIotAuth.Membership

/-!
# What an observer of the events knows

Whoever follows the events alone can keep a `View` of the contract: the records and batches with their states, the
leaves that have been revoked, the disputes, the committee and the nonces. In every run this view is the one of the
storage (`events_determine`), and with it the counters that `finalizeBatch` and the unstaking of a relay look at. Only
which leaf a dispute is about the events do not tell (`leaf_untold`).
-/

namespace PqIotAuth

open Lib

variable {D : Deployment} {env : Env} {s s' : Storage} {call : Call} {w w' : World}

/-! ## The view -/

structure RecordView where
  didHash : Bytes32
  nonce : ℕ
  dataHash : Bytes32
  relay : Address
  state : RecordState
  deriving DecidableEq

structure BatchView where
  merkleRoot : Bytes32
  leafCount : ℕ
  availabilityCommitment : Bytes32
  relay : Address
  revokedLeafCount : ℕ
  state : RecordState
  deriving DecidableEq

structure DisputeView where
  targetType : ℕ
  targetIndex : ℕ
  challenger : Address
  resolved : Bool
  deriving DecidableEq

structure View where
  records : List RecordView
  batches : List BatchView
  disputes : List DisputeView
  leafRevoked : ℕ → ℕ → Bool
  isRegisteredVerifier : Address → Bool
  didNonce : Bytes32 → ℕ

def Record.view (r : Record) : RecordView := ⟨r.didHash, r.nonce, r.dataHash, r.relay, r.state⟩

def Batch.view (b : Batch) : BatchView :=
  ⟨b.merkleRoot, b.leafCount, b.availabilityCommitment, b.relay, b.revokedLeafCount, b.state⟩

def Dispute.view (d : Dispute) : DisputeView := ⟨d.targetType, d.targetIndex, d.challenger, d.resolved⟩

def LeafState.isRevoked : LeafState → Bool
  | .revoked => true
  | .undisputed | .disputed | .upheld => false

def Court.view (c : Court) (isRegisteredVerifier : Address → Bool) (didNonce : Bytes32 → ℕ) : View where
  records := c.records.map Record.view
  batches := c.batches.map Batch.view
  disputes := c.disputes.map Dispute.view
  leafRevoked := fun b l => (c.batchLeafState b l).isRevoked
  isRegisteredVerifier := isRegisteredVerifier
  didNonce := didNonce

def Storage.view (s : Storage) : View := s.court.view s.roster.isRegisteredVerifier s.didNonce

/-! ## Following the events -/

namespace View

/-- Before the first event. -/
def init : View := ⟨[], [], [], fun _ _ => false, fun _ => false, fun _ => 0⟩

def setRecord (i : ℕ) (state : RecordState) (v : View) : View :=
  { v with records := v.records.modify i fun r => { r with state } }

/-- The dispute `id` closed; `state` is what becomes of a record. -/
def close (id : ℕ) (state : RecordState) (v : View) : View :=
  match v.disputes[id]? with
  | none => v
  | some d =>
    let v := { v with disputes := v.disputes.set id { d with resolved := true } }
    if d.targetType = 0 then v.setRecord d.targetIndex state else v

/-- The view after one more event. -/
def tell (v : View) : Event → View
  | .recordSubmitted _ didHash nonce dataHash relay =>
    { v with
      records := v.records ++ [⟨didHash, nonce, dataHash, relay, .provisional⟩]
      didNonce := Function.update v.didNonce didHash nonce }
  | .recordFinalized index => v.setRecord index .confirmed
  | .batchSubmitted _ root leafCount commitment relay =>
    { v with batches := v.batches ++ [⟨root, leafCount, commitment, relay, 0, .provisional⟩] }
  | .batchLeaf _ _ didHash nonce _ _ => { v with didNonce := Function.update v.didNonce didHash nonce }
  | .batchFinalized b _ => { v with batches := v.batches.modify b fun bt => { bt with state := .confirmed } }
  | .disputeOpened _ targetType targetIndex challenger =>
    let v := { v with disputes := v.disputes ++ [⟨targetType, targetIndex, challenger, false⟩] }
    if targetType = 0 then v.setRecord targetIndex .disputed else v
  | .disputeResolved id fraudProven => v.close id (if fraudProven then .revoked else .provisional)
  | .disputeExpired id => v.close id .revoked
  | .leafRevoked b l =>
    { v with
      batches := v.batches.modify b fun bt => { bt with revokedLeafCount := bt.revokedLeafCount + 1 }
      leafRevoked := Function.update v.leafRevoked b (Function.update (v.leafRevoked b) l true) }
  | .verifierRegistered a => { v with isRegisteredVerifier := Function.update v.isRegisteredVerifier a true }
  | .verifierDeregistered a => { v with isRegisteredVerifier := Function.update v.isRegisteredVerifier a false }
  | .relayStaked .. | .relayUnstaked .. | .verifierUnstaked .. | .withdrawn .. => v

/-- What an observer has after the events `logs`. -/
def follow (logs : List Event) (v : View) : View := logs.foldl tell v

theorem follow_nil (v : View) : v.follow [] = v := rfl

theorem follow_singleton (v : View) (e : Event) : v.follow [e] = v.tell e := rfl

theorem follow_append (logs logs' : List Event) (v : View) : v.follow (logs ++ logs') = (v.follow logs).follow logs' :=
  List.foldl_append

end View

/-! ## What each call tells -/

/-- The storage after a call is seen as its events tell. -/
def Told (s s' : Storage) : Prop := ∃ events, s'.logs = s.logs ++ events ∧ s'.view = s.view.follow events

section Court

variable {c : Court}

/-- The state of a record written. -/
theorem Court.view_setRecord {i : ℕ} {r : Record} (hr : c.records[i]? = some r) (state : RecordState)
    (registered : Address → Bool) (nonces : Bytes32 → ℕ) :
    (c.recordSet i { r with state }).view registered nonces = (c.view registered nonces).setRecord i state := by
  have hmap : (c.records.map Record.view)[i]? = some r.view := by rw [List.getElem?_map, hr]; rfl
  simp only [Court.view, Court.recordSet, View.setRecord, modify_eq_set hmap, List.map_set]
  rfl

/-- A leaf that is written and neither was revoked nor is it now. -/
theorem Court.leafRevoked_kept (b l : ℕ) (state : LeafState)
    (h : state.isRevoked = (c.batchLeafState b l).isRevoked) :
    (fun b' l' => ((c.setLeaf b l state).batchLeafState b' l').isRevoked) =
      fun b' l' => (c.batchLeafState b' l').isRevoked := by
  funext b' l'
  rw [setLeaf_apply]
  split
  · rename_i hbl
    rw [hbl.1, hbl.2, h]
  · rfl

theorem Court.leafRevoked_revoked (b l : ℕ) :
    (fun b' l' => ((c.setLeaf b l .revoked).batchLeafState b' l').isRevoked) =
      Function.update (fun b' l' => (c.batchLeafState b' l').isRevoked) b
        (Function.update (fun l' => (c.batchLeafState b l').isRevoked) l true) := by
  funext b' l'
  rw [setLeaf_apply]
  by_cases hb : b' = b
  · subst hb
    by_cases hl : l' = l
    · simp [hl, LeafState.isRevoked]
    · simp [hl]
  · simp [hb]

theorem View.tell_verdict (v : View) (id : ℕ) (verdict : Verdict) :
    v.tell (verdict.event id) = v.close id (recordAfter verdict) := by
  cases verdict <;> rfl

theorem Dispute.of_target_record {d : Dispute} {i : ℕ} (h : d.target = .record i) :
    d.targetType = 0 ∧ d.targetIndex = i := by
  unfold Dispute.target at h
  split at h
  · rename_i ht
    cases h
    exact ⟨ht, rfl⟩
  · cases h

theorem Dispute.of_target_leaf {d : Dispute} {b l : ℕ} (h : d.target = .leaf b l) :
    d.targetType ≠ 0 ∧ d.targetIndex = b ∧ d.leafIndex = l := by
  unfold Dispute.target at h
  split at h
  · cases h
  · rename_i ht
    cases h
    exact ⟨ht, rfl, rfl⟩

/-- A verdict is seen in the events of its revocation and of itself. -/
theorem CourtStep.view_closed {now id : ℕ} {verdict : Verdict} {c' : Court}
    (hs : CourtStep D now s.court c' (some (id, verdict))) (registered : Address → Bool) (nonces : Bytes32 → ℕ) :
    ∃ d, s.court.disputes[id]? = some d ∧
      c'.view registered nonces = (s.court.view registered nonces).follow
        ((if verdict = .spurious then [] else s.revocation d) ++ [verdict.event id]) := by
  cases hs with
  | @closeRecord _ i d r hd hun htarget hr hstate fa va =>
    obtain ⟨ht, rfl⟩ := Dispute.of_target_record htarget
    have hview : (s.court.view registered nonces).disputes[id]? = some d.view := by
      dsimp only [Court.view]
      rw [List.getElem?_map, hd]
      rfl
    have hnone : s.revocation d = [] := if_neg fun h => h.1 ht
    have hrecord := Court.view_setRecord hr (recordAfter verdict) registered nonces
    refine ⟨d, hd, ?_⟩
    rw [hnone, ite_self, List.nil_append, View.follow, List.foldl_cons, List.foldl_nil, View.tell_verdict, View.close,
      hview]
    dsimp only
    rw [if_pos (show d.view.targetType = 0 from ht)]
    have hrecords := congrArg View.records hrecord
    dsimp only [Court.view, View.setRecord, Court.recordSet, Dispute.view] at hrecords ⊢
    rw [hrecords, List.map_set]
    rfl
  | @closeLeaf _ b l d bt hd hun htarget hb hstate hl hleaf fa va =>
    obtain ⟨ht, rfl, rfl⟩ := Dispute.of_target_leaf htarget
    have hsome : s.revocation d = [.leafRevoked d.targetIndex d.leafIndex] := if_pos ⟨ht, by rw [hleaf]; simp⟩
    have hbatch : (s.court.batches.map Batch.view)[d.targetIndex]? = some bt.view := by
      rw [List.getElem?_map, hb]
      rfl
    have hdispute : (s.court.disputes.map Dispute.view)[id]? = some d.view := by
      rw [List.getElem?_map, hd]
      rfl
    have hclose : ∀ v : View, v.disputes = s.court.disputes.map Dispute.view → v.tell (verdict.event id) =
        { v with disputes := (s.court.disputes.map Dispute.view).set id { d.view with resolved := true } } := by
      intro v hv
      rw [View.tell_verdict, View.close, hv, hdispute]
      exact if_neg ht
    refine ⟨d, hd, ?_⟩
    rw [View.follow_append, View.follow_singleton]
    cases verdict with
    | spurious =>
      have hkept := Court.leafRevoked_kept (c := s.court) d.targetIndex d.leafIndex .upheld (by rw [hleaf]; rfl)
      rw [if_pos rfl, View.follow_nil, hclose _ rfl]
      have hbatches : (s.court.batches.set d.targetIndex { bt with revokedLeafCount := bt.revokedLeafCount + 0 }).map
          Batch.view = s.court.batches.map Batch.view := map_set_eq hb rfl
      dsimp only [Court.view, Court.setLeaf, leafAfter, revocations] at hkept ⊢
      rw [hkept, hbatches, List.map_set]
      rfl
    | fraud | expired =>
      have hrevoked := Court.leafRevoked_revoked (c := s.court) d.targetIndex d.leafIndex
      rw [if_neg (by simp), hsome, View.follow_singleton, hclose _ rfl]
      dsimp only [Court.view, Court.setLeaf, leafAfter, revocations, View.tell] at hrevoked ⊢
      rw [hrevoked, List.map_set, List.map_set, modify_eq_set hbatch]
      rfl

/-- A verdict on an open dispute is seen in the events of its revocation and of itself, whoever has voted. -/
theorem Court.Inv.view_closed (h : s.court.Inv s.verdicts) (D : Deployment) {id : ℕ} {d d' : Dispute} {relay : Address}
    (hd : s.court.disputes[id]? = some d) (hun : d.resolved = false) (hrelay : targetRelay d s.court = .ok relay)
    (hvotes : ∃ fa va, d' = { d with fraudAttesters := fa, validAttesters := va }) (verdict : Verdict)
    (registered : Address → Bool) (nonces : Bytes32 → ℕ) :
    (s.court.closed id d' relay verdict).view registered nonces = (s.court.view registered nonces).follow
      ((if verdict = .spurious then [] else s.revocation d) ++ [verdict.event id]) := by
  obtain ⟨fa, va, rfl⟩ := hvotes
  have hstep : CourtStep D 0 _ _ _ := h.closed_step hd hun hrelay fa va verdict
  obtain ⟨d', hd', hview⟩ := hstep.view_closed registered nonces
  obtain rfl := Option.some.inj (hd.symm.trans hd')
  exact hview

end Court

/-- What the leaves of a batch leave in the storage is told by their events. -/
def LeavesTold (s t : Storage) : Prop := ∃ nonces events, t = { s with didNonce := nonces, logs := s.logs ++ events } ∧
  s.view.follow events = { s.view with didNonce := nonces }

theorem processLeaves_told {b k : ℕ} {didHashes dataHashes : List Bytes32} {data : List Byte}
    {m : Storage × List Bytes32} (h : processLeaves D env b k didHashes dataHashes data s = .ok m) :
    LeavesTold s m.1 := by
  refine foldlM_invariant (P := fun m => LeavesTold s m.1) (fun m i m' hstep hm => ?_) _ h
    ⟨s.didNonce, [], by simp, rfl⟩
  simp only [bind_eq_ok] at hstep
  obtain ⟨didHash, -, dataHash, -, hstep⟩ := hstep
  obtain ⟨-, -, -, -, rfl⟩ := processLeaf_ok hstep
  obtain ⟨nonces, events, hm, hview⟩ := hm
  refine ⟨Function.update nonces didHash (nonces didHash + 1), events ++ [.batchLeaf b i didHash (nonces didHash + 1)
    dataHash (D.keccak256 ((data.drop (i * falcon512SigSizeMax)).take falcon512SigSizeMax))], ?_, ?_⟩
  · dsimp only [Storage.emit]
    rw [hm, List.append_assoc]
  · rw [View.follow_append, hview, View.follow_singleton]
    rfl

theorem Effect.told (hcourt : s.court.Inv s.verdicts) (hroster : s.roster.Wf) (he : Effect D env s call s') :
    Told s s' := by
  cases he with
  | announceUnstake | stakeVerifier | announceVerifierUnstake => exact ⟨[], (List.append_nil _).symm, rfl⟩
  | stakeRelay | unstakeRelay | unstakeVerifier | joinVerifier => exact ⟨[_], rfl, rfl⟩
  | deregisterVerifier _ hin _ hr =>
    obtain ⟨r', hr', -, hflags⟩ := hroster.deregisterLoop hin
    obtain rfl := Except.ok.inj (hr'.symm.trans hr)
    refine ⟨[_], rfl, ?_⟩
    dsimp only [Storage.view, Storage.emit]
    rw [hflags]
    rfl
  | submitAccountable _ dataHash didHash _ _ _ _ nonce _ r hr =>
    subst hr
    refine ⟨[_], rfl, ?_⟩
    dsimp only [Storage.view, Storage.emit, Court.view]
    rw [List.map_append]
    rfl
  | finalizeRecord _ hr => exact ⟨[_], rfl, Court.view_setRecord hr .confirmed _ _⟩
  | @submitBatch _ _ _ _ _ _ _ _ _ _ m _ hm _ bt hbt =>
    obtain ⟨nonces, events, hms, hview⟩ := processLeaves_told hm
    subst hbt
    have hlogs : m.1.logs = s.logs ++ events := by rw [hms]
    refine ⟨events ++ [_], (congrArg (· ++ [_]) hlogs).trans (List.append_assoc ..), ?_⟩
    rw [View.follow_append, hview, View.follow_singleton]
    dsimp only [Storage.view, Storage.emit, Court.view]
    rw [hms, List.map_append]
    rfl
  | @finalizeBatch _ b bt hb =>
    have hbatch : (s.court.batches.map Batch.view)[b]? = some bt.view := by
      rw [List.getElem?_map, hb]
      rfl
    refine ⟨[_], rfl, ?_⟩
    dsimp only [Storage.view, Storage.emit, Court.view, Court.batchSet]
    rw [List.map_set, View.follow_singleton]
    dsimp only [View.tell]
    rw [modify_eq_set hbatch]
    rfl
  | @openDispute _ i r hr =>
    have hrecords := congrArg View.records (Court.view_setRecord hr .disputed s.roster.isRegisteredVerifier s.didNonce)
    refine ⟨[_], rfl, ?_⟩
    rw [View.follow_singleton]
    dsimp only [Storage.view, Storage.emit, Court.view, Court.opened, Court.recordSet, View.tell, View.setRecord]
      at hrecords ⊢
    rw [if_pos rfl, hrecords, List.map_append]
    rfl
  | @openBatchLeafDispute _ b l _ _ _ _ _ _ _ _ _ hleaf =>
    have hkept : _ = fun b' l' => (s.court.batchLeafState b' l').isRevoked :=
      Court.leafRevoked_kept b l .disputed <| by
      cases hs : s.court.batchLeafState b l with
      | revoked => exact absurd hs hleaf.2
      | undisputed | disputed | upheld => rfl
    refine ⟨[_], rfl, ?_⟩
    rw [View.follow_singleton]
    dsimp only [Storage.view, Storage.emit, Court.view, Court.opened, Court.leafOpened, Court.setLeaf, View.tell]
      at hkept ⊢
    rw [hkept, if_neg one_ne_zero, List.map_append]
    rfl
  | @vote _ id verdict _ signer d _ hvote =>
    obtain ⟨fa, va, e⟩ := Dispute.voted_eq verdict signer d
    refine ⟨[], (List.append_nil _).symm, ?_⟩
    have hkept : (s.court.disputes.set id (d.voted verdict signer)).map Dispute.view =
        s.court.disputes.map Dispute.view :=
      map_set_eq hvote.dispute (by rw [e]; rfl)
    dsimp only [Storage.view, Storage.voted, Court.view]
    rw [hkept]
    rfl
  | @fraud _ id verdict _ signer d relay hvote =>
    obtain ⟨fa, va, e⟩ := d.voted_eq verdict signer
    refine ⟨_, List.append_assoc .., ?_⟩
    dsimp only [Storage.afterFraud, Storage.voted, Storage.view]
    rw [Court.closed_voted, e]
    exact hcourt.view_closed D hvote.dispute hvote.unresolved hvote.endorsed ⟨fa, va, rfl⟩ .fraud _ _
  | @spurious _ id verdict _ signer d relay hvote =>
    refine ⟨_, rfl, ?_⟩
    dsimp only [Storage.afterSpurious, Storage.voted, Storage.view]
    rw [Court.closed_voted]
    exact hcourt.view_closed D hvote.dispute hvote.unresolved hvote.endorsed (d.voted_eq verdict signer) .spurious _ _
  | @expire _ id d relay hexp =>
    exact ⟨_, List.append_assoc .., hcourt.view_closed D hexp.dispute hexp.unresolved hexp.endorsed
      ⟨d.fraudAttesters, d.validAttesters, rfl⟩ .expired _ _⟩

/-! ## Every run -/

namespace View

def relayOf (v : View) (d : DisputeView) : Option Address :=
  if d.targetType = 0 then v.records[d.targetIndex]?.map (·.relay) else v.batches[d.targetIndex]?.map (·.relay)

/-- The number of disputes on targets of the relay `a` that are open. -/
def activeDisputes (v : View) (a : Address) : ℕ :=
  v.disputes.countP fun d => !d.resolved && decide (v.relayOf d = some a)

/-- The number of disputes on leaves of the batch `b` that are open. -/
def openLeafDisputes (v : View) (b : ℕ) : ℕ :=
  v.disputes.countP fun d => !d.resolved && decide (d.targetType ≠ 0 ∧ d.targetIndex = b)

end View

theorem Court.Inv.activeDisputes {c : Court} {verdicts : List (ℕ × Verdict)} (h : c.Inv verdicts)
    (registered : Address → Bool) (nonces : Bytes32 → ℕ) :
    c.relayActiveDisputes = (c.view registered nonces).activeDisputes := by
  funext a
  rw [h.active a, View.activeDisputes, openOn]
  refine Eq.trans ?_ (List.countP_map ..).symm
  refine List.countP_congr fun d _ => ?_
  have hrelay : (c.view registered nonces).relayOf d.view = c.relayOf d.target := by
    simp only [Dispute.view, View.relayOf, Court.view, Dispute.target, List.getElem?_map, Option.map_map]
    split <;> rfl
  rw [Function.comp_apply, hrelay]
  rfl

theorem Court.Inv.openLeafDisputes {c : Court} {verdicts : List (ℕ × Verdict)} (h : c.Inv verdicts)
    (registered : Address → Bool) (nonces : Bytes32 → ℕ) :
    c.batchOpenLeafDisputes = (c.view registered nonces).openLeafDisputes := by
  funext b
  rw [h.open_leaves b, View.openLeafDisputes, openOn]
  refine Eq.trans ?_ (List.countP_map ..).symm
  refine List.countP_congr fun d _ => ?_
  simp only [Function.comp_apply, Dispute.view, Dispute.target]
  split <;> simp_all [Target.batch]

/-- What the events of the storage `s` tell. -/
structure Observed (s : Storage) : Prop where
  view : s.view = View.init.follow s.logs
  /-- The disputes that keep a relay from unstaking are counted by the events. -/
  active : s.court.relayActiveDisputes = (View.init.follow s.logs).activeDisputes
  /-- So are those that keep a batch from being finalized. -/
  open_leaves : s.court.batchOpenLeafDisputes = (View.init.follow s.logs).openLeafDisputes

namespace World

theorem Reachable.followed (hw : w.Reachable D) : w.relay.view = View.init.follow w.relay.logs := by
  refine Reachable.invariant (P := fun w => w.relay.view = View.init.follow w.relay.logs) (fun _ _ => rfl) ?_ hw
  intro w w' hw h hs
  cases hs.change with
  | outside _ hrelay => rwa [hrelay]
  | call he =>
    obtain ⟨events, hlogs, hview⟩ := he.told hw.court hw.roster
    rw [hview, hlogs, View.follow_append, h]
  | withdraw _ _ _ hw' =>
    rw [hw']
    exact h
  | withdrawReturn _ hw' =>
    rw [hw']
    refine Eq.trans h (Eq.trans ?_ (View.follow_append w.relay.logs [_] View.init).symm)
    rfl

end World

/-- **The events determine what they are about, in every run.** -/
theorem events_determine (hw : w.Reachable D) : Observed w.relay where
  view := hw.followed
  active := hw.followed ▸ hw.court.activeDisputes _ _
  open_leaves := hw.followed ▸ hw.court.openLeafDisputes _ _

theorem events_determine_toy : Observed Toy.world.relay := events_determine Toy.world_reachable

namespace Toy

/-- The batch of `filings`, with the leaf `i` under dispute. -/
def leafDisputed (i : ℕ) (nonce : Fin wordSize) (sibling : ℕ) : World :=
  World.after (Deployment.toy 2)
    (filings ++ [.call 9 10 (.openBatchLeafDispute 0 i did nonce did (sigHash i) [leaf sibling])]) (World.init 1000)

end Toy

/-- Two runs with the same events, one with the first leaf under dispute and the other with the second. -/
theorem leaf_untold : ∃ w w' : World, w.Reachable (Deployment.toy 2) ∧ w'.Reachable (Deployment.toy 2) ∧
    w.relay.logs = w'.relay.logs ∧ w.relay.court.batchLeafState 0 0 = .disputed ∧
      w'.relay.court.batchLeafState 0 0 = .undisputed := by
  have hreach : ∀ i nonce sibling, (Toy.leafDisputed i nonce sibling).Reachable (Deployment.toy 2) :=
    fun i nonce sibling => World.after_reachable _ (World.init_reachable (by decide))
  refine ⟨Toy.leafDisputed 0 4 1, Toy.leafDisputed 1 5 0, hreach _ _ _, hreach _ _ _, ?_⟩
  decide +kernel

end PqIotAuth
