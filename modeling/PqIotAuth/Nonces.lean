import PqIotAuth.Binding
import PqIotAuth.Lib.Numbering

/-!
# The nonces of a DID

`submitAccountable` and the leaves of `submitBatch` draw their nonces from one counter for each DID. The events tell
what was filed, in the order of acceptance, so the whole history of nonces is a numbering of the DIDs that have been
submitted for (`nonces_exact`): every DID has had the nonces from 1 to its counter, in that order and each of them
once, whichever path they were drawn on. It follows that no leaf is ever filed twice.
-/

namespace PqIotAuth

open Lib

variable {D : Deployment} {env : Env} {s s' : Storage} {call : Call} {w w' : World} {b : ℕ}

/-! ## What is filed -/

/-- The DIDs that a call submits for, one for each record or leaf. -/
def Call.dids : Call → List Bytes32
  | .submitAccountable _ didHash _ => [didHash]
  | .submitBatch didHashes _ _ => didHashes
  | _ => []

def Action.filedDids : Action → List Bytes32
  | .call _ _ c => c.dids
  | _ => []

/-- The DID and the nonce that an event tells. -/
def Event.filing : Event → Option (Bytes32 × ℕ)
  | .recordSubmitted _ didHash nonce _ _ => some (didHash, nonce)
  | .batchLeaf _ _ didHash nonce _ _ => some (didHash, nonce)
  | _ => none

/-- What an event tells about a record. -/
def Event.record : Event → Option (ℕ × Bytes32 × ℕ × Bytes32 × Address)
  | .recordSubmitted index didHash nonce dataHash relay => some (index, didHash, nonce, dataHash, relay)
  | _ => none

/-- The hash of the leaf that an event tells, and the index of the leaf. -/
def Event.leaf (D : Deployment) : Event → Option (Bytes32 × ℕ)
  | .batchLeaf b i didHash nonce dataHash sigHash => some (leafHash D b didHash nonce dataHash sigHash, i)
  | _ => none

/-- The events of the leaves of the batch `b`. -/
def Event.ofBatch (b : ℕ) : Event → Bool
  | .batchLeaf b' .. => b' = b
  | _ => false

namespace Storage

/-- The DIDs and nonces filed so far, in the order of acceptance. -/
def filings (s : Storage) : List (Bytes32 × ℕ) := s.logs.filterMap Event.filing

/-- The nonces of one DID, in the order of acceptance. -/
def nonces (didHash : Bytes32) (s : Storage) : List ℕ := (s.filings.filter fun p => p.1 = didHash).map Prod.snd

/-- The leaves of one batch, in the order of acceptance, each with its index. -/
def leaves (D : Deployment) (b : ℕ) (s : Storage) : List (Bytes32 × ℕ) :=
  (s.logs.filter (Event.ofBatch b)).filterMap (Event.leaf D)

end Storage

/-! ## What the calls file -/

/-- The event tells a leaf of the batch `b`. -/
def Event.TellsLeaf (b : ℕ) (e : Event) : Prop := ∃ i didHash nonce dataHash sigHash,
  e = .batchLeaf b i didHash nonce dataHash sigHash ∧ nonce < wordSize

/-- What the loop over the leaves of a batch has filed after `j` turns: the next nonces of the DIDs, in order, and the
leaves that it has put into the array. -/
structure LeafEvents (D : Deployment) (b : ℕ) (didHashes : List Bytes32) (s : Storage) (j : ℕ)
    (m : Storage × List Bytes32) (events : List Event) : Prop where
  didNonce : m.1.didNonce = advance s.didNonce (didHashes.take j)
  logs : m.1.logs = s.logs ++ events
  told : ∀ e ∈ events, e.TellsLeaf b
  filings : events.filterMap Event.filing = number s.didNonce (didHashes.take j)
  leaves : events.filterMap (Event.leaf D) = (m.2.take j).zipIdx

theorem processLeaves_events {k j : ℕ} {didHashes dataHashes : List Bytes32} {data : List Byte}
    {m : Storage × List Bytes32}
    (h : (List.range j).foldlM (fun m i => do
      let didHash ← load boundsPanic didHashes i
      let dataHash ← load boundsPanic dataHashes i
      processLeaf D env b i didHash dataHash data m) (s, List.replicate k (Bytes32.ofBytes [])) = .ok m) :
    ∃ events, LeafEvents D b didHashes s j m events := by
  induction j generalizing m with
  | zero =>
    rw [List.range_zero, List.foldlM_nil, pure_eq_ok] at h
    subst h
    exact ⟨[], by simp, by simp, by simp, rfl, by simp⟩
  | succ j ih =>
    rw [List.range_succ, List.foldlM_append, bind_eq_ok] at h
    obtain ⟨m', hm', h⟩ := h
    simp only [List.foldlM_cons, List.foldlM_nil, bind_eq_ok, load_eq_ok, pure_eq_ok] at h
    obtain ⟨_, ⟨didHash, hdid, dataHash, hdata, h⟩, rfl⟩ := h
    obtain ⟨events, hnonces, hlogs, htold, hfilings, hleaves⟩ := ih hm'
    obtain ⟨-, hnonce, hsize, hj, rfl⟩ := processLeaf_ok h
    clear h
    generalize D.keccak256 ((data.drop (j * falcon512SigSizeMax)).take falcon512SigSizeMax) = sigHash
    have htake : didHashes.take (j + 1) = didHashes.take j ++ [didHash] := by
      rw [List.take_succ_eq_append_getElem (List.getElem?_eq_some_iff.1 hdid).1, (List.getElem?_eq_some_iff.1 hdid).2]
    refine ⟨events ++ [.batchLeaf b j didHash (m'.1.didNonce didHash + 1) dataHash sigHash], ?_, ?_, ?_, ?_, ?_⟩
    · dsimp only [Storage.emit]
      rw [htake, advance_append, ← hnonces, advance_singleton]
    · dsimp only [Storage.emit]
      rw [hlogs, List.append_assoc]
    · intro e he
      rcases List.mem_append.1 he with he | he
      · exact htold e he
      · exact ⟨_, _, _, _, _, List.mem_singleton.1 he, hnonce⟩
    · rw [List.filterMap_append, hfilings, htake, number_append, ← hnonces]
      rfl
    · rw [List.filterMap_append, hleaves]
      dsimp only
      rw [List.take_succ_eq_append_getElem (by rwa [List.length_set]), List.zipIdx_append, List.take_set_of_le le_rfl,
        List.getElem_set_self, List.length_take, Nat.min_eq_left hj.le, Nat.zero_add]
      rfl

/-- A call that submits nothing tells of no filing and draws no nonce. -/
theorem Effect.files_nothing (he : Effect D env s call s') (hdids : call.dids = []) :
    s'.didNonce = s.didNonce ∧ ∃ events, s'.logs = s.logs ++ events ∧ ∀ e ∈ events, e.filing = none := by
  have hsingle : ∀ {e : Event}, e.filing = none → ∀ e' ∈ [e], e'.filing = none := by
    intro e he e' he'
    rwa [List.mem_singleton.1 he']
  -- what a revocation tells before the verdict is no filing either
  have hrevocation : ∀ {d : Dispute} {e : Event}, e.filing = none → ∃ events,
      s.logs ++ s.revocation d ++ [e] = s.logs ++ events ∧ ∀ e' ∈ events, e'.filing = none := by
    intro d e he
    refine ⟨s.revocation d ++ [e], List.append_assoc .., fun e' he' => ?_⟩
    rcases List.mem_append.1 he' with he' | he'
    · rw [Storage.mem_revocation he']
      rfl
    · exact hsingle he e' he'
  cases he with
  | submitAccountable => cases hdids
  | submitBatch _ _ _ _ _ hne => exact absurd (congrArg List.length hdids) hne
  | announceUnstake | stakeVerifier | announceVerifierUnstake | vote =>
    exact ⟨rfl, [], (List.append_nil _).symm, nofun⟩
  | fraud | expire => exact ⟨rfl, hrevocation rfl⟩
  | _ => exact ⟨rfl, _, rfl, hsingle rfl⟩

/-- **A call numbers the DIDs that it submits for.** -/
theorem Effect.filings (he : Effect D env s call s') :
    s'.filings = s.filings ++ number s.didNonce call.dids ∧ s'.didNonce = advance s.didNonce call.dids := by
  by_cases hdids : call.dids = []
  · obtain ⟨hnonce, events, hlogs, hnone⟩ := he.files_nothing hdids
    rw [Storage.filings, hlogs, List.filterMap_append, List.filterMap_eq_nil_iff.2 hnone, hdids, hnonce, number,
      advance_nil]
    exact ⟨rfl, rfl⟩
  · cases he with
    | submitAccountable _ dataHash didHash sig _ _ _ nonce hnonce =>
      subst hnonce
      refine ⟨?_, (advance_singleton ..).symm⟩
      dsimp only [Storage.filings, Storage.emit]
      rw [List.filterMap_append]
      rfl
    | submitBatch _ didHashes dataHashes data _ _ _ _ _ _ hm =>
      obtain ⟨events, hnonces, hlogs, -, hfilings, -⟩ := processLeaves_events hm
      rw [List.take_length] at hnonces hfilings
      refine ⟨?_, hnonces⟩
      dsimp only [Storage.filings, Storage.emit]
      rw [List.filterMap_append, hlogs, List.filterMap_append, hfilings]
      exact List.append_nil _
    | _ => exact absurd rfl hdids

/-! ## What the events tell -/

/-- What is told of the record `r`, the one at `i`. -/
def Record.told (i : ℕ) (r : Record) : ℕ × Bytes32 × ℕ × Bytes32 × Address :=
  (i, r.didHash, r.nonce, r.dataHash, r.relay)

theorem Event.no_filing {e : Event} (h : e.filing = none) :
    e.record = none ∧ e.leaf D = none ∧ ∀ b, e.ofBatch b = false := by
  cases e with
  | recordSubmitted | batchLeaf => cases h
  | _ => exact ⟨rfl, rfl, fun _ => rfl⟩

theorem Event.TellsLeaf.ofBatch {e : Event} (h : e.TellsLeaf b) (b' : ℕ) : e.ofBatch b' = decide (b = b') := by
  obtain ⟨_, _, _, _, _, rfl, -⟩ := h
  rfl

/-- The events tell of every record and of every leaf, in the order in which they were filed, and of no others. -/
structure FilingsTold (D : Deployment) (s : Storage) : Prop where
  records : s.logs.filterMap Event.record = s.court.records.zipIdx.map fun p => p.1.told p.2
  /-- The root of a batch is the one of its leaves. -/
  batches : ∀ (b : ℕ) (bt : Batch), s.court.batches[b]? = some bt → ∃ leaves, s.leaves D b = leaves.zipIdx ∧
    leaves.length = bt.leafCount ∧ buildTree D.toEvm leaves = .ok bt.merkleRoot
  absent : ∀ b, s.court.batches.length ≤ b → s.leaves D b = []
  bounded : ∀ e ∈ s.logs, ∀ b, e.ofBatch b → e.TellsLeaf b

theorem FilingsTold.init : FilingsTold D Storage.init where
  records := rfl
  batches := fun b bt h => by simp [Storage.init] at h
  absent := fun _ _ => rfl
  bounded := fun e h => by cases h

/-- Where nothing is filed, what has been filed stays told. -/
theorem FilingsTold.quiet (h : FilingsTold D s) {events : List Event} (hlogs : s'.logs = s.logs ++ events)
    (hnone : ∀ e ∈ events, e.filing = none)
    (hrecords : (s'.court.records.zipIdx.map fun p => p.1.told p.2) = s.court.records.zipIdx.map fun p => p.1.told p.2)
    (hbatches : ∀ (b : ℕ) (bt : Batch), s'.court.batches[b]? = some bt → ∃ bt', s.court.batches[b]? = some bt' ∧
      bt.leafCount = bt'.leafCount ∧ bt.merkleRoot = bt'.merkleRoot)
    (hlength : s.court.batches.length ≤ s'.court.batches.length) : FilingsTold D s' := by
  have hleaves : ∀ b, s'.leaves D b = s.leaves D b := by
    intro b
    have hbatch : events.filter (Event.ofBatch b) = [] := by
      refine List.filter_eq_nil_iff.2 fun e he => ?_
      rw [(Event.no_filing (D := D) (hnone e he)).2.2 b]
      exact Bool.false_ne_true
    rw [Storage.leaves, hlogs, List.filter_append, hbatch, List.append_nil, Storage.leaves]
  constructor
  · have hrecord : events.filterMap Event.record = [] :=
      List.filterMap_eq_nil_iff.2 fun e he => (Event.no_filing (D := D) (hnone e he)).1
    rw [hlogs, List.filterMap_append, hrecord, List.append_nil, h.records, hrecords]
  · intro b bt hb
    obtain ⟨bt', hb', hcount, hroot⟩ := hbatches b bt hb
    rw [hleaves, hcount, hroot]
    exact h.batches b bt' hb'
  · intro b hb
    rw [hleaves]
    exact h.absent b (hlength.trans hb)
  · intro e he b hb
    rw [hlogs] at he
    rcases List.mem_append.1 he with he | he
    · exact h.bounded e he b hb
    · rw [(Event.no_filing (D := D) (hnone e he)).2.2 b] at hb
      cases hb

/-- A call that submits nothing leaves what is told of the filings and what is filed. -/
theorem FilingsTold.nothing (h : FilingsTold D s) (hcourt : s.court.Inv s.verdicts) (he : Effect D env s call s')
    (hdids : call.dids = []) : FilingsTold D s' := by
  obtain ⟨-, events, hlogs, hnone⟩ := he.files_nothing hdids
  obtain ⟨ov, hstep, -⟩ := he.courtStep hcourt
  refine h.quiet hlogs hnone (List.ext_getElem? fun i => ?_) (fun b bt hb => ?_) (Nat.le_of_not_lt fun hlt => ?_)
  · rw [List.getElem?_map, List.getElem?_map, List.getElem?_zipIdx, List.getElem?_zipIdx]
    rcases hr : s.court.records[i]? with _ | r
    · rcases hr' : s'.court.records[i]? with _ | r'
      · rfl
      · obtain ⟨_, _, _, _, rfl, -⟩ := he.new_record hr hr'
        cases hdids
    · obtain ⟨st, hkept, -⟩ := hstep.record hr
      rw [hkept]
      rfl
  · rcases hb' : s.court.batches[b]? with _ | bt'
    · obtain ⟨_, _, _, _, rfl, -⟩ := he.new_batch hb' hb
      cases he with
      | submitBatch _ _ _ _ _ hne => exact absurd (congrArg List.length hdids) hne
    · obtain ⟨st, n, hkept, -⟩ := hstep.batch hb'
      obtain rfl := Option.some.inj (hkept.symm.trans hb)
      exact ⟨bt', rfl, rfl, rfl⟩
  · obtain ⟨st, n, hkept, -⟩ := hstep.batch (List.getElem?_eq_getElem hlt)
    rw [List.getElem?_eq_none le_rfl] at hkept
    cases hkept

/-- A record is told as it is stored. -/
theorem FilingsTold.submitAccountable (h : FilingsTold D s) {dataHash didHash : Bytes32} {sig : List Byte} {nonce : ℕ}
    {r : Record} (hr : r = newRecord D env dataHash didHash sig nonce)
    (hlogs : s'.logs = s.logs ++ [.recordSubmitted s.court.records.length didHash nonce dataHash env.sender])
    (hrecords : s'.court.records = s.court.records ++ [r]) (hbatches : s'.court.batches = s.court.batches) :
    FilingsTold D s' := by
  have hleaves : ∀ b, s'.leaves D b = s.leaves D b := by
    intro b
    rw [Storage.leaves, hlogs, List.filter_append, List.filter_cons_of_neg Bool.false_ne_true, List.filter_nil,
      List.append_nil, Storage.leaves]
  constructor
  · rw [hlogs, List.filterMap_append, h.records, hrecords, List.zipIdx_append, List.map_append, hr]
    simp [Event.record, Record.told, newRecord]
  · intro b bt hb
    rw [hleaves]
    exact h.batches b bt (hbatches ▸ hb)
  · intro b hb
    rw [hleaves]
    exact h.absent b (hbatches ▸ hb)
  · intro e he b hb
    rw [hlogs] at he
    rcases List.mem_append.1 he with he | he
    · exact h.bounded e he b hb
    · rw [List.mem_singleton.1 he] at hb
      cases hb

/-- A batch adds its leaves to those that are told, and its root. -/
theorem FilingsTold.submitBatch (h : FilingsTold D s) {bt : Batch} {events : List Event} {leaves : List Bytes32}
    {e : Event} (htold : ∀ e ∈ events, e.TellsLeaf s.court.batches.length)
    (hleaves : events.filterMap (Event.leaf D) = leaves.zipIdx) (hlength : leaves.length = bt.leafCount)
    (hroot : buildTree D.toEvm leaves = .ok bt.merkleRoot) (he : e.filing = none)
    (hlogs : s'.logs = s.logs ++ events ++ [e]) (hrecords : s'.court.records = s.court.records)
    (hbatches : s'.court.batches = s.court.batches ++ [bt]) : FilingsTold D s' := by
  obtain ⟨hrecord, -, hlast⟩ := Event.no_filing (D := D) he
  have hnone : events.filterMap Event.record = [] := by
    refine List.filterMap_eq_nil_iff.2 fun e he => ?_
    obtain ⟨_, _, _, _, _, rfl, -⟩ := htold e he
    rfl
  -- the events of the leaves are all those of the new batch
  have hnew : ∀ b, s'.leaves D b =
      if b = s.court.batches.length then s.leaves D b ++ leaves.zipIdx else s.leaves D b := by
    intro b
    rw [Storage.leaves, hlogs, List.filter_append, List.filter_append, List.filter_singleton, hlast, cond_false,
      List.append_nil, List.filterMap_append]
    by_cases hb : b = s.court.batches.length
    · have hall : events.filter (Event.ofBatch b) = events :=
        List.filter_eq_self.2 fun e he => by rw [(htold e he).ofBatch, decide_eq_true hb.symm]
      rw [if_pos hb, hall, hleaves, Storage.leaves]
    · have hall : events.filter (Event.ofBatch b) = [] :=
        List.filter_eq_nil_iff.2 fun e he => by rw [(htold e he).ofBatch, decide_eq_true_iff]; exact Ne.symm hb
      rw [if_neg hb, hall, List.filterMap_nil, List.append_nil, Storage.leaves]
  constructor
  · rw [hlogs, List.filterMap_append, List.filterMap_append, hnone, List.append_nil, List.filterMap_cons, hrecord,
      List.filterMap_nil, List.append_nil, h.records, hrecords]
  · intro b bt' hb
    rw [hbatches] at hb
    rw [hnew]
    rcases getElem?_append_singleton.1 hb with ⟨rfl, rfl⟩ | ⟨hlt, hb⟩
    · rw [if_pos rfl, h.absent _ le_rfl, List.nil_append]
      exact ⟨leaves, rfl, hlength, hroot⟩
    · rw [if_neg hlt.ne]
      exact h.batches b bt' hb
  · intro b hb
    rw [hbatches, List.length_append, List.length_singleton] at hb
    rw [hnew, if_neg (by omega)]
    exact h.absent b (by omega)
  · intro e' he' b hb
    rw [hlogs] at he'
    rcases List.mem_append.1 he' with he' | he'
    · rcases List.mem_append.1 he' with he' | he'
      · exact h.bounded e' he' b hb
      · rw [(htold e' he').ofBatch, decide_eq_true_iff] at hb
        exact hb ▸ htold e' he'
    · rw [List.mem_singleton.1 he', hlast b] at hb
      cases hb

theorem FilingsTold.step (h : FilingsTold D s) (hcourt : s.court.Inv s.verdicts) (he : Effect D env s call s') :
    FilingsTold D s' := by
  by_cases hdids : call.dids = []
  · exact h.nothing hcourt he hdids
  · cases he with
    | submitAccountable _ dataHash didHash sig _ _ _ nonce _ r hr =>
      exact h.submitAccountable hr rfl rfl rfl
    | submitBatch _ didHashes dataHashes data _ _ _ _ _ _ hm hroot bt hbt =>
      obtain ⟨events, -, hlogs, htold, -, hleaves⟩ := processLeaves_events hm
      have hlength := (processLeaves_turns hm).1
      rw [List.take_of_length_le hlength.le] at hleaves
      subst hbt
      refine h.submitBatch htold hleaves hlength hroot ?_ (congrArg (fun logs => logs ++ [_]) hlogs) rfl rfl
      rfl
    | _ => exact absurd rfl hdids

/-! ## Every run -/

/-- Leaves with different DIDs or nonces have different hashes. -/
theorem FilingsTold.distinct (h : FilingsTold D s) (hinj : Function.Injective D.keccak256)
    (hcourt : s.court.Inv s.verdicts) (hnodup : s.filings.Nodup) :
    ((s.logs.filterMap (Event.leaf D)).map Prod.fst).Nodup := by
  have hbatch : ∀ e ∈ s.logs, ∀ b, e.ofBatch b → b < wordSize := by
    intro e he b hb
    refine Nat.lt_trans ?_ hcourt.batches_length
    by_contra hle
    obtain ⟨_, _, _, _, _, rfl, -⟩ := h.bounded e he b hb
    have hnone := h.absent b (Nat.le_of_not_lt hle)
    rw [Storage.leaves, List.filterMap_eq_nil_iff] at hnone
    exact absurd (hnone _ (List.mem_filter.2 ⟨he, hb⟩)) (by simp [Event.leaf])
  rw [List.map_filterMap]
  refine List.pairwise_filterMap.2 ((List.pairwise_filterMap.1 hnodup).imp_of_mem ?_)
  intro e e' he he' hne x hx x' hx'
  cases e with
  | batchLeaf b i didHash nonce dataHash sigHash =>
    cases e' with
    | batchLeaf b' i' didHash' nonce' dataHash' sigHash' =>
      obtain rfl := Option.some.inj hx
      obtain rfl := Option.some.inj hx'
      intro hhash
      have hb : Event.ofBatch b (.batchLeaf b i didHash nonce dataHash sigHash) := decide_eq_true rfl
      have hb' : Event.ofBatch b' (.batchLeaf b' i' didHash' nonce' dataHash' sigHash') := decide_eq_true rfl
      obtain ⟨_, _, _, _, _, e, hn⟩ := h.bounded _ he b hb
      cases e
      obtain ⟨_, _, _, _, _, e, hn'⟩ := h.bounded _ he' b' hb'
      cases e
      obtain ⟨-, hdid, hnonce, -⟩ := leafHash_inj hinj (hbatch _ he b hb) (hbatch _ he' b' hb') hn hn' hhash
      exact hne _ rfl _ rfl (by rw [hdid, hnonce])
    | _ => cases hx'
  | _ => cases hx

/-- Without a call nothing is filed. -/
theorem World.step_files_nothing {a : Action} (hs : w.step D a = .ok w')
    (hcall : ∀ sender value c, a ≠ .call sender value c) :
    a.filedDids = [] ∧ w'.relay.didNonce = w.relay.didNonce ∧ w'.relay.court = w.relay.court ∧
      ∃ events, w'.relay.logs = w.relay.logs ++ events ∧ ∀ e ∈ events, e.filing = none := by
  obtain ⟨_, _, events, hrelay, -, hwithdrawn⟩ := World.step_frame hs hcall
  rw [hrelay]
  refine ⟨?_, rfl, rfl, events, rfl, fun e he => ?_⟩
  · cases a with
    | call sender value c => exact absurd rfl (hcall sender value c)
    | _ => rfl
  · obtain ⟨_, _, rfl⟩ := hwithdrawn e he
    rfl

/-- An action numbers the DIDs that it submits for. -/
theorem World.step_filings {a : Action} (hs : w.step D a = .ok w') :
    w'.relay.filings = w.relay.filings ++ number w.relay.didNonce a.filedDids ∧
      w'.relay.didNonce = advance w.relay.didNonce a.filedDids := by
  by_cases hcall : ∀ sender value c, a ≠ .call sender value c
  · obtain ⟨hdids, hnonce, -, events, hlogs, hnone⟩ := World.step_files_nothing hs hcall
    rw [hdids, hnonce, advance_nil, Storage.filings, hlogs, List.filterMap_append, List.filterMap_eq_nil_iff.2 hnone]
    exact ⟨rfl, rfl⟩
  · push Not at hcall
    obtain ⟨sender, value, c, rfl⟩ := hcall
    obtain ⟨t, he, rfl⟩ := World.call_effect hs
    exact he.filings

theorem World.Reachable.filingsTold (hw : w.Reachable D) : FilingsTold D w.relay := by
  refine World.Reachable.invariant (P := fun w => FilingsTold D w.relay) (fun _ _ => .init) ?_ hw
  rintro w w' hw h ⟨a, hs⟩
  by_cases hcall : ∀ sender value c, a ≠ .call sender value c
  · obtain ⟨-, -, hcourt, events, hlogs, hnone⟩ := World.step_files_nothing hs hcall
    exact h.quiet hlogs hnone (by rw [hcourt]) (fun b bt hb => ⟨bt, hcourt ▸ hb, rfl, rfl⟩) (by rw [hcourt])
  · push Not at hcall
    obtain ⟨sender, value, c, rfl⟩ := hcall
    obtain ⟨t, he, rfl⟩ := World.call_effect hs
    exact h.step hw.court he

/-- The counters and the filings when the DIDs `dids` have been submitted for, in this order. -/
structure Filed (dids : List Bytes32) (s : Storage) : Prop where
  filings : s.filings = number (fun _ => 0) dids
  didNonce : s.didNonce = advance (fun _ => 0) dids

theorem Filed.init : Filed [] Storage.init where
  filings := rfl
  didNonce := (advance_nil _).symm

theorem Filed.step {dids : List Bytes32} {a : Action} (h : Filed dids w.relay) (hs : w.step D a = .ok w') :
    Filed (dids ++ a.filedDids) w'.relay := by
  obtain ⟨hfilings, hnonce⟩ := World.step_filings hs
  constructor
  · rw [hfilings, h.filings, h.didNonce, number_append]
  · rw [hnonce, h.didNonce, advance_append]

/-- The DIDs that accepted actions submit for, in the order of acceptance. -/
def filedDids (l : List (World × Action)) : List Bytes32 := l.flatMap fun p => p.2.filedDids

theorem filedDids_concat (l : List (World × Action)) (w : World) (a : Action) :
    filedDids (l ++ [(w, a)]) = filedDids l ++ a.filedDids := by
  rw [filedDids, List.flatMap_append, List.flatMap_singleton, filedDids]

theorem World.attempts_filed {now : ℕ} (hnow : 0 < now) (as : List Action) :
    Filed (filedDids (accepted D as (init now))) (attempts D as (init now)).relay := by
  refine attempts_invariant (P := fun l w => Filed (filedDids l) w.relay) (.start ⟨now, hnow, rfl⟩) Filed.init ?_ as
  intro l w a w' _ h hs
  rw [filedDids_concat]
  exact h.step hs

/-- The nonces of every DID are those from 1 to its counter, each of them once and in this order, and they are the
nonces of the records and leaves that have been accepted. -/
structure NoncesExact (D : Deployment) (dids : List Bytes32) (s : Storage) : Prop where
  sequence : ∀ didHash, s.nonces didHash = List.range' 1 (s.didNonce didHash)
  accepted : s.filings.map Prod.fst = dids
  told : FilingsTold D s
  distinct : Function.Injective D.keccak256 → ((s.logs.filterMap (Event.leaf D)).map Prod.fst).Nodup

/-- **The nonces of a DID have no gap and no repetition, however its records and leaves are mixed.** Attempts that
revert draw none. -/
theorem nonces_exact {now : ℕ} (hnow : 0 < now) (as : List Action) :
    NoncesExact D (filedDids (World.accepted D as (World.init now))) (World.attempts D as (World.init now)).relay := by
  have h := World.attempts_filed (D := D) hnow as
  have hw := World.attempts_reachable (D := D) hnow as
  constructor
  · intro didHash
    rw [Storage.nonces, h.filings, numbers_of, h.didNonce, advance, Nat.zero_add, Nat.zero_add]
  · rw [h.filings, map_fst_number]
  · exact hw.filingsTold
  · intro hinj
    exact hw.filingsTold.distinct hinj hw.court (h.filings ▸ nodup_number _ _)

/-- A batch whose second leaf has an unknown DID fails between two records that are accepted. -/
def Toy.interrupted : List Action := Toy.filings ++ [
  .call 2 0 (.submitBatch [Toy.did, Toy.leaf 0] [Toy.did, Toy.did] Toy.availability),
  .call 2 0 (.submitAccountable Toy.did Toy.did [4])]

theorem nonces_exact_toy :
    (World.attempts (Deployment.toy 2) Toy.interrupted (World.init 1000)).relay.nonces Toy.did = [1, 2, 3, 4, 5, 6] ∧
      NoncesExact (Deployment.toy 2) (List.replicate 6 Toy.did)
        (World.attempts (Deployment.toy 2) Toy.interrupted (World.init 1000)).relay := by
  have hdids : filedDids (World.accepted (Deployment.toy 2) Toy.interrupted (World.init 1000)) =
      List.replicate 6 Toy.did := by decide +kernel
  have h := nonces_exact (D := Deployment.toy 2) (show 0 < 1000 by decide) Toy.interrupted
  rw [hdids] at h
  exact ⟨by decide +kernel, h⟩

end PqIotAuth
