import PqIotAuth.Relay.Court

/-!
# The books of the court

Every step on the records, batches, disputes and counters is a step of the abstract docket (`CourtStep.docket`), so the
docket of every run is well formed, and the counters stay the numbers they stand for (`Court.Inv.step`). A successful
call makes such a step (`Effect.courtStep`), and its verdict, if it gives one, is told by its events.
-/

namespace PqIotAuth

open Lib

variable {D : Deployment} {now : ℕ} {c c' : Court} {vs : List (ℕ × Verdict)} {ov : Option (ℕ × Verdict)}

/-! ## What the docket says about the court -/

theorem Court.docket_case {id : ℕ} {t : Target} {b : Bool} :
    (c.docket vs).cases[id]? = some (t, b) ↔ ∃ d, c.disputes[id]? = some d ∧ d.target = t ∧ d.resolved = b := by
  simp [Court.docket, List.getElem?_map]

theorem recordAfter_phase (v : Verdict) : (recordAfter v).phase = v.phase := by cases v <;> rfl

theorem leafAfter_phase (v : Verdict) : (leafAfter v).phase .provisional = v.phase := by cases v <;> rfl

theorem RecordState.phase_eq_disputed {s : RecordState} : s.phase = .disputed ↔ s = .disputed := by
  cases s <;> simp [RecordState.phase]

theorem LeafState.phase_eq_disputed {s : RecordState} {l : LeafState} : l.phase s = .disputed ↔ l = .disputed := by
  cases l <;> cases s <;> simp [LeafState.phase]

namespace Court.Inv

/-- The target of a dispute that is not resolved is under dispute. -/
theorem disputed (h : c.Inv vs) {id : ℕ} {d : Dispute} (hd : c.disputes[id]? = some d) (hun : d.resolved = false) :
    c.phase d.target = .disputed :=
  h.docket.disputed_of_open (docket_case.2 ⟨d, hd, rfl, hun⟩)

theorem record_disputed (h : c.Inv vs) {id i : ℕ} {d : Dispute} (hd : c.disputes[id]? = some d)
    (hun : d.resolved = false) (ht : d.target = .record i) :
    ∃ r, c.records[i]? = some r ∧ r.state = .disputed := by
  have hp := h.disputed hd hun
  rw [ht] at hp
  obtain ⟨r, hr⟩ := record_of_phase (c := c) (i := i) (by rw [hp]; simp)
  rw [phase_record hr, RecordState.phase_eq_disputed] at hp
  exact ⟨r, hr, hp⟩

theorem leaf_disputed (h : c.Inv vs) {id b l : ℕ} {d : Dispute} (hd : c.disputes[id]? = some d)
    (hun : d.resolved = false) (ht : d.target = .leaf b l) :
    ∃ bt, c.batches[b]? = some bt ∧ bt.state = .provisional ∧ l < bt.leafCount ∧
      c.batchLeafState b l = .disputed := by
  have hp := h.disputed hd hun
  rw [ht] at hp
  obtain ⟨bt, hb, hl⟩ := leaf_of_phase (c := c) (b := b) (l := l) (by rw [hp]; simp)
  rw [phase_leaf hb hl, LeafState.phase_eq_disputed] at hp
  refine ⟨bt, hb, ?_, hl, hp⟩
  rcases h.batch_state b bt hb with hs | hs
  · exact hs
  · exact absurd hp (h.quiet b bt hb hs l)

/-- Without open leaf disputes no leaf of a batch is under dispute. -/
theorem no_leaf_disputed (h : c.Inv vs) {b : ℕ} (hopen : c.batchOpenLeafDisputes b = 0) (l : ℕ) :
    c.batchLeafState b l ≠ .disputed := by
  intro hl
  obtain ⟨bt, hb, hlt⟩ := h.range b l (by rw [hl]; simp)
  have hp : (c.docket vs).phase (.leaf b l) = .disputed := by
    rw [← LeafState.phase_eq_disputed (s := bt.state)] at hl
    rw [← hl]
    exact phase_leaf hb hlt
  obtain ⟨id, hid⟩ := h.docket.open_of_disputed hp
  obtain ⟨d, hd, ht, hun⟩ := docket_case.1 hid
  have hpos : 0 < openOn (fun t => t.batch = some b) c.disputes :=
    countP_pos_of_getElem? hd (by simp [hun, ht, Target.batch])
  rw [← h.open_leaves b] at hpos
  omega

end Court.Inv

/-! ## The simulation -/

/-- A new record is a new target. -/
theorem Court.phase_submitRecord {r : Record} (hr : r.state = .provisional) (t : Target) :
    ({ c with records := c.records ++ [r] } : Court).phase t = c.phase t ∨
      c.phase t = .absent ∧ ({ c with records := c.records ++ [r] } : Court).phase t = .undecided := by
  cases t with
  | leaf b l => exact .inl rfl
  | record i =>
    simp only [Court.phase]
    rcases Nat.lt_trichotomy i c.records.length with hi | rfl | hi
    · rw [List.getElem?_append_left hi]
      exact .inl rfl
    · refine .inr ⟨by simp, ?_⟩
      simp [hr, RecordState.phase]
    · rw [List.getElem?_eq_none (by simp; omega), List.getElem?_eq_none (by omega)]
      exact .inl rfl

/-- The leaves of a new batch are new targets. -/
theorem Court.Inv.phase_submitBatch (h : c.Inv vs) {bt : Batch} (hb : bt.state = .provisional) (t : Target) :
    ({ c with batches := c.batches ++ [bt] } : Court).phase t = c.phase t ∨
      c.phase t = .absent ∧ ({ c with batches := c.batches ++ [bt] } : Court).phase t = .undecided := by
  cases t with
  | record i => exact .inl rfl
  | leaf b l =>
    simp only [Court.phase]
    rcases Nat.lt_trichotomy b c.batches.length with hlt | rfl | hlt
    · rw [List.getElem?_append_left hlt]
      exact .inl rfl
    · -- a leaf of the new batch, which nothing has touched
      have hnew : c.batchLeafState c.batches.length l = .undisputed := by
        by_contra hne
        obtain ⟨bt', hb', -⟩ := h.range _ l hne
        simp at hb'
      by_cases hl : l < bt.leafCount
      · exact .inr ⟨by simp, by simp [hl, hnew, hb, LeafState.phase]⟩
      · exact .inl (by simp [hl])
    · rw [List.getElem?_eq_none (by simp; omega), List.getElem?_eq_none (by omega)]
      exact .inl rfl

/-- The state of a record written. -/
theorem Court.phase_recordState {i : ℕ} {r : Record} (hr : c.records[i]? = some r) (st : RecordState) :
    (c.recordSet i { r with state := st }).phase = Function.update c.phase (.record i) st.phase := by
  refine Court.phase_recordSet { r with state := st } hr ?_ ?_ ?_ <;> rfl

theorem Court.phase_leafOpened {b l : ℕ} {bt : Batch} (hb : c.batches[b]? = some bt) (hl : l < bt.leafCount) :
    (c.leafOpened b l).phase = Function.update c.phase (.leaf b l) .disputed := by
  refine Court.phase_leafSet bt .disputed hb hl rfl ?_ rfl rfl rfl
  exact (set_self hb).symm

/-- A dispute filed changes no phase. -/
@[simp] theorem Court.phase_opened (relay : Address) (d : Dispute) : (c.opened relay d).phase = c.phase :=
  Court.phase_congr rfl rfl rfl

theorem Court.phase_votesSet (ds : List Dispute) : ({ c with disputes := ds } : Court).phase = c.phase :=
  Court.phase_congr rfl rfl rfl

/-- A batch confirmed confirms its undecided leaves. -/
theorem Court.Inv.phase_confirmBatch (h : c.Inv vs) {b : ℕ} {bt : Batch} (hb : c.batches[b]? = some bt)
    (hstate : bt.state = .provisional) (hopen : c.batchOpenLeafDisputes b = 0) (t : Target) :
    (c.batchSet b { bt with state := .confirmed }).phase t =
      if t.batch = some b ∧ c.phase t = .undecided then .confirmed else c.phase t := by
  cases t with
  | record i => rfl
  | leaf b' l =>
    by_cases hb' : b' = b
    · subst hb'
      have hlt := (List.getElem?_eq_some_iff.1 hb).1
      have hquiet := h.no_leaf_disputed hopen l
      simp only [Court.phase, Court.batchSet, List.getElem?_set_self hlt, hb, Target.batch, true_and]
      by_cases hl : l < bt.leafCount
      · simp only [hl, if_true, hstate]
        cases hls : c.batchLeafState b' l with
        | undisputed | upheld | revoked => rfl
        | disputed => exact absurd hls hquiet
      · simp only [hl, if_false]
        rfl
    · simp only [Court.phase, Court.batchSet, List.getElem?_set_ne (Ne.symm hb'), Target.batch, Option.some.injEq, hb',
        false_and, if_false]

/-- **A step of the court is a step of the docket.** -/
theorem CourtStep.docket (h : c.Inv vs) (hs : CourtStep D now c c' ov) :
    (c.docket vs).Step (c'.docket (vs ++ ov.toList)) := by
  cases hs with
  | idle =>
    rw [Option.toList_none, List.append_nil]
    exact .idle _
  | submitRecord hr =>
    rw [Option.toList_none, List.append_nil]
    exact .file fun t => Court.phase_submitRecord hr t
  | submitBatch hb =>
    rw [Option.toList_none, List.append_nil]
    exact .file fun t => h.phase_submitBatch hb t
  | @finalizeRecord i r hr hstate hwindow =>
    rw [Option.toList_none, List.append_nil]
    refine .confirm fun t => ?_
    simp only [Court.docket, Court.phase_recordState hr]
    by_cases ht : t = .record i
    · subst ht
      rw [Function.update_self, Court.phase_record hr, hstate]
      exact .inr ⟨rfl, rfl⟩
    · rw [Function.update_of_ne ht]
      exact .inl rfl
  | @finalizeBatch b bt hb hstate hwindow hopen =>
    rw [Option.toList_none, List.append_nil]
    refine .confirm fun t => ?_
    simp only [Court.docket, h.phase_confirmBatch hb hstate hopen]
    split
    · rename_i ht
      exact .inr ⟨ht.2, rfl⟩
    · exact .inl rfl
  | @openRecord i r d hr hstate htype hleaf htarget hd hlen =>
    rw [Option.toList_none, List.append_nil]
    have hstep := Docket.Step.openCase (d := c.docket vs) (t := .record i)
      (by simp only [Court.docket, Court.phase_record hr, hstate, RecordState.phase])
    convert hstep using 1
    simp only [Court.docket, Court.phase_opened, Court.phase_recordState hr, Docket.mk.injEq, and_true]
    simp [Court.opened, Court.recordSet, htarget, hd, RecordState.phase]
  | @openLeaf b l bt d hb hstate hl hleaf htype htarget hd hlen =>
    rw [Option.toList_none, List.append_nil]
    have hopen : (c.docket vs).phase (.leaf b l) = .undecided := by
      simp only [Court.docket, Court.phase_leaf hb hl, hstate]
      cases hls : c.batchLeafState b l with
      | undisputed | upheld => rfl
      | disputed => exact absurd hls hleaf.1
      | revoked => exact absurd hls hleaf.2
    convert Docket.Step.openCase hopen using 1
    simp only [Court.docket, Court.phase_opened, Court.phase_leafOpened hb hl, Docket.mk.injEq, true_and, and_true]
    simp [Court.opened, Court.leafOpened, Court.setLeaf, htarget, hd]
  | @vote id d hd hun fa va =>
    rw [Option.toList_none, List.append_nil]
    have hsame : ({ c with disputes := c.disputes.set id { d with fraudAttesters := fa, validAttesters := va } } :
        Court).docket vs = c.docket vs := by
      simp only [Court.docket, Docket.mk.injEq, and_true]
      exact ⟨Court.phase_votesSet _, map_set_eq hd rfl⟩
    rw [hsame]
    exact .idle _
  | @closeRecord id i d r hd hun htarget hr hstate fa va v =>
    rw [Option.toList_some]
    convert Docket.Step.close (d := c.docket vs) (Court.docket_case.2 ⟨d, hd, htarget, hun⟩) v using 1
    simp only [Court.docket, Docket.mk.injEq, and_true]
    refine ⟨?_, ?_⟩
    · rw [← recordAfter_phase]
      refine Court.phase_recordSet { r with state := recordAfter v } hr ?_ ?_ ?_ <;> rfl
    · rw [List.map_set, ← htarget]
      rfl
  | @closeLeaf id b l d bt hd hun htarget hb hstate hl hleaf fa va v =>
    rw [Option.toList_some]
    convert Docket.Step.close (d := c.docket vs) (Court.docket_case.2 ⟨d, hd, htarget, hun⟩) v using 1
    simp only [Court.docket, Docket.mk.injEq, and_true]
    refine ⟨?_, ?_⟩
    · rw [← leafAfter_phase, ← hstate]
      refine Court.phase_leafSet { bt with revokedLeafCount := bt.revokedLeafCount + revocations v } (leafAfter v) hb hl
        ?_ ?_ ?_ ?_ ?_ <;> rfl
    · rw [List.map_set, ← htarget]
      rfl

/-! ## The counters -/

section Counters

variable {q : Target → Bool} {ds : List Dispute}

theorem openOn_congr {p : Target → Bool} (h : ∀ d ∈ ds, q d.target = p d.target) : openOn q ds = openOn p ds :=
  List.countP_congr fun d hd => by rw [h d hd]

theorem openOn_append {d : Dispute} (hd : d.resolved = false) :
    openOn q (ds ++ [d]) = openOn q ds + if q d.target then 1 else 0 := by
  simp [openOn, List.countP_append, List.countP_singleton, hd]

theorem openOn_vote {id : ℕ} {d : Dispute} (hd : ds[id]? = some d) (fa va : List Address) :
    openOn q (ds.set id { d with fraudAttesters := fa, validAttesters := va }) = openOn q ds :=
  Nat.add_right_cancel (countP_set _ hd _)

theorem openOn_close {id : ℕ} {d : Dispute} (hd : ds[id]? = some d) (hun : d.resolved = false)
    (fa va : List Address) :
    openOn q (ds.set id (d.close fa va)) + (if q d.target then 1 else 0) = openOn q ds := by
  have := countP_set (fun d => !d.resolved && q d.target) hd (d.close fa va)
  simpa [openOn, hun, Dispute.close] using this

end Counters

theorem Court.Inv.relay_of_dispute (h : c.Inv vs) {d : Dispute} (hd : d ∈ c.disputes) :
    ∃ a, c.relayOf d.target = some a := by
  obtain ⟨id, hid⟩ := List.mem_iff_getElem?.1 hd
  have hfiled : c.phase d.target ≠ .absent := h.docket.filed (Court.docket_case.2 ⟨d, hid, rfl, rfl⟩)
  cases ht : d.target with
  | record i =>
    rw [ht] at hfiled
    obtain ⟨r, hr⟩ := Court.record_of_phase hfiled
    exact ⟨r.relay, by simp [Court.relayOf, hr]⟩
  | leaf b l =>
    rw [ht] at hfiled
    obtain ⟨bt, hb, -⟩ := Court.leaf_of_phase hfiled
    exact ⟨bt.relay, by simp [Court.relayOf, hb]⟩

/-- A record stays where it is, and only its state changes, by one of the moves of its lifecycle. -/
theorem CourtStep.record (hs : CourtStep D now c c' ov) {i : ℕ} {r : Record} (hr : c.records[i]? = some r) :
    ∃ st, c'.records[i]? = some { r with state := st } ∧ RecordMove D now r st := by
  -- a write at one index, which only changes the state there
  have hset : ∀ {j : ℕ} {x : Record} {st : RecordState}, c.records[j]? = some x → RecordMove D now x st →
      ∃ st', (c.records.set j { x with state := st })[i]? = some { r with state := st' } ∧ RecordMove D now r st' := by
    intro j x st hx hmove
    by_cases hij : i = j
    · subst hij
      obtain rfl := Option.some.inj (hx.symm.trans hr)
      exact ⟨st, (getElem?_set_some hr).2 (.inl ⟨rfl, rfl⟩), hmove⟩
    · exact ⟨r.state, (getElem?_set_some hx).2 (.inr ⟨hij, hr⟩), .stay⟩
  cases hs with
  | submitRecord =>
    exact ⟨r.state, getElem?_append_singleton.2 (.inr ⟨(List.getElem?_eq_some_iff.1 hr).1, hr⟩), .stay⟩
  | finalizeRecord hx hstate hwindow => exact hset hx (.confirm hstate hwindow)
  | openRecord hx hstate => exact hset hx (.dispute hstate)
  | closeRecord _ _ _ hx hstate _ _ v =>
    refine hset hx ?_
    cases v with
    | spurious => exact .uphold hstate
    | fraud | expired => exact .revoke hstate
  | idle | submitBatch | finalizeBatch | openLeaf | vote | closeLeaf => exact ⟨r.state, hr, .stay⟩

theorem CourtStep.new_record (hs : CourtStep D now c c' ov) {i : ℕ} {r : Record} (hnone : c.records[i]? = none)
    (hr : c'.records[i]? = some r) : r.state = .provisional := by
  have hset : ∀ {j : ℕ} {x y : Record}, c.records[j]? = some x → (c.records.set j y)[i]? ≠ some r := by
    intro j x y hx hi
    rcases (getElem?_set_some hx).1 hi with ⟨rfl, -⟩ | ⟨-, hi⟩
    · rw [hnone] at hx
      cases hx
    · rw [hnone] at hi
      cases hi
  cases hs with
  | submitRecord hst =>
    rcases getElem?_append_singleton.1 hr with ⟨-, rfl⟩ | ⟨-, hr⟩
    · exact hst
    · rw [hnone] at hr
      cases hr
  | finalizeRecord hx | openRecord hx | closeRecord _ _ _ hx => exact absurd hr (hset hx)
  | idle | submitBatch | finalizeBatch | openLeaf | vote | closeLeaf =>
    have := hnone.symm.trans hr
    cases this

/-- A batch stays where it is, and only its state and its number of revoked leaves change. -/
theorem CourtStep.batch (hs : CourtStep D now c c' ov) {b : ℕ} {bt : Batch} (hb : c.batches[b]? = some bt) :
    ∃ st n, c'.batches[b]? = some { bt with state := st, revokedLeafCount := n } ∧ BatchMove D now bt st := by
  have hset : ∀ {j : ℕ} {x : Batch} (st : RecordState) (n : ℕ), c.batches[j]? = some x → BatchMove D now x st →
      ∃ st' n', (c.batches.set j { x with state := st, revokedLeafCount := n })[b]? =
        some { bt with state := st', revokedLeafCount := n' } ∧ BatchMove D now bt st' := by
    intro j x st n hx hmove
    by_cases hij : b = j
    · subst hij
      obtain rfl := Option.some.inj (hx.symm.trans hb)
      exact ⟨st, n, (getElem?_set_some hb).2 (.inl ⟨rfl, rfl⟩), hmove⟩
    · exact ⟨bt.state, bt.revokedLeafCount, (getElem?_set_some hx).2 (.inr ⟨hij, hb⟩), .stay⟩
  cases hs with
  | submitBatch =>
    exact ⟨bt.state, bt.revokedLeafCount,
      getElem?_append_singleton.2 (.inr ⟨(List.getElem?_eq_some_iff.1 hb).1, hb⟩), .stay⟩
  | @finalizeBatch _ x hx hstate hwindow => exact hset _ x.revokedLeafCount hx (.confirm hstate hwindow)
  | @closeLeaf _ _ _ _ x _ _ _ hx => exact hset x.state _ hx .stay
  | idle | submitRecord | finalizeRecord | openRecord | openLeaf | vote | closeRecord =>
    exact ⟨bt.state, bt.revokedLeafCount, hb, .stay⟩

/-- The state of a leaf changes by one of the moves of its lifecycle, and not when its batch is confirmed. -/
theorem CourtStep.leaf (hs : CourtStep D now c c' ov) (b l : ℕ) :
    LeafMove (c.batchLeafState b l) (c'.batchLeafState b l) ∧
      ∀ bt, c.batches[b]? = some bt → bt.state = .confirmed → c'.batchLeafState b l = c.batchLeafState b l := by
  have hset : ∀ {b' l' : ℕ} {x : Batch} {st : LeafState}, c.batches[b']? = some x → x.state = .provisional →
      LeafMove (c.batchLeafState b' l') st →
      LeafMove (c.batchLeafState b l) ((c.setLeaf b' l' st).batchLeafState b l) ∧
        ∀ bt, c.batches[b]? = some bt → bt.state = .confirmed →
          (c.setLeaf b' l' st).batchLeafState b l = c.batchLeafState b l := by
    intro b' l' x st hx hstate hmove
    rw [Court.setLeaf_apply]
    split
    · rename_i e
      obtain ⟨rfl, rfl⟩ := e
      refine ⟨hmove, fun bt hb hbt => ?_⟩
      obtain rfl := Option.some.inj (hx.symm.trans hb)
      simp [hstate] at hbt
    · exact ⟨.stay, fun _ _ _ => rfl⟩
  cases hs with
  | @openLeaf b' l' x d hx hstate hl hleaf => exact hset hx hstate (.dispute hleaf.1 hleaf.2)
  | closeLeaf _ _ _ hx hstate hl hleaf _ _ v =>
    refine hset hx hstate ?_
    cases v with
    | spurious => exact .uphold hleaf
    | fraud | expired => exact .revoke hleaf
  | idle | submitRecord | submitBatch | finalizeRecord | finalizeBatch | openRecord | vote | closeRecord =>
    exact ⟨.stay, fun _ _ _ => rfl⟩

/-- Who endorsed a target never changes. -/
theorem CourtStep.relayOf (hs : CourtStep D now c c' ov) {t : Target} {a : Address} (ht : c.relayOf t = some a) :
    c'.relayOf t = some a := by
  cases t with
  | record i =>
    obtain ⟨r, hr, rfl⟩ := Option.map_eq_some_iff.1 ht
    obtain ⟨st, hr', -⟩ := hs.record hr
    exact Option.map_eq_some_iff.2 ⟨_, hr', rfl⟩
  | leaf b l =>
    obtain ⟨bt, hb, rfl⟩ := Option.map_eq_some_iff.1 ht
    obtain ⟨st, n, hb', -⟩ := hs.batch hb
    exact Option.map_eq_some_iff.2 ⟨_, hb', rfl⟩

/-- How a step changes the list of disputes, and the counters with it. -/
inductive DisputesChange (c c' : Court) : Prop
  | same (hds : c'.disputes = c.disputes) (hactive : c'.relayActiveDisputes = c.relayActiveDisputes)
      (hopen : c'.batchOpenLeafDisputes = c.batchOpenLeafDisputes)
  | voted {id : ℕ} {d : Dispute} {fa va : List Address} (hd : c.disputes[id]? = some d) (hun : d.resolved = false)
      (hds : c'.disputes = c.disputes.set id { d with fraudAttesters := fa, validAttesters := va })
      (hactive : c'.relayActiveDisputes = c.relayActiveDisputes)
      (hopen : c'.batchOpenLeafDisputes = c.batchOpenLeafDisputes)
  | opened {d : Dispute} (hun : d.resolved = false) (hlen : c.disputes.length + 1 < wordSize)
      (hkind : d.targetType = 0 ∧ d.leafIndex = 0 ∨ d.targetType = 1) {relay : Address}
      (hrel : c.relayOf d.target = some relay) (hds : c'.disputes = c.disputes ++ [d])
      (hactive : ∀ a, c'.relayActiveDisputes a =
        c.relayActiveDisputes a + if c.relayOf d.target = some a then 1 else 0)
      (hopen : ∀ b, c'.batchOpenLeafDisputes b =
        c.batchOpenLeafDisputes b + if d.target.batch = some b then 1 else 0)
  | closed {id : ℕ} {d : Dispute} {fa va : List Address} (hd : c.disputes[id]? = some d) (hun : d.resolved = false)
      (hds : c'.disputes = c.disputes.set id (d.close fa va))
      (hactive : ∀ a, c'.relayActiveDisputes a =
        c.relayActiveDisputes a - if c.relayOf d.target = some a then 1 else 0)
      (hopen : ∀ b, c'.batchOpenLeafDisputes b =
        c.batchOpenLeafDisputes b - if d.target.batch = some b then 1 else 0)

/-- A counter raised at the one key that is `some b`. -/
theorem update_succ {α : Type} [DecidableEq α] (f : α → ℕ) {o : Option α} {b : α} (ho : o = some b) (a : α) :
    Function.update f b (f b + 1) a = f a + if o = some a then 1 else 0 := by
  subst ho
  by_cases ha : a = b
  · subst ha
    simp
  · simp [ha, Ne.symm ha]

theorem update_pred {α : Type} [DecidableEq α] (f : α → ℕ) {o : Option α} {b : α} (ho : o = some b) (a : α) :
    Function.update f b (f b - 1) a = f a - if o = some a then 1 else 0 := by
  subst ho
  by_cases ha : a = b
  · subst ha
    simp
  · simp [ha, Ne.symm ha]

theorem CourtStep.disputes (hs : CourtStep D now c c' ov) : DisputesChange c c' := by
  cases hs with
  | idle | submitRecord | submitBatch | finalizeRecord | finalizeBatch => exact .same rfl rfl rfl
  | vote hd hun => exact .voted hd hun rfl rfl rfl
  | @openRecord i r d hr _ htype hleaf htarget hd hlen =>
    have hrel : c.relayOf d.target = some r.relay := by simp [htarget, Court.relayOf, hr]
    exact .opened hd hlen (.inl ⟨htype, hleaf⟩) hrel rfl (update_succ _ hrel)
      fun b => by simp [htarget, Target.batch, Court.opened, Court.recordSet]
  | @openLeaf b l bt d hb _ _ _ htype htarget hd hlen =>
    have hrel : c.relayOf d.target = some bt.relay := by simp [htarget, Court.relayOf, hb]
    have hbatch : d.target.batch = some b := by rw [htarget]; rfl
    exact .opened hd hlen (.inr htype) hrel rfl (update_succ _ hrel) (update_succ _ hbatch)
  | @closeRecord id i d r hd hun htarget hr =>
    have hrel : c.relayOf d.target = some r.relay := by simp [htarget, Court.relayOf, hr]
    exact .closed hd hun rfl (update_pred _ hrel) fun b => by simp [htarget, Target.batch]
  | @closeLeaf id b l d bt hd hun htarget hb =>
    have hrel : c.relayOf d.target = some bt.relay := by simp [htarget, Court.relayOf, hb]
    have hbatch : d.target.batch = some b := by rw [htarget]; rfl
    exact .closed hd hun rfl (update_pred _ hrel) (update_pred _ hbatch)

/-- The target of every dispute of the new court had its relay before the step. -/
theorem Court.Inv.relay_of_new_dispute (h : c.Inv vs) (hs : CourtStep D now c c' ov) {d : Dispute}
    (hd : d ∈ c'.disputes) : ∃ a, c.relayOf d.target = some a := by
  cases hs.disputes with
  | same hds => exact h.relay_of_dispute (hds ▸ hd)
  | @opened x _ _ _ relay hrel hds =>
    rw [hds, List.mem_append, List.mem_singleton] at hd
    rcases hd with hd | rfl
    · exact h.relay_of_dispute hd
    · exact ⟨relay, hrel⟩
  | @voted id x fa va hx _ hds | @closed id x fa va hx _ hds =>
    rcases List.mem_or_eq_of_mem_set (hds ▸ hd) with hd | rfl
    · exact h.relay_of_dispute hd
    · exact h.relay_of_dispute (d := x) (List.mem_of_getElem? hx)

/-- The open disputes and both counters move together: not at all, or up or down by the one dispute on `t`. -/
theorem DisputesChange.counts (h : DisputesChange c c') :
    ((∀ q, openOn q c'.disputes = openOn q c.disputes) ∧ c'.relayActiveDisputes = c.relayActiveDisputes ∧
      c'.batchOpenLeafDisputes = c.batchOpenLeafDisputes) ∨
    (∃ t : Target, (∀ q, openOn q c'.disputes = openOn q c.disputes + if q t then 1 else 0) ∧
      (∀ a, c'.relayActiveDisputes a = c.relayActiveDisputes a + if c.relayOf t = some a then 1 else 0) ∧
      ∀ b, c'.batchOpenLeafDisputes b = c.batchOpenLeafDisputes b + if t.batch = some b then 1 else 0) ∨
    ∃ t : Target, (∀ q, openOn q c'.disputes + (if q t then 1 else 0) = openOn q c.disputes) ∧
      (∀ a, c'.relayActiveDisputes a = c.relayActiveDisputes a - if c.relayOf t = some a then 1 else 0) ∧
      ∀ b, c'.batchOpenLeafDisputes b = c.batchOpenLeafDisputes b - if t.batch = some b then 1 else 0 := by
  cases h with
  | same hds hactive hopen => exact .inl ⟨fun q => by rw [hds], hactive, hopen⟩
  | voted hd _ hds hactive hopen => exact .inl ⟨fun q => by rw [hds, openOn_vote hd], hactive, hopen⟩
  | @opened d hun _ _ relay _ hds hactive hopen =>
    exact .inr (.inl ⟨d.target, fun q => by rw [hds, openOn_append hun], hactive, hopen⟩)
  | @closed id d fa va hd hun hds hactive hopen =>
    exact .inr (.inr ⟨d.target, fun q => by rw [hds, openOn_close hd hun], hactive, hopen⟩)

namespace Court.Inv

theorem step_active (h : c.Inv vs) (hs : CourtStep D now c c' ov) (a : Address) :
    c'.relayActiveDisputes a = openOn (fun t => c'.relayOf t = some a) c'.disputes := by
  have hold := h.active a
  have hnew : ∀ d ∈ c'.disputes, decide (c'.relayOf d.target = some a) = decide (c.relayOf d.target = some a) := by
    intro d hd
    obtain ⟨b, hb⟩ := h.relay_of_new_dispute hs hd
    rw [hs.relayOf hb, hb]
  rw [openOn_congr (p := fun t => c.relayOf t = some a) hnew]
  rcases hs.disputes.counts with ⟨hq, hactive, -⟩ | ⟨t, hq, hactive, -⟩ | ⟨t, hq, hactive, -⟩
  · rw [hactive, hq, hold]
  · rw [hactive, hq, hold]
    simp
  · have := hq fun t => c.relayOf t = some a
    rw [hactive, hold, ← this]
    simp

theorem step_open_leaves (h : c.Inv vs) (hs : CourtStep D now c c' ov) (b : ℕ) :
    c'.batchOpenLeafDisputes b = openOn (fun t => t.batch = some b) c'.disputes := by
  have hold := h.open_leaves b
  rcases hs.disputes.counts with ⟨hq, -, hopen⟩ | ⟨t, hq, -, hopen⟩ | ⟨t, hq, -, hopen⟩
  · rw [hopen, hq, hold]
  · rw [hopen, hq, hold]
    simp
  · have := hq fun t => t.batch = some b
    rw [hopen, hold, ← this]
    simp

theorem step_kinds (h : c.Inv vs) (hs : CourtStep D now c c' ov) :
    ∀ d ∈ c'.disputes, d.targetType = 0 ∧ d.leafIndex = 0 ∨ d.targetType = 1 := by
  intro d hd
  cases hs.disputes with
  | same hds => exact h.kinds d (hds ▸ hd)
  | opened _ _ hkind _ hds =>
    rw [hds, List.mem_append, List.mem_singleton] at hd
    rcases hd with hd | rfl
    · exact h.kinds d hd
    · exact hkind
  | @voted id x fa va hx _ hds | @closed id x fa va hx _ hds =>
    rcases List.mem_or_eq_of_mem_set (hds ▸ hd) with hd | rfl
    · exact h.kinds d hd
    · exact h.kinds x (List.mem_of_getElem? hx)

theorem step_disputes_length (h : c.Inv vs) (hs : CourtStep D now c c' ov) : c'.disputes.length < wordSize := by
  cases hs.disputes with
  | same hds => exact hds ▸ h.disputes_length
  | opened _ hlen _ _ hds =>
    rw [hds, List.length_append]
    exact hlen
  | voted _ _ hds | closed _ _ hds =>
    rw [hds, List.length_set]
    exact h.disputes_length

/-! ### Batches and leaves -/

theorem step_batch_state (h : c.Inv vs) (hs : CourtStep D now c c' ov) (b : ℕ) (bt : Batch)
    (hb : c'.batches[b]? = some bt) : bt.state = .provisional ∨ bt.state = .confirmed := by
  cases hs with
  | idle | submitRecord | finalizeRecord | openRecord | openLeaf | vote | closeRecord => exact h.batch_state b bt hb
  | submitBatch hx =>
    rcases getElem?_append_singleton.1 hb with ⟨-, rfl⟩ | ⟨-, hb⟩
    · exact .inl hx
    · exact h.batch_state b bt hb
  | finalizeBatch hx =>
    rcases (getElem?_set_some hx).1 hb with ⟨-, rfl⟩ | ⟨-, hb⟩
    · exact .inr rfl
    · exact h.batch_state b bt hb
  | closeLeaf _ _ _ hx hstate =>
    rcases (getElem?_set_some hx).1 hb with ⟨-, rfl⟩ | ⟨-, hb⟩
    · exact .inl hstate
    · exact h.batch_state b bt hb

theorem step_leaf_count (h : c.Inv vs) (hs : CourtStep D now c c' ov) (b : ℕ) (bt : Batch)
    (hb : c'.batches[b]? = some bt) : bt.leafCount < wordSize := by
  cases hs with
  | idle | submitRecord | finalizeRecord | openRecord | openLeaf | vote | closeRecord => exact h.leaf_count b bt hb
  | submitBatch _ _ hcount =>
    rcases getElem?_append_singleton.1 hb with ⟨-, rfl⟩ | ⟨-, hb⟩
    · exact hcount
    · exact h.leaf_count b bt hb
  | @finalizeBatch _ x hx | @closeLeaf _ _ _ _ x _ _ _ hx =>
    rcases (getElem?_set_some hx).1 hb with ⟨-, rfl⟩ | ⟨-, hb⟩
    · exact h.leaf_count _ x hx
    · exact h.leaf_count b bt hb

theorem step_quiet (h : c.Inv vs) (hs : CourtStep D now c c' ov) (b : ℕ) (bt : Batch)
    (hb : c'.batches[b]? = some bt) (hbt : bt.state = .confirmed) (l : ℕ) : c'.batchLeafState b l ≠ .disputed := by
  cases hs with
  | idle | submitRecord | finalizeRecord | openRecord | vote | closeRecord => exact h.quiet b bt hb hbt l
  | submitBatch hx =>
    rcases getElem?_append_singleton.1 hb with ⟨-, rfl⟩ | ⟨-, hb⟩
    · simp [hx] at hbt
    · exact h.quiet b bt hb hbt l
  | finalizeBatch hx _ _ hopen =>
    rcases (getElem?_set_some hx).1 hb with ⟨rfl, -⟩ | ⟨-, hb⟩
    · exact h.no_leaf_disputed hopen l
    · exact h.quiet b bt hb hbt l
  | @openLeaf b' l' x d hx hstate =>
    have hne : b ≠ b' := by
      rintro rfl
      obtain rfl := Option.some.inj (hx.symm.trans hb)
      simp [hstate] at hbt
    change (c.setLeaf b' l' _).batchLeafState b l ≠ _
    rw [Court.setLeaf_of_ne c hne]
    exact h.quiet b bt hb hbt l
  | @closeLeaf id b' l' d x _ _ _ hx hstate =>
    rcases (getElem?_set_some hx).1 hb with ⟨rfl, rfl⟩ | ⟨hne, hb⟩
    · simp [hstate] at hbt
    · change (c.setLeaf b' l' _).batchLeafState b l ≠ _
      rw [Court.setLeaf_of_ne c hne]
      exact h.quiet b bt hb hbt l

theorem step_range (h : c.Inv vs) (hs : CourtStep D now c c' ov) (b l : ℕ) (hl : c'.batchLeafState b l ≠ .undisputed) :
    ∃ bt, c'.batches[b]? = some bt ∧ l < bt.leafCount := by
  -- the leaf was there before the step, and its batch stays
  have hold : ∃ bt, c.batches[b]? = some bt ∧ l < bt.leafCount := by
    have hset : ∀ {b' l' st} {x : Batch}, c.batches[b']? = some x → l' < x.leafCount →
        (c.setLeaf b' l' st).batchLeafState b l ≠ .undisputed → ∃ bt, c.batches[b]? = some bt ∧ l < bt.leafCount := by
      intro b' l' st x hx hlt hne
      rw [Court.setLeaf_apply] at hne
      split at hne
      · rename_i e
        exact ⟨x, e.1 ▸ hx, e.2 ▸ hlt⟩
      · exact h.range b l hne
    cases hs with
    | openLeaf hx _ hlt => exact hset hx hlt hl
    | closeLeaf _ _ _ hx _ hlt => exact hset hx hlt hl
    | idle | submitRecord | submitBatch | finalizeRecord | finalizeBatch | openRecord | vote | closeRecord =>
      exact h.range b l hl
  obtain ⟨bt, hb, hlt⟩ := hold
  obtain ⟨st, n, hb', -⟩ := hs.batch hb
  exact ⟨_, hb', hlt⟩

/-- The revoked leaves of a batch are counted through a write that turns `old` into `st`. -/
theorem card_revoked_setLeaf {b l n : ℕ} (hl : l < n) (st : LeafState) :
    ((Finset.range n).filter fun k => (c.setLeaf b l st).batchLeafState b k = .revoked).card +
        (if c.batchLeafState b l = .revoked then 1 else 0) =
      ((Finset.range n).filter fun k => c.batchLeafState b k = .revoked).card + if st = .revoked then 1 else 0 := by
  simp only [Court.setLeaf_self]
  exact card_filter_update (Finset.range n) (c.batchLeafState b) (· = .revoked) (Finset.mem_range.2 hl) st

theorem step_revoked_count (h : c.Inv vs) (hs : CourtStep D now c c' ov) (b : ℕ) (bt : Batch)
    (hb : c'.batches[b]? = some bt) :
    bt.revokedLeafCount = ((Finset.range bt.leafCount).filter fun l => c'.batchLeafState b l = .revoked).card := by
  cases hs with
  | idle | submitRecord | finalizeRecord | openRecord | vote | closeRecord => exact h.revoked_count b bt hb
  | submitBatch _ hrevoked =>
    rcases getElem?_append_singleton.1 hb with ⟨rfl, rfl⟩ | ⟨-, hb⟩
    · -- no leaf of the new batch has been touched
      rw [hrevoked, eq_comm, Finset.card_eq_zero, Finset.filter_eq_empty_iff]
      intro l _ hl
      obtain ⟨x, hx, -⟩ := h.range c.batches.length l (by rw [hl]; simp)
      simp at hx
    · exact h.revoked_count b bt hb
  | @finalizeBatch _ x hx =>
    rcases (getElem?_set_some hx).1 hb with ⟨rfl, rfl⟩ | ⟨-, hb⟩
    · exact h.revoked_count b x hx
    · exact h.revoked_count b bt hb
  | @openLeaf b' l' x d hx hstate hl hleaf =>
    have hold := h.revoked_count b bt hb
    by_cases hne : b = b'
    · subst hne
      obtain rfl := Option.some.inj (hx.symm.trans hb)
      have := card_revoked_setLeaf (c := c) (b := b) hl .disputed
      rw [if_neg hleaf.2, if_neg (by simp)] at this
      exact hold.trans this.symm
    · change _ = ((Finset.range bt.leafCount).filter fun l => (c.setLeaf b' l' _).batchLeafState b l = _).card
      rw [Court.setLeaf_of_ne c hne]
      exact hold
  | @closeLeaf id b' l' d x _ _ _ hx hstate hl hleaf fa va v =>
    rcases (getElem?_set_some hx).1 hb with ⟨rfl, rfl⟩ | ⟨hne, hb⟩
    · have hold := h.revoked_count b x hx
      have := card_revoked_setLeaf (c := c) (b := b) hl (leafAfter v)
      rw [hleaf, if_neg (by simp), Nat.add_zero] at this
      change x.revokedLeafCount + revocations v =
        ((Finset.range x.leafCount).filter fun l => (c.setLeaf b l' _).batchLeafState b l = _).card
      rw [hold, this]
      cases v <;> rfl
    · change _ = ((Finset.range bt.leafCount).filter fun l => (c.setLeaf b' l' _).batchLeafState b l = _).card
      rw [Court.setLeaf_of_ne c hne]
      exact h.revoked_count b bt hb

/-- **Every step keeps the books of the court.** -/
theorem step (h : c.Inv vs) (hs : CourtStep D now c c' ov) : c'.Inv (vs ++ ov.toList) where
  docket := h.docket.step (hs.docket h)
  kinds := h.step_kinds hs
  batch_state := h.step_batch_state hs
  quiet := h.step_quiet hs
  range := h.step_range hs
  revoked_count := h.step_revoked_count hs
  active := h.step_active hs
  open_leaves := h.step_open_leaves hs
  records_length := by
    cases hs with
    | submitRecord _ hlen => rwa [List.length_append]
    | finalizeRecord | openRecord | closeRecord =>
      dsimp only [Court.recordSet, Court.opened]
      rw [List.length_set]
      exact h.records_length
    | idle | submitBatch | finalizeBatch | openLeaf | vote | closeLeaf => exact h.records_length
  batches_length := by
    cases hs with
    | submitBatch _ _ _ hlen => rwa [List.length_append]
    | finalizeBatch | closeLeaf =>
      dsimp only [Court.batchSet]
      rw [List.length_set]
      exact h.batches_length
    | idle | submitRecord | finalizeRecord | openRecord | openLeaf | vote | closeRecord => exact h.batches_length
  disputes_length := h.step_disputes_length hs
  leaf_count := h.step_leaf_count hs

end Court.Inv

/-- The books of a freshly deployed contract. -/
theorem Court.inv_init : Storage.init.court.Inv [] where
  docket := by
    have : Storage.init.court.docket [] = ⟨fun _ => .absent, [], []⟩ := by
      simp only [Court.docket, Storage.init, Docket.mk.injEq, List.map_nil, and_self, and_true]
      funext t
      cases t <;> rfl
    rw [this]
    exact Docket.wf_empty
  kinds := fun d hd => by simp [Storage.init] at hd
  batch_state := fun b bt hb => by simp [Storage.init] at hb
  quiet := fun b bt hb => by simp [Storage.init] at hb
  range := fun b l hl => by simp [Storage.init] at hl
  revoked_count := fun b bt hb => by simp [Storage.init] at hb
  active := fun a => rfl
  open_leaves := fun b => rfl
  records_length := by decide
  batches_length := by decide
  disputes_length := by decide
  leaf_count := fun b bt hb => by simp [Storage.init] at hb

/-! ## Calls are steps -/

theorem Dispute.target_record {d : Dispute} (h : d.targetType = 0) : d.target = .record d.targetIndex := if_pos h

theorem Dispute.target_leaf {d : Dispute} (h : d.targetType = 1) : d.target = .leaf d.targetIndex d.leafIndex :=
  if_neg (by omega)

/-- The resolution of an unresolved dispute, with whatever votes, is a closing step. -/
theorem Court.Inv.closed_step (h : c.Inv vs) {id : ℕ} {d : Dispute} {relay : Address}
    (hd : c.disputes[id]? = some d) (hun : d.resolved = false) (hrelay : targetRelay d c = .ok relay)
    (fa va : List Address) (v : Verdict) :
    CourtStep D now c (c.closed id { d with fraudAttesters := fa, validAttesters := va } relay v) (some (id, v)) := by
  rw [targetRelay_ok'] at hrelay
  rcases h.kinds d (List.mem_of_getElem? hd) with ⟨ht, -⟩ | ht
  · have htarget := Dispute.target_record ht
    obtain ⟨r, hr, hstate⟩ := h.record_disputed hd hun htarget
    have hrelay : r.relay = relay := by simpa [htarget, relayOf, hr] using hrelay
    subst hrelay
    convert CourtStep.closeRecord hd hun htarget hr hstate fa va v using 1
    cases v <;>
      simp [closed, upheld, revoked, discharged, markResolved, ht, recordAfter, modify_eq_set hr, Dispute.close]
  · have htarget := Dispute.target_leaf ht
    obtain ⟨bt, hb, hstate, hl, hleaf⟩ := h.leaf_disputed hd hun htarget
    have hrelay : bt.relay = relay := by simpa [htarget, relayOf, hb] using hrelay
    subst hrelay
    convert CourtStep.closeLeaf hd hun htarget hb hstate hl hleaf fa va v using 1
    have hrev : c.batchLeafState d.targetIndex d.leafIndex ≠ .revoked := by
      rw [hleaf]
      simp
    cases v <;>
      simp [closed, upheld, revoked, discharged, markResolved, setLeaf, ht, hrev, leafAfter, revocations,
        modify_eq_set hb, set_self hb, Dispute.close]

/-- The court of a vote is closed like the court before it: the dispute is written once more. -/
theorem Court.closed_voted (c : Court) (id : ℕ) (d d' : Dispute) (relay : Address) (v : Verdict) :
    ({ c with disputes := c.disputes.set id d' } : Court).closed id d relay v = c.closed id d relay v := by
  have hmark : ({ c with disputes := c.disputes.set id d' } : Court).markResolved id d = c.markResolved id d := by
    simp [markResolved]
  rw [closed, closed, hmark]

theorem Dispute.voted_eq (verdict : Bool) (signer : Address) (d : Dispute) :
    ∃ fa va, d.voted verdict signer = { d with fraudAttesters := fa, validAttesters := va } := by
  cases verdict
  · exact ⟨_, _, rfl⟩
  · exact ⟨_, _, rfl⟩

namespace Storage

@[simp] theorem verdicts_revocation (d : Dispute) (s : Storage) :
    (s.revocation d).filterMap Event.verdict = [] := by
  unfold revocation
  split <;> rfl

end Storage

/-- The verdict that a closing step gives is the one that the events tell. -/
theorem Storage.verdicts_append {logs : List Event} {e : Event} {o : Option (ℕ × Verdict)}
    (he : e.verdict = o) : (logs ++ [e]).filterMap Event.verdict = logs.filterMap Event.verdict ++ o.toList := by
  subst he
  cases h : e.verdict <;> simp [h]

variable {env : Env} {s s' : Storage}

/-- **A call makes one step on the court**, and its events tell the verdict of the step. -/
theorem Effect.courtStep {call : Call} (h : s.court.Inv s.verdicts) (he : Effect D env s call s') :
    ∃ ov, CourtStep D env.timestamp s.court s'.court ov ∧ s'.verdicts = s.verdicts ++ ov.toList := by
  have hnone : ∀ {logs : List Event} {e : Event}, e.verdict = none →
      (logs ++ [e]).filterMap Event.verdict = logs.filterMap Event.verdict ++ Option.toList none :=
    fun he => Storage.verdicts_append he
  cases he with
  | announceUnstake | stakeVerifier | announceVerifierUnstake => exact ⟨none, .idle, (List.append_nil _).symm⟩
  | stakeRelay | unstakeRelay | joinVerifier | unstakeVerifier | deregisterVerifier =>
    exact ⟨none, .idle, hnone rfl⟩
  | submitAccountable _ _ _ _ _ _ hlen _ _ r hr =>
    exact ⟨none, .submitRecord (hr ▸ rfl) hlen, hnone rfl⟩
  | finalizeRecord _ hr hstate hwindow => exact ⟨none, .finalizeRecord hr hstate hwindow, hnone rfl⟩
  | submitBatch _ _ _ _ _ _ _ hsize _ hlen hm _ bt hbt =>
    refine ⟨none, .submitBatch (hbt ▸ rfl) (hbt ▸ rfl) ?_ hlen, (hnone rfl).trans ?_⟩
    · rw [hbt]
      dsimp only [newBatch]
      unfold falcon512SigSizeMax at hsize
      omega
    · obtain ⟨nonces, events, hms, hevents⟩ := processLeaves_filed hm
      rw [hms]
      dsimp only [Storage.verdicts]
      rw [List.filterMap_append, (List.filterMap_eq_nil_iff (l := events)).2, List.append_nil]
      intro e he
      obtain ⟨_, _, _, _, _, rfl⟩ := hevents e he
      rfl
  | finalizeBatch _ hb hstate hwindow hopen => exact ⟨none, .finalizeBatch hb hstate hwindow hopen, hnone rfl⟩
  | openDispute _ hr hstate hlen => exact ⟨none, .openRecord hr hstate rfl rfl rfl rfl hlen, hnone rfl⟩
  | openBatchLeafDispute _ hb hstate hl hleaf hlen =>
    exact ⟨none, .openLeaf hb hstate hl hleaf rfl rfl rfl hlen, hnone rfl⟩
  | @vote _ id verdict _ signer d _ hvote =>
    obtain ⟨fa, va, e⟩ := Dispute.voted_eq verdict signer d
    refine ⟨none, ?_, (List.append_nil _).symm⟩
    rw [Storage.voted, e]
    exact .vote hvote.dispute hvote.unresolved fa va
  | @fraud _ id verdict _ signer d relay hvote =>
    obtain ⟨fa, va, e⟩ := Dispute.voted_eq verdict signer d
    refine ⟨some (id, .fraud), ?_, ?_⟩
    · dsimp only [Storage.afterFraud, Storage.voted]
      rw [Court.closed_voted, e]
      exact h.closed_step hvote.dispute hvote.unresolved hvote.endorsed fa va .fraud
    · dsimp only [Storage.afterFraud, Storage.verdicts]
      rw [Storage.verdicts_append rfl, List.filterMap_append, Storage.verdicts_revocation, List.append_nil]
      rfl
  | @spurious _ id verdict _ signer d relay hvote =>
    obtain ⟨fa, va, e⟩ := Dispute.voted_eq verdict signer d
    refine ⟨some (id, .spurious), ?_, Storage.verdicts_append rfl⟩
    dsimp only [Storage.afterSpurious, Storage.voted]
    rw [Court.closed_voted, e]
    exact h.closed_step hvote.dispute hvote.unresolved hvote.endorsed fa va .spurious
  | @expire _ id d relay hexp =>
    refine ⟨some (id, .expired),
      h.closed_step hexp.dispute hexp.unresolved hexp.endorsed d.fraudAttesters d.validAttesters .expired, ?_⟩
    dsimp only [Storage.afterExpiry, Storage.verdicts]
    rw [Storage.verdicts_append rfl, List.filterMap_append, Storage.verdicts_revocation, List.append_nil]
    rfl

end PqIotAuth
