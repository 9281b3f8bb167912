import PqIotAuth.Evaluation

/-!
# The lifecycle of records and leaves

What every run keeps about single records, batches and leaves (`lifecycle_safety`): each moves along its lifecycle only,
final states are final, and a verdict that revokes a target revokes it for good; and what it keeps about disputes
(`dispute_bookkeeping`): a target is under dispute exactly when one unresolved dispute names it, and both counters of
open disputes are exact, so that closing a dispute never takes them below 0.
-/

namespace PqIotAuth

open Lib

namespace World

variable {D : Deployment} {w w' : World}

/-! ## Final phases -/

theorem Reachable.phase_move (hw : Reachable D w) (hs : Step D w w') (t : Target) :
    Phase.Move (w.relay.court.phase t) (w'.relay.court.phase t) := by
  obtain ⟨ov, hstep, -⟩ := hw.courtStep hs
  exact (hstep.docket hw.court).move hw.court.docket t

/-- A revoked target stays revoked, a confirmed one confirmed. -/
theorem Reachable.phase_final (hw : Reachable D w) (h : Reaches (Step D) w w') {t : Target} {p : Phase}
    (hp : p = .revoked ∨ p = .confirmed) (ht : w.relay.court.phase t = p) : w'.relay.court.phase t = p := by
  refine hw.later (P := fun u => u.relay.court.phase t = p) h (fun u u' hu hup hs => ?_) ht
  have hmove := hu.phase_move hs t
  rw [hup] at hmove
  rcases hp with rfl | rfl
  · exact hmove.revoked
  · exact hmove.confirmed

/-- A confirmed batch and its leaves never change again. -/
theorem Reachable.batch_final (hw : Reachable D w) (h : Reaches (Step D) w w') {b : ℕ} {bt : Batch}
    (hb : w.relay.court.batches[b]? = some bt) (hst : bt.state = .confirmed) :
    w'.relay.court.batches[b]? = some bt ∧
      w'.relay.court.batchLeafState b = w.relay.court.batchLeafState b := by
  refine hw.later (P := fun u => u.relay.court.batches[b]? = some bt ∧
    u.relay.court.batchLeafState b = w.relay.court.batchLeafState b) h ?_ ⟨hb, rfl⟩
  rintro u u' hu ⟨hub, hul⟩ hs
  obtain ⟨ov, hstep, -⟩ := hu.courtStep hs
  have hleaf : u'.relay.court.batchLeafState b = u.relay.court.batchLeafState b :=
    funext fun l => (hstep.leaf b l).2 bt hub hst
  obtain ⟨st, n, hb', hmove⟩ := hstep.batch hub
  have hsame : st = bt.state := by
    cases hmove with
    | stay => rfl
    | confirm h => simp [h] at hst
  -- the number of revoked leaves is counted from the leaves, which are the same
  have hn : n = bt.revokedLeafCount := by
    have h1 := (hu.next hs).court.revoked_count b _ hb'
    have h2 := hu.court.revoked_count b bt hub
    rw [hleaf] at h1
    exact h1.trans h2.symm
  refine ⟨?_, hleaf.trans hul⟩
  rw [hb', hsame, hn]

end World

/-! ## Lifecycle safety -/

namespace Court.Inv

variable {c : Court} {vs : List (ℕ × Verdict)}

/-- A target has one open dispute when it is under dispute, and none otherwise. -/
theorem openOn_target (h : c.Inv vs) (t : Target) :
    openOn (fun u => u = t) c.disputes = if c.phase t = .disputed then 1 else 0 := by
  refine Eq.trans ?_ (h.docket.one_open t)
  rw [Docket.openCases, Court.docket, List.countP_map]
  refine List.countP_congr fun d _ => ?_
  cases hd : d.resolved <;> simp [hd]

theorem phase_record_disputed {i : ℕ} :
    c.phase (.record i) = .disputed ↔ c.records[i]?.map (·.state) = some .disputed := by
  rcases hr : c.records[i]? with _ | r
  · simp [phase, hr]
  · rw [phase_record hr, RecordState.phase_eq_disputed]
    simp

theorem phase_leaf_disputed (h : c.Inv vs) {b l : ℕ} :
    c.phase (.leaf b l) = .disputed ↔ c.batchLeafState b l = .disputed := by
  constructor
  · intro hp
    obtain ⟨bt, hb, hl⟩ := leaf_of_phase (c := c) (b := b) (l := l) (by rw [hp]; simp)
    rwa [phase_leaf hb hl, LeafState.phase_eq_disputed] at hp
  · intro hs
    obtain ⟨bt, hb, hl⟩ := h.range b l (by rw [hs]; simp)
    rwa [phase_leaf hb hl, LeafState.phase_eq_disputed]

/-- The open disputes on a batch are as many as its leaves under dispute. -/
theorem openOn_batch (h : c.Inv vs) (b : ℕ) :
    openOn (fun t => t.batch = some b) c.disputes = {l | c.batchLeafState b l = .disputed}.ncard := by
  classical
  -- the leaves under dispute are below the number of leaves, so they are a finite set of targets
  obtain ⟨n, hn⟩ : ∃ n, ∀ l, c.phase (.leaf b l) ≠ .absent → l < n := by
    rcases hb : c.batches[b]? with _ | bt
    · exact ⟨0, fun l hl => by simp [phase, hb] at hl⟩
    · refine ⟨bt.leafCount, fun l hl => ?_⟩
      obtain ⟨bt', hb', hlt⟩ := leaf_of_phase hl
      rw [hb] at hb'
      exact Option.some.inj hb' ▸ hlt
  have hinj : Function.Injective (Target.leaf b) := fun l l' e => by simpa using e
  have hcount : openOn (fun t => t.batch = some b) c.disputes =
      (c.docket vs).cases.countP fun x => !x.2 && decide (x.1 ∈ (Finset.range n).image (Target.leaf b)) := by
    rw [Court.docket, List.countP_map]
    refine List.countP_congr fun d hd => ?_
    obtain ⟨id, hid⟩ := List.mem_iff_getElem?.1 hd
    have hfiled : c.phase d.target ≠ .absent := h.docket.filed (docket_case.2 ⟨d, hid, rfl, rfl⟩)
    cases ht : d.target with
    | record i => simp [ht, Target.batch]
    | leaf b' l =>
      rw [ht] at hfiled
      by_cases hb' : b' = b
      · subst hb'
        simp [ht, Target.batch, hn l hfiled]
      · simp [ht, Target.batch, hb', Ne.symm hb']
  rw [hcount, h.docket.open_in]
  have hset : {l | c.batchLeafState b l = .disputed} =
      ((Finset.range n).filter fun l => c.phase (.leaf b l) = .disputed : Finset ℕ) := by
    ext l
    simp only [Set.mem_ofPred_eq, Finset.coe_filter, Finset.mem_range, h.phase_leaf_disputed]
    exact ⟨fun hl => ⟨hn l (by rw [h.phase_leaf_disputed.2 hl]; simp), hl⟩, fun hl => hl.2⟩
  rw [hset, Set.ncard_coe_finset, Finset.filter_image, Finset.card_image_of_injective _ hinj]
  rfl

/-- Closing an unresolved dispute, in a court with the same relays and counters, never takes a counter below 0. -/
theorem closeDispute_eq (h : c.Inv vs) {id : ℕ} {d d' : Dispute} {c' : Court} (hd : c.disputes[id]? = some d)
    (hun : d.resolved = false) (htarget : d'.target = d.target)
    (hrelays : c'.relays = c.relays) (hactive : c'.relayActiveDisputes = c.relayActiveDisputes)
    (hopen : c'.batchOpenLeafDisputes = c.batchOpenLeafDisputes) : ∃ c'', closeDispute d' c' = .ok c'' := by
  obtain ⟨a, ha⟩ := h.relay_of_dispute (List.mem_of_getElem? hd)
  have hrelay : targetRelay d' c' = .ok a := by
    rw [targetRelay_congr hrelays, targetRelay_ok', htarget, ha]
  have hpos : 1 ≤ c.relayActiveDisputes a := by
    rw [h.active]
    exact countP_pos_of_getElem? hd (by simp [hun, ha])
  unfold closeDispute
  rw [hrelay, ok_bind, hactive, checkedSub, if_pos hpos, ok_bind]
  split
  · rename_i ht
    have hindex : d'.target.batch = some d'.targetIndex := by
      rw [Dispute.target_leaf ht]
      rfl
    have hpos' : 1 ≤ c.batchOpenLeafDisputes d'.targetIndex := by
      rw [h.open_leaves]
      exact countP_pos_of_getElem? hd (by simp [hun, ← htarget, hindex])
    dsimp only
    rw [hopen, checkedSub, if_pos hpos']
    exact ⟨_, rfl⟩
  · exact ⟨_, rfl⟩

end Court.Inv

/-- What is promised of the disputes and their counters; the number of unresolved disputes on targets with `q` is
`openOn q`. -/
structure BooksKept (c : Court) : Prop where
  /-- A record is Disputed if and only if exactly one unresolved dispute targets it; otherwise none does. -/
  record : ∀ i, openOn (fun t => t = .record i) c.disputes =
    if c.records[i]?.map (·.state) = some .disputed then 1 else 0
  leaf : ∀ b l, openOn (fun t => t = .leaf b l) c.disputes = if c.batchLeafState b l = .disputed then 1 else 0
  leaf_batch : ∀ b l, c.batchLeafState b l = .disputed →
    ∃ bt, c.batches[b]? = some bt ∧ bt.state = .provisional ∧ l < bt.leafCount
  active : ∀ a, c.relayActiveDisputes a = openOn (fun t => c.relayOf t = some a) c.disputes
  open_leaves : ∀ b, c.batchOpenLeafDisputes b = openOn (fun t => t.batch = some b) c.disputes
  disputed_leaves : ∀ b, c.batchOpenLeafDisputes b = {l | c.batchLeafState b l = .disputed}.ncard
  /-- `_closeDispute` returns on every unresolved dispute, after its target has been revoked and after it has been
  upheld, also when a last vote has been added to it. -/
  closes : ∀ (id : ℕ) (d : Dispute), c.disputes[id]? = some d → d.resolved = false → ∀ fraudAttesters validAttesters,
    let d' := { d with fraudAttesters, validAttesters }
    (∃ c', closeDispute d' ((c.markResolved id d').revoked d') = .ok c') ∧
      ∃ c', closeDispute d' ((c.markResolved id d').upheld d') = .ok c'

/-- **Dispute bookkeeping is exact in every reachable world.** -/
theorem dispute_bookkeeping {D : Deployment} {w : World} (hw : w.Reachable D) : BooksKept w.relay.court where
  record := fun i => by
    rw [hw.court.openOn_target]
    exact if_congr Court.Inv.phase_record_disputed rfl rfl
  leaf := fun b l => by
    rw [hw.court.openOn_target]
    exact if_congr hw.court.phase_leaf_disputed rfl rfl
  leaf_batch := fun b l hl => by
    obtain ⟨bt, hb, hlt⟩ := hw.court.range b l (by rw [hl]; simp)
    refine ⟨bt, hb, ?_, hlt⟩
    rcases hw.court.batch_state b bt hb with hs | hs
    · exact hs
    · exact absurd hl (hw.court.quiet b bt hb hs l)
  active := hw.court.active
  open_leaves := hw.court.open_leaves
  disputed_leaves := fun b => (hw.court.open_leaves b).trans (hw.court.openOn_batch b)
  closes := fun id d hd hun fa va => by
    dsimp only
    exact ⟨hw.court.closeDispute_eq hd hun rfl (by simp) (Court.counters_revoked _).1 (Court.counters_revoked _).2,
      hw.court.closeDispute_eq hd hun rfl (by simp) (Court.counters_upheld _).1 (Court.counters_upheld _).2⟩

theorem dispute_bookkeeping_toy :
    openOn (fun t => t = .leaf 0 1) Toy.world.relay.court.disputes = 1 ∧ BooksKept Toy.world.relay.court :=
  ⟨by decide +kernel, dispute_bookkeeping Toy.world_reachable⟩

end PqIotAuth
