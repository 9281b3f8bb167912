import PqIotAuth.Filings
import PqIotAuth.LiveExposures
import PqIotAuth.Solvency

/-!
# Progress

Nothing inside a resolution or a finalization can revert: the counters it decrements count what it removes, the registry
has room for whom it enters, the sums it forms are bounded by the ether that the contract holds, and the deadlines are
what they should be while the clock is below 64 bits. So between transactions every dispute can be voted on or expired,
every vote that is due is accepted whatever it completes, what is past its window can be finalized, and each of these
calls achieves what it is for (`progress`).
-/

namespace PqIotAuth

open Lib

variable {D : Deployment} {env : Env} {s s' : Storage} {call : Call} {w w' : World} {id : ℕ}

/-! ## The guard -/

theorem Effect.guard (he : Effect D env s call s') : s'.guard = s.guard := by cases he <;> rfl

/-- The guard is up exactly while a withdrawal waits for its recipient. -/
theorem World.Reachable.guard (hw : w.Reachable D) :
    w.relay.guard = 1 ∧ w.openCalls = [] ∨ w.relay.guard = 2 ∧ ∃ p, w.openCalls = [p] := by
  refine World.Reachable.invariant (P := fun w => w.relay.guard = 1 ∧ w.openCalls = [] ∨
    w.relay.guard = 2 ∧ ∃ p, w.openCalls = [p]) (fun _ _ => .inl ⟨rfl, rfl⟩) ?_ hw
  intro w w' _ h hs
  cases hs.change with
  | outside _ hrelay _ _ hopen =>
    rw [hrelay, hopen]
    exact h
  | call he _ _ _ hopen =>
    rw [he.guard, hopen]
    exact h
  | withdraw hguard _ _ hw' =>
    rw [hw']
    rcases h with ⟨-, hopen⟩ | ⟨hg, -⟩
    · exact .inr ⟨rfl, _, by dsimp only; rw [hopen]⟩
    · rw [hguard] at hg
      cases hg
  | withdrawReturn hopen hw' =>
    rw [hw']
    rcases h with ⟨-, hnone⟩ | ⟨-, p, hone⟩
    · rw [hnone] at hopen
      cases hopen
    · rw [hone] at hopen
      exact .inl ⟨rfl, (List.cons.inj hopen).2.symm⟩

theorem World.Reachable.guard_down (hw : w.Reachable D) (hidle : w.openCalls = []) : w.relay.guard = 1 := by
  rcases hw.guard with ⟨h, -⟩ | ⟨-, p, h⟩
  · exact h
  · rw [hidle] at h
    cases h

/-! ## Room in the registers -/

/-- While a dispute is open, every counter of live exposures can be raised once more. -/
theorem RegistryInv.room {E : Evm} (h : RegistryInv E s) (hcourt : s.court.Inv s.verdicts) {id : ℕ} {d : Dispute}
    (hd : s.court.disputes[id]? = some d) (hun : d.resolved = false) (v : Address) :
    s.exposure.registry.live v + 1 < wordSize := by
  -- a verifier is listed at the keys of the targets of resolved disputes at most
  have hsub : s.exposure.registry.keysOf v ⊆
      ((s.court.disputes.filter (·.resolved)).map fun d => d.target.key E).toFinset := by
    intro k hk
    obtain ⟨t, ⟨x, hx, rfl, hres, -⟩, rfl⟩ := h.keyed k v hk
    rw [List.coe_toFinset]
    exact List.mem_map.2 ⟨x, List.mem_filter.2 ⟨hx, hres⟩, rfl⟩
  have hcard := Set.ncard_le_ncard hsub (Finset.finite_toSet _)
  rw [Set.ncard_coe_finset] at hcard
  have hlen := List.toFinset_card_le ((s.court.disputes.filter (·.resolved)).map fun d => d.target.key E)
  rw [List.length_map, ← List.countP_eq_length_filter] at hlen
  have hopen : 0 < s.court.disputes.countP fun d => !d.resolved := countP_pos_of_getElem? hd (by simp [hun])
  have hsplit := List.length_eq_countP_add_countP (fun d : Dispute => d.resolved) (l := s.court.disputes)
  have hnot : s.court.disputes.countP (fun d => !d.resolved) =
      s.court.disputes.countP fun d => decide ¬ d.resolved = true :=
    List.countP_congr fun d _ => by simp
  have hbound := hcourt.disputes_length
  rw [h.wf.live_eq]
  omega

/-- A leaf that is not remembered yet can be. -/
theorem RegistryInv.room_leaf {E : Evm} (h : RegistryInv E s) (hcourt : s.court.Inv s.verdicts) {b l : ℕ}
    (hfiled : s.court.phase (.leaf b l) ≠ .absent) (hl : l ∉ s.exposure.exposedLeaves b) :
    (s.exposure.exposedLeaves b).length + 1 < wordSize := by
  obtain ⟨bt, hb, hlt⟩ := Court.leaf_of_phase hfiled
  have hsub : (s.exposure.exposedLeaves b ++ [l]).toFinset ⊆ Finset.range bt.leafCount := by
    intro x hx
    rw [List.mem_toFinset, List.mem_append, List.mem_singleton] at hx
    rw [Finset.mem_range]
    rcases hx with hx | rfl
    · obtain ⟨bt', hb', hx⟩ := Court.leaf_of_phase (h.leaves_filed b x hx)
      obtain rfl := Option.some.inj (hb.symm.trans hb')
      exact hx
    · exact hlt
  have hnodup : (s.exposure.exposedLeaves b ++ [l]).Nodup := by
    rw [List.nodup_append]
    refine ⟨h.leaves_nodup b, List.nodup_singleton _, ?_⟩
    intro x hx y hy
    rw [List.mem_singleton.1 hy]
    exact ne_of_mem_of_not_mem hx hl
  have hcard := Finset.card_le_card hsub
  rw [List.toFinset_card_of_nodup hnodup, List.length_append, List.length_singleton, Finset.card_range] at hcard
  exact hcard.trans_lt (hcourt.leaf_count b bt hb)

/-! ## The court returns -/

/-- The target of an unresolved dispute can be revoked. -/
theorem Court.Inv.revokeTarget_eq {c : Court} {vs : List (ℕ × Verdict)} (h : c.Inv vs) {id : ℕ} {d d' : Dispute}
    (hd : c.disputes[id]? = some d) (hun : d.resolved = false) (htype : d'.targetType = d.targetType)
    (htarget : d'.target = d.target) (hrec : s.court.records = c.records) (hbat : s.court.batches = c.batches)
    (hleaf : s.court.batchLeafState = c.batchLeafState) : ∃ s', revokeTarget d' s = .ok s' := by
  unfold revokeTarget
  rcases h.kinds d (List.mem_of_getElem? hd) with ⟨ht, -⟩ | ht
  · rw [if_pos (htype.trans ht)]
    have hrecord : d.target = .record d'.targetIndex := by
      rw [← htarget, Dispute.target_record (htype.trans ht)]
    obtain ⟨r, hr, -⟩ := h.record_disputed hd hun hrecord
    rw [← hrec] at hr
    rw [modifyAt_eq_ok.2 ⟨r, hr, rfl⟩]
    exact ⟨_, rfl⟩
  · have hne : ¬ d'.targetType = 0 := by omega
    have hleaf' : d.target = .leaf d'.targetIndex d'.leafIndex := by
      rw [← htarget, Dispute.target_leaf (htype.trans ht)]
    obtain ⟨bt, hb, -, hl, hstate⟩ := h.leaf_disputed hd hun hleaf'
    -- the leaf under dispute is not among the revoked ones that are counted
    have hcount : bt.revokedLeafCount + 1 < wordSize := by
      have hlt : bt.revokedLeafCount < bt.leafCount := by
        rw [h.revoked_count _ bt hb]
        refine (Finset.card_lt_card (Finset.filter_ssubset.2 ⟨d'.leafIndex, Finset.mem_range.2 hl, ?_⟩)).trans_eq
          (Finset.card_range _)
        rw [hstate]
        simp
      have := h.leaf_count _ bt hb
      omega
    rw [if_neg hne, hleaf, hstate, if_pos (by simp), hbat, load_eq_ok.2 hb, ok_bind, checkedAdd, if_pos hcount, ok_bind,
      store, modifyAt_eq_ok.2 ⟨bt, hb, rfl⟩]
    exact ⟨_, rfl⟩

theorem Court.Inv.upholdTarget_eq {c : Court} {vs : List (ℕ × Verdict)} (h : c.Inv vs) {id : ℕ} {d d' : Dispute}
    (hd : c.disputes[id]? = some d) (hun : d.resolved = false) (htype : d'.targetType = d.targetType)
    (htarget : d'.target = d.target) {c' : Court} (hrec : c'.records = c.records) :
    ∃ c'', upholdTarget d' c' = .ok c'' := by
  unfold upholdTarget
  rcases h.kinds d (List.mem_of_getElem? hd) with ⟨ht, -⟩ | ht
  · rw [if_pos (htype.trans ht)]
    have hrecord : d.target = .record d'.targetIndex := by
      rw [← htarget, Dispute.target_record (htype.trans ht)]
    obtain ⟨r, hr, -⟩ := h.record_disputed hd hun hrecord
    rw [← hrec] at hr
    rw [modifyAt_eq_ok.2 ⟨r, hr, rfl⟩]
    exact ⟨_, rfl⟩
  · rw [if_neg (by omega)]
    exact ⟨_, rfl⟩

/-! ## The resolutions return -/

/-- The registrations of a verdict return when there is room for them. -/
theorem registrations_eq {E : Evm} {d : Dispute} {x : Exposure} (hwf : x.registry.Wf)
    (hroom : ∀ v, x.registry.live v + 1 < wordSize)
    (hleaf : d.targetType = 1 → d.leafIndex ∉ x.exposedLeaves d.targetIndex →
      (x.exposedLeaves d.targetIndex).length + 1 < wordSize) :
    ∃ x', d.validAttesters.foldlM (fun x v => registerValidAtt (targetKey E d) v x) x = .ok x' ∧
      (if d.targetType = 1 then rememberExposedLeaf d.targetIndex d.leafIndex x' else pure x') =
        .ok (x.afterSpurious E d) := by
  refine ⟨_, foldlM_registerValidAtt_eq d.validAttesters hwf fun v _ => hroom v, ?_⟩
  unfold Exposure.afterSpurious
  dsimp only
  split
  · rename_i ht
    exact rememberExposedLeaf_eq (hleaf ht)
  · rfl

/-- What a resolution needs: its court steps return, there is room for its registrations, and its payments are
bounded. -/
structure Resolvable (D : Deployment) (s : Storage) (id : ℕ) (d : Dispute) (relay : Address) : Prop where
  dispute : s.court.disputes[id]? = some d
  revoke : ∃ s', revokeTarget d { s with court := s.court.markResolved id d } = .ok s'
  close_revoked : ∃ c, closeDispute d ((s.court.markResolved id d).revoked d) = .ok c
  uphold : ∃ c, upholdTarget d (s.court.markResolved id d) = .ok c
  close_upheld : ∃ c, closeDispute d ((s.court.markResolved id d).upheld d) = .ok c
  relay : targetRelay d s.court = .ok relay
  wf : s.exposure.registry.Wf
  room : ∀ v, s.exposure.registry.live v + 1 < wordSize
  room_leaf : d.targetType = 1 → d.leafIndex ∉ s.exposure.exposedLeaves d.targetIndex →
    (s.exposure.exposedLeaves d.targetIndex).length + 1 < wordSize
  funds : s.ledger.total + d.bond < 2 ^ 250

namespace Resolvable

variable {id : ℕ} {d : Dispute} {relay : Address}

theorem resolveFraud_eq (h : Resolvable D s id d relay) : ∃ s', resolveFraud D id s = .ok s' := by
  obtain ⟨s1, hrevoke⟩ := h.revoke
  have hs1 := revokeTarget_ok hrevoke
  obtain ⟨c, hclose⟩ := h.close_revoked
  obtain ⟨relay', -, hc⟩ := closeDispute_ok hclose
  have hrelay : targetRelay d c = .ok relay := by
    rw [hc]
    exact (targetRelay_congr (by simp)).2 h.relay
  obtain ⟨x1, hreg, hrem⟩ := registrations_eq (E := D.toEvm) h.wf h.room h.room_leaf
  have hwf : (s.exposure.afterSpurious D.toEvm d).registry.Wf := by
    rw [Exposure.registry_afterSpurious]
    exact h.wf.enterAll _ _
  have hfunds := h.funds
  have hword : 3 * 2 ^ 250 < wordSize := by decide
  -- the slashes only move what is there, and the rest is bounded by it
  generalize hvs : (s.exposure.afterSpurious D.toEvm d).targetValidList (targetKey D.toEvm d) = vs
  have hslash := Ledger.total_slashedAll (l := s.ledger) vs D.verifierSlashAmount d.challenger
  have hrun := foldlM_slashFromPool_eq (l := s.ledger) vs D.verifierSlashAmount d.challenger (by omega)
  generalize s.ledger.slashedAll vs D.verifierSlashAmount d.challenger = l1 at hslash hrun
  have hded := Ledger.total_deducted (l := l1) relay D.relaySlashAmount false
  have hcollect := collectFromPool_eq (l := l1) relay D.relaySlashAmount false (by omega)
  generalize l1.seized relay D.relaySlashAmount = m at hded hcollect
  generalize l1.deducted relay D.relaySlashAmount false = l2 at hded hcollect
  have hcredit := Ledger.total_credited (l := l2) d.challenger (m * 3 / 5)
  have hchallenger := credit_eq (l := l2) (a := d.challenger) (n := m * 3 / 5) (by omega)
  generalize l2.credited d.challenger (m * 3 / 5) = l3 at hcredit hchallenger
  have hle := Ledger.total_paid_le (l := l3) d.fraudAttesters (m * 2 / 5)
  have hpay := payAttesters_eq (l := l3) d.fraudAttesters (m * 2 / 5) (by omega)
  generalize l3.paid d.fraudAttesters (m * 2 / 5) = l4 at hle hpay
  have hbond := credit_eq (l := l4) (a := d.challenger) (n := d.bond) (by omega)
  unfold resolveFraud
  simp only [ite_bind, bind_eq_ok, load_eq_ok, checkedMul_eq_ok, pure_eq_ok]
  refine ⟨_, d, h.dispute, s1, hrevoke, c, ?_, x1, ?_, _, hrem, l1, ?_, _, releaseExposures_eq _ hwf, relay, hrelay, _,
    hcollect, _, ⟨by dsimp only; omega, rfl⟩, l3, hchallenger, _, ⟨by dsimp only; omega, rfl⟩, l4, hpay, _, hbond, rfl⟩
  · rw [hs1]
    exact hclose
  · rw [hs1]
    exact hreg
  · rw [hs1, hvs]
    exact hrun

theorem resolveSpurious_eq (h : Resolvable D s id d relay) : ∃ s', resolveSpurious D id s = .ok s' := by
  obtain ⟨c1, huphold⟩ := h.uphold
  have hc1 := upholdTarget_ok huphold
  obtain ⟨c, hclose⟩ := h.close_upheld
  obtain ⟨relay', -, hc⟩ := closeDispute_ok hclose
  have hrelay : targetRelay d c = .ok relay := by
    rw [hc]
    exact (targetRelay_congr (by simp)).2 h.relay
  obtain ⟨x1, hreg, hrem⟩ := registrations_eq (E := D.toEvm) h.wf h.room h.room_leaf
  have hfunds := h.funds
  have hword : 3 * 2 ^ 250 < wordSize := by decide
  have hle := Ledger.total_paid_le (l := s.ledger) d.validAttesters (d.bond / 2)
  have hpay := payAttesters_eq (l := s.ledger) d.validAttesters (d.bond / 2) (by omega)
  generalize s.ledger.paid d.validAttesters (d.bond / 2) = l1 at hle hpay
  have hcredit := credit_eq (l := l1) (a := relay) (n := d.bond - d.bond / 2) (by omega)
  unfold resolveSpurious
  simp only [ite_bind, bind_eq_ok, load_eq_ok, pure_eq_ok]
  refine ⟨_, d, h.dispute, c1, huphold, c, ?_, x1, hreg, _, hrem, l1, hpay, relay, hrelay, _, hcredit, rfl⟩
  rw [hc1]
  exact hclose

end Resolvable

theorem bond_le_openBonds {ds : List Dispute} {id : ℕ} {d : Dispute} (hd : ds[id]? = some d)
    (hun : d.resolved = false) : d.bond ≤ openBonds ds := by
  have := openBonds_close hd hun (show Dispute.resolved { d with resolved := true } = true from rfl)
  omega

/-- In a run, the dispute that is about to be decided can be. -/
theorem World.Reachable.resolvable (hw : w.Reachable D) (hether : w.balance < 2 ^ 250) {id : ℕ} {d d' : Dispute}
    (hd : w.relay.court.disputes[id]? = some d) (hun : d.resolved = false) (htype : d'.targetType = d.targetType)
    (htarget : d'.target = d.target) (hbond : d'.bond = d.bond) {relay : Address}
    (hrelay : w.relay.court.relayOf d.target = some relay) {t : Storage}
    (hcourt : t.court = { w.relay.court with disputes := w.relay.court.disputes.set id d' })
    (hx : t.exposure = w.relay.exposure) (hl : t.ledger = w.relay.ledger) : Resolvable D t id d' relay := by
  have hkinds := hw.court.kinds d (List.mem_of_getElem? hd)
  have hdisputed := hw.court.disputed hd hun
  have hrelays : t.court.relays = w.relay.court.relays := by
    rw [hcourt]
    rfl
  have hactive : t.court.relayActiveDisputes = w.relay.court.relayActiveDisputes := by
    rw [hcourt]
  have hopen : t.court.batchOpenLeafDisputes = w.relay.court.batchOpenLeafDisputes := by
    rw [hcourt]
  constructor
  case dispute =>
    rw [hcourt]
    exact List.getElem?_set_self (List.getElem?_eq_some_iff.1 hd).1
  case revoke =>
    refine hw.court.revokeTarget_eq hd hun htype htarget ?_ ?_ ?_ <;> dsimp only [Court.markResolved] <;> rw [hcourt]
  case close_revoked =>
    refine hw.court.closeDispute_eq hd hun htarget ?_ ((Court.counters_revoked _).1.trans hactive)
      ((Court.counters_revoked _).2.trans hopen)
    rw [Court.relays_revoked, Court.relays_markResolved, hrelays]
  case uphold =>
    refine hw.court.upholdTarget_eq hd hun htype htarget ?_
    dsimp only [Court.markResolved]
    rw [hcourt]
  case close_upheld =>
    refine hw.court.closeDispute_eq hd hun htarget ?_ ((Court.counters_upheld _).1.trans hactive)
      ((Court.counters_upheld _).2.trans hopen)
    rw [Court.relays_upheld, Court.relays_markResolved, hrelays]
  case relay =>
    refine (targetRelay_congr hrelays).2 (targetRelay_ok'.2 ?_)
    rw [htarget]
    exact hrelay
  case wf =>
    rw [hx]
    exact hw.registry.wf
  case room =>
    rw [hx]
    exact hw.registry.room hw.court hd hun
  case room_leaf =>
    intro ht hl
    rw [hx] at hl ⊢
    refine hw.registry.room_leaf hw.court ?_ hl
    rw [← Dispute.target_leaf ht, htarget, hdisputed]
    simp
  case funds =>
    have hcovered := hw.covered
    have hle := bond_le_openBonds hd hun
    rw [Storage.liabilities] at hcovered
    rw [hl, hbond]
    omega

/-! ## The calls return -/

/-- A vote can be added to lists of different accounts. -/
theorem Dispute.withVote_eq {d : Dispute} (hfraud : d.fraudAttesters.Nodup) (hvalid : d.validAttesters.Nodup)
    (verdict : Bool) (signer : Address) : d.withVote verdict signer = .ok (d.voted verdict signer) := by
  cases verdict
  · unfold withVote
    rw [if_neg (by decide), push, if_pos (length_lt_of_nodup hvalid)]
    rfl
  · unfold withVote
    rw [if_pos rfl, push, if_pos (length_lt_of_nodup hfraud)]
    rfl

/-- A verifier whose vote is due: it has signed, is registered and staked, has not endorsed the target, and has not
voted in the dispute. -/
structure Eligible (D : Deployment) (w : World) (id : ℕ) (verdict : Bool) (signature : List Byte) (d : Dispute)
    (v : Address) : Prop where
  signed : recover D.toEvm (attestDigest D.toEvm id verdict d) signature = .ok v
  registered : w.relay.roster.isRegisteredVerifier v
  staked : D.verifierStakeAmount ≤ w.relay.ledger.verifierStake v
  independent : w.relay.court.relayOf d.target ≠ some v
  fresh : v ∉ d.fraudAttesters ∧ v ∉ d.validAttesters

namespace World.Reachable

/-- Every deadline is set, as long as the clock is below 64 bits. -/
theorem deadline_pos (hw : w.Reachable D) (htime : w.now + D.challengePeriod < uint64Size) {d : Dispute}
    (hd : d ∈ w.relay.court.disputes) : d.deadline ≠ 0 := by
  obtain ⟨t, hpos, hle, hdeadline⟩ := hw.filingTimes.dispute d hd
  rw [uint64_eq (show t < uint64Size by omega)] at hdeadline
  omega

theorem expire_returns (hw : w.Reachable D) (htime : w.now + D.challengePeriod < uint64Size)
    (hether : w.balance < 2 ^ 250) (hidle : w.openCalls = []) {id : ℕ} {d : Dispute}
    (hd : w.relay.court.disputes[id]? = some d) (hun : d.resolved = false) (hlate : d.deadline < w.now)
    (sender : Address) : ∃ w', w.step D (.call sender 0 (.expireDispute id)) = .ok w' := by
  refine World.step_of_run ?_
  obtain ⟨relay, hrelay⟩ := hw.court.relay_of_dispute (List.mem_of_getElem? hd)
  have hpos := hw.deadline_pos htime (List.mem_of_getElem? hd)
  have hres : Resolvable D { w.relay with guard := 2 } id d relay := by
    refine hw.resolvable hether hd hun rfl rfl rfl hrelay ?_ rfl rfl
    rw [set_self hd]
  obtain ⟨s1, hrevoke⟩ := hres.revoke
  have hs1 := revokeTarget_ok hrevoke
  obtain ⟨c, hclose⟩ : ∃ c, closeDispute d s1.court = .ok c := by
    rw [hs1]
    exact hres.close_revoked
  have hrelease : releaseExposures (targetKey D.toEvm d) s1.exposure =
      .ok (s1.exposure.released (targetKey D.toEvm d)) := by
    rw [hs1]
    exact releaseExposures_eq _ hres.wf
  have hcredit : credit d.challenger (d.bond / 2) s1.ledger = .ok (s1.ledger.credited d.challenger (d.bond / 2)) := by
    have hfunds := hres.funds
    have hword : 3 * 2 ^ 250 < wordSize := by decide
    rw [hs1]
    dsimp only at hfunds ⊢
    exact credit_eq (by omega)
  rw [Call.run, expireDispute]
  simp only [nonReentrant_ok, bind_eq_ok, load_eq_ok, revertIf_eq_ok, pure_eq_ok]
  exact ⟨_, hw.guard_down hidle, _, ⟨d, hd, (), hpos, (), by simp [hun], (), Nat.not_le.2 hlate, s1, hrevoke, c, hclose,
    _, hrelease, _, hcredit, rfl⟩, rfl⟩

theorem attest_returns (hw : w.Reachable D) (hether : w.balance < 2 ^ 250) (hidle : w.openCalls = []) {id : ℕ}
    {d : Dispute} (hd : w.relay.court.disputes[id]? = some d) (hpos : d.deadline ≠ 0) (hun : d.resolved = false)
    (hdue : w.now ≤ d.deadline) {verdict : Bool} {signature : List Byte} {v : Address}
    (hv : Eligible D w id verdict signature d v) (sender : Address) :
    ∃ w', w.step D (.call sender 0 (.submitAttestation id verdict signature)) = .ok w' := by
  refine World.step_of_run ?_
  obtain ⟨relay, hrelay⟩ := hw.court.relay_of_dispute (List.mem_of_getElem? hd)
  have hvotes := hw.votes.each id d hd
  have hindependent : v ≠ relay := by
    rintro rfl
    exact hv.independent hrelay
  have hfresh : ¬ w.relay.hasAttested id v := by
    rw [hvotes.attested, not_or]
    exact hv.fresh
  have hres : Resolvable D (Storage.voted id verdict v d { w.relay with guard := 2 }) id (d.voted verdict v) relay := by
    refine hw.resolvable hether hd hun ?_ (Dispute.target_voted ..) (Dispute.bond_voted ..) hrelay rfl rfl rfl
    cases verdict <;> rfl
  rw [Call.run, submitAttestation]
  simp only [nonReentrant_ok, bind_eq_ok, load_eq_ok, revertIf_eq_ok]
  -- whichever verdict the vote completes, its resolution returns
  have hdecide : ∃ t, (if (d.voted verdict v).fraudAttesters.length ≥ D.quorum then
      resolveFraud D id (Storage.voted id verdict v d { w.relay with guard := 2 })
      else if (d.voted verdict v).validAttesters.length ≥ D.quorum then
        resolveSpurious D id (Storage.voted id verdict v d { w.relay with guard := 2 })
      else return Storage.voted id verdict v d { w.relay with guard := 2 }) = .ok t := by
    split
    · exact hres.resolveFraud_eq
    · split
      · exact hres.resolveSpurious_eq
      · exact ⟨_, rfl⟩
  obtain ⟨t, ht⟩ := hdecide
  exact ⟨_, hw.guard_down hidle, t, ⟨d, hd, (), hpos, (), by simp [hun, hdue, World.env], v, hv.signed, (),
    by simp [hv.registered, hv.staked], relay, targetRelay_ok'.2 hrelay, (), hindependent, (), hfresh, _,
    Dispute.withVote_eq hvotes.fraud_nodup hvotes.valid_nodup verdict v, ht⟩, rfl⟩

theorem finalizeRecord_returns (hw : w.Reachable D) (htime : w.now + D.challengePeriod < uint64Size) {i : ℕ}
    {r : Record} (hr : w.relay.court.records[i]? = some r) (hstate : r.state = .provisional)
    (hwindow : r.submittedAt + D.challengePeriod ≤ w.now) (sender : Address) :
    ∃ w', w.step D (.call sender 0 (.finalizeRecord i)) = .ok w' := by
  refine World.step_of_run ?_
  rw [Call.run, finalizeRecord]
  simp only [bind_eq_ok, load_eq_ok, revertIf_eq_ok, checkedAdd64_eq_ok, store, modifyAt_eq_ok, pure_eq_ok]
  exact ⟨_, r, hr, (), by simp [hstate], _, ⟨by omega, rfl⟩, (), Nat.not_lt.2 hwindow, _, ⟨r, hr, rfl⟩, _,
    releaseExposures_eq _ hw.registry.wf, rfl⟩

theorem finalizeBatch_returns (hw : w.Reachable D) (htime : w.now + D.challengePeriod < uint64Size) {b : ℕ} {bt : Batch}
    (hb : w.relay.court.batches[b]? = some bt) (hstate : bt.state = .provisional)
    (hwindow : bt.submittedAt + D.challengePeriod ≤ w.now) (hquiet : ∀ l, w.relay.court.batchLeafState b l ≠ .disputed)
    (sender : Address) : ∃ w', w.step D (.call sender 0 (.finalizeBatch b)) = .ok w' := by
  refine World.step_of_run ?_
  have hopen : w.relay.court.batchOpenLeafDisputes b = 0 := by
    have hnone : {l | w.relay.court.batchLeafState b l = .disputed} = ∅ :=
      Set.eq_empty_iff_forall_notMem.2 fun l hl => hquiet l hl
    rw [hw.court.open_leaves, hw.court.openOn_batch, hnone, Set.ncard_empty]
  rw [Call.run, finalizeBatch]
  simp only [bind_eq_ok, load_eq_ok, revertIf_eq_ok, checkedAdd64_eq_ok, store, modifyAt_eq_ok, pure_eq_ok]
  exact ⟨_, bt, hb, (), by simp [hstate], _, ⟨by omega, rfl⟩, (), Nat.not_lt.2 hwindow, (), by simp [hopen], _,
    ⟨bt, hb, rfl⟩, _, foldlM_releaseExposures_eq _ _ _ hw.registry.wf, rfl⟩

end World.Reachable

/-! ## What the calls achieve -/

/-- A vote is that of the verifier who has signed it. -/
theorem Voting.same {verdict : Bool} {signature : List Byte} {signer v : Address} {d e : Dispute} {relay : Address}
    (h : Voting D env s id verdict signature signer e relay) (hd : s.court.disputes[id]? = some d)
    (hsigned : recover D.toEvm (attestDigest D.toEvm id verdict d) signature = .ok v) : d = e ∧ v = signer := by
  obtain rfl := Option.some.inj (hd.symm.trans h.dispute)
  exact ⟨rfl, Except.ok.inj (hsigned.symm.trans h.signed)⟩

/-- An expiry resolves its dispute and revokes the target. -/
theorem Effect.expire_resolves (he : Effect D env s (.expireDispute id) s') (hcourt : s.court.Inv s.verdicts)
    {d : Dispute} (hd : s.court.disputes[id]? = some d) :
    s'.court.disputes[id]? = some { d with resolved := true } ∧ s'.court.phase d.target = .revoked := by
  cases he with
  | @expire _ _ e relay hexp =>
    obtain rfl := Option.some.inj (hexp.dispute.symm.trans hd)
    constructor
    · dsimp only [Storage.afterExpiry]
      rw [Court.disputes_closed]
      exact List.getElem?_set_self (List.getElem?_eq_some_iff.1 hd).1
    · have hphase := hcourt.phase_closed D hd hexp.unresolved hexp.endorsed e.fraudAttesters e.validAttesters .expired
      dsimp only [Storage.afterExpiry]
      rw [hphase, Function.update_self]
      rfl

/-- A vote is recorded, and resolves its dispute when a side reaches the quorum with it. -/
theorem Effect.attest_recorded {verdict : Bool} {signature : List Byte}
    (he : Effect D env s (.submitAttestation id verdict signature) s') {d : Dispute}
    (hd : s.court.disputes[id]? = some d) {v : Address}
    (hsigned : recover D.toEvm (attestDigest D.toEvm id verdict d) signature = .ok v) :
    ∃ resolved : Bool, s'.court.disputes[id]? = some { d.voted verdict v with resolved } ∧
      (resolved ↔ D.quorum ≤ (d.voted verdict v).fraudAttesters.length ∨
        D.quorum ≤ (d.voted verdict v).validAttesters.length) := by
  have hlt := (List.getElem?_eq_some_iff.1 hd).1
  cases he with
  | vote _ hvote hfraud hvalid =>
    obtain ⟨rfl, rfl⟩ := hvote.same hd hsigned
    have hopen := (Dispute.resolved_voted verdict v d).trans hvote.unresolved
    refine ⟨false, (List.getElem?_set_self hlt).trans ?_, by simp [hfraud, hvalid]⟩
    rw [← hopen]
  | fraud _ hvote hfull =>
    obtain ⟨rfl, rfl⟩ := hvote.same hd hsigned
    refine ⟨true, ?_, by simp [hfull]⟩
    dsimp only [Storage.afterFraud]
    rw [Storage.disputes_voted_closed]
    exact List.getElem?_set_self hlt
  | spurious _ hvote _ hfull =>
    obtain ⟨rfl, rfl⟩ := hvote.same hd hsigned
    refine ⟨true, ?_, by simp [hfull]⟩
    dsimp only [Storage.afterSpurious]
    rw [Storage.disputes_voted_closed]
    exact List.getElem?_set_self hlt

theorem Effect.record_confirmed {i : ℕ} (he : Effect D env s (.finalizeRecord i) s') {r : Record}
    (hr : s.court.records[i]? = some r) : s'.court.records[i]? = some { r with state := .confirmed } := by
  cases he with
  | finalizeRecord _ hr' =>
    obtain rfl := Option.some.inj (hr'.symm.trans hr)
    exact List.getElem?_set_self (List.getElem?_eq_some_iff.1 hr).1

theorem Effect.batch_confirmed {b : ℕ} (he : Effect D env s (.finalizeBatch b) s') {bt : Batch}
    (hb : s.court.batches[b]? = some bt) : s'.court.batches[b]? = some { bt with state := .confirmed } := by
  cases he with
  | finalizeBatch _ hb' =>
    obtain rfl := Option.some.inj (hb'.symm.trans hb)
    exact List.getElem?_set_self (List.getElem?_eq_some_iff.1 hb).1

/-! ## Progress -/

/-- What `submitAttestation` asks of a dispute. -/
def Dispute.Attestable (now : ℕ) (d : Dispute) : Prop := d.deadline ≠ 0 ∧ d.resolved = false ∧ now ≤ d.deadline

/-- What `expireDispute` asks of a dispute. -/
def Dispute.Expirable (now : ℕ) (d : Dispute) : Prop := d.deadline ≠ 0 ∧ d.resolved = false ∧ d.deadline < now

/-- What is promised of the calls that can be made in the world `w` of a run. -/
structure Progress (D : Deployment) (w : World) : Prop where
  one_way : ∀ (id : ℕ) (d : Dispute), w.relay.court.disputes[id]? = some d → d.resolved = false →
    Xor (d.Attestable w.now) (d.Expirable w.now)
  expire : ∀ (sender : Address) (id : ℕ) (d : Dispute), w.relay.court.disputes[id]? = some d → d.Expirable w.now →
    ∃ w', w.step D (.call sender 0 (.expireDispute id)) = .ok w' ∧
      w'.relay.court.disputes[id]? = some { d with resolved := true } ∧ w'.relay.court.phase d.target = .revoked
  /-- A vote that is due is recorded, and one that fills a side resolves the dispute. -/
  attest : ∀ (sender : Address) (id : ℕ) (d : Dispute), w.relay.court.disputes[id]? = some d → d.Attestable w.now →
    ∀ (verdict : Bool) (signature : List Byte) (v : Address), Eligible D w id verdict signature d v →
      ∃ w', w.step D (.call sender 0 (.submitAttestation id verdict signature)) = .ok w' ∧
        ∃ resolved : Bool, w'.relay.court.disputes[id]? = some { d.voted verdict v with resolved } ∧
          (resolved ↔ D.quorum ≤ (d.voted verdict v).fraudAttesters.length ∨
            D.quorum ≤ (d.voted verdict v).validAttesters.length)
  finalizeRecord : ∀ (sender : Address) (i : ℕ) (r : Record), w.relay.court.records[i]? = some r →
    r.state = .provisional → r.submittedAt + D.challengePeriod ≤ w.now →
      ∃ w', w.step D (.call sender 0 (.finalizeRecord i)) = .ok w' ∧
        w'.relay.court.records[i]? = some { r with state := .confirmed }
  finalizeBatch : ∀ (sender : Address) (b : ℕ) (bt : Batch), w.relay.court.batches[b]? = some bt →
    bt.state = .provisional → bt.submittedAt + D.challengePeriod ≤ w.now →
      (∀ l, w.relay.court.batchLeafState b l ≠ .disputed) →
        ∃ w', w.step D (.call sender 0 (.finalizeBatch b)) = .ok w' ∧
          w'.relay.court.batches[b]? = some { bt with state := .confirmed }

/-- **Resolution can never get stuck.** -/
theorem progress {D : Deployment} {w : World} (hw : w.Reachable D) (htime : w.now + D.challengePeriod < uint64Size)
    (hether : w.balance < 2 ^ 250) (hidle : w.openCalls = []) : Progress D w where
  one_way := fun id d hd hun => by
    have hpos := hw.deadline_pos htime (List.mem_of_getElem? hd)
    rcases Nat.lt_or_ge d.deadline w.now with hlt | hge
    · exact .inr ⟨⟨hpos, hun, hlt⟩, fun h => absurd h.2.2 (Nat.not_le.2 hlt)⟩
    · exact .inl ⟨⟨hpos, hun, hge⟩, fun h => absurd h.2.2 (Nat.not_lt.2 hge)⟩
  expire := fun sender id d hd h => by
    obtain ⟨w', hs⟩ := hw.expire_returns htime hether hidle hd h.2.1 h.2.2 sender
    obtain ⟨t, he, rfl⟩ := World.call_effect hs
    exact ⟨_, hs, he.expire_resolves hw.court hd⟩
  attest := fun sender id d hd h verdict signature v hv => by
    obtain ⟨w', hs⟩ := hw.attest_returns hether hidle hd h.1 h.2.1 h.2.2 hv sender
    obtain ⟨t, he, rfl⟩ := World.call_effect hs
    exact ⟨_, hs, he.attest_recorded hd hv.signed⟩
  finalizeRecord := fun sender i r hr hstate hwindow => by
    obtain ⟨w', hs⟩ := hw.finalizeRecord_returns htime hr hstate hwindow sender
    obtain ⟨t, he, rfl⟩ := World.call_effect hs
    exact ⟨_, hs, he.record_confirmed hr⟩
  finalizeBatch := fun sender b bt hb hstate hwindow hquiet => by
    obtain ⟨w', hs⟩ := hw.finalizeBatch_returns htime hb hstate hwindow hquiet sender
    obtain ⟨t, he, rfl⟩ := World.call_effect hs
    exact ⟨_, hs, he.batch_confirmed hb⟩

/-- In a run with a leaf under dispute, at its deadline. -/
theorem progress_toy : Progress (Deployment.toy 2) Toy.world := by
  obtain ⟨htime, hether, hidle⟩ : Toy.world.now + (Deployment.toy 2).challengePeriod < uint64Size ∧
      Toy.world.balance < 2 ^ 250 ∧ Toy.world.openCalls = [] := by decide +kernel
  exact progress Toy.world_reachable htime hether hidle

end PqIotAuth
