import PqIotAuth.Votes

/-!
# Who vouches for a target

A verifier vouches for a target once a dispute on the target has been resolved in which it voted "valid". What a call
does to the phases of the targets, to who vouches for them and to the exposures is one of five things
(`ExposureChange`, `Effect.exposure`): nothing, the confirmation of a record, that of a batch, a verdict that upholds a
target and registers those who vouch for it, or a verdict that revokes it and releases them.

The exposures are kept under the hash of a target. `KeysInjective` says that no two targets share it.
-/

namespace PqIotAuth

open Lib

/-! ## Keys of targets -/

/-- The bytes that the key of a target is the hash of. -/
def targetPreimages : Set (List Byte) :=
  {p | ∃ targetType targetIndex leafIndex, targetType < 256 ∧ targetIndex < wordSize ∧ leafIndex < wordSize ∧
    p = uint8Bytes targetType ++ uint256Bytes targetIndex ++ uint256Bytes leafIndex}

/-- `keccak256` is injective on the target keys. -/
def KeysInjective (E : Evm) : Prop := Set.InjOn E.keccak256 targetPreimages

theorem KeysInjective.of_injective {E : Evm} (h : Function.Injective E.keccak256) : KeysInjective E := h.injOn

theorem KeysInjective.packedKey_inj {E : Evm} (h : KeysInjective E) {a b c a' b' c' : ℕ} (ha : a < 256)
    (hb : b < wordSize) (hc : c < wordSize) (ha' : a' < 256) (hb' : b' < wordSize) (hc' : c' < wordSize)
    (heq : packedKey E a b c = packedKey E a' b' c') : a = a' ∧ b = b' ∧ c = c' := by
  have hpre := h ⟨a, b, c, ha, hb, hc, rfl⟩ ⟨a', b', c', ha', hb', hc', rfl⟩ heq
  obtain ⟨hab, h3⟩ := List.append_inj hpre (by simp)
  obtain ⟨h1, h2⟩ := List.append_inj hab (by simp)
  exact ⟨uint8Bytes_inj ha ha' h1, uint256Bytes_inj hb hb' h2, uint256Bytes_inj hc hc' h3⟩

namespace Target

/-- The key under which the exposures to a target are kept. -/
def key (E : Evm) : Target → Bytes32
  | record i => packedKey E 0 i 0
  | leaf b l => packedKey E 1 b l

/-- Its indices are `uint256`. -/
def InRange : Target → Prop
  | record i => i < wordSize
  | leaf b l => b < wordSize ∧ l < wordSize

theorem key_inj {E : Evm} (h : KeysInjective E) {t t' : Target} (ht : t.InRange) (ht' : t'.InRange)
    (heq : t.key E = t'.key E) : t = t' := by
  have hpos : 0 < wordSize := by decide
  cases t with
  | record i =>
    cases t' with
    | record i' =>
      obtain ⟨-, rfl, -⟩ := h.packedKey_inj (by decide) ht hpos (by decide) ht' hpos heq
      rfl
    | leaf b' l' =>
      obtain ⟨h0, -, -⟩ := h.packedKey_inj (by decide) ht hpos (by decide) ht'.1 ht'.2 heq
      exact absurd h0 (by decide)
  | leaf b l =>
    cases t' with
    | record i' =>
      obtain ⟨h0, -, -⟩ := h.packedKey_inj (by decide) ht.1 ht.2 (by decide) ht' hpos heq
      exact absurd h0 (by decide)
    | leaf b' l' =>
      obtain ⟨-, rfl, rfl⟩ := h.packedKey_inj (by decide) ht.1 ht.2 (by decide) ht'.1 ht'.2 heq
      rfl

end Target

/-! ## Final targets -/

/-- No more disputes and no more verdicts. -/
def Lib.Phase.Final (p : Phase) : Prop := p = .revoked ∨ p = .confirmed

namespace Court

variable {c c' : Court} {vs : List (ℕ × Verdict)}

/-- A dispute on `t` has been resolved in which `v` voted "valid". -/
def Vouches (c : Court) (t : Target) (v : Address) : Prop :=
  ∃ d ∈ c.disputes, d.target = t ∧ d.resolved ∧ v ∈ d.validAttesters

theorem Inv.inRange (h : c.Inv vs) {t : Target} (ht : c.phase t ≠ .absent) : t.InRange := by
  cases t with
  | record i =>
    obtain ⟨r, hr⟩ := record_of_phase ht
    exact (List.getElem?_eq_some_iff.1 hr).1.trans h.records_length
  | leaf b l =>
    obtain ⟨bt, hb, hl⟩ := leaf_of_phase ht
    exact ⟨(List.getElem?_eq_some_iff.1 hb).1.trans h.batches_length, hl.trans (h.leaf_count b bt hb)⟩

theorem Inv.filed (h : c.Inv vs) {d : Dispute} (hd : d ∈ c.disputes) : c.phase d.target ≠ .absent := by
  obtain ⟨id, hid⟩ := List.mem_iff_getElem?.1 hd
  exact h.docket.filed (docket_case.2 ⟨d, hid, rfl, rfl⟩)

theorem Inv.filed_of_vouches (h : c.Inv vs) {t : Target} {v : Address} (hv : c.Vouches t v) : c.phase t ≠ .absent := by
  obtain ⟨d, hd, rfl, -, -⟩ := hv
  exact h.filed hd

theorem Inv.not_disputed_of_batch (h : c.Inv vs) {b : ℕ} (hopen : c.batchOpenLeafDisputes b = 0) {t : Target}
    (ht : t.batch = some b) : c.phase t ≠ .disputed := by
  intro hp
  cases t with
  | record i => cases ht
  | leaf b' l =>
    obtain rfl := Option.some.inj ht
    obtain ⟨bt, hb, hl⟩ := leaf_of_phase (c := c) (b := b') (l := l) (by rw [hp]; simp)
    rw [phase_leaf hb hl, LeafState.phase_eq_disputed] at hp
    exact h.no_leaf_disputed hopen l hp

/-- The key of a dispute is the key of its target. -/
theorem Inv.targetKey_eq (h : c.Inv vs) (E : Evm) {d : Dispute} (hd : d ∈ c.disputes) :
    targetKey E d = d.target.key E := by
  unfold targetKey
  rcases h.kinds d hd with ⟨ht, hl⟩ | ht
  · rw [Dispute.target_record ht, ht, hl]
    rfl
  · rw [Dispute.target_leaf ht, ht]
    rfl

/-- Who vouches after an unresolved dispute has been written: those of before, and those of the dispute if it is
resolved now. -/
theorem vouches_set {id : ℕ} {d d' : Dispute} (hd : c.disputes[id]? = some d) (hun : d.resolved = false)
    (htarget : d'.target = d.target) (hds : c'.disputes = c.disputes.set id d') (t : Target) (v : Address) :
    c'.Vouches t v ↔ c.Vouches t v ∨ d'.resolved ∧ t = d.target ∧ v ∈ d'.validAttesters := by
  unfold Vouches
  rw [hds]
  constructor
  · rintro ⟨x, hx, hxt, hxr, hxv⟩
    obtain ⟨i, hi⟩ := List.mem_iff_getElem?.1 hx
    rcases (getElem?_set_some hd).1 hi with ⟨-, rfl⟩ | ⟨-, hi⟩
    · exact .inr ⟨hxr, by rw [← hxt, htarget], hxv⟩
    · exact .inl ⟨x, List.mem_of_getElem? hi, hxt, hxr, hxv⟩
  · rintro (⟨x, hx, hxt, hxr, hxv⟩ | ⟨hr, rfl, hv⟩)
    · obtain ⟨i, hi⟩ := List.mem_iff_getElem?.1 hx
      have hne : i ≠ id := by
        rintro rfl
        obtain rfl := Option.some.inj (hd.symm.trans hi)
        rw [hun] at hxr
        cases hxr
      exact ⟨x, List.mem_of_getElem? ((getElem?_set_some hd).2 (.inr ⟨hne, hi⟩)), hxt, hxr, hxv⟩
    · exact ⟨d', List.mem_of_getElem? ((getElem?_set_some hd).2 (.inl ⟨rfl, rfl⟩)), htarget, hr, hv⟩

theorem vouches_close {id : ℕ} {d d' : Dispute} (hd : c.disputes[id]? = some d) (hun : d.resolved = false)
    (htarget : d'.target = d.target) (hds : c'.disputes = c.disputes.set id { d' with resolved := true }) (t : Target)
    (v : Address) : c'.Vouches t v ↔ c.Vouches t v ∨ t = d.target ∧ v ∈ d'.validAttesters := by
  have h := vouches_set hd hun (show Dispute.target { d' with resolved := true } = d.target from htarget) hds t v
  simpa using h

theorem vouches_append {d : Dispute} (hd : d.resolved = false) (hds : c'.disputes = c.disputes ++ [d]) (t : Target)
    (v : Address) : c'.Vouches t v ↔ c.Vouches t v := by
  unfold Vouches
  rw [hds]
  constructor
  · rintro ⟨x, hx, hxt, hxr, hxv⟩
    rcases List.mem_append.1 hx with hx | hx
    · exact ⟨x, hx, hxt, hxr, hxv⟩
    · rw [List.mem_singleton.1 hx, hd] at hxr
      cases hxr
  · rintro ⟨x, hx, hxt, hxr, hxv⟩
    exact ⟨x, List.mem_append_left _ hx, hxt, hxr, hxv⟩

end Court

/-! ## How a call changes the exposures -/

/-- The leaf that a target is, remembered. -/
def Exposure.rememberedTarget : Target → Exposure → Exposure
  | .record _, x => x
  | .leaf b l, x => x.remembered b l

/-- What a call does to the final targets, to who vouches for which target, and to the exposures. -/
inductive ExposureChange (E : Evm) (s s' : Storage) : Prop
  | quiet (hx : s'.exposure = s.exposure) (hfinal : ∀ t, (s'.court.phase t).Final ↔ (s.court.phase t).Final)
      (hv : ∀ t v, s'.court.Vouches t v ↔ s.court.Vouches t v)
  | recordConfirmed {i : ℕ} (hi : (Target.record i).InRange) (hx : s'.exposure = s.exposure.afterFinalizeRecord E i)
      (hfinal : ∀ t, (s'.court.phase t).Final ↔ (s.court.phase t).Final ∨ t = .record i)
      (hv : ∀ t v, s'.court.Vouches t v ↔ s.court.Vouches t v)
  | batchConfirmed {b : ℕ} (hx : s'.exposure = s.exposure.afterFinalizeBatch E b)
      (hfinal : ∀ t, (s'.court.phase t).Final ↔
        (s.court.phase t).Final ∨ t.batch = some b ∧ s.court.phase t ≠ .absent)
      (hv : ∀ t v, s'.court.Vouches t v ↔ s.court.Vouches t v)
  | upheld {t : Target} (ht : s.court.phase t = .disputed) (va : List Address)
      (hregistry : s'.exposure.registry = s.exposure.registry.enterAll (t.key E) va)
      (hleaves : s'.exposure.exposedLeaves = (s.exposure.rememberedTarget t).exposedLeaves)
      (hfinal : ∀ u, (s'.court.phase u).Final ↔ (s.court.phase u).Final)
      (hv : ∀ u v, s'.court.Vouches u v ↔ s.court.Vouches u v ∨ u = t ∧ v ∈ va)
  | revoked {t : Target} (ht : s.court.phase t = .disputed) (va : List Address)
      (hregistry : s'.exposure.registry = (s.exposure.registry.enterAll (t.key E) va).release (t.key E))
      (hleaves : s'.exposure.exposedLeaves = s.exposure.exposedLeaves ∨
        s'.exposure.exposedLeaves = (s.exposure.rememberedTarget t).exposedLeaves)
      (hfinal : ∀ u, (s'.court.phase u).Final ↔ (s.court.phase u).Final ∨ u = t)
      (hv : ∀ u v, u ≠ t → (s'.court.Vouches u v ↔ s.court.Vouches u v))

variable {D : Deployment} {env : Env} {s s' : Storage} {call : Call}

theorem Exposure.exposedLeaves_afterSpurious_target {E : Evm} {x : Exposure} {d : Dispute}
    (hkind : d.targetType = 0 ∧ d.leafIndex = 0 ∨ d.targetType = 1) :
    (x.afterSpurious E d).exposedLeaves = (x.rememberedTarget d.target).exposedLeaves := by
  funext b
  rw [exposedLeaves_afterSpurious]
  rcases hkind with ⟨ht, -⟩ | ht
  · rw [if_neg (by omega), Dispute.target_record ht]
    rfl
  · rw [if_pos ht, Dispute.target_leaf ht]
    rfl

/-- The phases after a verdict. -/
theorem Court.Inv.phase_closed (D : Deployment) {c : Court} {vs : List (ℕ × Verdict)} (h : c.Inv vs) {id : ℕ}
    {d : Dispute} {relay : Address} (hd : c.disputes[id]? = some d) (hun : d.resolved = false)
    (hrelay : targetRelay d c = .ok relay) (fa va : List Address) (v : Verdict) :
    (c.closed id { d with fraudAttesters := fa, validAttesters := va } relay v).phase =
      Function.update c.phase d.target v.phase := by
  have hs : CourtStep D 0 c _ _ := h.closed_step hd hun hrelay fa va v
  obtain ⟨t, ht, hphase⟩ := (hs.docket h).closed rfl
  obtain ⟨d', hd', rfl, -⟩ := docket_case.1 ht
  obtain rfl := Option.some.inj (hd.symm.trans hd')
  exact hphase

/-- The phases after the verdict that a vote completes. -/
theorem Court.Inv.phase_voted_closed (h : s.court.Inv s.verdicts) {id : ℕ} {verdict : Bool} {signature : List Byte}
    {signer : Address} {d : Dispute} {relay : Address} (hvote : Voting D env s id verdict signature signer d relay)
    (v : Verdict) :
    ((s.voted id verdict signer d).court.closed id (d.voted verdict signer) relay v).phase =
      Function.update s.court.phase d.target v.phase := by
  obtain ⟨fa, va, e⟩ := Dispute.voted_eq verdict signer d
  dsimp only [Storage.voted]
  rw [Court.closed_voted, e]
  exact h.phase_closed D hvote.dispute hvote.unresolved hvote.endorsed fa va v

theorem Lib.Phase.final_confirmed : Phase.Final .confirmed := .inr rfl

theorem Lib.Phase.final_revoked : Phase.Final .revoked := .inl rfl

theorem Lib.Phase.not_final_disputed : ¬ Phase.Final .disputed := by
  rintro (h | h) <;> cases h

theorem Lib.Phase.not_final_absent : ¬ Phase.Final .absent := by
  rintro (h | h) <;> cases h

theorem Lib.Phase.not_final_undecided : ¬ Phase.Final .undecided := by
  rintro (h | h) <;> cases h

theorem not_final_of_disputed {p : Phase} (h : p = .disputed) : ¬ p.Final := h ▸ Phase.not_final_disputed

theorem Court.Inv.kinds_voted (h : s.court.Inv s.verdicts) {id : ℕ} {verdict : Bool} {signature : List Byte}
    {signer : Address} {d : Dispute} {relay : Address} (hvote : Voting D env s id verdict signature signer d relay) :
    (d.voted verdict signer).targetType = 0 ∧ (d.voted verdict signer).leafIndex = 0 ∨
      (d.voted verdict signer).targetType = 1 := by
  have := h.kinds d (List.mem_of_getElem? hvote.dispute)
  cases verdict <;> exact this

theorem Court.Inv.targetKey_voted (h : s.court.Inv s.verdicts) (E : Evm) {id : ℕ} {verdict : Bool}
    {signature : List Byte} {signer : Address} {d : Dispute} {relay : Address}
    (hvote : Voting D env s id verdict signature signer d relay) :
    targetKey E (d.voted verdict signer) = d.target.key E := by
  rw [← h.targetKey_eq E (List.mem_of_getElem? hvote.dispute)]
  cases verdict <;> rfl

/-- A target that was not final gets the phase `p`. -/
theorem final_update {f : Target → Phase} {t : Target} {p : Phase} (ht : ¬ (f t).Final) (u : Target) :
    (Function.update f t p u).Final ↔ (f u).Final ∨ u = t ∧ p.Final := by
  by_cases hu : u = t
  · subst hu
    simp [ht]
  · simp [hu]

/-- A target is filed: none becomes final. -/
theorem final_of_filed {f g : Target → Phase} (h : ∀ t, g t = f t ∨ f t = .absent ∧ g t = .undecided) (t : Target) :
    (g t).Final ↔ (f t).Final := by
  rcases h t with e | ⟨e, e'⟩
  · rw [e]
  · rw [e, e']
    exact iff_of_false Phase.not_final_undecided Phase.not_final_absent

/-- **What a call does to the exposures.** -/
theorem Effect.exposure (h : s.court.Inv s.verdicts) (he : Effect D env s call s') :
    ExposureChange D.toEvm s s' := by
  cases he with
  | stakeRelay | announceUnstake | unstakeRelay | stakeVerifier | joinVerifier | announceVerifierUnstake
  | unstakeVerifier | deregisterVerifier =>
    exact .quiet rfl (fun _ => Iff.rfl) fun _ _ => Iff.rfl
  | submitAccountable _ _ _ _ _ _ _ _ _ r hr =>
    refine .quiet rfl (final_of_filed ?_) fun _ _ => Iff.rfl
    exact Court.phase_submitRecord (hr ▸ rfl)
  | submitBatch _ _ _ _ _ _ _ _ _ _ _ _ bt hbt =>
    refine .quiet rfl (final_of_filed ?_) fun _ _ => Iff.rfl
    exact h.phase_submitBatch (hbt ▸ rfl)
  | @finalizeRecord _ i r hr hstate =>
    have hphase : s.court.phase (.record i) = .undecided := by
      rw [Court.phase_record hr, hstate]
      rfl
    refine .recordConfirmed (i := i) (h.inRange (by rw [hphase]; simp)) rfl (fun t => ?_) fun _ _ => Iff.rfl
    dsimp only [Storage.emit]
    rw [Court.phase_recordState hr, final_update (hphase ▸ Phase.not_final_undecided)]
    exact or_congr_right (and_iff_left Phase.final_confirmed)
  | @finalizeBatch _ b bt hb hstate _ hopen =>
    refine .batchConfirmed (b := b) rfl (fun t => ?_) fun _ _ => Iff.rfl
    dsimp only [Storage.emit]
    rw [h.phase_confirmBatch hb hstate hopen]
    by_cases htb : t.batch = some b
    · cases hp : s.court.phase t with
      | undecided => simp [htb, Phase.final_confirmed]
      | absent | revoked | confirmed => simp [htb, Phase.Final]
      | disputed => exact absurd hp (h.not_disputed_of_batch hopen htb)
    · simp [htb]
  | @openDispute _ i r hr hstate =>
    refine .quiet rfl (fun t => ?_) (Court.vouches_append (d := newDispute D env 0 i 0) rfl rfl)
    have hphase : s.court.phase (.record i) = .undecided := by
      rw [Court.phase_record hr, hstate]
      rfl
    dsimp only [Storage.emit]
    rw [Court.phase_opened, Court.phase_recordState hr, final_update (hphase ▸ Phase.not_final_undecided)]
    exact or_iff_left fun h => Phase.not_final_disputed h.2
  | @openBatchLeafDispute _ b l bt _ _ _ _ _ hb hstate hl hleaf =>
    refine .quiet rfl (fun t => ?_) (Court.vouches_append (d := newDispute D env 1 b l) rfl rfl)
    have hphase : ¬ (s.court.phase (.leaf b l)).Final := by
      rw [Court.phase_leaf hb hl, hstate]
      cases hls : s.court.batchLeafState b l with
      | undisputed | upheld => exact Phase.not_final_undecided
      | disputed => exact absurd hls hleaf.1
      | revoked => exact absurd hls hleaf.2
    dsimp only [Storage.emit]
    rw [Court.phase_opened, Court.phase_leafOpened hb hl, final_update hphase]
    exact or_iff_left fun h => Phase.not_final_disputed h.2
  | @vote _ id verdict _ signer d _ hvote =>
    refine .quiet rfl (fun _ => Iff.rfl) fun t v => ?_
    have hun : (d.voted verdict signer).resolved = false := by
      rw [Dispute.resolved_voted, hvote.unresolved]
    rw [Court.vouches_set hvote.dispute hvote.unresolved (Dispute.target_voted ..) rfl, hun]
    simp
  | @fraud _ id verdict _ signer d relay hvote =>
    refine .revoked (h.disputed hvote.dispute hvote.unresolved) (d.voted verdict signer).validAttesters ?_ (.inr ?_)
      (fun u => ?_) fun u v hu => ?_
    · rw [← h.targetKey_voted _ hvote]
      exact Exposure.registry_afterFraud ..
    · rw [← Dispute.target_voted verdict signer d]
      exact Exposure.exposedLeaves_afterSpurious_target (h.kinds_voted hvote)
    · dsimp only [Storage.afterFraud]
      rw [h.phase_voted_closed hvote, final_update (not_final_of_disputed (h.disputed hvote.dispute hvote.unresolved))]
      exact or_congr_right (and_iff_left Phase.final_revoked)
    · dsimp only [Storage.afterFraud]
      rw [Court.vouches_close hvote.dispute hvote.unresolved (Dispute.target_voted ..)
        (s.disputes_voted_closed id verdict signer d relay .fraud)]
      exact or_iff_left fun h => hu h.1
  | @spurious _ id verdict _ signer d relay hvote =>
    refine .upheld (h.disputed hvote.dispute hvote.unresolved) (d.voted verdict signer).validAttesters ?_ ?_
      (fun u => ?_) fun u v => ?_
    · rw [← h.targetKey_voted _ hvote]
      exact Exposure.registry_afterSpurious ..
    · rw [← Dispute.target_voted verdict signer d]
      exact Exposure.exposedLeaves_afterSpurious_target (h.kinds_voted hvote)
    · dsimp only [Storage.afterSpurious]
      rw [h.phase_voted_closed hvote, final_update (not_final_of_disputed (h.disputed hvote.dispute hvote.unresolved))]
      exact or_iff_left fun h => Phase.not_final_undecided h.2
    · exact Court.vouches_close hvote.dispute hvote.unresolved (Dispute.target_voted ..)
        (s.disputes_voted_closed id verdict signer d relay .spurious) u v
  | @expire _ id d relay hexp =>
    refine .revoked (h.disputed hexp.dispute hexp.unresolved) [] ?_ (.inl rfl) (fun u => ?_) fun u v hu => ?_
    · rw [← h.targetKey_eq D.toEvm (List.mem_of_getElem? hexp.dispute)]
      rfl
    · have hphase := h.phase_closed D hexp.dispute hexp.unresolved hexp.endorsed d.fraudAttesters d.validAttesters
        .expired
      dsimp only [Storage.afterExpiry]
      rw [hphase, final_update (not_final_of_disputed (h.disputed hexp.dispute hexp.unresolved))]
      exact or_congr_right (and_iff_left Phase.final_revoked)
    · dsimp only [Storage.afterExpiry]
      rw [Court.vouches_close hexp.dispute hexp.unresolved rfl (s.court.disputes_closed id d relay .expired)]
      exact or_iff_left fun h => hu h.1

end PqIotAuth
