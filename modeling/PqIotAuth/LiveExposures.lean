import PqIotAuth.Lifecycle
import PqIotAuth.Relay.Vouching

/-!
# Live exposures

`ExposureInv` is what every run keeps about the exposures, with no two targets sharing a key: the list of a target that
is not final holds exactly those who vouch for it, and so do its flags; the list of a final target is empty; and the
leaves with an entry are remembered. From it, `exposure_exact`: the live exposure of a verifier is the number of targets
it stands in for, no release ever underflows, and no key that has been released is registered to again.
-/

namespace PqIotAuth

open Lib

/-! ## Remembered leaves -/

section Remembered

variable {x : Exposure} {t : Target}

theorem Exposure.mem_rememberedTarget {b l : ℕ} :
    l ∈ (x.rememberedTarget t).exposedLeaves b ↔ l ∈ x.exposedLeaves b ∨ t = .leaf b l := by
  cases t with
  | record i => simp [rememberedTarget]
  | leaf b' l' =>
    rw [rememberedTarget, exposedLeaves_remembered, Target.leaf.injEq]
    by_cases hb : b = b'
    · subst hb
      by_cases hl : l' ∈ x.exposedLeaves b
      · rw [if_neg fun h => h.2 hl]
        constructor
        · exact .inl
        · rintro (h | ⟨-, rfl⟩)
          · exact h
          · exact hl
      · rw [if_pos ⟨rfl, hl⟩, List.mem_append, List.mem_singleton]
        simp [eq_comm]
    · rw [if_neg fun h => hb h.1]
      simp [Ne.symm hb]

theorem Exposure.nodup_rememberedTarget (h : ∀ b, (x.exposedLeaves b).Nodup) (b : ℕ) :
    ((x.rememberedTarget t).exposedLeaves b).Nodup := by
  cases t with
  | record i => exact h b
  | leaf b' l' =>
    rw [rememberedTarget, exposedLeaves_remembered]
    split
    · rename_i hnew
      rw [List.nodup_append]
      refine ⟨h b', List.nodup_singleton _, ?_⟩
      intro u hu v hv
      rw [List.mem_singleton.1 hv]
      exact ne_of_mem_of_not_mem hu hnew.2
    · exact h b

end Remembered

/-! ## What every run keeps -/

/-- What is kept whether or not targets share keys. -/
structure RegistryInv (E : Evm) (s : Storage) : Prop where
  wf : s.exposure.registry.Wf
  /-- Who is listed vouches for some target with that key. -/
  keyed : ∀ k v, v ∈ s.exposure.registry.list k → ∃ t : Target, s.court.Vouches t v ∧ k = t.key E
  leaves_nodup : ∀ b, (s.exposure.exposedLeaves b).Nodup
  leaves_filed : ∀ b l, l ∈ s.exposure.exposedLeaves b → s.court.phase (.leaf b l) ≠ .absent

/-- What is kept when no two targets share a key. -/
structure ExposureInv (E : Evm) (s : Storage) : Prop where
  listed : ∀ t : Target, t.InRange → ¬ (s.court.phase t).Final →
    ∀ v, v ∈ s.exposure.registry.list (t.key E) ↔ s.court.Vouches t v
  flagged : ∀ t : Target, t.InRange → ¬ (s.court.phase t).Final →
    ∀ v, s.exposure.registry.has (t.key E) v ↔ v ∈ s.exposure.registry.list (t.key E)
  released : ∀ t : Target, t.InRange → (s.court.phase t).Final → ∀ v, v ∉ s.exposure.registry.list (t.key E)
  leaves_all : ∀ b l v, (Target.leaf b l).InRange → v ∈ s.exposure.registry.list ((Target.leaf b l).key E) →
    l ∈ s.exposure.exposedLeaves b

variable {E : Evm} {s s' : Storage}

namespace RegistryInv

theorem init : RegistryInv E Storage.init where
  wf := Register.wf_empty
  keyed := fun k v h => by cases h
  leaves_nodup := fun b => List.nodup_nil
  leaves_filed := fun b l h => by cases h

/-- What is kept about the remembered leaves. -/
theorem leaves_kept (h : RegistryInv E s) (hmove : ∀ t, Phase.Move (s.court.phase t) (s'.court.phase t))
    (he : s'.exposure.exposedLeaves = s.exposure.exposedLeaves) :
    (∀ b, (s'.exposure.exposedLeaves b).Nodup) ∧
      ∀ b l, l ∈ s'.exposure.exposedLeaves b → s'.court.phase (.leaf b l) ≠ .absent := by
  rw [he]
  exact ⟨h.leaves_nodup, fun b l hl => (hmove _).ne_absent (h.leaves_filed b l hl)⟩

/-- The target that is being decided is remembered. -/
theorem leaves_remembered (h : RegistryInv E s) (hmove : ∀ t, Phase.Move (s.court.phase t) (s'.court.phase t))
    {t : Target} (ht : s.court.phase t = .disputed)
    (he : s'.exposure.exposedLeaves = (s.exposure.rememberedTarget t).exposedLeaves) :
    (∀ b, (s'.exposure.exposedLeaves b).Nodup) ∧
      ∀ b l, l ∈ s'.exposure.exposedLeaves b → s'.court.phase (.leaf b l) ≠ .absent := by
  rw [he]
  refine ⟨Exposure.nodup_rememberedTarget h.leaves_nodup, fun b l hl => (hmove _).ne_absent ?_⟩
  rcases Exposure.mem_rememberedTarget.1 hl with hl | rfl
  · exact h.leaves_filed b l hl
  · rw [ht]
    simp

/-- The leaves of a batch are forgotten. -/
theorem leaves_cleared (h : RegistryInv E s) (hmove : ∀ t, Phase.Move (s.court.phase t) (s'.court.phase t)) {b : ℕ}
    (he : s'.exposure.exposedLeaves = Function.update s.exposure.exposedLeaves b []) :
    (∀ b, (s'.exposure.exposedLeaves b).Nodup) ∧
      ∀ b l, l ∈ s'.exposure.exposedLeaves b → s'.court.phase (.leaf b l) ≠ .absent := by
  constructor
  · intro b'
    rw [he, Function.update_apply]
    split
    · exact List.nodup_nil
    · exact h.leaves_nodup b'
  · intro b' l hl
    rw [he, Function.update_apply] at hl
    split at hl
    · cases hl
    · exact (hmove _).ne_absent (h.leaves_filed b' l hl)

/-- **Every change of the exposures keeps the register.** -/
theorem step (h : RegistryInv E s) (hmove : ∀ t, Phase.Move (s.court.phase t) (s'.court.phase t))
    (hs : ExposureChange E s s') : RegistryInv E s' := by
  cases hs with
  | quiet hx hfinal hv =>
    obtain ⟨hnodup, hfiled⟩ := h.leaves_kept hmove (by rw [hx])
    refine ⟨hx ▸ h.wf, fun k v hk => ?_, hnodup, hfiled⟩
    rw [hx] at hk
    obtain ⟨t, ht, rfl⟩ := h.keyed k v hk
    exact ⟨t, (hv t v).2 ht, rfl⟩
  | @recordConfirmed i hi hx hfinal hv =>
    obtain ⟨hnodup, hfiled⟩ := h.leaves_kept hmove (by rw [hx]; rfl)
    refine ⟨hx ▸ h.wf.release _, fun k v hk => ?_, hnodup, hfiled⟩
    rw [hx] at hk
    obtain ⟨t, ht, rfl⟩ := h.keyed k v (Register.mem_release.1 hk).2
    exact ⟨t, (hv t v).2 ht, rfl⟩
  | @batchConfirmed b hx hfinal hv =>
    obtain ⟨hnodup, hfiled⟩ := h.leaves_cleared hmove (b := b) (by rw [hx]; rfl)
    refine ⟨hx ▸ h.wf.releaseAll _, fun k v hk => ?_, hnodup, hfiled⟩
    rw [hx] at hk
    obtain ⟨t, ht, rfl⟩ := h.keyed k v (Register.mem_releaseAll.1 hk).2
    exact ⟨t, (hv t v).2 ht, rfl⟩
  | @upheld t ht va hreg hleaves hfinal hv =>
    obtain ⟨hnodup, hfiled⟩ := h.leaves_remembered hmove ht hleaves
    refine ⟨hreg ▸ h.wf.enterAll _ _, fun k v hk => ?_, hnodup, hfiled⟩
    rw [hreg] at hk
    rcases Register.of_mem_enterAll hk with hk | ⟨rfl, hva⟩
    · obtain ⟨u, hu, rfl⟩ := h.keyed k v hk
      exact ⟨u, (hv u v).2 (.inl hu), rfl⟩
    · exact ⟨t, (hv t v).2 (.inr ⟨rfl, hva⟩), rfl⟩
  | @revoked t ht va hreg hleaves hfinal hv =>
    obtain ⟨hnodup, hfiled⟩ : (∀ b, (s'.exposure.exposedLeaves b).Nodup) ∧
        ∀ b l, l ∈ s'.exposure.exposedLeaves b → s'.court.phase (.leaf b l) ≠ .absent := by
      rcases hleaves with e | e
      · exact h.leaves_kept hmove e
      · exact h.leaves_remembered hmove ht e
    refine ⟨hreg ▸ (h.wf.enterAll _ _).release _, fun k v hk => ?_, hnodup, hfiled⟩
    rw [hreg, Register.mem_release] at hk
    rw [Register.list_enterAll_of_ne hk.1] at hk
    obtain ⟨u, hu, rfl⟩ := h.keyed k v hk.2
    have hne : u ≠ t := by
      rintro rfl
      exact hk.1 rfl
    exact ⟨u, (hv u v hne).2 hu, rfl⟩

end RegistryInv

namespace ExposureInv

theorem init : ExposureInv E Storage.init where
  listed := fun t _ _ v => by simp [Storage.init, Exposure.registry, Court.Vouches]
  flagged := fun t _ _ v => by simp [Storage.init, Exposure.registry]
  released := fun t _ _ v h => by cases h
  leaves_all := fun b l v _ h => by cases h

/-- A step that leaves the exposures as they are. -/
theorem quiet (h : ExposureInv E s) (hx : s'.exposure = s.exposure)
    (hfinal : ∀ t, (s'.court.phase t).Final ↔ (s.court.phase t).Final)
    (hv : ∀ t v, s'.court.Vouches t v ↔ s.court.Vouches t v) : ExposureInv E s' := by
  constructor
  · intro t ht hf v
    rw [hx, hv]
    rw [hfinal] at hf
    exact h.listed t ht hf v
  · intro t ht hf
    rw [hx]
    rw [hfinal] at hf
    exact h.flagged t ht hf
  · intro t ht hf
    rw [hx]
    rw [hfinal] at hf
    exact h.released t ht hf
  · rw [hx]
    exact h.leaves_all

/-- The confirmation of a record releases its key. -/
theorem recordConfirmed (hkeys : KeysInjective E) (h : ExposureInv E s) {i : ℕ} (hi : (Target.record i).InRange)
    (hx : s'.exposure = s.exposure.afterFinalizeRecord E i)
    (hfinal : ∀ t, (s'.court.phase t).Final ↔ (s.court.phase t).Final ∨ t = .record i)
    (hv : ∀ t v, s'.court.Vouches t v ↔ s.court.Vouches t v) : ExposureInv E s' := by
  have hreg : s'.exposure.registry = s.exposure.registry.release ((Target.record i).key E) := by
    rw [hx]
    rfl
  -- the other targets keep their lists
  have hother : ∀ t : Target, t.InRange → ¬ (s'.court.phase t).Final → t.key E ≠ (Target.record i).key E := by
    intro t ht hf heq
    rw [hfinal, not_or] at hf
    exact hf.2 (Target.key_inj hkeys ht hi heq)
  constructor
  · intro t ht hf v
    rw [hreg, Register.list_release_of_ne (hother t ht hf), hv]
    rw [hfinal, not_or] at hf
    exact h.listed t ht hf.1 v
  · intro t ht hf v
    rw [hreg, Register.list_release_of_ne (hother t ht hf), Register.has_release]
    rw [hfinal, not_or] at hf
    exact h.flagged t ht hf.1 v
  · intro t ht hf v hm
    rw [hreg, Register.mem_release] at hm
    rcases (hfinal t).1 hf with hf | rfl
    · exact h.released t ht hf v hm.2
    · exact hm.1 rfl
  · intro b l v hr hm
    rw [hreg, Register.mem_release] at hm
    rw [hx]
    exact h.leaves_all b l v hr hm.2

/-- The confirmation of a batch releases the keys of the leaves that have an entry. -/
theorem batchConfirmed (hkeys : KeysInjective E) (h : ExposureInv E s) (hr : RegistryInv E s)
    (hcourt : s.court.Inv s.verdicts) {b : ℕ} (hx : s'.exposure = s.exposure.afterFinalizeBatch E b)
    (hfinal : ∀ t, (s'.court.phase t).Final ↔ (s.court.phase t).Final ∨ t.batch = some b ∧ s.court.phase t ≠ .absent)
    (hv : ∀ t v, s'.court.Vouches t v ↔ s.court.Vouches t v) : ExposureInv E s' := by
  have hreg : s'.exposure.registry = s.exposure.registry.releaseAll (s.exposure.exposedKeys E b) := by
    rw [hx]
    rfl
  have hleaves : s'.exposure.exposedLeaves = Function.update s.exposure.exposedLeaves b [] := by
    rw [hx]
    rfl
  have hkey : ∀ l, l ∈ s.exposure.exposedLeaves b → (Target.leaf b l).key E ∈ s.exposure.exposedKeys E b :=
    fun l hl => List.mem_map_of_mem hl
  -- a target that is not final afterwards is none of the leaves released
  have hother : ∀ t : Target, t.InRange → ¬ (s'.court.phase t).Final → t.key E ∉ s.exposure.exposedKeys E b := by
    intro t ht hf hm
    obtain ⟨l, hl, heq⟩ := List.mem_map.1 hm
    have hfiled := hr.leaves_filed b l hl
    obtain rfl : Target.leaf b l = t := Target.key_inj hkeys (hcourt.inRange hfiled) ht heq
    exact hf ((hfinal _).2 (.inr ⟨rfl, hfiled⟩))
  constructor
  · intro t ht hf v
    rw [hreg, Register.mem_releaseAll, and_iff_right (hother t ht hf), hv]
    rw [hfinal, not_or] at hf
    exact h.listed t ht hf.1 v
  · intro t ht hf v
    rw [hreg, Register.mem_releaseAll, and_iff_right (hother t ht hf), Register.has_releaseAll]
    rw [hfinal, not_or] at hf
    exact h.flagged t ht hf.1 v
  · intro t ht hf v hm
    rw [hreg, Register.mem_releaseAll] at hm
    rcases (hfinal t).1 hf with hf | ⟨hb, -⟩
    · exact h.released t ht hf v hm.2
    · cases t with
      | record i => cases hb
      | leaf b' l =>
        obtain rfl := Option.some.inj hb
        exact hm.1 (hkey l (h.leaves_all b' l v ht hm.2))
  · intro b' l v hr hm
    rw [hreg, Register.mem_releaseAll] at hm
    have hl := h.leaves_all b' l v hr hm.2
    rw [hleaves, Function.update_apply]
    split
    · rename_i hb
      subst hb
      exact absurd (hkey l hl) hm.1
    · exact hl

/-- A verdict that upholds a target enters those who vouch for it now. -/
theorem upheld (hkeys : KeysInjective E) (h : ExposureInv E s) {t : Target} (ht : t.InRange)
    (hlive : ¬ (s.court.phase t).Final) (va : List Address)
    (hreg : s'.exposure.registry = s.exposure.registry.enterAll (t.key E) va)
    (hleaves : s'.exposure.exposedLeaves = (s.exposure.rememberedTarget t).exposedLeaves)
    (hfinal : ∀ u, (s'.court.phase u).Final ↔ (s.court.phase u).Final)
    (hv : ∀ u v, s'.court.Vouches u v ↔ s.court.Vouches u v ∨ u = t ∧ v ∈ va) : ExposureInv E s' := by
  obtain ⟨hflags, hmem⟩ := Register.mem_enterAll (h.flagged t ht hlive) va
  have hother : ∀ u : Target, u.InRange → u ≠ t → u.key E ≠ t.key E :=
    fun u hu hne heq => hne (Target.key_inj hkeys hu ht heq)
  constructor
  · intro u hu hf v
    rw [hfinal] at hf
    rw [hreg, hv]
    by_cases hut : u = t
    · subst hut
      rw [hmem, h.listed u hu hf]
      simp
    · rw [Register.list_enterAll_of_ne (hother u hu hut), h.listed u hu hf]
      simp [hut]
  · intro u hu hf v
    rw [hfinal] at hf
    rw [hreg]
    by_cases hut : u = t
    · subst hut
      exact hflags v
    · rw [Register.list_enterAll_of_ne (hother u hu hut), Register.has_enterAll_of_ne (hother u hu hut)]
      exact h.flagged u hu hf v
  · intro u hu hf v
    rw [hfinal] at hf
    have hut : u ≠ t := by
      rintro rfl
      exact hlive hf
    rw [hreg, Register.list_enterAll_of_ne (hother u hu hut)]
    exact h.released u hu hf v
  · intro b l v hr hm
    rw [hleaves, Exposure.mem_rememberedTarget]
    by_cases hlt : .leaf b l = t
    · exact .inr hlt.symm
    · rw [hreg, Register.list_enterAll_of_ne (hother _ hr hlt)] at hm
      exact .inl (h.leaves_all b l v hr hm)

/-- A verdict that revokes a target releases its key. -/
theorem revoked (hkeys : KeysInjective E) (h : ExposureInv E s) {t : Target} (ht : t.InRange) (va : List Address)
    (hreg : s'.exposure.registry = (s.exposure.registry.enterAll (t.key E) va).release (t.key E))
    (hleaves : s'.exposure.exposedLeaves = s.exposure.exposedLeaves ∨
      s'.exposure.exposedLeaves = (s.exposure.rememberedTarget t).exposedLeaves)
    (hfinal : ∀ u, (s'.court.phase u).Final ↔ (s.court.phase u).Final ∨ u = t)
    (hv : ∀ u v, u ≠ t → (s'.court.Vouches u v ↔ s.court.Vouches u v)) : ExposureInv E s' := by
  have hother : ∀ u : Target, u.InRange → u ≠ t → u.key E ≠ t.key E :=
    fun u hu hne heq => hne (Target.key_inj hkeys hu ht heq)
  -- at the key of `t` the list is empty, at every other key it is as before
  have hmem : ∀ k v, v ∈ s'.exposure.registry.list k ↔ k ≠ t.key E ∧ v ∈ s.exposure.registry.list k := by
    intro k v
    rw [hreg, Register.mem_release]
    refine and_congr_right fun hk => ?_
    rw [Register.list_enterAll_of_ne hk]
  have hhas : ∀ k, k ≠ t.key E → s'.exposure.registry.has k = s.exposure.registry.has k := by
    intro k hk
    rw [hreg, Register.has_release, Register.has_enterAll_of_ne hk]
  constructor
  · intro u hu hf v
    rw [hfinal, not_or] at hf
    rw [hmem, and_iff_right (hother u hu hf.2), hv u v hf.2]
    exact h.listed u hu hf.1 v
  · intro u hu hf v
    rw [hfinal, not_or] at hf
    rw [hmem, and_iff_right (hother u hu hf.2), hhas _ (hother u hu hf.2)]
    exact h.flagged u hu hf.1 v
  · intro u hu hf v hm
    rw [hmem] at hm
    rcases (hfinal u).1 hf with hf | rfl
    · exact h.released u hu hf v hm.2
    · exact hm.1 rfl
  · intro b l v hr hm
    have hold := h.leaves_all b l v hr ((hmem _ v).1 hm).2
    rcases hleaves with e | e
    · rw [e]
      exact hold
    · rw [e]
      exact Exposure.mem_rememberedTarget.2 (.inl hold)

/-- **Every change of the exposures keeps the invariant.** -/
theorem step (hkeys : KeysInjective E) (hcourt : s.court.Inv s.verdicts) (hr : RegistryInv E s)
    (h : ExposureInv E s) (hs : ExposureChange E s s') : ExposureInv E s' := by
  cases hs with
  | quiet hx hfinal hv => exact h.quiet hx hfinal hv
  | recordConfirmed hi hx hfinal hv => exact h.recordConfirmed hkeys hi hx hfinal hv
  | batchConfirmed hx hfinal hv => exact h.batchConfirmed hkeys hr hcourt hx hfinal hv
  | upheld ht va hreg hleaves hfinal hv =>
    exact h.upheld hkeys (hcourt.inRange (by rw [ht]; simp)) (not_final_of_disputed ht) va hreg hleaves hfinal hv
  | revoked ht va hreg hleaves hfinal hv =>
    exact h.revoked hkeys (hcourt.inRange (by rw [ht]; simp)) va hreg hleaves hfinal hv

end ExposureInv

namespace World

variable {D : Deployment} {w w' : World}

theorem Reachable.exposureChange (hw : Reachable D w) (hs : Step D w w') :
    ExposureChange D.toEvm w.relay w'.relay := by
  cases hs.change with
  | outside _ hrelay =>
    rw [hrelay]
    exact .quiet rfl (fun _ => Iff.rfl) fun _ _ => Iff.rfl
  | call he => exact he.exposure hw.court
  | withdraw _ _ _ hw' | withdrawReturn _ hw' =>
    rw [hw']
    exact .quiet rfl (fun _ => Iff.rfl) fun _ _ => Iff.rfl

/-- **The register of exposures in every run.** -/
theorem Reachable.registry (hw : Reachable D w) : RegistryInv D.toEvm w.relay := by
  refine Reachable.invariant (P := fun w => RegistryInv D.toEvm w.relay) (fun _ _ => .init) ?_ hw
  intro w w' hw h hs
  obtain ⟨ov, hstep, -⟩ := hw.courtStep hs
  exact h.step ((hstep.docket hw.court).move hw.court.docket) (hw.exposureChange hs)

/-- **The exposures of every run.** -/
theorem Reachable.exposures (hw : Reachable D w) (hkeys : KeysInjective D.toEvm) : ExposureInv D.toEvm w.relay := by
  refine Reachable.invariant (P := fun w => ExposureInv D.toEvm w.relay) (fun _ _ => .init) ?_ hw
  intro w w' hw h hs
  exact h.step hkeys hw.court hw.registry (hw.exposureChange hs)

end World

/-! ## Terminal targets -/

namespace Court

variable {c c' : Court} {vs vs' : List (ℕ × Verdict)}

/-- A record that is Provisional or Disputed, or a leaf that is not Revoked of a Provisional batch. -/
def NonTerminal (c : Court) : Target → Prop
  | .record i => ∃ r : Record, c.records[i]? = some r ∧ (r.state = .provisional ∨ r.state = .disputed)
  | .leaf b l => ∃ bt : Batch, c.batches[b]? = some bt ∧ bt.state = .provisional ∧ l < bt.leafCount ∧
      c.batchLeafState b l ≠ .revoked

/-- A record that is Confirmed or Revoked, or a leaf that is Revoked or of a Confirmed batch. -/
def Terminal (c : Court) : Target → Prop
  | .record i => ∃ r : Record, c.records[i]? = some r ∧ (r.state = .confirmed ∨ r.state = .revoked)
  | .leaf b l => ∃ bt : Batch, c.batches[b]? = some bt ∧ l < bt.leafCount ∧
      (bt.state = .confirmed ∨ c.batchLeafState b l = .revoked)

theorem Inv.nonTerminal_iff (h : c.Inv vs) (t : Target) :
    c.NonTerminal t ↔ c.phase t ≠ .absent ∧ ¬ (c.phase t).Final := by
  cases t with
  | record i =>
    rcases hr : c.records[i]? with _ | r
    · simp [NonTerminal, phase, hr]
    · rw [phase_record hr]
      cases hst : r.state <;> simp [NonTerminal, hr, hst, RecordState.phase, Phase.Final]
  | leaf b l =>
    rcases hb : c.batches[b]? with _ | bt
    · simp [NonTerminal, phase, hb]
    · by_cases hl : l < bt.leafCount
      · rw [phase_leaf hb hl]
        rcases h.batch_state b bt hb with hst | hst
        · cases hls : c.batchLeafState b l <;> simp [NonTerminal, hb, hl, hst, hls, LeafState.phase, Phase.Final]
        · have hquiet := h.quiet b bt hb hst l
          cases hls : c.batchLeafState b l with
          | disputed => exact absurd hls hquiet
          | undisputed | upheld | revoked => simp [NonTerminal, hb, hst, LeafState.phase, Phase.Final]
      · simp [NonTerminal, phase, hb, hl]

theorem Inv.terminal_iff (h : c.Inv vs) (t : Target) : c.Terminal t ↔ (c.phase t).Final := by
  cases t with
  | record i =>
    rcases hr : c.records[i]? with _ | r
    · simp [Terminal, phase, hr, Phase.Final]
    · rw [phase_record hr]
      cases hst : r.state <;> simp [Terminal, hr, hst, RecordState.phase, Phase.Final]
  | leaf b l =>
    rcases hb : c.batches[b]? with _ | bt
    · simp [Terminal, phase, hb, Phase.Final]
    · by_cases hl : l < bt.leafCount
      · rw [phase_leaf hb hl]
        rcases h.batch_state b bt hb with hst | hst
        · cases hls : c.batchLeafState b l <;> simp [Terminal, hb, hl, hst, hls, LeafState.phase, Phase.Final]
        · have hquiet := h.quiet b bt hb hst l
          cases hls : c.batchLeafState b l with
          | disputed => exact absurd hls hquiet
          | undisputed | upheld | revoked => simp [Terminal, hb, hl, hst, LeafState.phase, Phase.Final]
      · simp [Terminal, phase, hb, hl, Phase.Final]

theorem Inv.inRange_of_terminal (h : c.Inv vs) {t : Target} (ht : c.Terminal t) : t.InRange := by
  refine h.inRange fun he => ?_
  rw [h.terminal_iff, he] at ht
  exact Phase.not_final_absent ht

/-- Every dispute on a final target is resolved. -/
theorem Inv.resolved_of_final (h : c.Inv vs) {id : ℕ} {d : Dispute} (hd : c.disputes[id]? = some d)
    (hf : (c.phase d.target).Final) : d.resolved := by
  by_contra hun
  exact not_final_of_disputed (h.disputed hd (by simpa using hun)) hf

end Court

/-- The disputes on a target that is final before and after a step are those that were there. -/
theorem DisputesChange.kept {c c' : Court} {vs vs' : List (ℕ × Verdict)} (h : DisputesChange c c') (hc : c.Inv vs)
    (hc' : c'.Inv vs') {id : ℕ} {d : Dispute} (hf : (c.phase d.target).Final) (hf' : (c'.phase d.target).Final)
    (hd : c'.disputes[id]? = some d) : c.disputes[id]? = some d := by
  have hres := hc'.resolved_of_final hd hf'
  -- what the step writes is a dispute on a target that was not final
  have hset : ∀ {j : ℕ} {x y : Dispute}, c.disputes[j]? = some x → x.resolved = false → y.target = x.target →
      c'.disputes = c.disputes.set j y → c.disputes[id]? = some d := by
    intro j x y hx hun hxy hds
    rw [hds] at hd
    rcases (getElem?_set_some hx).1 hd with ⟨-, rfl⟩ | ⟨-, hd⟩
    · rw [hxy] at hf
      rw [hc.resolved_of_final hx hf] at hun
      cases hun
    · exact hd
  cases h with
  | same hds => rwa [hds] at hd
  | voted hx hun hds => exact hset hx hun (by rfl) hds
  | closed hx hun hds => exact hset hx hun (by rfl) hds
  | opened hun _ _ _ hds =>
    rw [hds] at hd
    rcases getElem?_append_singleton.1 hd with ⟨-, rfl⟩ | ⟨-, hd⟩
    · rw [hres] at hun
      cases hun
    · exact hd

/-! ## Exactness -/

/-- A dispute on `t` has been resolved as spurious in which `v` voted "valid". -/
def Storage.VotedSpurious (s : Storage) (t : Target) (v : Address) : Prop :=
  ∃ (id : ℕ) (d : Dispute), s.court.disputes[id]? = some d ∧ d.target = t ∧ .disputeResolved id false ∈ s.logs ∧
    v ∈ d.validAttesters

/-- On a target that is not final, all resolved disputes were spurious. -/
theorem Storage.vouches_iff {s : Storage} (h : s.court.Inv s.verdicts) {t : Target} (ht : ¬ (s.court.phase t).Final)
    (v : Address) : s.court.Vouches t v ↔ s.VotedSpurious t v := by
  constructor
  · rintro ⟨d, hd, rfl, hres, hv⟩
    obtain ⟨id, hid⟩ := List.mem_iff_getElem?.1 hd
    have hcase : (s.court.docket s.verdicts).cases[id]? = some (d.target, true) :=
      Court.docket_case.2 ⟨d, hid, rfl, hres⟩
    obtain ⟨u, hu⟩ := h.docket.has_verdict id _ hcase
    obtain rfl := h.docket.spurious_of_not_revoked hu hcase fun hr => ht (.inl hr)
    exact ⟨id, d, hid, rfl, Storage.mem_verdicts.1 hu, hv⟩
  · rintro ⟨id, d, hid, rfl, hlog, hv⟩
    obtain ⟨t, ht', -, -⟩ := h.docket.decided id .spurious (Storage.mem_verdicts.2 hlog)
    obtain ⟨d', hd', -, hres⟩ := Court.docket_case.1 ht'
    obtain rfl := Option.some.inj (hid.symm.trans hd')
    exact ⟨d, List.mem_of_getElem? hid, rfl, hres, hv⟩

/-- A call of one of the three functions on the exposures. -/
inductive Exposure.Call (x x' : Exposure) : Prop
  | register {key : Bytes32} {v : Address} (h : registerValidAtt key v x = .ok x')
  | release {key : Bytes32} (h : releaseExposures key x = .ok x')
  | remember {b l : ℕ} (h : rememberExposedLeaf b l x = .ok x')

theorem Exposure.Call.wf {x x' : Exposure} (h : x.Call x') (hx : x.registry.Wf) : x'.registry.Wf := by
  cases h with
  | register h =>
    rw [registerValidAtt_ok h]
    exact hx.enter _ _
  | release h =>
    rw [releaseExposures_ok h]
    exact hx.release _
  | remember h =>
    rw [rememberExposedLeaf_ok h, Exposure.registry_remembered]
    exact hx

/-- The flags of a final target stay as they are. -/
theorem ExposureChange.has_final (hkeys : KeysInjective E) (hcourt : s.court.Inv s.verdicts)
    (h : ExposureChange E s s') {t : Target} (ht : t.InRange) (hf : (s.court.phase t).Final) :
    s'.exposure.targetValidHas (t.key E) = s.exposure.targetValidHas (t.key E) := by
  -- only the key of a disputed target gets entries
  have hother : ∀ {u : Target}, s.court.phase u = .disputed → t.key E ≠ u.key E := by
    intro u hu heq
    obtain rfl := Target.key_inj hkeys ht (hcourt.inRange (by rw [hu]; simp)) heq
    exact not_final_of_disputed hu hf
  change s'.exposure.registry.has (t.key E) = s.exposure.registry.has (t.key E)
  cases h with
  | quiet hx => rw [hx]
  | recordConfirmed _ hx =>
    rw [hx]
    rfl
  | batchConfirmed hx =>
    rw [hx]
    exact congrFun (Register.has_releaseAll _) _
  | upheld hu va hreg => rw [hreg, Register.has_enterAll_of_ne (hother hu)]
  | revoked hu va hreg => rw [hreg, Register.has_release, Register.has_enterAll_of_ne (hother hu)]

/-- What is promised of the exposures of the world `w` of a run. -/
structure ExposureExact (D : Deployment) (w : World) : Prop where
  finite : ∀ v, {t | w.relay.court.NonTerminal t ∧ w.relay.VotedSpurious t v}.Finite
  live : ∀ v, w.relay.exposure.verifierLiveExposures v =
    {t | w.relay.court.NonTerminal t ∧ w.relay.VotedSpurious t v}.ncard
  list_nodup : ∀ key, (w.relay.exposure.targetValidList key).Nodup
  list_exact : ∀ t, w.relay.court.NonTerminal t → ∀ v,
    v ∈ w.relay.exposure.targetValidList (t.key D.toEvm) ↔ w.relay.VotedSpurious t v
  /-- The flags of a target that can still be registered to are those of its list. -/
  flags_exact : ∀ t, w.relay.court.NonTerminal t → ∀ v,
    w.relay.exposure.targetValidHas (t.key D.toEvm) v ↔ v ∈ w.relay.exposure.targetValidList (t.key D.toEvm)
  exposed : ∀ (b : ℕ) (bt : Batch), w.relay.court.batches[b]? = some bt → bt.state = .provisional →
    ∀ l < bt.leafCount, w.relay.exposure.targetValidList (packedKey D.toEvm 1 b l) ≠ [] →
      l ∈ w.relay.exposure.exposedLeaves b
  exposed_nodup : ∀ b, (w.relay.exposure.exposedLeaves b).Nodup
  terminal : ∀ t, w.relay.court.Terminal t → w.relay.exposure.targetValidList (t.key D.toEvm) = []
  /-- No release underflows, whatever registrations and releases come before it. -/
  releases : ∀ x : Exposure, Relation.ReflTransGen Exposure.Call w.relay.exposure x → ∀ key,
    ∃ x', releaseExposures key x = .ok x'
  /-- Once a target is terminal no dispute on it is opened, voted in or resolved, and its key is not registered to. -/
  closed : ∀ w' : World, Reaches (World.Step D) w w' → ∀ t, w.relay.court.Terminal t →
    (∀ (id : ℕ) (d : Dispute), w'.relay.court.disputes[id]? = some d → d.target = t →
      w.relay.court.disputes[id]? = some d ∧ d.resolved) ∧
    w'.relay.exposure.targetValidHas (t.key D.toEvm) = w.relay.exposure.targetValidHas (t.key D.toEvm) ∧
    w'.relay.exposure.targetValidList (t.key D.toEvm) = []

/-- The keys that list a verifier are those of the targets it stands in for. -/
theorem ExposureInv.keysOf_eq (h : ExposureInv E s) (hr : RegistryInv E s) (hcourt : s.court.Inv s.verdicts)
    (v : Address) :
    s.exposure.registry.keysOf v = (Target.key E) '' {t | s.court.NonTerminal t ∧ s.VotedSpurious t v} := by
  ext k
  rw [Register.mem_keysOf]
  constructor
  · intro hk
    obtain ⟨t, hv, rfl⟩ := hr.keyed k v hk
    have ht := hcourt.inRange (hcourt.filed_of_vouches hv)
    have hf : ¬ (s.court.phase t).Final := fun hf => h.released t ht hf v hk
    exact ⟨t, ⟨(hcourt.nonTerminal_iff t).2 ⟨hcourt.filed_of_vouches hv, hf⟩, (s.vouches_iff hcourt hf v).1 hv⟩, rfl⟩
  · rintro ⟨t, ⟨hn, hv⟩, rfl⟩
    obtain ⟨hfiled, hf⟩ := (hcourt.nonTerminal_iff t).1 hn
    exact (h.listed t (hcourt.inRange hfiled) hf v).2 ((s.vouches_iff hcourt hf v).2 hv)

theorem ExposureInv.key_injOn (hkeys : KeysInjective E) (hcourt : s.court.Inv s.verdicts)
    (v : Address) : Set.InjOn (Target.key E) {t | s.court.NonTerminal t ∧ s.VotedSpurious t v} := by
  rintro t ⟨ht, -⟩ u ⟨hu, -⟩ heq
  exact Target.key_inj hkeys (hcourt.inRange ((hcourt.nonTerminal_iff t).1 ht).1)
    (hcourt.inRange ((hcourt.nonTerminal_iff u).1 hu).1) heq

/-- What a run does to a target that is terminal: nothing. -/
theorem World.Reachable.terminal_closed {D : Deployment} {w w' : World} (hw : w.Reachable D)
    (hkeys : KeysInjective D.toEvm) (h : Reaches (World.Step D) w w') {t : Target} (ht : w.relay.court.Terminal t) :
    (∀ (id : ℕ) (d : Dispute), w'.relay.court.disputes[id]? = some d → d.target = t →
      w.relay.court.disputes[id]? = some d ∧ d.resolved) ∧
    w'.relay.exposure.targetValidHas (t.key D.toEvm) = w.relay.exposure.targetValidHas (t.key D.toEvm) ∧
    w'.relay.exposure.targetValidList (t.key D.toEvm) = [] := by
  have hrange := hw.court.inRange_of_terminal ht
  have hfinal : (w.relay.court.phase t).Final := (hw.court.terminal_iff t).1 ht
  -- the target is final in every world that follows
  have hstays : ∀ u : World, Reaches (World.Step D) w u → (u.relay.court.phase t).Final := by
    intro u hu
    rcases hfinal with hp | hp
    · exact .inl (hw.phase_final hu (.inl rfl) hp)
    · exact .inr (hw.phase_final hu (.inr rfl) hp)
  have hkept : (∀ (id : ℕ) (d : Dispute), w'.relay.court.disputes[id]? = some d → d.target = t →
      w.relay.court.disputes[id]? = some d ∧ d.resolved) ∧
      w'.relay.exposure.targetValidHas (t.key D.toEvm) = w.relay.exposure.targetValidHas (t.key D.toEvm) := by
    induction h with
    | refl =>
      refine ⟨fun id d hd hdt => ⟨hd, ?_⟩, rfl⟩
      subst hdt
      exact hw.court.resolved_of_final hd hfinal
    | @tail u u' hu hs ih =>
      have hru : u.Reachable D := Lib.Reachable.trans hw hu
      have hf := hstays u hu
      have hf' := hstays u' (hu.tail hs)
      obtain ⟨ov, hstep, -⟩ := hru.courtStep hs
      constructor
      · intro id d hd hdt
        subst hdt
        exact ih.1 id d (hstep.disputes.kept hru.court (hru.next hs).court hf hf' hd) rfl
      · rw [← ih.2]
        exact (hru.exposureChange hs).has_final hkeys hru.court hrange hf
  have hw' : w'.Reachable D := Lib.Reachable.trans hw h
  refine ⟨hkept.1, hkept.2, List.eq_nil_iff_forall_not_mem.2 ?_⟩
  exact (hw'.exposures hkeys).released t hrange (hstays w' h)

/-- **Live-exposure accounting is exact, and every exposure is released.** -/
theorem exposure_exact {D : Deployment} {w : World} (hw : w.Reachable D) (hkeys : KeysInjective D.toEvm) :
    ExposureExact D w := by
  have h := hw.exposures hkeys
  have hr := hw.registry
  have hinj := fun v => ExposureInv.key_injOn hkeys hw.court v
  constructor
  case finite =>
    intro v
    have hfin := hr.wf.finite v
    rw [h.keysOf_eq hr hw.court] at hfin
    exact hfin.of_finite_image (hinj v)
  case live =>
    intro v
    have hlive := hr.wf.live_eq v
    rw [h.keysOf_eq hr hw.court, (hinj v).ncard_image] at hlive
    exact hlive
  case list_nodup => exact hr.wf.nodup
  case list_exact =>
    intro t ht v
    obtain ⟨hfiled, hf⟩ := (hw.court.nonTerminal_iff t).1 ht
    rw [← w.relay.vouches_iff hw.court hf]
    exact h.listed t (hw.court.inRange hfiled) hf v
  case flags_exact =>
    intro t ht
    obtain ⟨hfiled, hf⟩ := (hw.court.nonTerminal_iff t).1 ht
    exact h.flagged t (hw.court.inRange hfiled) hf
  case exposed =>
    intro b bt hb _ l hl hne
    obtain ⟨v, hv⟩ := List.exists_mem_of_ne_nil _ hne
    have hrange : (Target.leaf b l).InRange :=
      ⟨(List.getElem?_eq_some_iff.1 hb).1.trans hw.court.batches_length, hl.trans (hw.court.leaf_count b bt hb)⟩
    exact h.leaves_all b l v hrange hv
  case exposed_nodup => exact hr.leaves_nodup
  case terminal => exact fun t ht => (hw.terminal_closed hkeys .refl ht).2.2
  case releases =>
    intro x hx key
    have hwf : x.registry.Wf := by
      induction hx with
      | refl => exact hr.wf
      | tail _ hc ih => exact hc.wf ih
    exact ⟨_, releaseExposures_eq key hwf⟩
  case closed => exact fun w' hw' t ht => hw.terminal_closed hkeys hw' ht

/-- In a run in which 3 and 4 stand in for the first record. -/
theorem exposure_exact_toy :
    Toy.world.relay.exposure.verifierLiveExposures 3 = 1 ∧ ExposureExact (Deployment.toy 2) Toy.world :=
  ⟨by decide +kernel, exposure_exact Toy.world_reachable (.of_injective Evm.toy_injective)⟩

end PqIotAuth
