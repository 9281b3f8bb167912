import PqIotAuth.Lib.Register
import PqIotAuth.Relay.Internal
import Mathlib.Data.Fintype.EquivFin

/-!
# What registrations and releases do to the exposures

The "valid" attestations of the targets are a register (`Lib.Register`) whose keys are the target keys and whose members
are the verifiers; beside it stand the leaves of each batch that have an entry. Each function on them, when it does not
revert, is an operation of the register (the `_ok` lemmas), and on a well-formed register, whose counters leave room for
one more, it does not revert (the `_eq` lemmas).
-/

namespace PqIotAuth

open Lib

namespace Exposure

def registry (x : Exposure) : Register Bytes32 Address := ⟨x.targetValidList, x.targetValidHas, x.verifierLiveExposures⟩

def withRegistry (r : Register Bytes32 Address) (x : Exposure) : Exposure := ⟨r.list, r.has, r.live, x.exposedLeaves⟩

/-- All of `vs` entered at `key`. -/
def registered (key : Bytes32) (vs : List Address) (x : Exposure) : Exposure :=
  x.withRegistry (x.registry.enterAll key vs)

def released (key : Bytes32) (x : Exposure) : Exposure := x.withRegistry (x.registry.release key)

def remembered (batchIndex leafIndex : ℕ) (x : Exposure) : Exposure :=
  if leafIndex ∈ x.exposedLeaves batchIndex then x
  else
    { x with
      exposedLeaves := Function.update x.exposedLeaves batchIndex (x.exposedLeaves batchIndex ++ [leafIndex]) }

/-- What is known of the "valid" votes once the votes of `d` are registered. -/
def afterSpurious (E : Evm) (d : Dispute) (x : Exposure) : Exposure :=
  let x := x.registered (targetKey E d) d.validAttesters
  if d.targetType = 1 then x.remembered d.targetIndex d.leafIndex else x

def afterFraud (E : Evm) (d : Dispute) (x : Exposure) : Exposure := (x.afterSpurious E d).released (targetKey E d)

def afterExpiry (E : Evm) (d : Dispute) (x : Exposure) : Exposure := x.released (targetKey E d)

def afterFinalizeRecord (E : Evm) (index : ℕ) (x : Exposure) : Exposure := x.released (packedKey E 0 index 0)

/-- The keys of the leaves of a batch that have an entry. -/
def exposedKeys (E : Evm) (batchIndex : ℕ) (x : Exposure) : List Bytes32 :=
  (x.exposedLeaves batchIndex).map (packedKey E 1 batchIndex)

def afterFinalizeBatch (E : Evm) (batchIndex : ℕ) (x : Exposure) : Exposure :=
  { x.withRegistry (x.registry.releaseAll (x.exposedKeys E batchIndex)) with
    exposedLeaves := Function.update x.exposedLeaves batchIndex [] }

/-! ## Registers of the results -/

variable {x : Exposure}

@[simp] theorem registry_withRegistry (r : Register Bytes32 Address) : (x.withRegistry r).registry = r := rfl

@[simp] theorem registry_remembered (b l : ℕ) : (x.remembered b l).registry = x.registry := by
  unfold remembered
  split <;> rfl

theorem registry_afterSpurious (E : Evm) (d : Dispute) :
    (x.afterSpurious E d).registry = x.registry.enterAll (targetKey E d) d.validAttesters := by
  unfold afterSpurious
  dsimp only
  split
  · rw [registry_remembered]
    rfl
  · rfl

theorem registry_afterFraud (E : Evm) (d : Dispute) :
    (x.afterFraud E d).registry =
      (x.registry.enterAll (targetKey E d) d.validAttesters).release (targetKey E d) := by
  rw [← registry_afterSpurious]
  rfl

theorem exposedLeaves_remembered (b l b' : ℕ) :
    (x.remembered b l).exposedLeaves b' =
      if b' = b ∧ l ∉ x.exposedLeaves b then x.exposedLeaves b ++ [l] else x.exposedLeaves b' := by
  unfold remembered
  split
  · rename_i h
    simp [h]
  · rename_i h
    simp [h, Function.update_apply]

theorem exposedLeaves_afterSpurious (E : Evm) (d : Dispute) (b : ℕ) :
    (x.afterSpurious E d).exposedLeaves b =
      if d.targetType = 1 then (x.remembered d.targetIndex d.leafIndex).exposedLeaves b else x.exposedLeaves b := by
  unfold afterSpurious
  dsimp only
  split
  · rw [exposedLeaves_remembered, exposedLeaves_remembered]
    rfl
  · rfl

end Exposure

/-! ## The functions of the contract -/

variable {x x' : Exposure} {key : Bytes32}

theorem registerValidAtt_ok {v : Address} (h : registerValidAtt key v x = .ok x') :
    x' = x.withRegistry (x.registry.enter key v) := by
  unfold registerValidAtt at h
  split at h
  · rename_i hv
    simp only [bind_eq_ok, push_eq_ok, checkedAdd_eq_ok, pure_eq_ok] at h
    obtain ⟨_, ⟨-, rfl⟩, _, ⟨-, rfl⟩, rfl⟩ := h
    rw [Register.enter_of_not_has (show ¬ x.registry.has key v from hv)]
    rfl
  · rename_i hv
    rw [Register.enter_of_has (show x.registry.has key v from not_not.1 hv)]
    exact (pure_eq_ok.1 h).symm

theorem foldlM_registerValidAtt_ok {vs : List Address}
    (h : vs.foldlM (fun x v => registerValidAtt key v x) x = .ok x') : x' = x.registered key vs := by
  rw [foldlM_eq_foldl (fun _ _ _ => registerValidAtt_ok) _ h]
  clear h
  induction vs generalizing x with
  | nil => rfl
  | cons v vs ih => exact ih (x := x.withRegistry (x.registry.enter key v))

theorem releaseExposures_ok (h : releaseExposures key x = .ok x') : x' = x.released key := by
  unfold releaseExposures at h
  rw [bind_eq_ok] at h
  obtain ⟨live, hl, h⟩ := h
  have hlive : live = Register.discount (x.targetValidList key) x.verifierLiveExposures := by
    refine foldlM_eq_foldl (fun live v live' hs => ?_) _ hl
    simp only [bind_eq_ok, checkedSub_eq_ok, pure_eq_ok] at hs
    obtain ⟨_, ⟨-, rfl⟩, rfl⟩ := hs
    rfl
  subst hlive
  exact (pure_eq_ok.1 h).symm

theorem rememberExposedLeaf_ok {b l : ℕ} (h : rememberExposedLeaf b l x = .ok x') : x' = x.remembered b l := by
  unfold rememberExposedLeaf at h
  unfold Exposure.remembered
  split at h
  · rename_i hl
    rw [if_pos hl]
    exact (pure_eq_ok.1 h).symm
  · rename_i hl
    simp only [bind_eq_ok, push_eq_ok, pure_eq_ok] at h
    obtain ⟨_, ⟨-, rfl⟩, rfl⟩ := h
    rw [if_neg hl]

/-- The releases of `finalizeBatch`. -/
theorem foldlM_releaseExposures_ok {E : Evm} {b : ℕ} {ls : List ℕ}
    (h : ls.foldlM (fun x l => releaseExposures (packedKey E 1 b l) x) x = .ok x') :
    x' = x.withRegistry (x.registry.releaseAll (ls.map (packedKey E 1 b))) := by
  rw [foldlM_eq_foldl (g := fun x l => x.released (packedKey E 1 b l)) (fun _ _ _ => releaseExposures_ok) _ h]
  clear h
  induction ls generalizing x with
  | nil => rfl
  | cons l ls ih => exact ih (x := x.released (packedKey E 1 b l))

/-! ## Returning -/

/-- A list of different accounts is far shorter than 256 bits can count. -/
theorem length_lt_of_nodup {vs : List Address} (h : vs.Nodup) : vs.length + 1 < wordSize := by
  have hle := h.length_le_card
  rw [Fintype.card_fin] at hle
  have : 2 ^ 160 + 1 < wordSize := by decide
  omega

theorem registerValidAtt_eq {v : Address} (hwf : x.registry.Wf)
    (hroom : ¬ x.registry.has key v → x.registry.live v + 1 < wordSize) :
    registerValidAtt key v x = .ok (x.withRegistry (x.registry.enter key v)) := by
  obtain ⟨x', hx'⟩ : ∃ x', registerValidAtt key v x = .ok x' := by
    unfold registerValidAtt
    split
    · rename_i hv
      have hlen : (x.targetValidList key).length + 1 < wordSize := length_lt_of_nodup (hwf.nodup key)
      have hlive : x.verifierLiveExposures v + 1 < wordSize := hroom hv
      rw [push, if_pos hlen, ok_bind, checkedAdd, if_pos hlive]
      exact ⟨_, rfl⟩
    · exact ⟨_, rfl⟩
  rw [hx', registerValidAtt_ok hx']

theorem foldlM_registerValidAtt_eq (vs : List Address) (hwf : x.registry.Wf)
    (hroom : ∀ v, ¬ x.registry.has key v → x.registry.live v + 1 < wordSize) :
    vs.foldlM (fun x v => registerValidAtt key v x) x = .ok (x.registered key vs) := by
  obtain ⟨x', hx'⟩ : ∃ x', vs.foldlM (fun x v => registerValidAtt key v x) x = .ok x' := by
    refine ⟨_, foldlM_ok
      (P := fun x _ => x.registry.Wf ∧ ∀ v, ¬ x.registry.has key v → x.registry.live v + 1 < wordSize)
      (g := fun x v => x.withRegistry (x.registry.enter key v)) ?_ vs ⟨hwf, hroom⟩⟩
    rintro x v - ⟨hwf, hroom⟩
    refine ⟨registerValidAtt_eq hwf (hroom v), hwf.enter key v, fun u hu => ?_⟩
    rw [Exposure.registry_withRegistry, Register.has_enter_self, not_or] at hu
    rw [Exposure.registry_withRegistry, Register.live_enter_of_ne hu.2]
    exact hroom u hu.1
  rw [hx', foldlM_registerValidAtt_ok hx']

theorem releaseExposures_eq (key : Bytes32) (hwf : x.registry.Wf) :
    releaseExposures key x = .ok (x.released key) := by
  obtain ⟨x', hx'⟩ : ∃ x', releaseExposures key x = .ok x' := by
    unfold releaseExposures
    -- whoever is still to be discounted has a positive counter, and no one is discounted twice
    have hP : (x.targetValidList key).Nodup ∧ ∀ v ∈ x.targetValidList key, 0 < x.verifierLiveExposures v :=
      ⟨hwf.nodup key, fun v hv => hwf.live_pos (k := key) hv⟩
    rw [foldlM_ok (P := fun live rest => rest.Nodup ∧ ∀ v ∈ rest, 0 < live v)
      (g := fun live v => Function.update live v (live v - 1)) ?_ _ hP, ok_bind]
    · exact ⟨_, rfl⟩
    · rintro live v rest ⟨hnd, hpos⟩
      rw [List.nodup_cons] at hnd
      have := hpos v (by simp)
      refine ⟨by rw [checkedSub, if_pos (by omega)]; rfl, hnd.2, fun u hu => ?_⟩
      rw [Function.update_of_ne (ne_of_mem_of_not_mem hu hnd.1)]
      exact hpos u (by simp [hu])
  rw [hx', releaseExposures_ok hx']

theorem foldlM_releaseExposures_eq (E : Evm) (b : ℕ) (ls : List ℕ) (hwf : x.registry.Wf) :
    ls.foldlM (fun x l => releaseExposures (packedKey E 1 b l) x) x =
      .ok (x.withRegistry (x.registry.releaseAll (ls.map (packedKey E 1 b)))) := by
  obtain ⟨x', hx'⟩ : ∃ x', ls.foldlM (fun x l => releaseExposures (packedKey E 1 b l) x) x = .ok x' :=
    ⟨_, foldlM_ok (P := fun x _ => x.registry.Wf) (g := fun x l => x.released (packedKey E 1 b l))
      (fun _ _ _ hwf => ⟨releaseExposures_eq _ hwf, hwf.release _⟩) ls hwf⟩
  rw [hx', foldlM_releaseExposures_ok hx']

theorem rememberExposedLeaf_eq {b l : ℕ} (h : l ∉ x.exposedLeaves b → (x.exposedLeaves b).length + 1 < wordSize) :
    rememberExposedLeaf b l x = .ok (x.remembered b l) := by
  unfold rememberExposedLeaf Exposure.remembered
  split
  · rfl
  · rename_i hl
    rw [push, if_pos (h hl)]
    rfl

end PqIotAuth
