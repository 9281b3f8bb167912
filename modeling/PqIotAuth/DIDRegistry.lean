import PqIotAuth.Evm

/-!
# `DIDRegistry`

The registry maps the hash of a DID to its document. A document with `registeredAt = 0` is one that was never
registered; registering is possible once, deactivating by the owner only, and nothing else writes a document.
-/

namespace PqIotAuth

open Lib

structure DIDDocument where
  owner : Address
  publicKey : List Byte
  registeredAt : ℕ
  active : Bool

structure DIDRegistry where
  dids : Bytes32 → DIDDocument

namespace DIDRegistry

/-- Exact size of a Falcon-512 public key in bytes. -/
def falcon512PkSize : ℕ := 897

/-- The storage of a freshly deployed registry. -/
def init : DIDRegistry := ⟨fun _ => ⟨0, [], 0, false⟩⟩

def registerDID (sender : Address) (timestamp : ℕ) (didHash : Bytes32) (falconPublicKey : List Byte)
    (R : DIDRegistry) : Except Error DIDRegistry := do
  revertIf (¬ (R.dids didHash).registeredAt = 0) (.require "DID already exists")
  revertIf (¬ falconPublicKey.length = falcon512PkSize) (.require "Invalid public key length")
  return ⟨Function.update R.dids didHash
    { owner := sender, publicKey := falconPublicKey, registeredAt := timestamp, active := true }⟩

def deactivateDID (sender : Address) (didHash : Bytes32) (R : DIDRegistry) : Except Error DIDRegistry := do
  revertIf (¬ (R.dids didHash).owner = sender) (.require "Not owner")
  revertIf (¬ (R.dids didHash).active) (.require "DID already deactivated")
  return ⟨Function.update R.dids didHash { R.dids didHash with active := false }⟩

def getPublicKey (R : DIDRegistry) (didHash : Bytes32) : Except Error (List Byte) := do
  revertIf ((R.dids didHash).registeredAt = 0) (.require "DID does not exist")
  revertIf (¬ (R.dids didHash).active) (.require "DID is deactivated")
  return (R.dids didHash).publicKey

def isActive (R : DIDRegistry) (didHash : Bytes32) : Bool :=
  (R.dids didHash).registeredAt ≠ 0 && (R.dids didHash).active

/-- The key of an active DID can be read. -/
theorem getPublicKey_of_isActive {R : DIDRegistry} {didHash : Bytes32} (h : R.isActive didHash) :
    R.getPublicKey didHash = .ok (R.dids didHash).publicKey := by
  simp only [isActive, Bool.and_eq_true, decide_eq_true_eq] at h
  simp [getPublicKey, revertIf, h.1, h.2]

/-! ## What the calls do -/

/-- The DID has a document. -/
def Registered (R : DIDRegistry) (didHash : Bytes32) : Prop := (R.dids didHash).registeredAt ≠ 0

variable {R R' : DIDRegistry} {sender : Address} {timestamp : ℕ} {didHash : Bytes32} {falconPublicKey : List Byte}

theorem isActive_iff : R.isActive didHash ↔ R.Registered didHash ∧ (R.dids didHash).active := by
  simp [isActive, Registered]

theorem registerDID_ok (h : registerDID sender timestamp didHash falconPublicKey R = .ok R') :
    ¬ R.Registered didHash ∧ falconPublicKey.length = falcon512PkSize ∧
      R' = ⟨Function.update R.dids didHash ⟨sender, falconPublicKey, timestamp, true⟩⟩ := by
  unfold registerDID at h
  simp only [bind_eq_ok, revertIf_eq_ok, not_not, pure_eq_ok] at h
  obtain ⟨_, hnew, _, hsize, rfl⟩ := h
  exact ⟨not_not.2 hnew, hsize, rfl⟩

theorem deactivateDID_ok (h : deactivateDID sender didHash R = .ok R') :
    (R.dids didHash).owner = sender ∧ (R.dids didHash).active ∧
      R' = ⟨Function.update R.dids didHash { R.dids didHash with active := false }⟩ := by
  unfold deactivateDID at h
  simp only [bind_eq_ok, revertIf_eq_ok, not_not, pure_eq_ok] at h
  obtain ⟨_, howner, _, hactive, rfl⟩ := h
  exact ⟨howner, hactive, rfl⟩

theorem isActive_congr {did : Bytes32} (h : R'.dids did = R.dids did) : R'.isActive did = R.isActive did := by
  unfold isActive
  rw [h]

/-- A registration writes no document that is there. -/
theorem registerDID_kept (h : registerDID sender timestamp didHash falconPublicKey R = .ok R') {did : Bytes32}
    (hreg : R.Registered did) : R'.dids did = R.dids did := by
  obtain ⟨hnew, -, rfl⟩ := registerDID_ok h
  refine Function.update_of_ne ?_ ..
  rintro rfl
  exact hnew hreg

theorem deactivateDID_other (h : deactivateDID sender didHash R = .ok R') {did : Bytes32} (hdid : did ≠ didHash) :
    R'.dids did = R.dids did := by
  obtain ⟨-, -, rfl⟩ := deactivateDID_ok h
  exact Function.update_of_ne hdid ..

/-- Every document that is there stays, but that it may have been deactivated. -/
def Evolves (R R' : DIDRegistry) : Prop := ∀ didHash, R.Registered didHash →
  R'.dids didHash = { R.dids didHash with active := (R'.dids didHash).active } ∧
    ((R'.dids didHash).active → (R.dids didHash).active)

theorem Evolves.refl (R : DIDRegistry) : R.Evolves R := fun _ _ => ⟨rfl, id⟩

theorem Evolves.registered (h : R.Evolves R') (hreg : R.Registered didHash) : R'.Registered didHash := by
  rw [Registered, (h didHash hreg).1]
  exact hreg

theorem Evolves.publicKey (h : R.Evolves R') (hreg : R.Registered didHash) :
    (R'.dids didHash).publicKey = (R.dids didHash).publicKey := by
  rw [(h didHash hreg).1]

theorem Evolves.trans {R'' : DIDRegistry} (h : R.Evolves R') (h' : R'.Evolves R'') : R.Evolves R'' := by
  intro didHash hreg
  obtain ⟨hdoc, hactive⟩ := h didHash hreg
  obtain ⟨hdoc', hactive'⟩ := h' didHash (h.registered hreg)
  refine ⟨?_, fun ha => hactive (hactive' ha)⟩
  rw [hdoc'.trans (congrArg (fun doc : DIDDocument => { doc with active := (R''.dids didHash).active }) hdoc)]

theorem Evolves.of_registerDID (h : registerDID sender timestamp didHash falconPublicKey R = .ok R') :
    R.Evolves R' := by
  intro did hreg
  rw [registerDID_kept h hreg]
  exact ⟨rfl, id⟩

theorem Evolves.of_deactivateDID (h : deactivateDID sender didHash R = .ok R') : R.Evolves R' := by
  intro did _
  by_cases hdid : did = didHash
  · subst hdid
    obtain ⟨-, -, rfl⟩ := deactivateDID_ok h
    dsimp only
    rw [Function.update_self]
    exact ⟨rfl, nofun⟩
  · rw [deactivateDID_other h hdid]
    exact ⟨rfl, id⟩

/-- Every key is a Falcon-512 key. -/
def Sized (R : DIDRegistry) : Prop := ∀ didHash, R.Registered didHash →
  (R.dids didHash).publicKey.length = falcon512PkSize

theorem Sized.registerDID (h : R.Sized) (hok : registerDID sender timestamp didHash falconPublicKey R = .ok R') :
    R'.Sized := by
  obtain ⟨-, hsize, rfl⟩ := registerDID_ok hok
  intro did hreg
  unfold Registered at hreg
  dsimp only at hreg ⊢
  by_cases hdid : did = didHash
  · rw [hdid, Function.update_self]
    exact hsize
  · rw [Function.update_of_ne hdid] at hreg ⊢
    exact h did hreg

theorem Sized.deactivateDID (h : R.Sized) (hok : deactivateDID sender didHash R = .ok R') : R'.Sized := by
  intro did hreg
  unfold Registered at hreg
  by_cases hdid : did = didHash
  · subst hdid
    obtain ⟨-, -, rfl⟩ := deactivateDID_ok hok
    dsimp only at hreg ⊢
    rw [Function.update_self] at hreg ⊢
    exact h did hreg
  · rw [deactivateDID_other hok hdid] at hreg ⊢
    exact h did hreg

end DIDRegistry

end PqIotAuth
