import PqIotAuth.Evm
import PqIotAuth.Lib.Runs

/-!
# `ECDSAVerify`

The contract of the baseline: it recovers a signer, keeps the last data hash with it, and the signature too where the
caller asks for that. The two modes write the same two variables, so the signature that is kept is the one of the last
call that kept one, which need not be of the last data (`ecdsa_audit`). Anyone may register signers and require that
they be registered.
-/

namespace PqIotAuth

open Lib

/-- The events of `ECDSAVerify`. -/
inductive VerifyEvent where
  | dataVerified (dataHash : Bytes32) (signer : Address)
  | dataVerifiedWithSig (dataHash : Bytes32) (signer : Address)
  | signerRegistered (signer : Address)
  | signerVerificationEnabled (enabled : Bool)
  deriving DecidableEq

structure ECDSAVerify where
  latestDataHash : Bytes32
  latestSigner : Address
  latestSigR : Bytes32
  latestSigS : Bytes32
  registeredSigners : Address → Bool
  signerVerificationEnabled : Bool
  logs : List VerifyEvent

inductive VerifyCall where
  | setSignerVerification (enabled : Bool)
  | registerSigner (signer : Address)
  | submitAndVerify (dataHash : Bytes32) (v : ℕ) (r s : Bytes32)
  | submitVerifyAndStore (dataHash : Bytes32) (v : ℕ) (r s : Bytes32)

namespace ECDSAVerify

/-- The storage of a freshly deployed contract. -/
def init : ECDSAVerify := ⟨Bytes32.ofBytes [], 0, Bytes32.ofBytes [], Bytes32.ofBytes [], fun _ => false, false, []⟩

def setSignerVerification (enabled : Bool) (C : ECDSAVerify) : ECDSAVerify :=
  { C with signerVerificationEnabled := enabled, logs := C.logs ++ [.signerVerificationEnabled enabled] }

def registerSigner (signer : Address) (C : ECDSAVerify) : ECDSAVerify :=
  { C with
    registeredSigners := Function.update C.registeredSigners signer true
    logs := C.logs ++ [.signerRegistered signer] }

/-- The checks that both modes make. -/
def checkSigner (signer : Address) (C : ECDSAVerify) : Except Error Unit := do
  revertIf (signer = 0) (.require "Invalid signature")
  revertIf (C.signerVerificationEnabled ∧ ¬ C.registeredSigners signer) (.require "Signer not registered")

def submitAndVerify (E : Evm) (dataHash : Bytes32) (v : ℕ) (r s : Bytes32) (C : ECDSAVerify) :
    Except Error ECDSAVerify := do
  let signer := E.ecrecover dataHash v r s
  C.checkSigner signer
  return { C with
    latestDataHash := dataHash
    latestSigner := signer
    logs := C.logs ++ [.dataVerified dataHash signer] }

def submitVerifyAndStore (E : Evm) (dataHash : Bytes32) (v : ℕ) (r s : Bytes32) (C : ECDSAVerify) :
    Except Error ECDSAVerify := do
  let signer := E.ecrecover dataHash v r s
  C.checkSigner signer
  return { C with
    latestDataHash := dataHash
    latestSigner := signer
    latestSigR := r
    latestSigS := s
    logs := C.logs ++ [.dataVerifiedWithSig dataHash signer] }

def exec (E : Evm) (C : ECDSAVerify) : VerifyCall → Except Error ECDSAVerify
  | .setSignerVerification enabled => .ok (C.setSignerVerification enabled)
  | .registerSigner signer => .ok (C.registerSigner signer)
  | .submitAndVerify dataHash v r s => C.submitAndVerify E dataHash v r s
  | .submitVerifyAndStore dataHash v r s => C.submitVerifyAndStore E dataHash v r s

/-- A successful call, by anyone. -/
def Step (E : Evm) (C C' : ECDSAVerify) : Prop := ∃ c, C.exec E c = .ok C'

/-- The storages of all runs. -/
def Reachable (E : Evm) : ECDSAVerify → Prop := Lib.Reachable (· = init) (Step E)

end ECDSAVerify

/-! ## What the events tell -/

namespace VerifyEvent

/-- The data and the signer of a submission. -/
def verified : VerifyEvent → Option (Bytes32 × Address)
  | .dataVerified dataHash signer | .dataVerifiedWithSig dataHash signer => some (dataHash, signer)
  | .signerRegistered _ | .signerVerificationEnabled _ => none

/-- The data and the signer of a submission whose signature is kept. -/
def stored : VerifyEvent → Option (Bytes32 × Address)
  | .dataVerifiedWithSig dataHash signer => some (dataHash, signer)
  | .dataVerified .. | .signerRegistered _ | .signerVerificationEnabled _ => none

def enabled : VerifyEvent → Option Bool
  | .signerVerificationEnabled b => some b
  | .dataVerified .. | .dataVerifiedWithSig .. | .signerRegistered _ => none

end VerifyEvent

/-- What the last event with a `f` says by it. -/
def lastTold {α : Type} (f : VerifyEvent → Option α) (logs : List VerifyEvent) : Option α :=
  (logs.filterMap f).getLast?

/-- A submission of `signer` is admitted after `logs`. -/
def Admitted (signer : Address) (logs : List VerifyEvent) : Prop :=
  signer ≠ 0 ∧ (lastTold VerifyEvent.enabled logs = some true → .signerRegistered signer ∈ logs)

/-- The events tell of the storage of `ECDSAVerify`, and every submission among them was admitted. -/
structure ECDSAVerify.Told (E : Evm) (C : ECDSAVerify) : Prop where
  signers : ∀ a, C.registeredSigners a = true ↔ .signerRegistered a ∈ C.logs
  enabled : C.signerVerificationEnabled = (lastTold VerifyEvent.enabled C.logs).getD false
  latest : ∀ p, lastTold VerifyEvent.verified C.logs = some p → (C.latestDataHash, C.latestSigner) = p
  /-- The signature that is kept is one of the last submission that kept its own. -/
  stored : ∀ dataHash signer, lastTold VerifyEvent.stored C.logs = some (dataHash, signer) →
    ∃ v, E.ecrecover dataHash v C.latestSigR C.latestSigS = signer
  admitted : ∀ (before after : List VerifyEvent) (e : VerifyEvent) (dataHash : Bytes32) (signer : Address),
    C.logs = before ++ e :: after → e.verified = some (dataHash, signer) → Admitted signer before

/-- What the events of `ECDSAVerify` tell, and what is accepted next. -/
structure ECDSAVerify.Audited (E : Evm) (C : ECDSAVerify) : Prop extends C.Told E where
  /-- Both modes accept the same submissions, however often they have been made. -/
  accepted : ∀ (dataHash : Bytes32) (v : ℕ) (r s : Bytes32),
    ((∃ C', C.exec E (.submitAndVerify dataHash v r s) = .ok C') ↔ Admitted (E.ecrecover dataHash v r s) C.logs) ∧
      ((∃ C', C.exec E (.submitVerifyAndStore dataHash v r s) = .ok C') ↔
        Admitted (E.ecrecover dataHash v r s) C.logs)

theorem lastTold_concat {α : Type} (f : VerifyEvent → Option α) (logs : List VerifyEvent) (e : VerifyEvent) :
    lastTold f (logs ++ [e]) = (f e).or (lastTold f logs) := by
  unfold lastTold
  rw [List.filterMap_append]
  cases h : f e with
  | none => simp [h]
  | some a => simp [h]

namespace ECDSAVerify

variable {E : Evm} {C C' : ECDSAVerify}

theorem checkSigner_ok {signer : Address} {u : Unit} : C.checkSigner signer = .ok u ↔
    signer ≠ 0 ∧ (C.signerVerificationEnabled → C.registeredSigners signer) := by
  unfold checkSigner
  simp only [bind_eq_ok, revertIf_eq_ok, not_and, not_not, exists_const, ne_eq]

theorem submitAndVerify_ok {dataHash : Bytes32} {v : ℕ} {r s : Bytes32} :
    C.submitAndVerify E dataHash v r s = .ok C' ↔ C.checkSigner (E.ecrecover dataHash v r s) = .ok () ∧
      { C with
        latestDataHash := dataHash
        latestSigner := E.ecrecover dataHash v r s
        logs := C.logs ++ [.dataVerified dataHash (E.ecrecover dataHash v r s)] } = C' := by
  unfold submitAndVerify
  simp only [bind_eq_ok, pure_eq_ok]
  constructor
  · rintro ⟨_, h⟩
    exact h
  · intro h
    exact ⟨(), h⟩

theorem submitVerifyAndStore_ok {dataHash : Bytes32} {v : ℕ} {r s : Bytes32} :
    C.submitVerifyAndStore E dataHash v r s = .ok C' ↔ C.checkSigner (E.ecrecover dataHash v r s) = .ok () ∧
      { C with
        latestDataHash := dataHash
        latestSigner := E.ecrecover dataHash v r s
        latestSigR := r
        latestSigS := s
        logs := C.logs ++ [.dataVerifiedWithSig dataHash (E.ecrecover dataHash v r s)] } = C' := by
  unfold submitVerifyAndStore
  simp only [bind_eq_ok, pure_eq_ok]
  constructor
  · rintro ⟨_, h⟩
    exact h
  · intro h
    exact ⟨(), h⟩

theorem Told.init : Told E init where
  signers := fun a => by simp [ECDSAVerify.init]
  enabled := rfl
  latest := fun p h => by cases h
  stored := fun dataHash signer h => by cases h
  admitted := fun before after e dataHash signer h => by cases before <;> cases h

theorem Told.admitted_iff (h : C.Told E) {signer : Address} {u : Unit} :
    C.checkSigner signer = .ok u ↔ Admitted signer C.logs := by
  rw [checkSigner_ok, Admitted, h.enabled, h.signers]
  cases lastTold VerifyEvent.enabled C.logs <;> simp

/-- An event that is admitted where it is one of a submission leaves the earlier ones admitted. -/
theorem Told.admitted_concat (h : C.Told E) {e : VerifyEvent}
    (he : ∀ dataHash signer, e.verified = some (dataHash, signer) → Admitted signer C.logs)
    (before after : List VerifyEvent) (e' : VerifyEvent) (dataHash : Bytes32) (signer : Address)
    (hlogs : C.logs ++ [e] = before ++ e' :: after) (hverified : e'.verified = some (dataHash, signer)) :
    Admitted signer before := by
  rcases List.eq_nil_or_concat after with rfl | ⟨after, last, rfl⟩
  · obtain ⟨rfl, he'⟩ := List.append_inj' hlogs rfl
    obtain rfl := List.singleton_inj.1 he'
    exact he dataHash signer hverified
  · rw [List.concat_eq_append, ← List.cons_append, ← List.append_assoc] at hlogs
    exact h.admitted before after e' dataHash signer (List.append_inj' hlogs rfl).1 hverified

theorem Told.step (h : C.Told E) {c : VerifyCall} (hs : C.exec E c = .ok C') : C'.Told E := by
  cases c with
  | setSignerVerification enabled =>
    cases hs
    dsimp only [setSignerVerification]
    refine ⟨fun a => ?_, ?_, fun p hp => ?_, fun dataHash signer hp => ?_,
      h.admitted_concat (by simp [VerifyEvent.verified])⟩
    · simp [h.signers a]
    · rw [lastTold_concat]
      rfl
    · rw [lastTold_concat] at hp
      exact h.latest p hp
    · rw [lastTold_concat] at hp
      exact h.stored dataHash signer hp
  | registerSigner signer =>
    cases hs
    dsimp only [registerSigner]
    refine ⟨fun a => ?_, ?_, fun p hp => ?_, fun dataHash signer hp => ?_,
      h.admitted_concat (by simp [VerifyEvent.verified])⟩
    · by_cases ha : a = signer
      · simp [ha]
      · simp [ha, h.signers a]
    · rw [lastTold_concat]
      exact h.enabled
    · rw [lastTold_concat] at hp
      exact h.latest p hp
    · rw [lastTold_concat] at hp
      exact h.stored dataHash signer hp
  | submitAndVerify dataHash v r s =>
    obtain ⟨hcheck, rfl⟩ := submitAndVerify_ok.1 hs
    refine ⟨fun a => ?_, ?_, fun p hp => ?_, fun dataHash signer hp => ?_, h.admitted_concat fun _ _ hp => ?_⟩
    · simp [h.signers a]
    · rw [lastTold_concat]
      exact h.enabled
    · rw [lastTold_concat] at hp
      exact Option.some.inj hp
    · rw [lastTold_concat] at hp
      exact h.stored dataHash signer hp
    · cases hp
      exact h.admitted_iff.1 hcheck
  | submitVerifyAndStore dataHash v r s =>
    obtain ⟨hcheck, rfl⟩ := submitVerifyAndStore_ok.1 hs
    refine ⟨fun a => ?_, ?_, fun p hp => ?_, fun dataHash signer hp => ?_, h.admitted_concat fun _ _ hp => ?_⟩
    · simp [h.signers a]
    · rw [lastTold_concat]
      exact h.enabled
    · rw [lastTold_concat] at hp
      exact Option.some.inj hp
    · rw [lastTold_concat] at hp
      cases hp
      exact ⟨v, rfl⟩
    · cases hp
      exact h.admitted_iff.1 hcheck

theorem Reachable.told (h : Reachable E C) : C.Told E := by
  refine Lib.Reachable.invariant ?_ (fun C C' _ h hs => ?_) h
  · rintro C rfl
    exact Told.init
  · obtain ⟨c, hs⟩ := hs
    exact h.step hs

end ECDSAVerify

/-- **The audit of every run.** -/
theorem ecdsa_audit {E : Evm} {C : ECDSAVerify} (h : C.Reachable E) : C.Audited E where
  toTold := h.told
  accepted := fun dataHash v r s => by
    have hcheck : C.checkSigner (E.ecrecover dataHash v r s) = .ok () ↔
        Admitted (E.ecrecover dataHash v r s) C.logs := h.told.admitted_iff
    constructor
    · rw [← hcheck]
      exact ⟨fun ⟨_, hs⟩ => (ECDSAVerify.submitAndVerify_ok.1 hs).1,
        fun hok => ⟨_, ECDSAVerify.submitAndVerify_ok.2 ⟨hok, rfl⟩⟩⟩
    · rw [← hcheck]
      exact ⟨fun ⟨_, hs⟩ => (ECDSAVerify.submitVerifyAndStore_ok.1 hs).1,
        fun hok => ⟨_, ECDSAVerify.submitVerifyAndStore_ok.2 ⟨hok, rfl⟩⟩⟩

namespace ECDSAVerify

/-- A signature is the digest, and the signer in the first byte behind it. -/
def toyEvm : Evm where
  keccak256 := Bytes32.ofBytes
  ecrecover digest _ r s := if r = digest then Fin.ofNat _ (s.bytes.headD 0) else 0

/-- Two submissions of the signer 5, of which the first keeps its signature. -/
def toy : ECDSAVerify where
  latestDataHash := Bytes32.ofBytes [8]
  latestSigner := 5
  latestSigR := Bytes32.ofBytes [7]
  latestSigS := Bytes32.ofBytes [5]
  registeredSigners := fun _ => false
  signerVerificationEnabled := false
  logs := [.dataVerifiedWithSig (Bytes32.ofBytes [7]) 5, .dataVerified (Bytes32.ofBytes [8]) 5]

theorem toy_reachable : toy.Reachable toyEvm := by
  refine .step (.step (.start rfl) ⟨.submitVerifyAndStore (Bytes32.ofBytes [7]) 27 (Bytes32.ofBytes [7])
    (Bytes32.ofBytes [5]), rfl⟩) ⟨.submitAndVerify (Bytes32.ofBytes [8]) 27 (Bytes32.ofBytes [8]) (Bytes32.ofBytes [5]),
    rfl⟩

/-- The signature that is kept need not be of the latest data. -/
theorem toy_stale (v : ℕ) : toyEvm.ecrecover toy.latestDataHash v toy.latestSigR toy.latestSigS ≠ toy.latestSigner := by
  simp [toyEvm, toy, Bytes32.ofBytes]

end ECDSAVerify

/-- The signature that is kept is of the first data, and not of the latest. -/
theorem ecdsa_audit_toy :
    (∃ v, ECDSAVerify.toyEvm.ecrecover (Bytes32.ofBytes [7]) v ECDSAVerify.toy.latestSigR
      ECDSAVerify.toy.latestSigS = 5) ∧
    ∀ v, ECDSAVerify.toyEvm.ecrecover ECDSAVerify.toy.latestDataHash v ECDSAVerify.toy.latestSigR
      ECDSAVerify.toy.latestSigS ≠ ECDSAVerify.toy.latestSigner :=
  ⟨(ecdsa_audit ECDSAVerify.toy_reachable).stored _ _ rfl, ECDSAVerify.toy_stale⟩

end PqIotAuth
