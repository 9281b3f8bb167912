import PqIotAuth.Runs
import Mathlib.Tactic.Positivity

/-!
# Evaluating runs

The model computes, so a run can be carried out: `World.run` performs a list of actions and `World.run_reachable` says
that where it ends is reachable. What it takes besides is a deployment whose builtins compute. `Evm.toy` has the two
properties that the security statements assume of the real ones: its `keccak256` is injective on byte strings
(`Evm.toy_injective`), since it writes the whole string into the first of the 32 bytes, and its `ecrecover` returns a
signer only for the digest that was signed.
-/

namespace PqIotAuth

open Lib

/-! ## Runs -/

namespace World

variable {D : Deployment}

def run (D : Deployment) : List Action → World → Except Error World
  | [], w => .ok w
  | a :: as, w => w.step D a >>= run D as

/-- Where the actions lead, the start when one of them fails. -/
def after (D : Deployment) (as : List Action) (w : World) : World :=
  match run D as w with
  | .ok w' => w'
  | .error _ => w

theorem run_reaches : ∀ {as : List Action} {w w' : World}, run D as w = .ok w' → Reaches (Step D) w w'
  | [], _, _, h => Except.ok.inj h ▸ .refl
  | a :: as, w, w', h => by
    rw [run, bind_eq_ok] at h
    obtain ⟨v, ha, h⟩ := h
    exact .head ⟨a, ha⟩ (run_reaches h)

theorem after_reaches (as : List Action) (w : World) : Reaches (Step D) w (after D as w) := by
  unfold after
  split
  · rename_i h
    exact run_reaches h
  · exact .refl

theorem init_reachable {now : ℕ} (h : 0 < now) : Reachable D (init now) := .start ⟨now, h, rfl⟩

/-- **A run that is carried out from the start is a run.** -/
theorem after_reachable (as : List Action) {w : World} (h : Reachable D w) : Reachable D (after D as w) :=
  h.trans (after_reaches as w)

/-- The worlds on the way from the latest world of a run, the latest first, up to an action that fails. -/
def trail (D : Deployment) : List Action → World → List World → List World
  | [], w, h => w :: h
  | a :: as, w, h =>
    match w.step D a with
    | .ok w' => trail D as w' (w :: h)
    | .error _ => w :: h

theorem trail_history : ∀ (as : List Action) {w : World} {h : List World},
    History Initial (Step D) (w :: h) → History Initial (Step D) (trail D as w h)
  | [], _, _, hh => hh
  | a :: as, w, h, hh => by
    rw [trail]
    split
    · rename_i w' ha
      exact trail_history as (.step hh ⟨a, ha⟩)
    · exact hh

/-- A run that is carried out from the start, with all its worlds. -/
theorem init_history {now : ℕ} (h : 0 < now) (as : List Action) :
    History Initial (Step D) (trail D as (init now) []) := trail_history as (.start ⟨now, h, rfl⟩)

theorem run_trail : ∀ {as : List Action} {w w' : World}, run D as w = .ok w' →
    ∀ h : List World, ∃ h', trail D as w h = w' :: h'
  | [], _, _, hr, h => Except.ok.inj hr ▸ ⟨h, rfl⟩
  | a :: as, w, w', hr, h => by
    rw [run, bind_eq_ok] at hr
    obtain ⟨v, ha, hr⟩ := hr
    rw [trail, ha]
    exact run_trail hr (w :: h)

/-- A run that is carried out ends where its actions lead. -/
theorem trail_after {as : List Action} {w : World} (hok : (run D as w).isOk) (h : List World) :
    ∃ h', trail D as w h = after D as w :: h' := by
  unfold after
  rcases hr : run D as w with e | w'
  · rw [hr] at hok
    cases hok
  · exact run_trail hr h

/-- An action that can be performed leads where it is evaluated to lead. -/
theorem after_step {w : World} {a : Action} (h : (w.step D a).isOk) : w.step D a = .ok (after D [a] w) := by
  have hrun : run D [a] w = w.step D a := by
    rw [run]
    cases w.step D a <;> rfl
  unfold after
  rw [hrun]
  rcases ha : w.step D a with e | w'
  · rw [ha] at h
    cases h
  · rfl

/-- The actions can be performed one after the other, each under the condition `P`. -/
def meets (D : Deployment) (P : World → Action → Prop) [∀ w, DecidablePred (P w)] : List Action → World → Bool
  | [], _ => true
  | a :: as, w =>
    match w.step D a with
    | .ok w' => decide (P w a) && meets D P as w'
    | .error _ => false

theorem meets_run {P : World → Action → Prop} [∀ w, DecidablePred (P w)] : ∀ {as : List Action} {w : World},
    meets D P as w → ∃ w', run D as w = .ok w' ∧ Reaches (StepIf D P) w w'
  | [], w, _ => ⟨w, rfl, .refl⟩
  | a :: as, w, h => by
    rw [meets] at h
    split at h
    · rename_i v ha
      rw [Bool.and_eq_true, decide_eq_true_iff] at h
      obtain ⟨w', hr, hreach⟩ := meets_run h.2
      refine ⟨w', ?_, .head ⟨a, h.1, ha⟩ hreach⟩
      rw [run, ha]
      exact hr
    · cases h

/-- A run that is carried out from the start under a condition is a run under the condition. -/
theorem meets_reachable {P : World → Action → Prop} [∀ w, DecidablePred (P w)] {as : List Action} {w : World}
    (hw : Initial w) (h : meets D P as w) : Lib.Reachable Initial (StepIf D P) (after D as w) := by
  obtain ⟨w', hr, hreach⟩ := meets_run h
  unfold after
  rw [hr]
  exact Lib.Reachable.trans (.start hw) hreach

end World

/-! ## Builtins that compute -/

/-- A number for a list of numbers: each is written behind its length, the length in unary. -/
def encodeList : List ℕ → ℕ
  | [] => 0
  | a :: l => (2 * (encodeList l * 2 ^ (Nat.log2 a + 1) + a) + 1) * 2 ^ (Nat.log2 a + 1)

theorem odd_mul_two_pow_inj {a b j k : ℕ} (h : (2 * a + 1) * 2 ^ j = (2 * b + 1) * 2 ^ k) : j = k ∧ a = b := by
  induction j generalizing k with
  | zero =>
    cases k with
    | zero => exact ⟨rfl, by simpa using h⟩
    | succ k =>
      rw [Nat.pow_zero, Nat.mul_one, Nat.pow_succ, ← Nat.mul_assoc] at h
      omega
  | succ j ih =>
    cases k with
    | zero =>
      rw [Nat.pow_zero, Nat.mul_one, Nat.pow_succ, ← Nat.mul_assoc] at h
      omega
    | succ k =>
      rw [Nat.pow_succ, Nat.pow_succ, ← Nat.mul_assoc, ← Nat.mul_assoc] at h
      obtain ⟨hjk, hab⟩ := ih (Nat.eq_of_mul_eq_mul_right (by decide) h)
      exact ⟨by rw [hjk], hab⟩

theorem encodeList_cons_pos (a : ℕ) (l : List ℕ) : 0 < encodeList (a :: l) := by
  rw [encodeList]
  positivity

theorem encodeList_injective : ∀ {l l' : List ℕ}, encodeList l = encodeList l' → l = l'
  | [], [], _ => rfl
  | [], a :: l, h => absurd h (encodeList_cons_pos a l).ne
  | a :: l, [], h => absurd h (encodeList_cons_pos a l).ne'
  | a :: l, b :: l', h => by
    rw [encodeList, encodeList] at h
    obtain ⟨hlog, hrest⟩ := odd_mul_two_pow_inj h
    have ha : a < 2 ^ (Nat.log2 a + 1) := Nat.lt_log2_self
    have hb : b < 2 ^ (Nat.log2 a + 1) := hlog ▸ Nat.lt_log2_self
    rw [← hlog] at hrest
    have hab : a = b := by
      have := congrArg (· % 2 ^ (Nat.log2 a + 1)) hrest
      simpa [Nat.mul_add_mod', Nat.mod_eq_of_lt ha, Nat.mod_eq_of_lt hb] using this
    subst hab
    have hl : encodeList l = encodeList l' := Nat.eq_of_mul_eq_mul_right (by positivity) (Nat.add_right_cancel hrest)
    rw [encodeList_injective hl]

namespace Evm

/-- The string in the first byte, zeros behind it; a signature is the digest, the signer in the next byte, and zeros. -/
def toy : Evm where
  keccak256 b := Bytes32.ofBytes [encodeList b]
  ecrecover digest _ r s := if r = digest then Fin.ofNat _ (s.bytes.headD 0) else 0

/-- A signature that `toy` recovers to `signer` on `digest`. -/
def toySignature (digest : Bytes32) (signer : Address) : List Byte :=
  digest.bytes ++ [signer.val] ++ List.replicate 31 0 ++ [27]

theorem toy_injective : Function.Injective toy.keccak256 := by
  intro b b' h
  have h1 := congrArg (·.bytes.headD 0) h
  exact encodeList_injective h1

end Evm

/-- A deployment with small amounts and the given quorum. -/
def Deployment.toy (quorum : ℕ) : Deployment where
  toEvm := Evm.toy
  challengePeriod := 100
  quorum := quorum
  relayStakeAmount := 50
  verifierStakeAmount := 20
  challengerBondAmount := 10
  relaySlashAmount := 30
  verifierSlashAmount := 15
  chainid := 1
  self := 99

/-! ## A run to evaluate -/

namespace Toy

def did : Bytes32 := Bytes32.ofBytes [7]

/-- The signatures of a batch of two. -/
def availability : List Byte := List.replicate falcon512SigSizeMax 1 ++ List.replicate falcon512SigSizeMax 2

def sigHash (i : ℕ) : Bytes32 := Evm.toy.keccak256 (List.replicate falcon512SigSizeMax (i + 1))

/-- The leaf `i` of the first batch, in a run that has filed three records before. -/
def leaf (i : ℕ) : Bytes32 := leafHash (Deployment.toy 2) 0 did (4 + i) did (sigHash i)

/-- The vote of `voter` in a dispute on the given target. -/
def vote (voter : Address) (id targetType targetIndex leafIndex : ℕ) (verdictIsFraud : Bool) : Action :=
  let d : Dispute := ⟨targetType, targetIndex, leafIndex, 0, 0, 0, 0, [], [], false⟩
  .call voter 0 (.submitAttestation id verdictIsFraud
    (Evm.toySignature (attestDigest Evm.toy id verdictIsFraud d) voter))

/-- The relay 2 files three records and a batch; the verifiers 3, 4 and 5 have joined. -/
def filings : List Action := [
  .registerDID 1 did (List.replicate 897 3),
  .call 2 100 .stakeRelay,
  .call 3 40 .stakeVerifier,
  .call 4 40 .stakeVerifier,
  .call 5 40 .stakeVerifier,
  .call 2 0 (.submitAccountable did did [1]),
  .call 2 0 (.submitAccountable did did [2]),
  .call 2 0 (.submitAccountable did did [3]),
  .call 2 0 (.submitBatch [did, did] [did, did] availability)]

/-- Record 0 is disputed and upheld by 3 and 4, record 1 revoked by 3 and 4 against 5, record 2 confirmed, and the
second leaf of the batch is under dispute with one vote. -/
def disputes : List Action := [
  .call 9 10 (.openDispute 0),
  vote 3 0 0 0 0 false,
  vote 4 0 0 0 0 false,
  .call 9 10 (.openDispute 1),
  vote 5 1 0 1 0 false,
  vote 3 1 0 1 0 true,
  vote 4 1 0 1 0 true,
  .call 8 10 (.openBatchLeafDispute 0 1 did 5 did (sigHash 1) [leaf 0]),
  vote 3 2 1 0 1 false,
  .tick 1100,
  .call 9 0 (.finalizeRecord 2)]

def world : World := World.after (Deployment.toy 2) (filings ++ disputes) (World.init 1000)

theorem world_reachable : world.Reachable (Deployment.toy 2) :=
  World.after_reachable _ (World.init_reachable (by decide))

end Toy

end PqIotAuth
