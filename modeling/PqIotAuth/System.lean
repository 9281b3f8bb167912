import PqIotAuth.Relay.Calls
import PqIotAuth.Lib.Runs

/-!
# The chain the contracts live on

A `World` is the state of the three contracts, the ether that `AccountableRelay` holds and the time of the current
block; an `Action` is one thing that can happen next, by anyone. A run is a sequence of actions that succeed: a call
that reverts changes nothing, so it is not an action of a run.

* Time passes by `tick`, between transactions only. The first block with a transaction comes after the genesis block
  and has a later timestamp, so the time of a run is positive.
* `withdraw` hands control to the recipient, which may make any further calls, through any contracts, before it
  returns. So the two halves of `withdraw` are two actions, and whatever happens between them at the same timestamp
  is reentrant. A recipient that reverts undoes the whole of it, which leaves the world as it was before.
* Ether can be sent to the contract without a call; `forceFeed` does that and `forceFed` counts it.
-/

namespace PqIotAuth

open Lib

structure World where
  /-- `block.timestamp`. -/
  now : ℕ
  didRegistry : DIDRegistry
  metaTxRelay : MetaTxRelay
  relay : Storage
  /-- The ether held by `AccountableRelay`. -/
  balance : ℕ
  forceFed : ℕ
  /-- The recipients and amounts of the external calls that have not returned, the innermost first. -/
  openCalls : List (Address × ℕ)

/-- The world as it stands when the contracts have been deployed. -/
def World.init (now : ℕ) : World where
  now := now
  didRegistry := DIDRegistry.init
  metaTxRelay := MetaTxRelay.init
  relay := Storage.init
  balance := 0
  forceFed := 0
  openCalls := []

inductive Action where
  | tick (timestamp : ℕ)
  | registerDID (sender : Address) (didHash : Bytes32) (falconPublicKey : List Byte)
  | deactivateDID (sender : Address) (didHash : Bytes32)
  | submitTransaction (sender : Address) (dataHash didHash : Bytes32) (falconSignature : List Byte)
      (verificationResult : Bool)
  | call (sender : Address) (value : ℕ) (c : Call)
  | withdraw (sender : Address)
  | withdrawReturn
  | forceFeed (amount : ℕ)

/-- What a call by `sender` with `value` sees. -/
def World.env (w : World) (sender : Address) (value : ℕ) : Env := ⟨sender, value, w.now, w.didRegistry⟩

def World.step (D : Deployment) (w : World) : Action → Except Error World
  | .tick timestamp => do
    revertIf (timestamp < w.now ∨ w.openCalls ≠ []) .notOffered
    return { w with now := timestamp }
  | .registerDID sender didHash falconPublicKey => do
    let didRegistry ← w.didRegistry.registerDID sender w.now didHash falconPublicKey
    return { w with didRegistry }
  | .deactivateDID sender didHash => do
    let didRegistry ← w.didRegistry.deactivateDID sender didHash
    return { w with didRegistry }
  | .submitTransaction sender dataHash didHash falconSignature verificationResult => do
    let metaTxRelay ← w.metaTxRelay.submitTransaction D.toEvm (w.env sender 0) dataHash didHash falconSignature
      verificationResult
    return { w with metaTxRelay }
  | .call sender value c => do
    let relay ← c.exec D (w.env sender value) w.relay
    return { w with relay, balance := w.balance + value }
  | .withdraw sender => do
    let (relay, amount) ← PqIotAuth.withdraw (w.env sender 0) w.relay
    revertIf (w.balance < amount) (.require "withdraw transfer failed")
    return { w with relay, balance := w.balance - amount, openCalls := (sender, amount) :: w.openCalls }
  | .withdrawReturn =>
    match w.openCalls with
    | [] => .error .notOffered
    | (account, amount) :: openCalls =>
      .ok { w with relay := PqIotAuth.withdrawReturn account amount w.relay, openCalls }
  | .forceFeed amount => .ok { w with balance := w.balance + amount, forceFed := w.forceFed + amount }

namespace World

/-- A world in which a run begins. -/
def Initial (w : World) : Prop := ∃ now, 0 < now ∧ w = init now

/-- One action, of any kind. -/
def Step (D : Deployment) (w w' : World) : Prop := ∃ a, w.step D a = .ok w'

/-- One action, taken under a condition. -/
def StepIf (D : Deployment) (P : World → Action → Prop) (w w' : World) : Prop := ∃ a, P w a ∧ w.step D a = .ok w'

theorem StepIf.step {D : Deployment} {P : World → Action → Prop} {w w' : World} (h : StepIf D P w w') :
    Step D w w' := by
  obtain ⟨a, -, hs⟩ := h
  exact ⟨a, hs⟩

/-- The worlds of all runs. -/
def Reachable (D : Deployment) : World → Prop := Lib.Reachable Initial (Step D)

end World

end PqIotAuth
