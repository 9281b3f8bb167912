import PqIotAuth.DIDRegistry

/-!
# `MetaTxRelay`

The first version of the relay: it stores a signature with the result of the relay's own verification of it, and
refuses a `(dataHash, didHash, falconSignature)` whose commitment it has seen.
-/

namespace PqIotAuth

open Lib

/-- What a call sees of its environment: `msg.sender`, `msg.value`, `block.timestamp` and the registry as it stands. -/
structure Env where
  sender : Address
  value : ℕ
  timestamp : ℕ
  didRegistry : DIDRegistry

structure VerifiedTransaction where
  dataHash : Bytes32
  didHash : Bytes32
  falconSignature : List Byte
  pubKeyHash : Bytes32
  timestamp : ℕ
  verified : Bool

structure MetaTxRelay where
  transactions : List VerifiedTransaction
  transactionCount : ℕ
  usedCommitments : Bytes32 → Bool

namespace MetaTxRelay

/-- Maximum size of a Falcon-512 signature in bytes. -/
def falcon512SigSizeMax : ℕ := 752

/-- The storage of a freshly deployed relay. -/
def init : MetaTxRelay := ⟨[], 0, fun _ => false⟩

/-- `keccak256(abi.encodePacked(dataHash, didHash, falconSignature))`. -/
def commitment (E : Evm) (dataHash didHash : Bytes32) (falconSignature : List Byte) : Bytes32 :=
  E.keccak256 (dataHash.bytes ++ didHash.bytes ++ falconSignature)

def submitTransaction (E : Evm) (env : Env) (dataHash didHash : Bytes32) (falconSignature : List Byte)
    (verificationResult : Bool) (M : MetaTxRelay) : Except Error MetaTxRelay := do
  revertIf (env.value ≠ 0) .nonPayable
  revertIf (¬ (0 < falconSignature.length ∧ falconSignature.length ≤ falcon512SigSizeMax))
    (.require "Invalid signature length")
  revertIf (¬ env.didRegistry.isActive didHash) (.require "DID not active")
  let commitment := commitment E dataHash didHash falconSignature
  revertIf (M.usedCommitments commitment) (.require "Replay: already submitted")
  let usedCommitments := Function.update M.usedCommitments commitment true
  let pubKey ← env.didRegistry.getPublicKey didHash
  let transactions ← push M.transactions
    { dataHash, didHash, falconSignature, pubKeyHash := E.keccak256 pubKey, timestamp := env.timestamp,
      verified := verificationResult }
  let transactionCount ← checkedAdd M.transactionCount 1
  return { transactions, transactionCount, usedCommitments }

def getTransactionForVerification (M : MetaTxRelay) (index : ℕ) :
    Except Error (Bytes32 × Bytes32 × List Byte × Bytes32) := do
  revertIf (¬ index < M.transactions.length) (.require "Index out of bounds")
  let txn ← load boundsPanic M.transactions index
  return (txn.dataHash, txn.didHash, txn.falconSignature, txn.pubKeyHash)

/-! ## What a submission does -/

/-- The transaction that a submission stores. -/
def newTransaction (E : Evm) (env : Env) (dataHash didHash : Bytes32) (falconSignature : List Byte)
    (verificationResult : Bool) : VerifiedTransaction where
  dataHash := dataHash
  didHash := didHash
  falconSignature := falconSignature
  pubKeyHash := E.keccak256 (env.didRegistry.dids didHash).publicKey
  timestamp := env.timestamp
  verified := verificationResult

/-- The storage after the submission of `txn` under the commitment `c`. -/
def filed (c : Bytes32) (txn : VerifiedTransaction) (M : MetaTxRelay) : MetaTxRelay :=
  ⟨M.transactions ++ [txn], M.transactionCount + 1, Function.update M.usedCommitments c true⟩

variable {E : Evm} {env : Env} {dataHash didHash : Bytes32} {sig : List Byte} {verificationResult : Bool}
  {M M' : MetaTxRelay}

theorem submitTransaction_ok (h : submitTransaction E env dataHash didHash sig verificationResult M = .ok M') :
    (0 < sig.length ∧ sig.length ≤ falcon512SigSizeMax) ∧ env.didRegistry.isActive didHash ∧
      ¬ M.usedCommitments (commitment E dataHash didHash sig) ∧ M' = M.filed (commitment E dataHash didHash sig)
        (newTransaction E env dataHash didHash sig verificationResult) := by
  unfold submitTransaction at h
  simp only [bind_eq_ok, revertIf_eq_ok, not_not, push_eq_ok, checkedAdd_eq_ok, pure_eq_ok] at h
  obtain ⟨_, -, _, hlength, _, hactive, _, hfresh, pubKey, hkey, _, ⟨-, rfl⟩, _, ⟨-, rfl⟩, rfl⟩ := h
  rw [DIDRegistry.getPublicKey_of_isActive hactive] at hkey
  obtain rfl := Except.ok.inj hkey
  exact ⟨hlength, hactive, hfresh, rfl⟩

/-- A submission that passes the other checks is rejected as a replay exactly when its commitment is used. -/
theorem submitTransaction_replay (hvalue : env.value = 0) (hlength : 0 < sig.length ∧ sig.length ≤ falcon512SigSizeMax)
    (hactive : env.didRegistry.isActive didHash) :
    submitTransaction E env dataHash didHash sig verificationResult M = .error (.require "Replay: already submitted") ↔
      M.usedCommitments (commitment E dataHash didHash sig) := by
  unfold submitTransaction
  rw [revertIf_of_not (not_not.2 hvalue), ok_bind, revertIf_of_not (not_not.2 hlength), ok_bind,
    revertIf_of_not (not_not.2 hactive), ok_bind]
  dsimp only
  constructor
  · intro h
    by_contra hfresh
    rw [revertIf_of_not hfresh, ok_bind, DIDRegistry.getPublicKey_of_isActive hactive, ok_bind] at h
    -- what is left can only panic
    unfold push checkedAdd at h
    split at h
    · split at h <;> simp [arithmeticPanic] at h
    · simp [sizePanic] at h
  · intro hused
    rw [revertIf_of hused, error_bind]

/-- The packed encoding is injective: only its last part has a variable length. -/
theorem commitment_inj (hinj : Function.Injective E.keccak256) {dataHash' didHash' : Bytes32} {sig' : List Byte}
    (h : commitment E dataHash didHash sig = commitment E dataHash' didHash' sig') :
    dataHash = dataHash' ∧ didHash = didHash' ∧ sig = sig' := by
  have hbytes := hinj h
  rw [List.append_assoc, List.append_assoc] at hbytes
  obtain ⟨hdata, hrest⟩ := List.append_inj hbytes (by rw [dataHash.length_eq, dataHash'.length_eq])
  obtain ⟨hdid, hsig⟩ := List.append_inj hrest (by rw [didHash.length_eq, didHash'.length_eq])
  exact ⟨Bytes32.ext' hdata, Bytes32.ext' hdid, hsig⟩

theorem getTransactionForVerification_ok {i : ℕ} {txn : VerifiedTransaction} (h : M.transactions[i]? = some txn) :
    M.getTransactionForVerification i = .ok (txn.dataHash, txn.didHash, txn.falconSignature, txn.pubKeyHash) := by
  unfold getTransactionForVerification
  rw [revertIf_of_not (not_not.2 (List.getElem?_eq_some_iff.1 h).1), ok_bind, load_eq_ok.2 h, ok_bind]
  rfl

end MetaTxRelay

end PqIotAuth
