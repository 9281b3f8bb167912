import PqIotAuth.MetaTxRelay
import PqIotAuth.Relay.Internal

/-!
# The external functions of `AccountableRelay`

One definition for each function that changes the storage. `withdraw` is in two halves, before and after the external
call it makes: between them the recipient runs, and what it may do then is said in `System`.
-/

namespace PqIotAuth

open Lib

/-- The modifier `nonReentrant`. -/
def nonReentrant (body : Storage → Except Error Storage) (s : Storage) : Except Error Storage := do
  revertIf (s.guard ≠ 1) .reentrant
  let s ← body { s with guard := 2 }
  return { s with guard := 1 }

/-! ## Stakes and the committee -/

def stakeRelay (env : Env) (s : Storage) : Except Error Storage := do
  revertIf (env.value = 0) .notStakedRelay
  let stake ← checkedAdd (s.ledger.relayStake env.sender) env.value
  let ledger := { s.ledger with relayStake := Function.update s.ledger.relayStake env.sender stake }
  return { s with ledger }.emit (.relayStaked env.sender env.value)

def announceUnstake (env : Env) (s : Storage) : Except Error Storage := do
  revertIf (s.ledger.relayStake env.sender = 0) .notStakedRelay
  revertIf (s.court.relayActiveDisputes env.sender ≠ 0) .activeDisputes
  let exitTime ← checkedAdd env.timestamp unstakeDelay
  let exits := { s.exits with relayExitTime := Function.update s.exits.relayExitTime env.sender exitTime }
  return { s with exits }

def unstakeRelay (env : Env) : Storage → Except Error Storage := nonReentrant fun s => do
  let amount := s.ledger.relayStake env.sender
  revertIf (amount = 0) .notStakedRelay
  revertIf (s.court.relayActiveDisputes env.sender ≠ 0) .activeDisputes
  revertIf (s.exits.relayExitTime env.sender = 0 ∨ env.timestamp < s.exits.relayExitTime env.sender) .stillStaked
  let ledger := { s.ledger with relayStake := Function.update s.ledger.relayStake env.sender 0 }
  let exits := { s.exits with relayExitTime := Function.update s.exits.relayExitTime env.sender 0 }
  let ledger ← credit env.sender amount ledger
  return { s with ledger, exits }.emit (.relayUnstaked env.sender amount)

def stakeVerifier (D : Deployment) (env : Env) (s : Storage) : Except Error Storage := do
  revertIf (env.value = 0) .notVerifier
  let stake ← checkedAdd (s.ledger.verifierStake env.sender) env.value
  let ledger := { s.ledger with verifierStake := Function.update s.ledger.verifierStake env.sender stake }
  let s := { s with ledger }
  if ¬ s.roster.isRegisteredVerifier env.sender ∧ stake ≥ D.verifierStakeAmount then do
    let isRegisteredVerifier := Function.update s.roster.isRegisteredVerifier env.sender true
    let verifierRoster ← push s.roster.verifierRoster env.sender
    let verifierCount ← checkedAdd s.roster.verifierCount 1
    return { s with roster := { isRegisteredVerifier, verifierRoster, verifierCount } }.emit
      (.verifierRegistered env.sender)
  else return s

def announceVerifierUnstake (env : Env) (s : Storage) : Except Error Storage := do
  revertIf (s.ledger.verifierStake env.sender = 0) .notVerifier
  revertIf (s.exposure.verifierLiveExposures env.sender ≠ 0) .activeDisputes
  let exitTime ← checkedAdd env.timestamp unstakeDelay
  let exits := { s.exits with verifierExitTime := Function.update s.exits.verifierExitTime env.sender exitTime }
  return { s with exits }

def unstakeVerifier (env : Env) : Storage → Except Error Storage := nonReentrant fun s => do
  let amount := s.ledger.verifierStake env.sender
  revertIf (amount = 0) .notVerifier
  revertIf (s.roster.isRegisteredVerifier env.sender) .stillStaked
  revertIf (s.exposure.verifierLiveExposures env.sender ≠ 0) .activeDisputes
  revertIf (s.exits.verifierExitTime env.sender = 0 ∨ env.timestamp < s.exits.verifierExitTime env.sender)
    .stillStaked
  let ledger := { s.ledger with verifierStake := Function.update s.ledger.verifierStake env.sender 0 }
  let exits := { s.exits with verifierExitTime := Function.update s.exits.verifierExitTime env.sender 0 }
  let ledger ← credit env.sender amount ledger
  return { s with ledger, exits }.emit (.verifierUnstaked env.sender amount)

/-- The scan of the roster for `account` from index `i`, with `turns` turns left and `n` the length at the start: the
last entry takes the place of the first match and the array loses its last entry. -/
def deregisterLoop (account : Address) (n : ℕ) : ℕ → ℕ → Roster → Except Error Roster
  | 0, _, r => return r
  | turns + 1, i, r => do
    let x ← load boundsPanic r.verifierRoster i
    if x = account then do
      let last ← load boundsPanic r.verifierRoster (n - 1)
      let verifierRoster ← store r.verifierRoster i last
      let verifierCount ← checkedSub r.verifierCount 1
      return { r with verifierRoster := verifierRoster.dropLast, verifierCount }
    else deregisterLoop account n turns (i + 1) r

def deregisterVerifier (env : Env) (s : Storage) : Except Error Storage := do
  revertIf (¬ s.roster.isRegisteredVerifier env.sender) .notRegisteredVerifier
  revertIf (s.exposure.verifierLiveExposures env.sender ≠ 0) .activeDisputes
  let isRegisteredVerifier := Function.update s.roster.isRegisteredVerifier env.sender false
  let n := s.roster.verifierRoster.length
  let roster ← deregisterLoop env.sender n n 0 { s.roster with isRegisteredVerifier }
  return { s with roster }.emit (.verifierDeregistered env.sender)

/-! ## Records -/

def submitAccountable (D : Deployment) (env : Env) (dataHash didHash : Bytes32) (falconSignature : List Byte)
    (s : Storage) : Except Error Storage := do
  revertIf (s.ledger.relayStake env.sender < D.relayStakeAmount) .notStakedRelay
  revertIf (¬ env.didRegistry.isActive didHash) .inactiveDID
  revertIf (falconSignature.length = 0 ∨ falconSignature.length > falcon512SigSizeMax) .badSignatureLength
  let nonce ← checkedAdd (s.didNonce didHash) 1
  let pubKey ← env.didRegistry.getPublicKey didHash
  let index := s.court.records.length
  let records ← push s.court.records
    { dataHash, didHash, falconSignature, pubKeyHash := D.keccak256 pubKey, submittedAt := uint64 env.timestamp,
      relay := env.sender, nonce, state := .provisional }
  let s := { s with didNonce := Function.update s.didNonce didHash nonce, court := { s.court with records } }
  return s.emit (.recordSubmitted index didHash nonce dataHash env.sender)

def finalizeRecord (D : Deployment) (env : Env) (index : ℕ) (s : Storage) : Except Error Storage := do
  let r ← load boundsPanic s.court.records index
  revertIf (r.state ≠ .provisional) .nothingToFinalize
  let windowEnd ← checkedAdd64 r.submittedAt D.challengePeriod
  revertIf (env.timestamp < windowEnd) .challengeWindowOpen
  let records ← store s.court.records index { r with state := .confirmed }
  let exposure ← releaseExposures (packedKey D.toEvm 0 index 0) s.exposure
  return { s with court := { s.court with records }, exposure }.emit (.recordFinalized index)

/-! ## Batches -/

/-- `_processLeaf`, on the storage and the array of leaf hashes in memory. -/
def processLeaf (D : Deployment) (env : Env) (batchIndex i : ℕ) (didHash dataHash : Bytes32)
    (availabilityData : List Byte) (m : Storage × List Bytes32) : Except Error (Storage × List Bytes32) := do
  revertIf (¬ env.didRegistry.isActive didHash) .inactiveDID
  let nonce ← checkedAdd (m.1.didNonce didHash) 1
  let offset ← checkedMul i falcon512SigSizeMax
  let sigHash ← sliceHash D.toEvm availabilityData offset
  let leaves ← store m.2 i (leafHash D batchIndex didHash nonce dataHash sigHash)
  let s := { m.1 with didNonce := Function.update m.1.didNonce didHash nonce }
  return (s.emit (.batchLeaf batchIndex i didHash nonce dataHash sigHash), leaves)

/-- The loop of `submitBatch` over the `k` leaves, with the array of leaf hashes it fills. -/
def processLeaves (D : Deployment) (env : Env) (batchIndex k : ℕ) (didHashes dataHashes : List Bytes32)
    (availabilityData : List Byte) (s : Storage) : Except Error (Storage × List Bytes32) :=
  (List.range k).foldlM (fun m i => do
    let didHash ← load boundsPanic didHashes i
    let dataHash ← load boundsPanic dataHashes i
    processLeaf D env batchIndex i didHash dataHash availabilityData m)
    (s, List.replicate k (Bytes32.ofBytes []))

def submitBatch (D : Deployment) (env : Env) (didHashes dataHashes : List Bytes32) (availabilityData : List Byte)
    (s : Storage) : Except Error Storage := do
  revertIf (s.ledger.relayStake env.sender < D.relayStakeAmount) .notStakedRelay
  let k := didHashes.length
  revertIf (k = 0 ∨ dataHashes.length ≠ k) .batchLengthMismatch
  let size ← checkedMul k falcon512SigSizeMax
  revertIf (availabilityData.length ≠ size) .badAvailabilityLength
  let batchIndex := s.court.batches.length
  let m ← processLeaves D env batchIndex k didHashes dataHashes availabilityData s
  let s := m.1
  let root ← buildTree D.toEvm m.2
  let availabilityCommitment := D.keccak256 availabilityData
  let batches ← push s.court.batches
    { merkleRoot := root, leafCount := k, availabilityCommitment, submittedAt := uint64 env.timestamp,
      relay := env.sender, revokedLeafCount := 0, state := .provisional }
  let s := { s with court := { s.court with batches } }
  return s.emit (.batchSubmitted batchIndex root k availabilityCommitment env.sender)

def finalizeBatch (D : Deployment) (env : Env) (batchIndex : ℕ) (s : Storage) : Except Error Storage := do
  let b ← load boundsPanic s.court.batches batchIndex
  revertIf (b.state ≠ .provisional) .nothingToFinalize
  let windowEnd ← checkedAdd64 b.submittedAt D.challengePeriod
  revertIf (env.timestamp < windowEnd) .challengeWindowOpen
  revertIf (s.court.batchOpenLeafDisputes batchIndex ≠ 0) .openLeafDisputes
  let batches ← store s.court.batches batchIndex { b with state := .confirmed }
  let exposed := s.exposure.exposedLeaves batchIndex
  let exposure ← exposed.foldlM (fun x l => releaseExposures (packedKey D.toEvm 1 batchIndex l) x) s.exposure
  let exposure := { exposure with exposedLeaves := Function.update exposure.exposedLeaves batchIndex [] }
  return { s with court := { s.court with batches }, exposure }.emit (.batchFinalized batchIndex b.revokedLeafCount)

/-! ## Disputes -/

/-- `_openDispute`. -/
def pushDispute (D : Deployment) (env : Env) (targetType targetIndex leafIndex : ℕ) (s : Storage) :
    Except Error Storage := do
  let deadline ← checkedAdd64 (uint64 env.timestamp) D.challengePeriod
  let disputeId := s.court.disputes.length
  let disputes ← push s.court.disputes
    { targetType, targetIndex, leafIndex, challenger := env.sender, bond := env.value,
      openedAt := uint64 env.timestamp, deadline, fraudAttesters := [], validAttesters := [], resolved := false }
  let s := { s with court := { s.court with disputes } }
  return s.emit (.disputeOpened disputeId targetType targetIndex env.sender)

/-- `relayActiveDisputes[relay] += 1`. -/
def addActiveDispute (relay : Address) (c : Court) : Except Error Court := do
  let active ← checkedAdd (c.relayActiveDisputes relay) 1
  return { c with relayActiveDisputes := Function.update c.relayActiveDisputes relay active }

def openDispute (D : Deployment) (env : Env) (recordIndex : ℕ) (s : Storage) : Except Error Storage := do
  revertIf (env.value < D.challengerBondAmount) .insufficientBond
  let r ← load boundsPanic s.court.records recordIndex
  revertIf (r.state ≠ .provisional) .nothingToFinalize
  let records ← store s.court.records recordIndex { r with state := .disputed }
  let court ← addActiveDispute r.relay { s.court with records }
  pushDispute D env 0 recordIndex 0 { s with court }

/-- The checks of `openBatchLeafDispute`, the proof check last; the result is the batch. -/
def checkBatchLeaf (D : Deployment) (env : Env) (batchIndex leafIndex : ℕ) (didHash : Bytes32) (nonce : Fin wordSize)
    (dataHash sigHash : Bytes32) (merkleProof : List Bytes32) (s : Storage) : Except Error Batch := do
  revertIf (env.value < D.challengerBondAmount) .insufficientBond
  let b ← load boundsPanic s.court.batches batchIndex
  revertIf (b.state ≠ .provisional) .nothingToFinalize
  revertIf (leafIndex ≥ b.leafCount) .badMerkleProof
  let ls := s.court.batchLeafState batchIndex leafIndex
  revertIf (ls = .disputed ∨ ls = .revoked) .leafNotDisputable
  let leaf := leafHash D batchIndex didHash nonce dataHash sigHash
  revertIf (¬ verifyProof D.toEvm leaf merkleProof leafIndex b.merkleRoot) .badMerkleProof
  return b

def openBatchLeafDispute (D : Deployment) (env : Env) (batchIndex leafIndex : ℕ) (didHash : Bytes32)
    (nonce : Fin wordSize) (dataHash sigHash : Bytes32) (merkleProof : List Bytes32) (s : Storage) :
    Except Error Storage := do
  let b ← checkBatchLeaf D env batchIndex leafIndex didHash nonce dataHash sigHash merkleProof s
  let court := s.court.setLeaf batchIndex leafIndex .disputed
  let openLeaves ← checkedAdd (court.batchOpenLeafDisputes batchIndex) 1
  let court :=
    { court with batchOpenLeafDisputes := Function.update court.batchOpenLeafDisputes batchIndex openLeaves }
  let court ← addActiveDispute b.relay court
  pushDispute D env 1 batchIndex leafIndex { s with court }

/-- The dispute with the vote of `signer` added to the side it voted for. -/
def Dispute.withVote (verdictIsFraud : Bool) (signer : Address) (d : Dispute) : Except Error Dispute :=
  if verdictIsFraud then do
    let fraudAttesters ← push d.fraudAttesters signer
    return { d with fraudAttesters }
  else do
    let validAttesters ← push d.validAttesters signer
    return { d with validAttesters }

def submitAttestation (D : Deployment) (env : Env) (disputeId : ℕ) (verdictIsFraud : Bool) (signature : List Byte) :
    Storage → Except Error Storage := nonReentrant fun s => do
  let d ← load boundsPanic s.court.disputes disputeId
  revertIf (d.deadline = 0) .unknownDispute
  revertIf (d.resolved ∨ env.timestamp > d.deadline) .noDisputeOpen
  let signer ← recover D.toEvm (attestDigest D.toEvm disputeId verdictIsFraud d) signature
  revertIf (¬ s.roster.isRegisteredVerifier signer ∨ s.ledger.verifierStake signer < D.verifierStakeAmount)
    .notRegisteredVerifier
  let relay ← targetRelay d s.court
  revertIf (signer = relay) .conflictOfInterest
  revertIf (s.hasAttested disputeId signer) .duplicateAttestation
  let hasAttested := Function.update s.hasAttested disputeId (Function.update (s.hasAttested disputeId) signer true)
  let d ← d.withVote verdictIsFraud signer
  let court := { s.court with disputes := s.court.disputes.set disputeId d }
  let s := { s with hasAttested, court }
  if d.fraudAttesters.length ≥ D.quorum then resolveFraud D disputeId s
  else if d.validAttesters.length ≥ D.quorum then resolveSpurious D disputeId s
  else return s

def expireDispute (D : Deployment) (env : Env) (disputeId : ℕ) : Storage → Except Error Storage :=
  nonReentrant fun s => do
    let d ← load boundsPanic s.court.disputes disputeId
    revertIf (d.deadline = 0) .unknownDispute
    revertIf d.resolved .alreadyResolved
    revertIf (env.timestamp ≤ d.deadline) .challengeWindowOpen
    let s := { s with court := s.court.markResolved disputeId d }
    let s ← revokeTarget d s
    let court ← closeDispute d s.court
    let exposure ← releaseExposures (targetKey D.toEvm d) s.exposure
    let ledger ← credit d.challenger (d.bond / 2) s.ledger
    return { s with court, exposure, ledger }.emit (.disputeExpired disputeId)

/-! ## Withdrawals -/

/-- `withdraw` up to its external call: the storage the recipient finds, and the amount sent to it. -/
def withdraw (env : Env) (s : Storage) : Except Error (Storage × ℕ) := do
  revertIf (s.guard ≠ 1) .reentrant
  let amount := s.ledger.pendingWithdrawals env.sender
  revertIf (amount = 0) .nothingToWithdraw
  let pendingWithdrawals := Function.update s.ledger.pendingWithdrawals env.sender 0
  return ({ s with guard := 2, ledger := { s.ledger with pendingWithdrawals } }, amount)

/-- `withdraw` after its external call has succeeded. -/
def withdrawReturn (account : Address) (amount : ℕ) (s : Storage) : Storage :=
  { s with guard := 1 }.emit (.withdrawn account amount)

/-! ## Dispatch -/

/-- A call of an external function, `withdraw` apart, with its arguments. -/
inductive Call where
  | stakeRelay
  | announceUnstake
  | unstakeRelay
  | stakeVerifier
  | announceVerifierUnstake
  | unstakeVerifier
  | deregisterVerifier
  | submitAccountable (dataHash didHash : Bytes32) (falconSignature : List Byte)
  | finalizeRecord (index : ℕ)
  | submitBatch (didHashes dataHashes : List Bytes32) (availabilityData : List Byte)
  | finalizeBatch (batchIndex : ℕ)
  | openDispute (recordIndex : ℕ)
  | openBatchLeafDispute (batchIndex leafIndex : ℕ) (didHash : Bytes32) (nonce : Fin wordSize)
      (dataHash sigHash : Bytes32) (merkleProof : List Bytes32)
  | submitAttestation (disputeId : ℕ) (verdictIsFraud : Bool) (signature : List Byte)
  | expireDispute (disputeId : ℕ)

def Call.payable : Call → Bool
  | .stakeRelay | .stakeVerifier | .openDispute .. | .openBatchLeafDispute .. => true
  | _ => false

def Call.run (D : Deployment) (env : Env) : Call → Storage → Except Error Storage
  | .stakeRelay => PqIotAuth.stakeRelay env
  | .announceUnstake => PqIotAuth.announceUnstake env
  | .unstakeRelay => PqIotAuth.unstakeRelay env
  | .stakeVerifier => PqIotAuth.stakeVerifier D env
  | .announceVerifierUnstake => PqIotAuth.announceVerifierUnstake env
  | .unstakeVerifier => PqIotAuth.unstakeVerifier env
  | .deregisterVerifier => PqIotAuth.deregisterVerifier env
  | .submitAccountable dataHash didHash sig => PqIotAuth.submitAccountable D env dataHash didHash sig
  | .finalizeRecord index => PqIotAuth.finalizeRecord D env index
  | .submitBatch didHashes dataHashes data => PqIotAuth.submitBatch D env didHashes dataHashes data
  | .finalizeBatch batchIndex => PqIotAuth.finalizeBatch D env batchIndex
  | .openDispute recordIndex => PqIotAuth.openDispute D env recordIndex
  | .openBatchLeafDispute batchIndex leafIndex didHash nonce dataHash sigHash merkleProof =>
    PqIotAuth.openBatchLeafDispute D env batchIndex leafIndex didHash nonce dataHash sigHash merkleProof
  | .submitAttestation disputeId verdictIsFraud signature =>
    PqIotAuth.submitAttestation D env disputeId verdictIsFraud signature
  | .expireDispute disputeId => PqIotAuth.expireDispute D env disputeId

/-- A call from outside: a function that is not payable reverts when it is sent a value. -/
def Call.exec (D : Deployment) (env : Env) (c : Call) (s : Storage) : Except Error Storage := do
  revertIf (env.value ≠ 0 ∧ ¬ c.payable) .nonPayable
  c.run D env s

end PqIotAuth
