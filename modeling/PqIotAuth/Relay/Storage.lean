import PqIotAuth.DIDRegistry

/-!
# The storage of `AccountableRelay`

The storage variables of the contract, in groups that the internal functions read and write together: the stakes and
credits (`Ledger`), the records, batches and disputes (`Court`), the registry of "valid" attestations (`Exposure`) and
the committee (`Roster`). The immutables are a `Deployment`; the events a run has emitted are kept in `logs`, so that a
statement can say which verdict a dispute ended with.
-/

namespace PqIotAuth

/-! ## Records, batches and disputes -/

inductive RecordState where
  | provisional
  | confirmed
  | disputed
  | revoked
  deriving DecidableEq

inductive LeafState where
  | undisputed
  | disputed
  | revoked
  | upheld
  deriving DecidableEq

structure Record where
  dataHash : Bytes32
  didHash : Bytes32
  falconSignature : List Byte
  pubKeyHash : Bytes32
  submittedAt : ℕ
  relay : Address
  nonce : ℕ
  state : RecordState
  deriving DecidableEq

structure Batch where
  merkleRoot : Bytes32
  leafCount : ℕ
  availabilityCommitment : Bytes32
  submittedAt : ℕ
  relay : Address
  revokedLeafCount : ℕ
  state : RecordState
  deriving DecidableEq

structure Dispute where
  /-- 0 for a record, 1 for a leaf of a batch. -/
  targetType : ℕ
  /-- The index of the record or of the batch. -/
  targetIndex : ℕ
  leafIndex : ℕ
  challenger : Address
  bond : ℕ
  openedAt : ℕ
  deadline : ℕ
  fraudAttesters : List Address
  validAttesters : List Address
  resolved : Bool
  deriving DecidableEq

/-- What a dispute is about: a record, or a leaf of a batch. -/
inductive Target where
  | record (index : ℕ)
  | leaf (batchIndex leafIndex : ℕ)
  deriving DecidableEq

def Dispute.target (d : Dispute) : Target :=
  if d.targetType = 0 then .record d.targetIndex else .leaf d.targetIndex d.leafIndex

/-! ## Events -/

inductive Event where
  | relayStaked (relay : Address) (amount : ℕ)
  | relayUnstaked (relay : Address) (amount : ℕ)
  | verifierRegistered (verifier : Address)
  | verifierUnstaked (verifier : Address) (amount : ℕ)
  | recordSubmitted (index : ℕ) (didHash : Bytes32) (nonce : ℕ) (dataHash : Bytes32) (relay : Address)
  | recordFinalized (index : ℕ)
  | batchSubmitted (batchIndex : ℕ) (merkleRoot : Bytes32) (leafCount : ℕ) (availabilityCommitment : Bytes32)
      (relay : Address)
  | batchLeaf (batchIndex leafIndex : ℕ) (didHash : Bytes32) (nonce : ℕ) (dataHash sigHash : Bytes32)
  | batchFinalized (batchIndex revokedLeafCount : ℕ)
  | disputeOpened (disputeId targetType targetIndex : ℕ) (challenger : Address)
  | disputeResolved (disputeId : ℕ) (fraudProven : Bool)
  | disputeExpired (disputeId : ℕ)
  | leafRevoked (batchIndex leafIndex : ℕ)
  | verifierDeregistered (verifier : Address)
  | withdrawn (account : Address) (amount : ℕ)
  deriving DecidableEq

/-! ## The groups -/

/-- The stake pools and the pull-payment credits of every account. -/
structure Ledger where
  relayStake : Address → ℕ
  verifierStake : Address → ℕ
  pendingWithdrawals : Address → ℕ

/-- The earliest times at which announced exits may be carried out, 0 when none is announced. -/
structure Exits where
  relayExitTime : Address → ℕ
  verifierExitTime : Address → ℕ

/-- The verifier committee. -/
structure Roster where
  isRegisteredVerifier : Address → Bool
  verifierRoster : List Address
  verifierCount : ℕ

/-- Everything that can be disputed, the disputes, and the counters of the open ones. -/
structure Court where
  records : List Record
  batches : List Batch
  disputes : List Dispute
  batchLeafState : ℕ → ℕ → LeafState
  batchOpenLeafDisputes : ℕ → ℕ
  relayActiveDisputes : Address → ℕ

/-- The "valid" attestations of each target, and the live exposure of each verifier to them. -/
structure Exposure where
  targetValidList : Bytes32 → List Address
  targetValidHas : Bytes32 → Address → Bool
  verifierLiveExposures : Address → ℕ
  exposedLeaves : ℕ → List ℕ

structure Storage where
  ledger : Ledger
  exits : Exits
  roster : Roster
  court : Court
  exposure : Exposure
  hasAttested : ℕ → Address → Bool
  didNonce : Bytes32 → ℕ
  guard : ℕ
  logs : List Event

/-- The storage the constructor leaves. -/
def Storage.init : Storage where
  ledger := ⟨fun _ => 0, fun _ => 0, fun _ => 0⟩
  exits := ⟨fun _ => 0, fun _ => 0⟩
  roster := ⟨fun _ => false, [], 0⟩
  court := ⟨[], [], [], fun _ _ => .undisputed, fun _ => 0, fun _ => 0⟩
  exposure := ⟨fun _ => [], fun _ _ => false, fun _ => 0, fun _ => []⟩
  hasAttested := fun _ _ => false
  didNonce := fun _ => 0
  guard := 1
  logs := []

def Storage.emit (e : Event) (s : Storage) : Storage := { s with logs := s.logs ++ [e] }

/-! ## The immutables -/

/-- A deployment: the machine, the constructor's arguments, and where the contract lives. -/
structure Deployment extends Evm where
  challengePeriod : ℕ
  quorum : ℕ
  relayStakeAmount : ℕ
  verifierStakeAmount : ℕ
  challengerBondAmount : ℕ
  relaySlashAmount : ℕ
  verifierSlashAmount : ℕ
  chainid : ℕ
  /-- `address(this)`. -/
  self : Address

/-- `3 days`. -/
def unstakeDelay : ℕ := 3 * 24 * 60 * 60

def falcon512SigSizeMax : ℕ := 752

end PqIotAuth
