import PqIotAuth.ECDSAVerify
import PqIotAuth.Lib.Hex
import PqIotAuth.System

/-!
# `HardhatBackend`

The client of the experiments: it submits transactions to the contracts on a node and keeps books on them. Its calls to
the node are serialized by a lock, but the books are kept after the lock has been given back, so the calls of several
threads interleave. A `Task` is one call under way; it takes turns (`Task.turn`), each of them one thing that the lock or
the interpreter does not interrupt: the block of a lock, or one read or write of a variable that the threads share.

Between the turns anyone may use the contracts. The node and the libraries of the client are parameters (`Node`); the
measured latencies and the wall-clock times that the books also hold are left out.
-/

namespace PqIotAuth.Hardhat

open Lib

/-! ## The node -/

/-- What the node answers about a transaction that it has mined. -/
structure Receipt where
  transactionHash : String
  gasUsed : ℕ
  blockNumber : ℕ

/-- The node, and the libraries of the client. -/
structure Node where
  /-- The receipts of the transactions mined, in their order. -/
  receipt : ℕ → Receipt
  hash_injective : Function.Injective fun n => (receipt n).transactionHash
  sha256 : List Byte → Bytes32
  /-- `Account.signHash`: the signature of a hash under a private key. -/
  signHash : Bytes32 → Bytes32 → ℕ × Bytes32 × Bytes32
  owner : Address
  relayAccount : Address

/-- The contracts, and how many transactions have been mined. -/
structure Chain where
  world : World
  ecdsaVerify : ECDSAVerify
  mined : ℕ

/-! ## What is submitted -/

/-- The arguments of `submit_meta_transaction`; `urandom` is what `os.urandom` returns for a size during the call. -/
structure MetaTransaction where
  relayAddress : String
  dataHash : String
  signatureSize : ℕ
  didActive : Bool
  dataHashBytes : Option Bytes32
  didHashBytes : Option Bytes32
  signatureBytes : Option (List Byte)
  didPublicKey : Option (List Byte)
  urandom : ℕ → List Byte

/-- An item of the list that `submit_batch_transaction` takes. -/
structure BatchItem where
  dataHash : String
  dataHashBytes : Option Bytes32
  didHashBytes : Option Bytes32
  signatureBytes : Option (List Byte)
  didPublicKey : Option (List Byte)
  verified : Option Bool
  signatureSize : Option ℕ
  urandom : ℕ → List Byte

def BatchItem.metaTransaction (relayAddress : String) (item : BatchItem) : MetaTransaction where
  relayAddress := relayAddress
  dataHash := item.dataHash
  signatureSize := item.signatureSize.getD MetaTxRelay.falcon512SigSizeMax
  didActive := item.verified.getD true
  dataHashBytes := item.dataHashBytes
  didHashBytes := item.didHashBytes
  signatureBytes := item.signatureBytes
  didPublicKey := item.didPublicKey
  urandom := item.urandom

namespace MetaTransaction

variable (N : Node) (m : MetaTransaction)

def data : Bytes32 := m.dataHashBytes.getD (N.sha256 (encodeUtf8 m.dataHash))

def did : Bytes32 := m.didHashBytes.getD (N.sha256 (encodeUtf8 "did:falconiot:default-device"))

def signature : List Byte := m.signatureBytes.getD (m.urandom (min m.signatureSize MetaTxRelay.falcon512SigSizeMax))

def publicKey : List Byte := m.didPublicKey.getD (m.urandom DIDRegistry.falcon512PkSize)

end MetaTransaction

/-- The arguments of `submit_transaction`. -/
structure DirectTransaction where
  sender : String
  dataHash : String
  payloadSize : ℕ
  storeSignature : Bool

/-- A transaction to submit, by `submit_meta_transaction` or by `submit_transaction`. -/
inductive Job where
  | relayed (m : MetaTransaction)
  | direct (t : DirectTransaction)

/-- An exception: the node has refused a transaction, or a string is not hexadecimal. -/
inductive Exn where
  | reverted (e : Error)
  | valueError
  deriving DecidableEq

/-- What the node refuses is raised. -/
def raised {α : Type} : Except Error α → Except Exn α
  | .ok a => .ok a
  | .error e => .error (.reverted e)

/-- The bytes that `submit_transaction` hashes. -/
def DirectTransaction.dataBytes (t : DirectTransaction) : Except Exn (List Byte) :=
  if t.dataHash.length ≥ 64 then
    match Hex.decode (t.dataHash.toList.take 64) with
    | some bytes => .ok bytes
    | none => .error .valueError
  else .ok (encodeUtf8 t.dataHash)

/-! ## The books -/

/-- An entry of `_transactions`. -/
structure TransactionInfo where
  sender : String
  dataHash : String
  signatureSize : Option ℕ
  payloadSize : Option ℕ
  gasUsed : ℕ
  blockNumber : ℕ
  type : Option String
  storeSignature : Option Bool

/-- The entry that a transaction gets. -/
def Job.info (r : Receipt) : Job → TransactionInfo
  | .relayed m =>
    { sender := m.relayAddress, dataHash := m.dataHash, signatureSize := some m.signatureSize, payloadSize := none,
      gasUsed := r.gasUsed, blockNumber := r.blockNumber, type := some "meta_transaction", storeSignature := none }
  | .direct t =>
    { sender := t.sender, dataHash := t.dataHash, signatureSize := none, payloadSize := some t.payloadSize,
      gasUsed := r.gasUsed, blockNumber := r.blockNumber, type := none, storeSignature := some t.storeSignature }

structure HardhatBackend where
  transactions : String → Option TransactionInfo
  txOrder : List String
  blockNumber : ℕ
  registeredDids : Bytes32 → Bool

namespace HardhatBackend

def init : HardhatBackend := ⟨fun _ => none, [], 0, fun _ => false⟩

def getReceipt (txHash : String) (B : HardhatBackend) : Option TransactionInfo := B.transactions txHash

def transactionCount (B : HardhatBackend) : ℕ := B.txOrder.length

end HardhatBackend

/-- The gas of the transactions with an entry that has `p`. -/
def gasOf (p : TransactionInfo → Bool) (infos : List TransactionInfo) : List ℕ := (infos.filter p).map (·.gasUsed)

def TransactionInfo.isMeta (tx : TransactionInfo) : Bool := tx.type = some "meta_transaction"

def TransactionInfo.isStored (tx : TransactionInfo) : Bool := !tx.isMeta && tx.storeSignature = some true

def TransactionInfo.isVerified (tx : TransactionInfo) : Bool := !tx.isMeta && !(tx.storeSignature = some true)

/-- `sum(xs) / len(xs)`. -/
def mean (xs : List ℕ) : ℚ := xs.sum / xs.length

/-- The dictionary of `get_gas_decomposition`. -/
structure GasDecomposition where
  relayAvgGas : Option ℚ
  relayTxCount : Option ℕ
  relayBaseTxGas : Option ℕ
  relayContractOverhead : Option ℚ
  ecdsaVerifyAvgGas : Option ℚ
  ecdsaTxCount : Option ℕ
  ecdsaStoreAvgGas : Option ℚ
  ecdsaStoreTxCount : Option ℕ
  relayVsEcdsaStoreRatio : Option ℚ

/-- `get_gas_decomposition`, from the entries in the order of submission. -/
def decompose (infos : List TransactionInfo) : GasDecomposition :=
  let relayTxs := gasOf TransactionInfo.isMeta infos
  let ecdsaTxs := gasOf TransactionInfo.isVerified infos
  let ecdsaStoreTxs := gasOf TransactionInfo.isStored infos
  let present {α : Type} (xs : List ℕ) (a : α) : Option α := if xs.isEmpty then none else some a
  { relayAvgGas := present relayTxs (mean relayTxs)
    relayTxCount := present relayTxs relayTxs.length
    relayBaseTxGas := present relayTxs 21000
    relayContractOverhead := present relayTxs (mean relayTxs - 21000)
    ecdsaVerifyAvgGas := present ecdsaTxs (mean ecdsaTxs)
    ecdsaTxCount := present ecdsaTxs ecdsaTxs.length
    ecdsaStoreAvgGas := present ecdsaStoreTxs (mean ecdsaStoreTxs)
    ecdsaStoreTxCount := present ecdsaStoreTxs ecdsaStoreTxs.length
    relayVsEcdsaStoreRatio :=
      if relayTxs.isEmpty || ecdsaStoreTxs.isEmpty then none
      else some (if 0 < mean ecdsaStoreTxs then mean relayTxs / mean ecdsaStoreTxs else 0) }

def HardhatBackend.getGasDecomposition (B : HardhatBackend) : GasDecomposition :=
  decompose (B.txOrder.filterMap B.transactions)

/-! ## Calls under way -/

/-- Where a call is with its current job. -/
inductive Phase where
  /-- It is about to take the lock of `_ensure_did_registered`. -/
  | ready
  /-- It is about to take the lock of the submission. -/
  | ensured
  /-- The lock has been given back. -/
  | mined (r : Receipt)
  /-- `max(self._block_number, receipt.blockNumber)` has been computed, and not been stored. -/
  | maxed (r : Receipt) (blockNumber : ℕ)
  | counted (r : Receipt)
  /-- The entry is in `_transactions`. -/
  | stored (r : Receipt)

/-- A call under way: `submit_batch_transaction` goes through its jobs, the other two have one. -/
structure Task where
  jobs : List Job
  phase : Phase
  txIds : List String
  raised : Option Exn

def Task.start (jobs : List Job) : Task := ⟨jobs, .ready, [], none⟩

/-- The call `submit_batch_transaction`. -/
def Task.batch (relayAddress : String) (batchData : List BatchItem) : Task :=
  .start (batchData.map fun item => .relayed (item.metaTransaction relayAddress))

def Task.job (t : Task) : Option Job := t.jobs[t.txIds.length]?

/-- A transaction that has been mined for the client, and the call that has submitted it. -/
structure Mined where
  task : ℕ
  job : Job
  receipt : Receipt

/-- What the calls share. No code keeps `history`; it is there to be compared with the books. -/
structure Shared where
  chain : Chain
  backend : HardhatBackend
  history : List Mined

section Turn

variable (D : Deployment) (N : Node)

/-- `_ensure_did_registered`. -/
def ensureDidRegistered (did : Bytes32) (publicKey : List Byte) (s : Shared) : Except Exn Shared :=
  if s.backend.registeredDids did then .ok s
  else do
    let world ← raised (s.chain.world.step D (.registerDID N.owner did publicKey))
    return { s with
      chain := { s.chain with world, mined := s.chain.mined + 1 }
      backend := { s.backend with registeredDids := Function.update s.backend.registeredDids did true } }

def Job.ensure (s : Shared) : Job → Except Exn Shared
  | .relayed m => ensureDidRegistered D N (m.did N) m.publicKey s
  | .direct _ => .ok s

/-- The transaction of a job, as it is sent to the contracts. -/
def Job.transact (c : Chain) : Job → Except Exn Chain
  | .relayed m => do
    let world ← raised (c.world.step D
      (.submitTransaction N.relayAccount (m.data N) (m.did N) m.signature m.didActive))
    return { c with world, mined := c.mined + 1 }
  | .direct t => do
    let data ← t.dataBytes
    let dataHash := D.keccak256 data
    let (v, r, s) := N.signHash dataHash (N.sha256 (encodeUtf8 t.sender))
    let ecdsaVerify ← raised (c.ecdsaVerify.exec D.toEvm
      (if t.storeSignature then .submitVerifyAndStore dataHash v r s else .submitAndVerify dataHash v r s))
    return { c with ecdsaVerify, mined := c.mined + 1 }

/-- One turn of the call `i`; `none` when it has returned or raised. -/
def Task.turn (i : ℕ) (s : Shared) (t : Task) : Option (Shared × Task) :=
  match t.raised, t.job with
  | none, some job =>
    match t.phase with
    | .ready =>
      match job.ensure D N s with
      | .ok s => some (s, { t with phase := .ensured })
      | .error e => some (s, { t with raised := some e })
    | .ensured =>
      match job.transact D N s.chain with
      | .ok chain =>
        let r := N.receipt s.chain.mined
        some ({ s with chain, history := s.history ++ [⟨i, job, r⟩] }, { t with phase := .mined r })
      | .error e => some (s, { t with raised := some e })
    | .mined r => some (s, { t with phase := .maxed r (max s.backend.blockNumber r.blockNumber) })
    | .maxed r blockNumber =>
      some ({ s with backend := { s.backend with blockNumber } }, { t with phase := .counted r })
    | .counted r =>
      let transactions := Function.update s.backend.transactions r.transactionHash (some (job.info r))
      some ({ s with backend := { s.backend with transactions } }, { t with phase := .stored r })
    | .stored r =>
      let txOrder := s.backend.txOrder ++ [r.transactionHash]
      some ({ s with backend := { s.backend with txOrder } },
        { t with phase := .ready, txIds := t.txIds ++ [r.transactionHash] })
  | _, _ => none

end Turn

/-- The client and its calls. -/
structure Client extends Shared where
  tasks : List Task

/-- The contracts have just been deployed. -/
def Client.init (now : ℕ) : Client where
  chain := ⟨World.init now, ECDSAVerify.init, 0⟩
  backend := HardhatBackend.init
  history := []
  tasks := []

namespace Client

/-- What can happen next: a call begins, a call takes a turn, or others use the contracts. -/
inductive Step (D : Deployment) (N : Node) (n : Client) : Client → Prop
  | call (jobs : List Job) : Step D N n { n with tasks := n.tasks ++ [.start jobs] }
  | turn {i : ℕ} {t t' : Task} {s : Shared} (ht : n.tasks[i]? = some t)
      (hturn : t.turn D N i n.toShared = some (s, t')) :
      Step D N n { toShared := s, tasks := n.tasks.set i t' }
  | others {c : Chain} (hworld : Reaches (World.Step D) n.chain.world c.world)
      (hverify : Reaches (ECDSAVerify.Step D.toEvm) n.chain.ecdsaVerify c.ecdsaVerify)
      (hmined : n.chain.mined ≤ c.mined) :
      Step D N n { n with chain := c }

/-- The client in all its runs. -/
def Reachable (D : Deployment) (N : Node) : Client → Prop :=
  Lib.Reachable (fun n => ∃ now, 0 < now ∧ n = init now) (Step D N)

end Client

end PqIotAuth.Hardhat
