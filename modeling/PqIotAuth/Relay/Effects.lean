import PqIotAuth.Relay.Calls
import PqIotAuth.Relay.Resolutions

/-!
# What a call does

`Effect D env s c s'` lists what a successful call `c` can do to the storage, one constructor for each external
function and outcome: the guards that were passed, and the storage after it as an explicit expression over the storage
before it. `exec_effect` derives it from the code once; every invariant is then a case analysis over `Effect`.
-/

namespace PqIotAuth

open Lib

variable {D : Deployment} {env : Env} {s s' : Storage}

/-! ## Operations -/

namespace Ledger

def relayStaked (a : Address) (n : ℕ) (l : Ledger) : Ledger :=
  { l with relayStake := Function.update l.relayStake a (l.relayStake a + n) }

def verifierStaked (a : Address) (n : ℕ) (l : Ledger) : Ledger :=
  { l with verifierStake := Function.update l.verifierStake a (l.verifierStake a + n) }

/-- The relay stake of `a`, all of it, turned into a credit. -/
def relayUnstaked (a : Address) (l : Ledger) : Ledger :=
  { l with relayStake := Function.update l.relayStake a 0 }.credited a (l.relayStake a)

/-- The verifier stake of `a`, all of it, turned into a credit. -/
def verifierUnstaked (a : Address) (l : Ledger) : Ledger :=
  { l with verifierStake := Function.update l.verifierStake a 0 }.credited a (l.verifierStake a)

/-- The credit of `a` sent away. -/
def withdrawn (a : Address) (l : Ledger) : Ledger :=
  { l with pendingWithdrawals := Function.update l.pendingWithdrawals a 0 }

end Ledger

namespace Exits

def relaySet (a : Address) (time : ℕ) (e : Exits) : Exits :=
  { e with relayExitTime := Function.update e.relayExitTime a time }

def verifierSet (a : Address) (time : ℕ) (e : Exits) : Exits :=
  { e with verifierExitTime := Function.update e.verifierExitTime a time }

end Exits

def Roster.joined (a : Address) (r : Roster) : Roster :=
  ⟨Function.update r.isRegisteredVerifier a true, r.verifierRoster ++ [a], r.verifierCount + 1⟩

/-- The vote of `signer` added to the side it voted for. -/
def Dispute.voted (verdictIsFraud : Bool) (signer : Address) (d : Dispute) : Dispute :=
  if verdictIsFraud then { d with fraudAttesters := d.fraudAttesters ++ [signer] }
  else { d with validAttesters := d.validAttesters ++ [signer] }

namespace Court

def recordSet (i : ℕ) (r : Record) (c : Court) : Court := { c with records := c.records.set i r }

def batchSet (b : ℕ) (bt : Batch) (c : Court) : Court := { c with batches := c.batches.set b bt }

/-- A dispute on a target of `relay` opened. -/
def opened (relay : Address) (d : Dispute) (c : Court) : Court :=
  { c with
    disputes := c.disputes ++ [d]
    relayActiveDisputes := Function.update c.relayActiveDisputes relay (c.relayActiveDisputes relay + 1) }

/-- A leaf put under dispute. -/
def leafOpened (b l : ℕ) (c : Court) : Court :=
  { c.setLeaf b l .disputed with
    batchOpenLeafDisputes := Function.update c.batchOpenLeafDisputes b (c.batchOpenLeafDisputes b + 1) }

end Court

/-- The dispute that `_openDispute` files. -/
def newDispute (D : Deployment) (env : Env) (targetType targetIndex leafIndex : ℕ) : Dispute where
  targetType := targetType
  targetIndex := targetIndex
  leafIndex := leafIndex
  challenger := env.sender
  bond := env.value
  openedAt := uint64 env.timestamp
  deadline := uint64 env.timestamp + D.challengePeriod
  fraudAttesters := []
  validAttesters := []
  resolved := false

/-- The record that `submitAccountable` files. -/
def newRecord (D : Deployment) (env : Env) (dataHash didHash : Bytes32) (falconSignature : List Byte) (nonce : ℕ) :
    Record where
  dataHash := dataHash
  didHash := didHash
  falconSignature := falconSignature
  pubKeyHash := D.keccak256 (env.didRegistry.dids didHash).publicKey
  submittedAt := uint64 env.timestamp
  relay := env.sender
  nonce := nonce
  state := .provisional

/-- The batch that `submitBatch` files. -/
def newBatch (D : Deployment) (env : Env) (root : Bytes32) (k : ℕ) (availabilityData : List Byte) : Batch where
  merkleRoot := root
  leafCount := k
  availabilityCommitment := D.keccak256 availabilityData
  submittedAt := uint64 env.timestamp
  relay := env.sender
  revokedLeafCount := 0
  state := .provisional

/-- The storage with a vote recorded; `d` is the dispute before it. -/
def Storage.voted (id : ℕ) (verdictIsFraud : Bool) (signer : Address) (d : Dispute) (s : Storage) : Storage :=
  { s with
    hasAttested := Function.update s.hasAttested id (Function.update (s.hasAttested id) signer true)
    court := { s.court with disputes := s.court.disputes.set id (d.voted verdictIsFraud signer) } }

/-- The checks that a vote passes. -/
structure Voting (D : Deployment) (env : Env) (s : Storage) (id : ℕ) (verdictIsFraud : Bool) (signature : List Byte)
    (signer : Address) (d : Dispute) (relay : Address) : Prop where
  guard : s.guard = 1
  dispute : s.court.disputes[id]? = some d
  deadline : d.deadline ≠ 0
  unresolved : d.resolved = false
  in_time : env.timestamp ≤ d.deadline
  signed : recover D.toEvm (attestDigest D.toEvm id verdictIsFraud d) signature = .ok signer
  registered : s.roster.isRegisteredVerifier signer
  staked : D.verifierStakeAmount ≤ s.ledger.verifierStake signer
  endorsed : targetRelay d s.court = .ok relay
  independent : signer ≠ relay
  fresh : ¬ s.hasAttested id signer

/-- The checks that `expireDispute` passes. -/
structure Expiring (env : Env) (s : Storage) (id : ℕ) (d : Dispute) (relay : Address) : Prop where
  guard : s.guard = 1
  dispute : s.court.disputes[id]? = some d
  deadline : d.deadline ≠ 0
  unresolved : d.resolved = false
  late : d.deadline < env.timestamp
  endorsed : targetRelay d s.court = .ok relay

/-! ## The effects -/

inductive Effect (D : Deployment) (env : Env) (s : Storage) : Call → Storage → Prop
  | stakeRelay (hvalue : env.value ≠ 0) :
      Effect D env s .stakeRelay
        ({ s with ledger := s.ledger.relayStaked env.sender env.value }.emit (.relayStaked env.sender env.value))
  | announceUnstake (hfree : env.value = 0) (hstake : s.ledger.relayStake env.sender ≠ 0)
      (hidle : s.court.relayActiveDisputes env.sender = 0) :
      Effect D env s .announceUnstake { s with exits := s.exits.relaySet env.sender (env.timestamp + unstakeDelay) }
  | unstakeRelay (hfree : env.value = 0) (hguard : s.guard = 1) (hstake : s.ledger.relayStake env.sender ≠ 0)
      (hidle : s.court.relayActiveDisputes env.sender = 0) (hannounced : s.exits.relayExitTime env.sender ≠ 0)
      (hexit : s.exits.relayExitTime env.sender ≤ env.timestamp) :
      Effect D env s .unstakeRelay
        ({ s with ledger := s.ledger.relayUnstaked env.sender, exits := s.exits.relaySet env.sender 0 }.emit
          (.relayUnstaked env.sender (s.ledger.relayStake env.sender)))
  | stakeVerifier (hvalue : env.value ≠ 0)
      (hjoin : s.roster.isRegisteredVerifier env.sender ∨
        s.ledger.verifierStake env.sender + env.value < D.verifierStakeAmount) :
      Effect D env s .stakeVerifier { s with ledger := s.ledger.verifierStaked env.sender env.value }
  | joinVerifier (hvalue : env.value ≠ 0) (hnew : ¬ s.roster.isRegisteredVerifier env.sender)
      (hstake : D.verifierStakeAmount ≤ s.ledger.verifierStake env.sender + env.value) :
      Effect D env s .stakeVerifier
        ({ s with
            ledger := s.ledger.verifierStaked env.sender env.value
            roster := s.roster.joined env.sender }.emit (.verifierRegistered env.sender))
  | announceVerifierUnstake (hfree : env.value = 0) (hstake : s.ledger.verifierStake env.sender ≠ 0)
      (hidle : s.exposure.verifierLiveExposures env.sender = 0) :
      Effect D env s .announceVerifierUnstake
        { s with exits := s.exits.verifierSet env.sender (env.timestamp + unstakeDelay) }
  | unstakeVerifier (hfree : env.value = 0) (hguard : s.guard = 1) (hstake : s.ledger.verifierStake env.sender ≠ 0)
      (hout : ¬ s.roster.isRegisteredVerifier env.sender) (hidle : s.exposure.verifierLiveExposures env.sender = 0)
      (hannounced : s.exits.verifierExitTime env.sender ≠ 0)
      (hexit : s.exits.verifierExitTime env.sender ≤ env.timestamp) :
      Effect D env s .unstakeVerifier
        ({ s with ledger := s.ledger.verifierUnstaked env.sender, exits := s.exits.verifierSet env.sender 0 }.emit
          (.verifierUnstaked env.sender (s.ledger.verifierStake env.sender)))
  | deregisterVerifier (hfree : env.value = 0) (hin : s.roster.isRegisteredVerifier env.sender)
      (hidle : s.exposure.verifierLiveExposures env.sender = 0) {roster : Roster}
      (hroster : deregisterLoop env.sender s.roster.verifierRoster.length s.roster.verifierRoster.length 0
        { s.roster with isRegisteredVerifier := Function.update s.roster.isRegisteredVerifier env.sender false } =
          .ok roster) :
      Effect D env s .deregisterVerifier ({ s with roster }.emit (.verifierDeregistered env.sender))
  | submitAccountable (hfree : env.value = 0) (dataHash didHash : Bytes32) (falconSignature : List Byte)
      (hstake : D.relayStakeAmount ≤ s.ledger.relayStake env.sender) (hactive : env.didRegistry.isActive didHash)
      (hlen : s.court.records.length + 1 < wordSize) (nonce : ℕ) (hnonce : nonce = s.didNonce didHash + 1)
      (r : Record) (hr : r = newRecord D env dataHash didHash falconSignature nonce) :
      Effect D env s (.submitAccountable dataHash didHash falconSignature)
        ({ s with
            didNonce := Function.update s.didNonce didHash nonce
            court := { s.court with records := s.court.records ++ [r] } }.emit
          (.recordSubmitted s.court.records.length didHash nonce dataHash env.sender))
  | finalizeRecord (hfree : env.value = 0) {i : ℕ} {r : Record} (hr : s.court.records[i]? = some r)
      (hstate : r.state = .provisional) (hwindow : r.submittedAt + D.challengePeriod ≤ env.timestamp) :
      Effect D env s (.finalizeRecord i)
        ({ s with
            court := s.court.recordSet i { r with state := .confirmed }
            exposure := s.exposure.afterFinalizeRecord D.toEvm i }.emit (.recordFinalized i))
  | submitBatch (hfree : env.value = 0) (didHashes dataHashes : List Bytes32) (availabilityData : List Byte)
      (hstake : D.relayStakeAmount ≤ s.ledger.relayStake env.sender) (hne : didHashes.length ≠ 0)
      (hdata : dataHashes.length = didHashes.length)
      (hsize : didHashes.length * falcon512SigSizeMax < wordSize)
      (havail : availabilityData.length = didHashes.length * falcon512SigSizeMax)
      (hlen : s.court.batches.length + 1 < wordSize) {m : Storage × List Bytes32} {root : Bytes32}
      (hm : processLeaves D env s.court.batches.length didHashes.length didHashes dataHashes availabilityData s = .ok m)
      (hroot : buildTree D.toEvm m.2 = .ok root)
      (bt : Batch) (hbt : bt = newBatch D env root didHashes.length availabilityData) :
      Effect D env s (.submitBatch didHashes dataHashes availabilityData)
        ({ s with
            didNonce := m.1.didNonce
            logs := m.1.logs
            court := { s.court with batches := s.court.batches ++ [bt] } }.emit
          (.batchSubmitted s.court.batches.length root didHashes.length bt.availabilityCommitment env.sender))
  | finalizeBatch (hfree : env.value = 0) {b : ℕ} {bt : Batch} (hb : s.court.batches[b]? = some bt)
      (hstate : bt.state = .provisional) (hwindow : bt.submittedAt + D.challengePeriod ≤ env.timestamp)
      (hopen : s.court.batchOpenLeafDisputes b = 0) :
      Effect D env s (.finalizeBatch b)
        ({ s with
            court := s.court.batchSet b { bt with state := .confirmed }
            exposure := s.exposure.afterFinalizeBatch D.toEvm b }.emit (.batchFinalized b bt.revokedLeafCount))
  | openDispute (hbond : D.challengerBondAmount ≤ env.value) {i : ℕ} {r : Record}
      (hr : s.court.records[i]? = some r) (hstate : r.state = .provisional)
      (hlen : s.court.disputes.length + 1 < wordSize)
      (hdeadline : uint64 env.timestamp + D.challengePeriod < uint64Size) :
      Effect D env s (.openDispute i)
        ({ s with
            court := (s.court.recordSet i { r with state := .disputed }).opened r.relay (newDispute D env 0 i 0) }.emit
          (.disputeOpened s.court.disputes.length 0 i env.sender))
  | openBatchLeafDispute (hbond : D.challengerBondAmount ≤ env.value) {b l : ℕ} {bt : Batch} {didHash : Bytes32}
      {nonce : Fin wordSize} {dataHash sigHash : Bytes32} {merkleProof : List Bytes32}
      (hb : s.court.batches[b]? = some bt) (hstate : bt.state = .provisional) (hl : l < bt.leafCount)
      (hleaf : s.court.batchLeafState b l ≠ .disputed ∧ s.court.batchLeafState b l ≠ .revoked)
      (hlen : s.court.disputes.length + 1 < wordSize)
      (hdeadline : uint64 env.timestamp + D.challengePeriod < uint64Size) :
      Effect D env s (.openBatchLeafDispute b l didHash nonce dataHash sigHash merkleProof)
        ({ s with court := (s.court.leafOpened b l).opened bt.relay (newDispute D env 1 b l) }.emit
          (.disputeOpened s.court.disputes.length 1 b env.sender))
  | vote (hfree : env.value = 0) {id : ℕ} {verdict : Bool} {signature : List Byte} {signer : Address} {d : Dispute}
      {relay : Address} (hvote : Voting D env s id verdict signature signer d relay)
      (hfraud : (d.voted verdict signer).fraudAttesters.length < D.quorum)
      (hvalid : (d.voted verdict signer).validAttesters.length < D.quorum) :
      Effect D env s (.submitAttestation id verdict signature) (s.voted id verdict signer d)
  | fraud (hfree : env.value = 0) {id : ℕ} {verdict : Bool} {signature : List Byte} {signer : Address} {d : Dispute}
      {relay : Address} (hvote : Voting D env s id verdict signature signer d relay)
      (hfraud : D.quorum ≤ (d.voted verdict signer).fraudAttesters.length) :
      Effect D env s (.submitAttestation id verdict signature)
        ((s.voted id verdict signer d).afterFraud D id (d.voted verdict signer) relay)
  | spurious (hfree : env.value = 0) {id : ℕ} {verdict : Bool} {signature : List Byte} {signer : Address}
      {d : Dispute} {relay : Address} (hvote : Voting D env s id verdict signature signer d relay)
      (hfraud : (d.voted verdict signer).fraudAttesters.length < D.quorum)
      (hvalid : D.quorum ≤ (d.voted verdict signer).validAttesters.length) :
      Effect D env s (.submitAttestation id verdict signature)
        ((s.voted id verdict signer d).afterSpurious D id (d.voted verdict signer) relay)
  | expire (hfree : env.value = 0) {id : ℕ} {d : Dispute} {relay : Address} (hexp : Expiring env s id d relay) :
      Effect D env s (.expireDispute id) (s.afterExpiry D id d relay)

/-! ## From the code -/

theorem nonReentrant_ok {body : Storage → Except Error Storage} :
    nonReentrant body s = .ok s' ↔
      s.guard = 1 ∧ ∃ t, body { s with guard := 2 } = .ok t ∧ s' = { t with guard := 1 } := by
  unfold nonReentrant
  simp only [bind_eq_ok, revertIf_eq_ok, pure_eq_ok, exists_and_left, exists_const, not_not, ne_eq]
  tauto

theorem stakeRelay_effect (h : stakeRelay env s = .ok s') : Effect D env s .stakeRelay s' := by
  unfold stakeRelay at h
  simp only [bind_eq_ok, revertIf_eq_ok, checkedAdd_eq_ok, pure_eq_ok] at h
  obtain ⟨_, hvalue, _, ⟨-, rfl⟩, rfl⟩ := h
  exact .stakeRelay hvalue

theorem announceUnstake_effect (hfree : env.value = 0) (h : announceUnstake env s = .ok s') :
    Effect D env s .announceUnstake s' := by
  unfold announceUnstake at h
  simp only [bind_eq_ok, revertIf_eq_ok, checkedAdd_eq_ok, pure_eq_ok, ne_eq, not_not] at h
  obtain ⟨_, hstake, _, hidle, _, ⟨-, rfl⟩, rfl⟩ := h
  exact .announceUnstake hfree hstake hidle

theorem unstakeRelay_effect (hfree : env.value = 0) (h : unstakeRelay env s = .ok s') :
    Effect D env s .unstakeRelay s' := by
  rw [unstakeRelay, nonReentrant_ok] at h
  obtain ⟨hguard, t, h, rfl⟩ := h
  simp only [bind_eq_ok, revertIf_eq_ok, pure_eq_ok, ne_eq, not_not, not_or, not_lt] at h
  obtain ⟨_, hstake, _, hidle, _, ⟨hannounced, hexit⟩, l, hcredit, rfl⟩ := h
  obtain rfl := credit_ok hcredit
  have := Effect.unstakeRelay (D := D) hfree hguard hstake hidle hannounced hexit
  obtain ⟨ledger, exits, roster, court, exposure, hasAttested, didNonce, guard, logs⟩ := s
  obtain rfl : guard = 1 := hguard
  exact this

theorem stakeVerifier_effect (h : stakeVerifier D env s = .ok s') : Effect D env s .stakeVerifier s' := by
  unfold stakeVerifier at h
  simp only [bind_eq_ok, revertIf_eq_ok, checkedAdd_eq_ok] at h
  obtain ⟨_, hvalue, _, ⟨-, rfl⟩, h⟩ := h
  split at h
  · rename_i hjoin
    simp only [bind_eq_ok, push_eq_ok, checkedAdd_eq_ok, pure_eq_ok] at h
    obtain ⟨_, ⟨-, rfl⟩, _, ⟨-, rfl⟩, rfl⟩ := h
    exact .joinVerifier hvalue hjoin.1 hjoin.2
  · rename_i hjoin
    obtain rfl := (pure_eq_ok.1 h).symm
    refine .stakeVerifier hvalue ?_
    rw [not_and_or, not_not] at hjoin
    exact hjoin.imp_right Nat.lt_of_not_ge

theorem announceVerifierUnstake_effect (hfree : env.value = 0) (h : announceVerifierUnstake env s = .ok s') :
    Effect D env s .announceVerifierUnstake s' := by
  unfold announceVerifierUnstake at h
  simp only [bind_eq_ok, revertIf_eq_ok, checkedAdd_eq_ok, pure_eq_ok, ne_eq, not_not] at h
  obtain ⟨_, hstake, _, hidle, _, ⟨-, rfl⟩, rfl⟩ := h
  exact .announceVerifierUnstake hfree hstake hidle

theorem unstakeVerifier_effect (hfree : env.value = 0) (h : unstakeVerifier env s = .ok s') :
    Effect D env s .unstakeVerifier s' := by
  rw [unstakeVerifier, nonReentrant_ok] at h
  obtain ⟨hguard, t, h, rfl⟩ := h
  simp only [bind_eq_ok, revertIf_eq_ok, pure_eq_ok, ne_eq, not_not, not_or, not_lt] at h
  obtain ⟨_, hstake, _, hout, _, hidle, _, ⟨hannounced, hexit⟩, l, hcredit, rfl⟩ := h
  obtain rfl := credit_ok hcredit
  have := Effect.unstakeVerifier (D := D) hfree hguard hstake hout hidle hannounced hexit
  obtain ⟨ledger, exits, roster, court, exposure, hasAttested, didNonce, guard, logs⟩ := s
  obtain rfl : guard = 1 := hguard
  exact this

theorem deregisterVerifier_effect (hfree : env.value = 0) (h : deregisterVerifier env s = .ok s') :
    Effect D env s .deregisterVerifier s' := by
  unfold deregisterVerifier at h
  simp only [bind_eq_ok, revertIf_eq_ok, pure_eq_ok, ne_eq, not_not] at h
  obtain ⟨_, hin, _, hidle, roster, hroster, rfl⟩ := h
  exact .deregisterVerifier hfree hin hidle hroster

theorem submitAccountable_effect {dataHash didHash : Bytes32} {sig : List Byte} (hfree : env.value = 0)
    (h : submitAccountable D env dataHash didHash sig s = .ok s') :
    Effect D env s (.submitAccountable dataHash didHash sig) s' := by
  unfold submitAccountable at h
  simp only [bind_eq_ok, revertIf_eq_ok, checkedAdd_eq_ok, push_eq_ok, pure_eq_ok, not_lt, not_not] at h
  obtain ⟨_, hstake, _, hactive, _, -, nonce, ⟨-, hnonce⟩, pubKey, hkey, _, ⟨hlen, rfl⟩, rfl⟩ := h
  rw [DIDRegistry.getPublicKey_of_isActive hactive] at hkey
  obtain rfl := Except.ok.inj hkey
  exact .submitAccountable hfree dataHash didHash sig hstake hactive hlen nonce hnonce _ rfl

theorem finalizeRecord_effect {i : ℕ} (hfree : env.value = 0) (h : finalizeRecord D env i s = .ok s') :
    Effect D env s (.finalizeRecord i) s' := by
  unfold finalizeRecord at h
  simp only [bind_eq_ok, load_eq_ok, revertIf_eq_ok, checkedAdd64_eq_ok, store, modifyAt_eq_ok, pure_eq_ok, not_lt,
    not_not, ne_eq] at h
  obtain ⟨r, hr, _, hstate, _, ⟨-, rfl⟩, _, hwindow, _, ⟨_, -, rfl⟩, x, hrel, rfl⟩ := h
  obtain rfl := releaseExposures_ok hrel
  exact .finalizeRecord hfree hr hstate hwindow

/-- What the leaves of a batch leave in the storage: new nonces and their events. -/
def LeavesFiled (b : ℕ) (s t : Storage) : Prop :=
  ∃ nonces events, t = { s with didNonce := nonces, logs := s.logs ++ events } ∧
    ∀ e ∈ events, ∃ i didHash nonce dataHash sigHash, e = .batchLeaf b i didHash nonce dataHash sigHash

theorem processLeaf_filed {b i : ℕ} {didHash dataHash : Bytes32} {data : List Byte} {m m' : Storage × List Bytes32}
    (h : processLeaf D env b i didHash dataHash data m = .ok m') (hm : LeavesFiled b s m.1) :
    LeavesFiled b s m'.1 := by
  unfold processLeaf at h
  simp only [bind_eq_ok, pure_eq_ok] at h
  obtain ⟨_, -, nonce, -, _, -, sigHash, -, _, -, rfl⟩ := h
  obtain ⟨nonces, events, hm, hevents⟩ := hm
  refine ⟨Function.update m.1.didNonce didHash nonce, events ++ [.batchLeaf b i didHash nonce dataHash sigHash], ?_,
    fun e he => ?_⟩
  · dsimp only [Storage.emit]
    rw [hm, List.append_assoc]
  · rcases List.mem_append.1 he with he | he
    · exact hevents e he
    · exact ⟨i, didHash, nonce, dataHash, sigHash, List.mem_singleton.1 he⟩

theorem processLeaves_filed {b k : ℕ} {didHashes dataHashes : List Bytes32} {data : List Byte}
    {m : Storage × List Bytes32} (h : processLeaves D env b k didHashes dataHashes data s = .ok m) :
    LeavesFiled b s m.1 := by
  refine foldlM_invariant (P := fun m => LeavesFiled b s m.1) (fun m i m' hstep hm => ?_) _ h
    ⟨s.didNonce, [], by simp⟩
  simp only [bind_eq_ok] at hstep
  obtain ⟨_, -, _, -, hstep⟩ := hstep
  exact processLeaf_filed hstep hm

theorem submitBatch_effect {didHashes dataHashes : List Bytes32} {data : List Byte} (hfree : env.value = 0)
    (h : submitBatch D env didHashes dataHashes data s = .ok s') :
    Effect D env s (.submitBatch didHashes dataHashes data) s' := by
  unfold submitBatch at h
  simp only [bind_eq_ok, revertIf_eq_ok, checkedMul_eq_ok, push_eq_ok, pure_eq_ok, not_lt, not_or, not_not,
    ne_eq] at h
  obtain ⟨_, hstake, _, ⟨hne, hdata⟩, _, ⟨hsize, rfl⟩, _, havail, m, hm, root, hroot, _, ⟨hlen, rfl⟩, rfl⟩ := h
  obtain ⟨nonces, events, hms, -⟩ := processLeaves_filed hm
  have := Effect.submitBatch (D := D) hfree didHashes dataHashes data hstake hne hdata hsize havail
    (by rwa [hms] at hlen) hm hroot _ rfl
  convert this using 1
  rw [hms]
  rfl

theorem finalizeBatch_effect {b : ℕ} (hfree : env.value = 0) (h : finalizeBatch D env b s = .ok s') :
    Effect D env s (.finalizeBatch b) s' := by
  unfold finalizeBatch at h
  simp only [bind_eq_ok, load_eq_ok, revertIf_eq_ok, checkedAdd64_eq_ok, store, modifyAt_eq_ok, pure_eq_ok, not_lt,
    not_not, ne_eq] at h
  obtain ⟨bt, hb, _, hstate, _, ⟨-, rfl⟩, _, hwindow, _, hopen, _, ⟨_, -, rfl⟩, x, hrel, rfl⟩ := h
  obtain rfl := foldlM_releaseExposures_ok hrel
  exact .finalizeBatch hfree hb hstate hwindow hopen

theorem pushDispute_ok {tt ti li : ℕ} (h : pushDispute D env tt ti li s = .ok s') :
    s.court.disputes.length + 1 < wordSize ∧ uint64 env.timestamp + D.challengePeriod < uint64Size ∧
      s' = { s with
        court := { s.court with disputes := s.court.disputes ++ [newDispute D env tt ti li] }
        logs := s.logs ++ [.disputeOpened s.court.disputes.length tt ti env.sender] } := by
  unfold pushDispute at h
  simp only [bind_eq_ok, checkedAdd64_eq_ok, push_eq_ok, pure_eq_ok] at h
  obtain ⟨_, ⟨hdeadline, rfl⟩, _, ⟨hlen, rfl⟩, rfl⟩ := h
  exact ⟨hlen, hdeadline, rfl⟩

theorem addActiveDispute_ok {relay : Address} {c c' : Court} (h : addActiveDispute relay c = .ok c') :
    c' = { c with
      relayActiveDisputes := Function.update c.relayActiveDisputes relay (c.relayActiveDisputes relay + 1) } := by
  unfold addActiveDispute at h
  simp only [bind_eq_ok, checkedAdd_eq_ok, pure_eq_ok] at h
  obtain ⟨_, ⟨-, rfl⟩, rfl⟩ := h
  rfl

theorem openDispute_effect {i : ℕ} (h : openDispute D env i s = .ok s') : Effect D env s (.openDispute i) s' := by
  unfold openDispute at h
  simp only [bind_eq_ok, load_eq_ok, revertIf_eq_ok, store, modifyAt_eq_ok, not_lt, not_not, ne_eq] at h
  obtain ⟨_, hbond, r, hr, _, hstate, _, ⟨_, -, rfl⟩, c, hadd, hpush⟩ := h
  obtain rfl := addActiveDispute_ok hadd
  obtain ⟨hlen, hdeadline, rfl⟩ := pushDispute_ok hpush
  exact .openDispute hbond hr hstate hlen hdeadline

theorem checkBatchLeaf_ok {b l : ℕ} {didHash : Bytes32} {nonce : Fin wordSize} {dataHash sigHash : Bytes32}
    {proof : List Bytes32} {bt : Batch} (h : checkBatchLeaf D env b l didHash nonce dataHash sigHash proof s = .ok bt) :
    D.challengerBondAmount ≤ env.value ∧ s.court.batches[b]? = some bt ∧ bt.state = .provisional ∧ l < bt.leafCount ∧
      (s.court.batchLeafState b l ≠ .disputed ∧ s.court.batchLeafState b l ≠ .revoked) ∧
      verifyProof D.toEvm (leafHash D b didHash nonce dataHash sigHash) proof l bt.merkleRoot := by
  unfold checkBatchLeaf at h
  simp only [bind_eq_ok, load_eq_ok, revertIf_eq_ok, pure_eq_ok, not_lt, not_not, ge_iff_le, not_le, not_or,
    ne_eq] at h
  obtain ⟨_, hbond, bt', hb, _, hstate, _, hl, _, hleaf, _, hproof, rfl⟩ := h
  exact ⟨hbond, hb, hstate, hl, hleaf, hproof⟩

theorem openBatchLeafDispute_effect {b l : ℕ} {didHash : Bytes32} {nonce : Fin wordSize} {dataHash sigHash : Bytes32}
    {proof : List Bytes32} (h : openBatchLeafDispute D env b l didHash nonce dataHash sigHash proof s = .ok s') :
    Effect D env s (.openBatchLeafDispute b l didHash nonce dataHash sigHash proof) s' := by
  unfold openBatchLeafDispute at h
  simp only [bind_eq_ok, checkedAdd_eq_ok] at h
  obtain ⟨bt, hcheck, _, ⟨-, rfl⟩, c, hadd, hpush⟩ := h
  obtain ⟨hbond, hb, hstate, hl, hleaf, -⟩ := checkBatchLeaf_ok hcheck
  obtain rfl := addActiveDispute_ok hadd
  obtain ⟨hlen, hdeadline, rfl⟩ := pushDispute_ok hpush
  exact .openBatchLeafDispute hbond hb hstate hl hleaf hlen hdeadline

theorem withVote_ok {verdict : Bool} {signer : Address} {d d' : Dispute} (h : d.withVote verdict signer = .ok d') :
    d' = d.voted verdict signer := by
  unfold Dispute.withVote at h
  unfold Dispute.voted
  split at h
  · simp only [bind_eq_ok, push_eq_ok, pure_eq_ok] at h
    obtain ⟨_, ⟨-, rfl⟩, rfl⟩ := h
    rename_i hv
    rw [if_pos hv]
  · simp only [bind_eq_ok, push_eq_ok, pure_eq_ok] at h
    obtain ⟨_, ⟨-, rfl⟩, rfl⟩ := h
    rename_i hv
    rw [if_neg hv]

@[simp] theorem targetRelay_voted (verdict : Bool) (signer : Address) (d : Dispute) (c : Court) :
    targetRelay (d.voted verdict signer) c = targetRelay d c := by
  unfold Dispute.voted
  split <;> rfl

/-- A vote that is accepted, and which verdict it completes. -/
theorem submitAttestation_ok {id : ℕ} {verdict : Bool} {signature : List Byte}
    (h : submitAttestation D env id verdict signature s = .ok s') :
    ∃ signer d relay, Voting D env s id verdict signature signer d relay ∧
      if D.quorum ≤ (d.voted verdict signer).fraudAttesters.length then
        s' = (s.voted id verdict signer d).afterFraud D id (d.voted verdict signer) relay
      else if D.quorum ≤ (d.voted verdict signer).validAttesters.length then
        s' = (s.voted id verdict signer d).afterSpurious D id (d.voted verdict signer) relay
      else s' = s.voted id verdict signer d := by
  rw [submitAttestation, nonReentrant_ok] at h
  obtain ⟨hguard, t, h, rfl⟩ := h
  simp only [bind_eq_ok, load_eq_ok, revertIf_eq_ok, not_lt, not_not, not_or, gt_iff_lt] at h
  obtain ⟨d, hd, _, hdeadline, _, ⟨hun, htime⟩, signer, hsigned, _, ⟨hreg, hstake⟩, relay, hrelay, _, himp, _, hfresh,
    d', hvoted, h⟩ := h
  obtain rfl := withVote_ok hvoted
  refine ⟨signer, d, relay, ⟨hguard, hd, hdeadline, by simpa using hun, htime, hsigned, hreg, hstake, hrelay, himp,
    hfresh⟩, ?_⟩
  -- the guard is the only variable that the modifier changes, and it is 1 again
  obtain ⟨ledger, exits, roster, court, exposure, hasAttested, didNonce, guard, logs⟩ := s
  obtain rfl : guard = 1 := hguard
  have hlt : id < court.disputes.length := (List.getElem?_eq_some_iff.1 hd).1
  have hrelay' : targetRelay (d.voted verdict signer) court = .ok relay := by rwa [targetRelay_voted]
  split at h
  · rename_i hq
    rw [if_pos hq]
    obtain ⟨d', relay', hd', hrelay'', rfl⟩ := resolveFraud_ok h
    rw [List.getElem?_set_self hlt] at hd'
    obtain rfl := Option.some.inj hd'
    obtain rfl : relay = relay' := Except.ok.inj (hrelay'.symm.trans ((targetRelay_congr rfl).1 hrelay''))
    rfl
  · rename_i hq
    rw [if_neg hq]
    split at h
    · rename_i hq'
      rw [if_pos hq']
      obtain ⟨d', relay', hd', hrelay'', rfl⟩ := resolveSpurious_ok h
      rw [List.getElem?_set_self hlt] at hd'
      obtain rfl := Option.some.inj hd'
      obtain rfl : relay = relay' := Except.ok.inj (hrelay'.symm.trans ((targetRelay_congr rfl).1 hrelay''))
      rfl
    · rename_i hq'
      rw [if_neg hq', ← pure_eq_ok.1 h]
      rfl

theorem submitAttestation_effect {id : ℕ} {verdict : Bool} {signature : List Byte} (hfree : env.value = 0)
    (h : submitAttestation D env id verdict signature s = .ok s') :
    Effect D env s (.submitAttestation id verdict signature) s' := by
  obtain ⟨signer, d, relay, hvote, h⟩ := submitAttestation_ok h
  split at h
  · rename_i hq
    exact h ▸ .fraud hfree hvote hq
  · rename_i hq
    split at h
    · rename_i hq'
      exact h ▸ .spurious hfree hvote (Nat.lt_of_not_ge hq) hq'
    · rename_i hq'
      exact h ▸ .vote hfree hvote (Nat.lt_of_not_ge hq) (Nat.lt_of_not_ge hq')

theorem expireDispute_ok {id : ℕ} (h : expireDispute D env id s = .ok s') :
    ∃ d relay, Expiring env s id d relay ∧ s' = s.afterExpiry D id d relay := by
  rw [expireDispute, nonReentrant_ok] at h
  obtain ⟨hguard, t, h, rfl⟩ := h
  simp only [bind_eq_ok, load_eq_ok, revertIf_eq_ok, pure_eq_ok, not_le] at h
  obtain ⟨d, hd, _, hdeadline, _, hun, _, hlate, s1, hrevoke, c, hclose, x, hrel, l, hcredit, rfl⟩ := h
  obtain rfl := revokeTarget_ok hrevoke
  obtain ⟨relay, hrelay, rfl⟩ := closeDispute_ok hclose
  obtain rfl := releaseExposures_ok hrel
  obtain rfl := credit_ok hcredit
  have hrelay' : targetRelay d s.court = .ok relay := (targetRelay_congr (by simp)).1 hrelay
  refine ⟨d, relay, ⟨hguard, hd, hdeadline, by simpa using hun, hlate, hrelay'⟩, ?_⟩
  obtain ⟨ledger, exits, roster, court, exposure, hasAttested, didNonce, guard, logs⟩ := s
  obtain rfl : guard = 1 := hguard
  rfl

theorem expireDispute_effect {id : ℕ} (hfree : env.value = 0) (h : expireDispute D env id s = .ok s') :
    Effect D env s (.expireDispute id) s' := by
  obtain ⟨d, relay, hexp, rfl⟩ := expireDispute_ok h
  exact .expire hfree hexp

/-- **Every successful call has one of the effects.** -/
theorem exec_effect {c : Call} (h : c.exec D env s = .ok s') : Effect D env s c s' := by
  unfold Call.exec at h
  simp only [bind_eq_ok, revertIf_eq_ok, not_and, not_not] at h
  obtain ⟨_, hpay, h⟩ := h
  have hfree : ¬ c.payable → env.value = 0 := fun hc => not_not.1 fun hv => hc (hpay hv)
  cases c with
  | stakeRelay => exact stakeRelay_effect h
  | announceUnstake => exact announceUnstake_effect (hfree (by decide)) h
  | unstakeRelay => exact unstakeRelay_effect (hfree (by decide)) h
  | stakeVerifier => exact stakeVerifier_effect h
  | announceVerifierUnstake => exact announceVerifierUnstake_effect (hfree (by decide)) h
  | unstakeVerifier => exact unstakeVerifier_effect (hfree (by decide)) h
  | deregisterVerifier => exact deregisterVerifier_effect (hfree (by decide)) h
  | submitAccountable => exact submitAccountable_effect (hfree (by simp [Call.payable])) h
  | finalizeRecord => exact finalizeRecord_effect (hfree (by simp [Call.payable])) h
  | submitBatch => exact submitBatch_effect (hfree (by simp [Call.payable])) h
  | finalizeBatch => exact finalizeBatch_effect (hfree (by simp [Call.payable])) h
  | openDispute => exact openDispute_effect h
  | openBatchLeafDispute => exact openBatchLeafDispute_effect h
  | submitAttestation => exact submitAttestation_effect (hfree (by simp [Call.payable])) h
  | expireDispute => exact expireDispute_effect (hfree (by simp [Call.payable])) h

end PqIotAuth
