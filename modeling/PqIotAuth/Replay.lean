import PqIotAuth.Registry

/-!
# Replays

`MetaTxRelay` keeps the commitment of everything that it accepts and so accepts nothing twice
(`replay_protection`). `AccountableRelay` keeps no commitments: it accepts what it has accepted before as another
record, with the next nonce of the DID (`replay_recorded`).
-/

namespace PqIotAuth

open Lib

variable {D : Deployment} {w w' : World} {a : Action} {l : List (World × Action)}

/-! ## `MetaTxRelay` -/

/-- What is submitted: `(dataHash, didHash, falconSignature)`. -/
def Action.submitted : Action → Option (Bytes32 × Bytes32 × List Byte)
  | .submitTransaction _ dataHash didHash falconSignature _ => some (dataHash, didHash, falconSignature)
  | _ => none

def VerifiedTransaction.submitted (t : VerifiedTransaction) : Bytes32 × Bytes32 × List Byte :=
  (t.dataHash, t.didHash, t.falconSignature)

def VerifiedTransaction.commitment (E : Evm) (t : VerifiedTransaction) : Bytes32 :=
  MetaTxRelay.commitment E t.dataHash t.didHash t.falconSignature

/-- The transaction that an accepted action stores. -/
def stored (D : Deployment) : World × Action → Option VerifiedTransaction
  | (w, .submitTransaction sender dataHash didHash falconSignature verificationResult) =>
    some (MetaTxRelay.newTransaction D.toEvm (w.env sender 0) dataHash didHash falconSignature verificationResult)
  | _ => none

/-- The tuples that have been accepted, in the order of acceptance. -/
def submissions (l : List (World × Action)) : List (Bytes32 × Bytes32 × List Byte) :=
  l.filterMap fun p => p.2.submitted

theorem map_submitted_stored (l : List (World × Action)) :
    (l.filterMap (stored D)).map VerifiedTransaction.submitted = submissions l := by
  rw [List.map_filterMap, submissions]
  congr
  funext ⟨w, a⟩
  cases a <;> rfl

/-- The storage after the accepted actions `l`. -/
structure Stored (D : Deployment) (l : List (World × Action)) (M : MetaTxRelay) : Prop where
  transactions : M.transactions = l.filterMap (stored D)
  transactionCount : M.transactionCount = M.transactions.length
  usedCommitments : ∀ c, M.usedCommitments c ↔ ∃ t ∈ M.transactions, t.commitment D.toEvm = c
  fresh : (M.transactions.map (VerifiedTransaction.commitment D.toEvm)).Nodup
  size : ∀ t ∈ M.transactions, 0 < t.falconSignature.length ∧
    t.falconSignature.length ≤ MetaTxRelay.falcon512SigSizeMax

theorem Stored.init : Stored D [] MetaTxRelay.init where
  transactions := rfl
  transactionCount := rfl
  usedCommitments := by simp [MetaTxRelay.init]
  fresh := List.nodup_nil
  size := by simp [MetaTxRelay.init]

/-- A transaction under a new commitment is stored behind the others. -/
theorem Stored.filed {M : MetaTxRelay} (h : Stored D l M) {t : VerifiedTransaction}
    (hlength : 0 < t.falconSignature.length ∧ t.falconSignature.length ≤ MetaTxRelay.falcon512SigSizeMax)
    (hfresh : ¬ M.usedCommitments (t.commitment D.toEvm)) (hstored : stored D (w, a) = some t) :
    Stored D (l ++ [(w, a)]) (M.filed (t.commitment D.toEvm) t) := by
  constructor
  · rw [List.filterMap_append, ← h.transactions, List.filterMap_cons, hstored]
    rfl
  · dsimp only [MetaTxRelay.filed]
    rw [h.transactionCount, List.length_append, List.length_singleton]
  · intro c
    dsimp only [MetaTxRelay.filed]
    by_cases hc : c = t.commitment D.toEvm
    · rw [hc, Function.update_self]
      exact ⟨fun _ => ⟨t, List.mem_append_right _ (List.mem_singleton_self t), rfl⟩, fun _ => rfl⟩
    · rw [Function.update_of_ne hc, h.usedCommitments c]
      constructor
      · rintro ⟨x, hx, he⟩
        exact ⟨x, List.mem_append_left _ hx, he⟩
      · rintro ⟨x, hx, he⟩
        rcases List.mem_append.1 hx with hx | hx
        · exact ⟨x, hx, he⟩
        · rw [List.mem_singleton.1 hx] at he
          exact absurd he.symm hc
  · dsimp only [MetaTxRelay.filed]
    rw [List.map_append, List.map_singleton, List.nodup_append]
    refine ⟨h.fresh, List.nodup_singleton _, fun c hc c' hc' he => hfresh ?_⟩
    obtain ⟨x, hx, rfl⟩ := List.mem_map.1 hc
    rw [List.mem_singleton.1 hc'] at he
    exact (h.usedCommitments _).2 ⟨x, hx, he⟩
  · intro x hx
    rcases List.mem_append.1 hx with hx | hx
    · exact h.size x hx
    · rw [List.mem_singleton.1 hx]
      exact hlength

theorem Stored.step (h : Stored D l w.metaTxRelay) (hs : w.step D a = .ok w') :
    Stored D (l ++ [(w, a)]) w'.metaTxRelay := by
  rcases (World.step_contracts hs).2 with ⟨hsame, hother⟩ | ⟨sender, dataHash, did, sig, result, rfl, hsubmit⟩
  · have hnone : stored D (w, a) = none := by
      cases a with
      | submitTransaction => exact absurd rfl (hother _ _ _ _ _)
      | _ => rfl
    rw [hsame]
    refine ⟨?_, h.transactionCount, h.usedCommitments, h.fresh, h.size⟩
    rw [h.transactions, List.filterMap_append, List.filterMap_cons, hnone]
    exact (List.append_nil _).symm
  · obtain ⟨hlength, -, hfresh, hfiled⟩ := MetaTxRelay.submitTransaction_ok hsubmit
    rw [hfiled]
    exact h.filed (t := MetaTxRelay.newTransaction ..) hlength hfresh rfl

theorem World.attempts_stored {now : ℕ} (hnow : 0 < now) (as : List Action) :
    Stored D (accepted D as (init now)) (attempts D as (init now)).metaTxRelay := by
  refine attempts_invariant (P := fun l w => Stored D l w.metaTxRelay) (.start ⟨now, hnow, rfl⟩) .init ?_ as
  intro l w a w' _ h hs
  exact h.step hs

/-- No tuple is accepted twice. -/
theorem Stored.once {M : MetaTxRelay} (h : Stored D l M) : (submissions l).Nodup := by
  rw [← map_submitted_stored (D := D), ← h.transactions]
  refine List.Nodup.of_map (fun x => MetaTxRelay.commitment D.toEvm x.1 x.2.1 x.2.2) ?_
  rw [List.map_map]
  exact h.fresh

/-- The used commitments tell which tuples have been accepted. -/
theorem Stored.usedCommitments_iff {M : MetaTxRelay} (h : Stored D l M) (hinj : Function.Injective D.keccak256)
    (dataHash didHash : Bytes32) (sig : List Byte) :
    M.usedCommitments (MetaTxRelay.commitment D.toEvm dataHash didHash sig) ↔
      (dataHash, didHash, sig) ∈ submissions l := by
  rw [h.usedCommitments, ← map_submitted_stored (D := D), ← h.transactions, List.mem_map]
  refine exists_congr fun t => and_congr_right fun _ => ⟨fun he => ?_, fun he => ?_⟩
  · obtain ⟨hdata, hdid, hsig⟩ := MetaTxRelay.commitment_inj hinj he
    rw [VerifiedTransaction.submitted, hdata, hdid, hsig]
  · obtain ⟨hdata, hdid, hsig⟩ : t.dataHash = dataHash ∧ t.didHash = didHash ∧ t.falconSignature = sig := by
      simpa [VerifiedTransaction.submitted] using he
    rw [VerifiedTransaction.commitment, hdata, hdid, hsig]

/-- A submission fails when the relay rejects it, and with the same error. -/
theorem World.step_submitTransaction_error {sender : Address} {dataHash didHash : Bytes32} {sig : List Byte}
    {result : Bool} {e : Error} : w.step D (.submitTransaction sender dataHash didHash sig result) = .error e ↔
      w.metaTxRelay.submitTransaction D.toEvm (w.env sender 0) dataHash didHash sig result = .error e := by
  rw [World.step]
  cases w.metaTxRelay.submitTransaction D.toEvm (w.env sender 0) dataHash didHash sig result <;> simp

/-- What the accepted actions `l` have left in `MetaTxRelay`, and what it will do. -/
structure ReplayExact (D : Deployment) (l : List (World × Action)) (w : World) : Prop where
  once : (submissions l).Nodup
  /-- A submission that passes the other checks is a replay exactly if the tuple has been accepted. -/
  replay : ∀ sender dataHash didHash sig result, 0 < sig.length → sig.length ≤ MetaTxRelay.falcon512SigSizeMax →
    w.didRegistry.isActive didHash →
    (w.step D (.submitTransaction sender dataHash didHash sig result) =
      .error (.require "Replay: already submitted") ↔ (dataHash, didHash, sig) ∈ submissions l)
  usedCommitments : ∀ c, w.metaTxRelay.usedCommitments c ↔
    ∃ t ∈ w.metaTxRelay.transactions, t.commitment D.toEvm = c
  transactionCount : w.metaTxRelay.transactionCount = w.metaTxRelay.transactions.length
  transactions : w.metaTxRelay.transactions = l.filterMap (stored D)
  entry : ∀ (i : ℕ) (t : VerifiedTransaction), (l.filterMap (stored D))[i]? = some t → ∀ as,
    (World.attempts D as w).metaTxRelay.getTransactionForVerification i =
      .ok (t.dataHash, t.didHash, t.falconSignature, t.pubKeyHash)

/-- **The replay protection of `MetaTxRelay` is exact.** -/
theorem replay_protection (hinj : Function.Injective D.keccak256) {now : ℕ} (hnow : 0 < now) (as : List Action) :
    ReplayExact D (World.accepted D as (World.init now)) (World.attempts D as (World.init now)) := by
  have h := World.attempts_stored (D := D) hnow as
  constructor
  · exact h.once
  · intro sender dataHash did sig result hpos hmax hactive
    rw [World.step_submitTransaction_error, MetaTxRelay.submitTransaction_replay rfl ⟨hpos, hmax⟩ hactive]
    exact h.usedCommitments_iff hinj dataHash did sig
  · exact h.usedCommitments
  · exact h.transactionCount
  · exact h.transactions
  · intro i t ht bs
    -- later attempts only append to what is stored
    have hlater := (World.attempts_stored (D := D) hnow (as ++ bs)).transactions
    rw [World.attempts_append, World.accepted_append, List.filterMap_append] at hlater
    refine MetaTxRelay.getTransactionForVerification_ok ?_
    rw [hlater, List.getElem?_append_left (List.getElem?_eq_some_iff.1 ht).1]
    exact ht

/-- A tuple comes back from another sender and with another result. -/
def Toy.resubmitted : List Action := [
  .registerDID 1 Toy.did (List.replicate 897 3),
  .submitTransaction 8 Toy.did Toy.did [1] true,
  .submitTransaction 9 Toy.did Toy.did [1] false,
  .submitTransaction 8 Toy.did Toy.did [2] true]

theorem replay_protection_toy :
    submissions (World.accepted (Deployment.toy 2) Toy.resubmitted (World.init 1000)) =
        [(Toy.did, Toy.did, [1]), (Toy.did, Toy.did, [2])] ∧
      ReplayExact (Deployment.toy 2) (World.accepted (Deployment.toy 2) Toy.resubmitted (World.init 1000))
        (World.attempts (Deployment.toy 2) Toy.resubmitted (World.init 1000)) :=
  ⟨by decide +kernel, replay_protection Evm.toy_injective (by decide) Toy.resubmitted⟩

/-! ## `AccountableRelay` -/

theorem World.step_signature {sender : Address} {value : ℕ} {dataHash didHash : Bytes32} {sig : List Byte}
    (hs : w.step D (.call sender value (.submitAccountable dataHash didHash sig)) = .ok w') :
    0 < sig.length ∧ sig.length ≤ falcon512SigSizeMax := by
  simp only [World.step, Call.exec, Call.run, submitAccountable, bind_eq_ok, revertIf_eq_ok, not_or, not_lt] at hs
  obtain ⟨_, ⟨_, -, _, -, _, -, _, ⟨hpos, hmax⟩, -⟩, -⟩ := hs
  exact ⟨Nat.pos_of_ne_zero hpos, hmax⟩

/-- The signature of every record has a valid length. -/
theorem World.Reachable.signatures (hw : w.Reachable D) : ∀ r ∈ w.relay.court.records,
    0 < r.falconSignature.length ∧ r.falconSignature.length ≤ falcon512SigSizeMax := by
  refine World.Reachable.invariant (P := fun w => ∀ r ∈ w.relay.court.records,
    0 < r.falconSignature.length ∧ r.falconSignature.length ≤ falcon512SigSizeMax) (fun _ _ r h => by cases h) ?_ hw
  intro w w' hw ih hs r' hr'
  rcases hw.record_was hs hr' with ⟨r, hr, st, rfl⟩ | ⟨_, _, _, _, _, _, -, hcall, rfl⟩
  · exact ih r hr
  · exact World.step_signature hcall

/-- The nonces of the records of a DID increase. -/
theorem World.Reachable.records_ordered (hw : w.Reachable D) :
    w.relay.court.records.Pairwise fun r r' => r.didHash = r'.didHash → r.nonce < r'.nonce := by
  have htold := hw.filingsTold.records
  have hfilings : w.relay.filings.Pairwise fun p q => p.1 = q.1 → p.2 < q.2 := by
    obtain ⟨now, as, hnow, rfl⟩ := World.reachable_iff.1 hw
    rw [(World.attempts_filed hnow as).filings]
    exact pairwise_number _ _
  have hrecords : (w.relay.logs.filterMap Event.record).Pairwise fun p q =>
      p.2.1 = q.2.1 → p.2.2.1 < q.2.2.1 := by
    refine List.pairwise_filterMap.2 ((List.pairwise_filterMap.1 hfilings).imp ?_)
    intro e e' hlt x hx x' hx'
    cases e with
    | recordSubmitted =>
      cases e' with
      | recordSubmitted =>
        obtain rfl := Option.some.inj hx
        obtain rfl := Option.some.inj hx'
        exact hlt _ rfl _ rfl
      | _ => cases hx'
    | _ => cases hx
  rw [htold, List.pairwise_map] at hrecords
  rw [← List.zipIdx_map_fst 0 w.relay.court.records, List.pairwise_map]
  exact hrecords

/-- A record that a relay with enough stake files for an active DID is accepted, with the next nonce. -/
theorem World.step_submitAccountable {sender : Address} {dataHash didHash : Bytes32} {sig : List Byte}
    (hstake : D.relayStakeAmount ≤ w.relay.ledger.relayStake sender) (hactive : w.didRegistry.isActive didHash)
    (hlength : 0 < sig.length ∧ sig.length ≤ falcon512SigSizeMax) (hnonce : w.relay.didNonce didHash + 1 < wordSize)
    (hroom : w.relay.court.records.length + 1 < wordSize) :
    ∃ w', w.step D (.call sender 0 (.submitAccountable dataHash didHash sig)) = .ok w' ∧
      w'.relay.court.records = w.relay.court.records ++
        [newRecord D (w.env sender 0) dataHash didHash sig (w.relay.didNonce didHash + 1)] := by
  have hrun : ∃ s, (Call.submitAccountable dataHash didHash sig).run D (w.env sender 0) w.relay = .ok s := by
    simp only [Call.run, submitAccountable, bind_eq_ok, revertIf_eq_ok, not_or, not_lt, not_not, checkedAdd_eq_ok,
      push_eq_ok, pure_eq_ok]
    exact ⟨_, (), hstake, (), hactive, (), ⟨hlength.1.ne', hlength.2⟩, _, ⟨hnonce, rfl⟩, _,
      DIDRegistry.getPublicKey_of_isActive hactive, _, ⟨hroom, rfl⟩, rfl⟩
  obtain ⟨w', hs⟩ := World.step_of_run hrun
  obtain ⟨s, he, rfl⟩ := World.call_effect hs
  refine ⟨_, hs, ?_⟩
  cases he with
  | submitAccountable _ _ _ _ _ _ _ nonce hnext r hr =>
    rw [hr, hnext]
    rfl

/-- What `AccountableRelay` does with replays. -/
structure ReplayRecorded (D : Deployment) (w : World) : Prop where
  ordered : w.relay.court.records.Pairwise fun r r' => r.didHash = r'.didHash → r.nonce < r'.nonce
  /-- What has been accepted is accepted again, as a new record. -/
  recorded : ∀ r ∈ w.relay.court.records, ∀ sender, D.relayStakeAmount ≤ w.relay.ledger.relayStake sender →
    w.didRegistry.isActive r.didHash → w.relay.didNonce r.didHash + 1 < wordSize →
    w.relay.court.records.length + 1 < wordSize → ∃ w' r',
      w.step D (.call sender 0 (.submitAccountable r.dataHash r.didHash r.falconSignature)) = .ok w' ∧
        w'.relay.court.records = w.relay.court.records ++ [r'] ∧ r'.didHash = r.didHash ∧ r'.dataHash = r.dataHash ∧
        r'.falconSignature = r.falconSignature ∧ r'.relay = sender ∧ r'.nonce = w.relay.didNonce r.didHash + 1
  /-- `MetaTxRelay` rejects what it has accepted. -/
  rejected : ∀ t ∈ w.metaTxRelay.transactions, ∀ sender result, w.didRegistry.isActive t.didHash →
    w.step D (.submitTransaction sender t.dataHash t.didHash t.falconSignature result) =
      .error (.require "Replay: already submitted")

/-- **`AccountableRelay` records replays where `MetaTxRelay` rejects them.** -/
theorem replay_recorded (hw : w.Reachable D) : ReplayRecorded D w := by
  constructor
  · exact hw.records_ordered
  · intro r hr sender hstake hactive hnonce hroom
    obtain ⟨w', hs, hrecords⟩ := World.step_submitAccountable hstake hactive (hw.signatures r hr) hnonce hroom
    exact ⟨w', _, hs, hrecords, rfl, rfl, rfl, rfl, rfl⟩
  · intro t ht sender result hactive
    obtain ⟨now, as, hnow, rfl⟩ := World.reachable_iff.1 hw
    have h := World.attempts_stored (D := D) hnow as
    rw [World.step_submitTransaction_error, MetaTxRelay.submitTransaction_replay rfl (h.size t ht) hactive]
    exact (h.usedCommitments _).2 ⟨t, ht, rfl⟩

theorem replay_recorded_toy : (Toy.world.relay.court.records.map fun r => (r.didHash, r.nonce)) =
    [(Toy.did, 1), (Toy.did, 2), (Toy.did, 3)] ∧ ReplayRecorded (Deployment.toy 2) Toy.world :=
  ⟨by decide +kernel, replay_recorded Toy.world_reachable⟩

/-- The relay 2 files its first record again, and a transaction is submitted. -/
def Toy.replayed : World := World.after (Deployment.toy 2)
  (Toy.filings ++ [.call 2 0 (.submitAccountable Toy.did Toy.did [1]), .submitTransaction 8 Toy.did Toy.did [1] true])
  (World.init 1000)

theorem replay_accepted : Toy.replayed.Reachable (Deployment.toy 2) ∧
    ¬ (Toy.replayed.relay.court.records.map fun r => (r.didHash, r.dataHash, r.falconSignature)).Nodup ∧
    (Toy.replayed.metaTxRelay.transactions.map (·.submitted)) = [(Toy.did, Toy.did, [1])] ∧
    ¬ (Toy.replayed.step (Deployment.toy 2) (.submitTransaction 8 Toy.did Toy.did [1] true)).isOk :=
  ⟨World.after_reachable _ (World.init_reachable (by decide)), by decide +kernel⟩

end PqIotAuth
