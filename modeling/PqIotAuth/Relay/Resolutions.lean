import PqIotAuth.Lib.Docket
import PqIotAuth.Relay.Exposures
import PqIotAuth.Relay.Ledger

/-!
# What a verdict does

The three outcomes of a dispute, each as one operation on the storage: `Court.closed` on the records, batches, disputes
and counters, and `Storage.afterFraud`, `afterSpurious` and `afterExpiry`, which combine it with what happens to the
exposures and to the ledger. `resolveFraud_ok` and `resolveSpurious_ok` say that the code computes these when it does
not revert.
-/

namespace PqIotAuth

open Lib

/-! ## Court operations -/

namespace Court

/-- `_revokeTarget`. -/
def revoked (d : Dispute) (c : Court) : Court :=
  if d.targetType = 0 then
    { c with records := c.records.modify d.targetIndex fun r => { r with state := .revoked } }
  else if c.batchLeafState d.targetIndex d.leafIndex ≠ .revoked then
    { c.setLeaf d.targetIndex d.leafIndex .revoked with
      batches := c.batches.modify d.targetIndex fun b => { b with revokedLeafCount := b.revokedLeafCount + 1 } }
  else c

/-- A target whose dispute was spurious can be disputed again. -/
def upheld (d : Dispute) (c : Court) : Court :=
  if d.targetType = 0 then
    { c with records := c.records.modify d.targetIndex fun r => { r with state := .provisional } }
  else c.setLeaf d.targetIndex d.leafIndex .upheld

/-- `_closeDispute`. -/
def discharged (relay : Address) (d : Dispute) (c : Court) : Court :=
  { c with
    relayActiveDisputes := Function.update c.relayActiveDisputes relay (c.relayActiveDisputes relay - 1)
    batchOpenLeafDisputes :=
      if d.targetType = 1 then
        Function.update c.batchOpenLeafDisputes d.targetIndex (c.batchOpenLeafDisputes d.targetIndex - 1)
      else c.batchOpenLeafDisputes }

/-- The dispute `id`, as it stands in `d`, closed with a verdict. -/
def closed (id : ℕ) (d : Dispute) (relay : Address) (v : Verdict) (c : Court) : Court :=
  let c := c.markResolved id d
  (if v = .spurious then c.upheld d else c.revoked d).discharged relay d

/-- The relays of the records and of the batches. -/
def relays (c : Court) : List Address × List Address := (c.records.map (·.relay), c.batches.map (·.relay))

end Court

theorem targetRelay_ok {d : Dispute} {c : Court} {relay : Address} :
    targetRelay d c = .ok relay ↔
      if d.targetType = 0 then c.relays.1[d.targetIndex]? = some relay
      else c.relays.2[d.targetIndex]? = some relay := by
  unfold targetRelay Court.relays
  split <;> simp only [bind_eq_ok, load_eq_ok, pure_eq_ok, List.getElem?_map, Option.map_eq_some_iff]

/-- The relay of a target depends on who endorsed what only. -/
theorem targetRelay_congr {d : Dispute} {c c' : Court} {relay : Address} (h : c.relays = c'.relays) :
    targetRelay d c = .ok relay ↔ targetRelay d c' = .ok relay := by
  rw [targetRelay_ok, targetRelay_ok, h]

namespace Court

variable {c : Court}

@[simp] theorem relays_markResolved (id : ℕ) (d : Dispute) : (c.markResolved id d).relays = c.relays := rfl

@[simp] theorem relays_discharged (relay : Address) (d : Dispute) : (c.discharged relay d).relays = c.relays := rfl

@[simp] theorem relays_revoked (d : Dispute) : (c.revoked d).relays = c.relays := by
  unfold revoked
  split
  · simp [relays, map_modify_eq]
  · split
    · simp [relays, setLeaf, map_modify_eq]
    · rfl

@[simp] theorem relays_upheld (d : Dispute) : (c.upheld d).relays = c.relays := by
  unfold upheld
  split
  · simp [relays, map_modify_eq]
  · rfl

/-- Neither writes the counters of open disputes. -/
theorem counters_revoked (d : Dispute) : (c.revoked d).relayActiveDisputes = c.relayActiveDisputes ∧
    (c.revoked d).batchOpenLeafDisputes = c.batchOpenLeafDisputes := by
  unfold revoked
  split
  · exact ⟨rfl, rfl⟩
  · split <;> exact ⟨rfl, rfl⟩

theorem counters_upheld (d : Dispute) : (c.upheld d).relayActiveDisputes = c.relayActiveDisputes ∧
    (c.upheld d).batchOpenLeafDisputes = c.batchOpenLeafDisputes := by
  unfold upheld
  split <;> exact ⟨rfl, rfl⟩

@[simp] theorem relays_closed (id : ℕ) (d : Dispute) (relay : Address) (v : Verdict) :
    (c.closed id d relay v).relays = c.relays := by
  unfold closed
  dsimp only
  split <;> simp

end Court

theorem closeDispute_ok {d : Dispute} {c c' : Court} (h : closeDispute d c = .ok c') :
    ∃ relay, targetRelay d c = .ok relay ∧ c' = c.discharged relay d := by
  unfold closeDispute at h
  simp only [bind_eq_ok, checkedSub_eq_ok] at h
  obtain ⟨relay, hrelay, _, ⟨-, rfl⟩, h⟩ := h
  refine ⟨relay, hrelay, ?_⟩
  unfold Court.discharged
  split at h
  · rename_i ht
    simp only [bind_eq_ok, checkedSub_eq_ok, pure_eq_ok] at h
    obtain ⟨_, ⟨-, rfl⟩, rfl⟩ := h
    rw [if_pos ht]
  · rename_i ht
    rw [if_neg ht]
    exact (pure_eq_ok.1 h).symm

/-! ## Resolutions -/

namespace Storage

/-- What `_revokeTarget` emits. -/
def revocation (d : Dispute) (s : Storage) : List Event :=
  if d.targetType ≠ 0 ∧ s.court.batchLeafState d.targetIndex d.leafIndex ≠ .revoked then
    [.leafRevoked d.targetIndex d.leafIndex]
  else []

theorem mem_revocation {d : Dispute} {s : Storage} {e : Event} (h : e ∈ s.revocation d) :
    e = .leafRevoked d.targetIndex d.leafIndex := by
  unfold revocation at h
  split at h
  · exact List.mem_singleton.1 h
  · cases h

/-- The verifiers that a fraud verdict slashes. -/
def wrongSide (D : Deployment) (d : Dispute) (s : Storage) : List Address :=
  (s.exposure.afterSpurious D.toEvm d).targetValidList (targetKey D.toEvm d)

def afterFraud (D : Deployment) (id : ℕ) (d : Dispute) (relay : Address) (s : Storage) : Storage :=
  { s with
    court := s.court.closed id d relay .fraud
    exposure := s.exposure.afterFraud D.toEvm d
    ledger := s.ledger.afterFraud D d relay (s.wrongSide D d)
    logs := s.logs ++ s.revocation d ++ [.disputeResolved id true] }

def afterSpurious (D : Deployment) (id : ℕ) (d : Dispute) (relay : Address) (s : Storage) : Storage :=
  { s with
    court := s.court.closed id d relay .spurious
    exposure := s.exposure.afterSpurious D.toEvm d
    ledger := s.ledger.afterSpurious d relay
    logs := s.logs ++ [.disputeResolved id false] }

def afterExpiry (D : Deployment) (id : ℕ) (d : Dispute) (relay : Address) (s : Storage) : Storage :=
  { s with
    court := s.court.closed id d relay .expired
    exposure := s.exposure.afterExpiry D.toEvm d
    ledger := s.ledger.afterExpiry d
    logs := s.logs ++ s.revocation d ++ [.disputeExpired id] }

end Storage

theorem revokeTarget_ok {d : Dispute} {s s' : Storage} (h : revokeTarget d s = .ok s') :
    s' = { s with court := s.court.revoked d, logs := s.logs ++ s.revocation d } := by
  unfold revokeTarget at h
  unfold Court.revoked Storage.revocation
  split at h
  · rename_i ht
    simp only [bind_eq_ok, modifyAt_eq_ok, pure_eq_ok] at h
    obtain ⟨_, ⟨r, hr, rfl⟩, rfl⟩ := h
    simp only [ht, if_true, ne_eq, not_true_eq_false, false_and, if_false, List.append_nil, modify_eq_set hr]
  · rename_i ht
    split at h
    · rename_i hl
      simp only [bind_eq_ok, load_eq_ok, checkedAdd_eq_ok, store, modifyAt_eq_ok, pure_eq_ok] at h
      obtain ⟨b, hb, _, ⟨-, rfl⟩, _, ⟨_, -, rfl⟩, rfl⟩ := h
      simp only [ht, if_false, ne_eq, not_false_eq_true, hl, and_self, if_true, Storage.emit, modify_eq_set hb]
    · rename_i hl
      have hs := (pure_eq_ok.1 h).symm
      subst hs
      simp only [ht, if_false, hl, and_false, List.append_nil]

theorem upholdTarget_ok {d : Dispute} {c c' : Court} (h : upholdTarget d c = .ok c') : c' = c.upheld d := by
  unfold upholdTarget at h
  unfold Court.upheld
  split at h
  · rename_i ht
    simp only [bind_eq_ok, modifyAt_eq_ok, pure_eq_ok] at h
    obtain ⟨_, ⟨r, hr, rfl⟩, rfl⟩ := h
    rw [if_pos ht, modify_eq_set hr]
  · rename_i ht
    rw [if_neg ht]
    exact (pure_eq_ok.1 h).symm

/-- The registrations that both resolutions begin with. -/
theorem registrations_ok {E : Evm} {d : Dispute} {x x' x'' : Exposure}
    (h : d.validAttesters.foldlM (fun x v => registerValidAtt (targetKey E d) v x) x = .ok x')
    (h' : (if d.targetType = 1 then rememberExposedLeaf d.targetIndex d.leafIndex x' else pure x') = .ok x'') :
    x'' = x.afterSpurious E d := by
  obtain rfl := foldlM_registerValidAtt_ok h
  unfold Exposure.afterSpurious
  dsimp only
  split at h'
  · rename_i ht
    rw [if_pos ht]
    exact rememberExposedLeaf_ok h'
  · rename_i ht
    rw [if_neg ht]
    exact (pure_eq_ok.1 h').symm

theorem resolveFraud_ok {D : Deployment} {id : ℕ} {s s' : Storage} (h : resolveFraud D id s = .ok s') :
    ∃ d relay, s.court.disputes[id]? = some d ∧ targetRelay d s.court = .ok relay ∧
      s' = s.afterFraud D id d relay := by
  unfold resolveFraud at h
  simp only [ite_bind, bind_eq_ok, load_eq_ok, checkedMul_eq_ok, pure_eq_ok] at h
  obtain ⟨d, hd, s1, hrevoke, court, hclose, x1, hreg, x2, hrem, l1, hslash, x3, hrel, relay', hrelay', p, hcollect,
    _, ⟨-, rfl⟩, l2, hchallenger, _, ⟨-, rfl⟩, l3, hpay, l4, hbond, rfl⟩ := h
  obtain rfl := revokeTarget_ok hrevoke
  obtain ⟨relay, hrelay, rfl⟩ := closeDispute_ok hclose
  obtain rfl := registrations_ok hreg hrem
  obtain rfl := foldlM_slashFromPool_ok hslash
  obtain rfl := releaseExposures_ok hrel
  obtain rfl := collectFromPool_ok hcollect
  obtain rfl := credit_ok hchallenger
  obtain rfl := payAttesters_ok hpay
  obtain rfl := credit_ok hbond
  have hsame : targetRelay d s.court = .ok relay := (targetRelay_congr (by simp)).1 hrelay
  have hsame' : targetRelay d s.court = .ok relay' := (targetRelay_congr (by simp)).1 hrelay'
  obtain rfl : relay = relay' := Except.ok.inj (hsame.symm.trans hsame')
  exact ⟨d, relay, hd, hsame, rfl⟩

theorem resolveSpurious_ok {D : Deployment} {id : ℕ} {s s' : Storage} (h : resolveSpurious D id s = .ok s') :
    ∃ d relay, s.court.disputes[id]? = some d ∧ targetRelay d s.court = .ok relay ∧
      s' = s.afterSpurious D id d relay := by
  unfold resolveSpurious at h
  simp only [ite_bind, bind_eq_ok, load_eq_ok, pure_eq_ok] at h
  obtain ⟨d, hd, c1, hup, c2, hclose, x1, hreg, x2, hrem, l1, hpay, relay', hrelay', l2, hcredit, rfl⟩ := h
  obtain rfl := upholdTarget_ok hup
  obtain ⟨relay, hrelay, rfl⟩ := closeDispute_ok hclose
  obtain rfl := registrations_ok hreg hrem
  obtain rfl := payAttesters_ok hpay
  obtain rfl := credit_ok hcredit
  have hsame : targetRelay d s.court = .ok relay := (targetRelay_congr (by simp)).1 hrelay
  have hsame' : targetRelay d s.court = .ok relay' := (targetRelay_congr (by simp)).1 hrelay'
  obtain rfl : relay = relay' := Except.ok.inj (hsame.symm.trans hsame')
  exact ⟨d, relay, hd, hsame, rfl⟩

end PqIotAuth
