import PqIotAuth.Rulings

/-!
# Independent disputes

Two rulings on different disputes can be made in either order (`disputes_independent`). The targets differ, so they
write different records, leaves and exposures. They share the batches, the counters, and the accounts, which may be
relay, challenger and attester in both disputes; on these they add and subtract, and the order does not matter as long
as no subtraction stops at 0. For the counters it never does. For the stakes it does not when every pool covers what
the two rulings ask of it; then a verdict takes amounts that no stake has a part in (`Ruling.ledger_eq`).
-/

namespace PqIotAuth

open Lib

variable {D : Deployment} {c : Court} {vs : List (ℕ × Verdict)} {r r' : Ruling}

/-! ## Court -/

namespace Court

/-- A verdict does not look at the disputes. -/
theorem decided_setDisputes (ds : List Dispute) (t : Target) (v : Verdict) (relay : Address) :
    ({ c with disputes := ds } : Court).decided t v relay = { c.decided t v relay with disputes := ds } := by
  cases t <;> rfl

/-- Verdicts on different targets, on two leaves of one batch among them. -/
theorem decided_comm {t t' : Target} (ht : t ≠ t') (v v' : Verdict) (relay relay' : Address) :
    (c.decided t v relay).decided t' v' relay' = (c.decided t' v' relay').decided t v relay := by
  cases t with
  | record i =>
    cases t' with
    | record j =>
      have hij : i ≠ j := fun e => ht (e ▸ rfl)
      simp only [decided, Court.mk.injEq, true_and]
      exact ⟨List.modify_modify_ne _ _ _ hij, update_pred_comm _ _ _⟩
    | leaf b l =>
      simp only [decided, setLeaf, Court.mk.injEq, true_and]
      exact update_pred_comm _ _ _
  | leaf b l =>
    cases t' with
    | record j =>
      simp only [decided, setLeaf, Court.mk.injEq, true_and]
      exact update_pred_comm _ _ _
    | leaf b' l' =>
      have hstates : ((c.setLeaf b l (leafAfter v)).setLeaf b' l' (leafAfter v')).batchLeafState =
          ((c.setLeaf b' l' (leafAfter v')).setLeaf b l (leafAfter v)).batchLeafState := by
        funext k m
        simp only [setLeaf_apply]
        by_cases h : k = b ∧ m = l
        · have h' : ¬ (k = b' ∧ m = l') := fun h' => ht (by rw [← h.1, ← h.2, ← h'.1, ← h'.2])
          rw [if_pos h, if_pos h, if_neg h']
        · rw [if_neg h, if_neg h]
      simp only [decided, Court.mk.injEq]
      refine ⟨rfl, ?_, rfl, hstates, update_pred_comm _ _ _, update_pred_comm _ _ _⟩
      by_cases hb : b = b'
      · -- the revoked leaves of one batch are counted by both
        subst hb
        simp only [List.modify_modify_eq]
        congr 1
        funext bt
        simp only [Function.comp, Batch.mk.injEq, true_and, and_true]
        omega
      · exact List.modify_modify_ne _ _ _ hb

end Court

namespace Ruling

theorem court_comm (hid : r.id ≠ r'.id) (ht : r.dispute.target ≠ r'.dispute.target) (c : Court) :
    r'.court (r.court c) = r.court (r'.court c) := by
  unfold court
  dsimp only
  cases r.verdict with
  | none =>
    cases r'.verdict with
    | none => simp only [List.set_comm _ _ hid]
    | some v' => simp only [Court.decided_setDisputes, List.set_comm _ _ hid]
  | some v =>
    cases r'.verdict with
    | none => simp only [Court.decided_setDisputes, List.set_comm _ _ hid]
    | some v' =>
      simp only [Court.decided_setDisputes, List.set_comm _ _ hid, Court.decided_comm ht]

theorem flags_comm (hid : r.id ≠ r'.id) (f : ℕ → Address → Bool) : r'.flags (r.flags f) = r.flags (r'.flags f) := by
  unfold flags
  cases r.voter with
  | none => rfl
  | some a =>
    cases r'.voter with
    | none => rfl
    | some b =>
      dsimp only
      rw [Function.update_of_ne (Ne.symm hid), Function.update_of_ne hid, Function.update_comm hid]

end Ruling

/-! ## Exposures -/

theorem Ruling.On.kinds {d : Dispute} (h : r.On c d) (hinv : c.Inv vs) :
    r.dispute.targetType = 0 ∧ r.dispute.leafIndex = 0 ∨ r.dispute.targetType = 1 := by
  obtain ⟨fa, va, e⟩ := h.votes
  rw [e]
  exact hinv.kinds d (List.mem_of_getElem? h.dispute)

/-- The key of a ruling is the key of its target. -/
theorem Ruling.On.targetKey_eq {d : Dispute} (h : r.On c d) (hinv : c.Inv vs) (E : Evm) :
    targetKey E r.dispute = r.dispute.target.key E := by
  rw [h.target, ← hinv.targetKey_eq E (List.mem_of_getElem? h.dispute)]
  obtain ⟨fa, va, e⟩ := h.votes
  rw [e]
  rfl

namespace Ruling

/-- A ruling works on the register at the key of its target. -/
theorem registry_local (E : Evm) (r : Ruling) : ∃ f, Register.LocalAt (targetKey E r.dispute) f ∧
    ∀ x : Exposure, (r.exposure E x).registry = f x.registry := by
  have henter := Register.LocalAt.enterAll (targetKey E r.dispute) r.dispute.validAttesters
  have hrelease := Register.LocalAt.release (V := Address) (targetKey E r.dispute)
  unfold exposure
  cases r.verdict with
  | none => exact ⟨_, .id _, fun _ => rfl⟩
  | some v =>
    cases v with
    | fraud => exact ⟨_, henter.comp hrelease, fun x => x.registry_afterFraud E r.dispute⟩
    | spurious => exact ⟨_, henter, fun x => x.registry_afterSpurious E r.dispute⟩
    | expired => exact ⟨_, hrelease, fun _ => rfl⟩

theorem registry_comm {E : Evm} (hkey : targetKey E r.dispute ≠ targetKey E r'.dispute) {x : Exposure}
    (hx : x.registry.Wf) :
    (r'.exposure E (r.exposure E x)).registry = (r.exposure E (r'.exposure E x)).registry := by
  obtain ⟨f, hf, he⟩ := r.registry_local E
  obtain ⟨f', hf', he'⟩ := r'.registry_local E
  rw [he', he, he, he']
  exact hf.comm hf' hkey hx

/-- The verifiers that a fraud verdict would slash stay the same through a ruling on another target. -/
theorem wrongSide_ruled {s : Storage} (hkey : targetKey D.toEvm r.dispute ≠ targetKey D.toEvm r'.dispute) :
    (s.ruled D r).wrongSide D r'.dispute = s.wrongSide D r'.dispute := by
  have hside : ∀ x : Exposure, (x.afterSpurious D.toEvm r'.dispute).targetValidList (targetKey D.toEvm r'.dispute) =
      (x.registry.enterAll (targetKey D.toEvm r'.dispute) r'.dispute.validAttesters).list
        (targetKey D.toEvm r'.dispute) := by
    intro x
    rw [← Exposure.registry_afterSpurious]
    rfl
  obtain ⟨f, hf, he⟩ := r.registry_local D.toEvm
  rw [Storage.wrongSide, Storage.wrongSide, hside, hside]
  refine ((Register.LocalAt.enterAll _ _).congr _ _ ?_ ?_).1
  · change (r.exposure D.toEvm s.exposure).registry.list _ = _
    rw [he, hf.list_of_ne _ hkey.symm]
  · change (r.exposure D.toEvm s.exposure).registry.has _ = _
    rw [he, hf.has_of_ne _ hkey.symm]

/-- The leaf is remembered by the verdict. -/
def Remembers (r : Ruling) (b l : ℕ) : Prop :=
  (r.verdict = some .fraud ∨ r.verdict = some .spurious) ∧ r.dispute.target = .leaf b l

theorem mem_exposedLeaves {E : Evm} (hkind : r.dispute.targetType = 0 ∧ r.dispute.leafIndex = 0 ∨
    r.dispute.targetType = 1) {x : Exposure} {b l : ℕ} :
    l ∈ (r.exposure E x).exposedLeaves b ↔ l ∈ x.exposedLeaves b ∨ r.Remembers b l := by
  have hvotes : l ∈ (x.afterSpurious E r.dispute).exposedLeaves b ↔
      l ∈ x.exposedLeaves b ∨ r.dispute.target = .leaf b l := by
    rw [Exposure.exposedLeaves_afterSpurious_target hkind, Exposure.mem_rememberedTarget]
  unfold exposure Remembers
  cases r.verdict with
  | none => simp
  | some v =>
    cases v with
    | fraud =>
      rw [and_iff_right (.inl rfl)]
      exact hvotes
    | spurious =>
      rw [and_iff_right (.inr rfl)]
      exact hvotes
    | expired =>
      rw [or_iff_left (by simp)]
      rfl

end Ruling

/-! ## Ledger -/

/-- Amounts taken from the stakes and added to the credits. -/
def Ledger.settled (fromRelay fromVerifier credits : Address → ℕ) (l : Ledger) : Ledger where
  relayStake a := l.relayStake a - fromRelay a
  verifierStake a := l.verifierStake a - fromVerifier a
  pendingWithdrawals a := l.pendingWithdrawals a + credits a

theorem Ledger.settled_comm (p q m p' q' m' : Address → ℕ) (l : Ledger) :
    (l.settled p q m).settled p' q' m' = (l.settled p' q' m').settled p q m := by
  simp only [settled, Ledger.mk.injEq]
  refine ⟨?_, ?_, ?_⟩
  · funext a
    omega
  · funext a
    omega
  · funext a
    omega

theorem Ledger.eq_settled {l l' : Ledger} {p q m : Address → ℕ} (hr : ∀ a, l'.relayStake a = l.relayStake a - p a)
    (hv : ∀ a, l'.verifierStake a = l.verifierStake a - q a)
    (hc : ∀ a, l'.pendingWithdrawals a = l.pendingWithdrawals a + m a) : l' = l.settled p q m := by
  obtain ⟨relayStake, verifierStake, pendingWithdrawals⟩ := l'
  simp only [settled, Ledger.mk.injEq]
  exact ⟨funext hr, funext hv, funext hc⟩

/-- Pools that cover a slash lose all of it. -/
theorem Ledger.seizedAll_eq {l : Ledger} {vs : List Address} {n : ℕ} (h : ∀ v ∈ vs, n ≤ l.verifierStake v) :
    l.seizedAll vs n = vs.length * n := by
  have hmap : (vs.map fun v => l.seized v n) = vs.map fun _ => n :=
    List.map_congr_left fun v hv => Nat.min_eq_left ((h v hv).trans (Nat.le_add_left _ _))
  rw [seizedAll, hmap, List.map_const', List.sum_replicate_nat]

/-- What a fraud verdict credits to `a` when the pools cover the slashes. -/
def Dispute.fraudCredits (D : Deployment) (wrongSide : List Address) (d : Dispute) (a : Address) : ℕ :=
  (if a = d.challenger then wrongSide.length * D.verifierSlashAmount + D.relaySlashAmount * 3 / 5 + d.bond else 0) +
    d.fraudAttesters.count a * (D.relaySlashAmount * 2 / 5 / d.fraudAttesters.length)

/-- The settlement of a fraud verdict when the pools cover the slashes. -/
theorem Ledger.afterFraud_eq {l : Ledger} {wrongSide : List Address} (hnd : wrongSide.Nodup) {relay : Address}
    (hrelay : relay ∉ wrongSide) (d : Dispute) (hpool : D.relaySlashAmount ≤ l.relayStake relay)
    (hpools : ∀ v ∈ wrongSide, D.verifierSlashAmount ≤ l.verifierStake v) :
    l.afterFraud D d relay wrongSide = l.settled (fun a => if a = relay then D.relaySlashAmount else 0)
      (fun a => if a ∈ wrongSide then D.verifierSlashAmount else 0) (d.fraudCredits D wrongSide) := by
  have hstakes := stakes_afterFraud (l := l) hnd hrelay D d
  have hseized : l.seized relay D.relaySlashAmount = D.relaySlashAmount :=
    Nat.min_eq_left (hpool.trans (Nat.le_add_right _ _))
  refine eq_settled (fun a => ?_) (fun a => ?_) fun a => ?_
  · rw [(hstakes a).2]
    by_cases ha : a ∈ wrongSide
    · have := hpools a ha
      have hne : a ≠ relay := ne_of_mem_of_not_mem ha hrelay
      simp only [ha, hne, if_true, if_false]
      omega
    · by_cases hne : a = relay
      · subst hne
        simp [ha]
      · simp [ha, hne]
  · rw [(hstakes a).1]
    by_cases ha : a ∈ wrongSide
    · simp [ha]
    · by_cases hne : a = relay
      · subst hne
        simp only [ha, if_true, if_false]
        omega
      · simp [ha, hne]
  · rw [pendingWithdrawals_afterFraud hnd hrelay, hseized, seizedAll_eq hpools, Nat.add_assoc]
    rfl

namespace Ruling

/-- What a ruling asks of the relay pool of `a`. -/
def fromRelay (D : Deployment) (r : Ruling) (a : Address) : ℕ :=
  if r.verdict = some .fraud ∧ a = r.relay then D.relaySlashAmount else 0

/-- What a ruling asks of the verifier pool of `a`. -/
def fromVerifier (D : Deployment) (r : Ruling) (wrongSide : List Address) (a : Address) : ℕ :=
  if r.verdict = some .fraud ∧ a ∈ wrongSide then D.verifierSlashAmount else 0

/-- What a ruling credits to `a` when the pools cover what it asks for. -/
def credits (D : Deployment) (r : Ruling) (wrongSide : List Address) (a : Address) : ℕ :=
  let d := r.dispute
  match r.verdict with
  | none => 0
  | some .fraud => d.fraudCredits D wrongSide a
  | some .spurious =>
    d.validAttesters.count a * (d.bond / 2 / d.validAttesters.length) + if a = r.relay then d.bond - d.bond / 2 else 0
  | some .expired => if a = d.challenger then d.bond / 2 else 0

/-- **A ruling that the pools cover takes and credits amounts that do not depend on the ledger.** -/
theorem ledger_eq {wrongSide : List Address}
    (hside : r.verdict = some .fraud → wrongSide.Nodup ∧ r.relay ∉ wrongSide) {l : Ledger}
    (hr : ∀ a, r.fromRelay D a ≤ l.relayStake a) (hv : ∀ a, r.fromVerifier D wrongSide a ≤ l.verifierStake a) :
    r.ledger D wrongSide l =
      l.settled (r.fromRelay D) (r.fromVerifier D wrongSide) (r.credits D wrongSide) := by
  unfold fromRelay at hr
  unfold fromVerifier at hv
  unfold ledger fromRelay fromVerifier credits
  cases hverdict : r.verdict with
  | none => exact Ledger.eq_settled (by simp) (by simp) (by simp)
  | some v =>
    cases v with
    | fraud =>
      obtain ⟨hnd, hrelay⟩ := hside hverdict
      simp only [hverdict, true_and] at hr hv ⊢
      refine Ledger.afterFraud_eq hnd hrelay r.dispute ?_ fun v hm => ?_
      · simpa using hr r.relay
      · simpa [hm] using hv v
    | spurious =>
      refine Ledger.eq_settled (fun a => ?_) (fun a => ?_) fun a => ?_
      · simp [Ledger.afterSpurious]
      · simp [Ledger.afterSpurious]
      · rw [Ledger.pendingWithdrawals_afterSpurious, Nat.add_assoc]
    | expired =>
      refine Ledger.eq_settled (fun a => ?_) (fun a => ?_) fun a => ?_
      · simp [Ledger.afterExpiry]
      · simp [Ledger.afterExpiry]
      · exact Ledger.pendingWithdrawals_credited _ _ _

theorem ledger_comm {wrongSide wrongSide' : List Address}
    (hside : r.verdict = some .fraud → wrongSide.Nodup ∧ r.relay ∉ wrongSide)
    (hside' : r'.verdict = some .fraud → wrongSide'.Nodup ∧ r'.relay ∉ wrongSide') {l : Ledger}
    (hr : ∀ a, r.fromRelay D a + r'.fromRelay D a ≤ l.relayStake a)
    (hv : ∀ a, r.fromVerifier D wrongSide a + r'.fromVerifier D wrongSide' a ≤ l.verifierStake a) :
    r'.ledger D wrongSide' (r.ledger D wrongSide l) = r.ledger D wrongSide (r'.ledger D wrongSide' l) := by
  have hfirst := ledger_eq (r := r) hside (l := l) (fun a => (Nat.le_add_right _ _).trans (hr a))
    fun a => (Nat.le_add_right _ _).trans (hv a)
  have hfirst' := ledger_eq (r := r') hside' (l := l) (fun a => (Nat.le_add_left _ _).trans (hr a))
    fun a => (Nat.le_add_left _ _).trans (hv a)
  -- what the one leaves of a pool still covers the other
  rw [hfirst, hfirst', ledger_eq hside' (fun a => ?_) fun a => ?_, ledger_eq hside (fun a => ?_) fun a => ?_,
    Ledger.settled_comm]
  · have := hr a
    dsimp only [Ledger.settled]
    omega
  · have := hv a
    dsimp only [Ledger.settled]
    omega
  · have := hr a
    dsimp only [Ledger.settled]
    omega
  · have := hv a
    dsimp only [Ledger.settled]
    omega

end Ruling

/-! ## Independence -/

namespace World

variable {w w₁ w₂ : World}

instance (c : Court) (t : Target) (v : Address) : Decidable (c.VotedValid t v) :=
  inferInstanceAs (Decidable (∃ d ∈ c.disputes, d.target = t ∧ v ∈ d.validAttesters))

/-- What the call on the dispute `id` that has led to `w` asks of the relay pool of `a`: the relay slash, when it has
completed a fraud verdict and `a` endorsed the target. -/
def relayAsked (D : Deployment) (w : World) (id : ℕ) (a : Address) : ℕ :=
  match w.relay.court.disputes[id]? with
  | none => 0
  | some d =>
    if .disputeResolved id true ∈ w.relay.logs ∧ w.relay.court.relayOf d.target = some a then D.relaySlashAmount else 0

/-- What it asks of the verifier pool of `v`: the verifier slash, when it has completed a fraud verdict and `v` has
voted "valid" in some dispute on the target. -/
def verifierAsked (D : Deployment) (w : World) (id : ℕ) (v : Address) : ℕ :=
  match w.relay.court.disputes[id]? with
  | none => 0
  | some d =>
    if .disputeResolved id true ∈ w.relay.logs ∧ w.relay.court.VotedValid d.target v then D.verifierSlashAmount else 0

/-- Every pool of `w` covers what is asked of it by the calls on `id₁` and `id₂`, which lead from `w` to `w₁` and to
`w₂`. -/
structure PoolsCover (D : Deployment) (w w₁ w₂ : World) (id₁ id₂ : ℕ) : Prop where
  relay : ∀ a, w₁.relayAsked D id₁ a + w₂.relayAsked D id₂ a ≤ w.relay.ledger.relayStake a
  verifier : ∀ v, w₁.verifierAsked D id₁ v + w₂.verifierAsked D id₂ v ≤ w.relay.ledger.verifierStake v

/-- The worlds are the same but for the order of the leaves that have an entry and of the events. -/
structure Alike (w w' : World) : Prop where
  same : w' = { w with
    relay := { w.relay with
      exposure := { w.relay.exposure with exposedLeaves := w'.relay.exposure.exposedLeaves }
      logs := w'.relay.logs } }
  leaves : ∀ b, (w.relay.exposure.exposedLeaves b).Perm (w'.relay.exposure.exposedLeaves b)
  events : w.relay.logs.Perm w'.relay.logs

end World

namespace Ruling

/-- Who endorsed what stays. -/
theorem relays_court (r : Ruling) (c : Court) : (r.court c).relays = c.relays := by
  unfold court
  cases r.verdict with
  | none => rfl
  | some v =>
    cases r.dispute.target with
    | record i => simp [Court.decided, Court.relays, map_modify_eq]
    | leaf b l => simp [Court.decided, Court.relays, Court.setLeaf, map_modify_eq]

theorem disputes_court (r : Ruling) (c : Court) :
    (r.court c).disputes = c.disputes.set r.id { r.dispute with resolved := r.verdict.isSome } := by
  unfold court
  cases r.verdict with
  | none => rfl
  | some v => cases r.dispute.target <;> rfl

end Ruling

theorem Court.relayOf_congr {c c' : Court} (h : c.relays = c'.relays) (t : Target) : c.relayOf t = c'.relayOf t := by
  obtain ⟨hrecords, hbatches⟩ := Prod.mk.inj h
  cases t with
  | record i => rw [relayOf, relayOf, ← List.getElem?_map, ← List.getElem?_map, hrecords]
  | leaf b l => rw [relayOf, relayOf, ← List.getElem?_map, ← List.getElem?_map, hbatches]

namespace Ruling.Of

variable {w w' : World} {env : Env} {call : Call}

/-- Of the verifiers that a fraud verdict slashes none is the relay. -/
theorem wrongSide (h : r.Of D env w.relay call) (hw : w.Reachable D) (hkeys : KeysInjective D.toEvm)
    (hv : r.verdict = some .fraud) :
    (w.relay.wrongSide D r.dispute).Nodup ∧ r.relay ∉ w.relay.wrongSide D r.dispute := by
  cases h with
  | vote hvote => exact ⟨(hw.wrongSide hkeys hvote).1, hw.relay_not_wrongSide hkeys hvote⟩
  | expire => cases hv

/-- The dispute on which a ruling has been made, with the relay of its target. -/
theorem ruled_dispute (h : r.Of D env w.relay call) (hw' : w'.relay = w.relay.ruled D r) :
    w'.relay.court.disputes[r.id]? = some { r.dispute with resolved := r.verdict.isSome } ∧
      w'.relay.court.relayOf r.dispute.target = some r.relay := by
  obtain ⟨d, hon⟩ := h.on
  constructor
  · rw [hw', Storage.ruled, disputes_court]
    exact List.getElem?_set_self (List.getElem?_eq_some_iff.1 hon.dispute).1
  · rw [hw', Storage.ruled, Court.relayOf_congr (r.relays_court _), hon.target]
    exact hon.endorsed

theorem fraud_logged (hw' : w'.relay = w.relay.ruled D r) (hv : r.verdict = some .fraud) :
    .disputeResolved r.id true ∈ w'.relay.logs := by
  rw [hw', Storage.ruled, Ruling.events, hv]
  exact List.mem_append_right _ (List.mem_append_right _ (List.mem_singleton_self _))

/-- What a ruling takes is what the call asks for. -/
theorem fromRelay_le (h : r.Of D env w.relay call) (hw' : w'.relay = w.relay.ruled D r) (a : Address) :
    r.fromRelay D a ≤ w'.relayAsked D r.id a := by
  obtain ⟨hdispute, hrelay⟩ := h.ruled_dispute hw'
  unfold Ruling.fromRelay
  split
  · rename_i hfraud
    obtain ⟨hv, rfl⟩ := hfraud
    rw [World.relayAsked, hdispute]
    exact (if_pos ⟨fraud_logged hw' hv, hrelay⟩).ge
  · exact Nat.zero_le _

theorem fromVerifier_le (h : r.Of D env w.relay call) (hw : w.Reachable D) (hkeys : KeysInjective D.toEvm)
    (hs : w.Step D w') (hw' : w'.relay = w.relay.ruled D r) (v : Address) :
    r.fromVerifier D (w.relay.wrongSide D r.dispute) v ≤ w'.verifierAsked D r.id v := by
  obtain ⟨hdispute, -⟩ := h.ruled_dispute hw'
  unfold Ruling.fromVerifier
  split
  · rename_i hfraud
    obtain ⟨hv, hside⟩ := hfraud
    have hvoted : w'.relay.court.VotedValid r.dispute.target v := by
      cases h with
      | vote hvote =>
        rw [hvote.ruled_fraud hw.court hv] at hw'
        dsimp only
        rw [Dispute.target_voted, hw.votedValid_wrongSide hkeys hs hvote hw']
        exact hside
      | expire => cases hv
    rw [World.verifierAsked, hdispute]
    exact (if_pos ⟨fraud_logged hw' hv, hvoted⟩).ge
  · exact Nat.zero_le _

end Ruling.Of

/-- Two open disputes have different targets. -/
theorem Ruling.On.target_ne {d d' : Dispute} (h : r.On c d) (h' : r'.On c d') (hinv : c.Inv vs) (hid : r.id ≠ r'.id) :
    r.dispute.target ≠ r'.dispute.target := by
  rw [h.target, h'.target]
  intro ht
  exact hid (hinv.docket.open_unique (Court.docket_case.2 ⟨d, h.dispute, ht, h.unresolved⟩)
    (Court.docket_case.2 ⟨d', h'.dispute, rfl, h'.unresolved⟩))

theorem Ruling.On.key_ne {d d' : Dispute} (h : r.On c d) (h' : r'.On c d') (hinv : c.Inv vs) (hid : r.id ≠ r'.id)
    {E : Evm} (hkeys : KeysInjective E) : targetKey E r.dispute ≠ targetKey E r'.dispute := by
  have hrange : r.dispute.target.InRange := by
    rw [h.target]
    exact hinv.inRange (by rw [hinv.disputed h.dispute h.unresolved]; simp)
  have hrange' : r'.dispute.target.InRange := by
    rw [h'.target]
    exact hinv.inRange (by rw [hinv.disputed h'.dispute h'.unresolved]; simp)
  rw [h.targetKey_eq hinv E, h'.targetKey_eq hinv E]
  exact fun he => h.target_ne h' hinv hid (Target.key_inj hkeys hrange hrange' he)

theorem Exposure.eq_of_registry {x y : Exposure} (h : x.registry = y.registry) :
    y = { x with exposedLeaves := y.exposedLeaves } := by
  obtain ⟨list, has, live, leaves⟩ := x
  obtain ⟨list', has', live', leaves'⟩ := y
  simpa [Exposure.registry, eq_comm] using h

/-- A ruling on another dispute leaves a ruling what it is. -/
theorem Ruling.Of.kept {w w' : World} {sender : Address} {value : ℕ} {call : Call} {r'' : Ruling}
    (hw' : w' = { w with relay := w.relay.ruled D r }) (h : r'.Of D (w.env sender value) w.relay call)
    (hid : call.disputeId = some r'.id) (hne : r.id ≠ r'.id) (h' : r''.Of D (w'.env sender value) w'.relay call) :
    r'' = r' := by
  subst hw'
  refine h.unique h' hid ?_ (r.relays_court _)
  change (r.court w.relay.court).disputes[r'.id]? = _
  rw [Ruling.disputes_court, List.getElem?_set_ne hne]

/-- The storage after two rulings, but for the order of the leaves with an entry and of the events. -/
theorem Storage.ruled_comm {s : Storage} (hx : s.exposure.registry.Wf) (hid : r.id ≠ r'.id)
    (htarget : r.dispute.target ≠ r'.dispute.target)
    (hkey : targetKey D.toEvm r.dispute ≠ targetKey D.toEvm r'.dispute)
    (hledger : r'.ledger D (s.wrongSide D r'.dispute) (r.ledger D (s.wrongSide D r.dispute) s.ledger) =
      r.ledger D (s.wrongSide D r.dispute) (r'.ledger D (s.wrongSide D r'.dispute) s.ledger)) :
    (s.ruled D r').ruled D r = { (s.ruled D r).ruled D r' with
      exposure := { ((s.ruled D r).ruled D r').exposure with
        exposedLeaves := ((s.ruled D r').ruled D r).exposure.exposedLeaves }
      logs := ((s.ruled D r').ruled D r).logs } := by
  have hstakes : ((s.ruled D r').ruled D r).ledger = ((s.ruled D r).ruled D r').ledger := by
    change r.ledger D ((s.ruled D r').wrongSide D r.dispute) _ = r'.ledger D ((s.ruled D r).wrongSide D r'.dispute) _
    rw [Ruling.wrongSide_ruled hkey, Ruling.wrongSide_ruled hkey.symm]
    exact hledger.symm
  have hcourt := Ruling.court_comm hid htarget s.court
  have hexposure := Exposure.eq_of_registry (Ruling.registry_comm hkey hx)
  have hflags := Ruling.flags_comm hid s.hasAttested
  simp only [ruled, Storage.mk.injEq, true_and, and_true] at hstakes ⊢
  exact ⟨hstakes, hcourt.symm, hexposure, hflags.symm⟩

/-- The same leaves have an entry after two rulings in either order. -/
theorem Ruling.exposedLeaves_comm {d d' : Dispute} (h : r.On c d) (h' : r'.On c d') (hinv : c.Inv vs) {E : Evm}
    {x : Exposure} {b l : ℕ} : l ∈ (r'.exposure E (r.exposure E x)).exposedLeaves b ↔
      l ∈ (r.exposure E (r'.exposure E x)).exposedLeaves b := by
  rw [mem_exposedLeaves (h'.kinds hinv), mem_exposedLeaves (h.kinds hinv), mem_exposedLeaves (h.kinds hinv),
    mem_exposedLeaves (h'.kinds hinv)]
  exact or_right_comm

/-- **Disputes on different targets are independent.** -/
theorem disputes_independent {D : Deployment} {w w₁ w₂ w₁₂ w₂₁ : World} (hw : w.Reachable D)
    (hkeys : KeysInjective D.toEvm) {sender₁ sender₂ : Address} {value₁ value₂ id₁ id₂ : ℕ} {call₁ call₂ : Call}
    (hid₁ : call₁.disputeId = some id₁) (hid₂ : call₂.disputeId = some id₂) (hid : id₁ ≠ id₂)
    (hs₁ : w.step D (.call sender₁ value₁ call₁) = .ok w₁) (hs₁₂ : w₁.step D (.call sender₂ value₂ call₂) = .ok w₁₂)
    (hs₂ : w.step D (.call sender₂ value₂ call₂) = .ok w₂) (hs₂₁ : w₂.step D (.call sender₁ value₁ call₁) = .ok w₂₁)
    (hpools : World.PoolsCover D w w₁ w₂ id₁ id₂) :
    (∃ d₁ d₂ : Dispute, w.relay.court.disputes[id₁]? = some d₁ ∧ w.relay.court.disputes[id₂]? = some d₂ ∧
      d₁.resolved = false ∧ d₂.resolved = false ∧ d₁.target ≠ d₂.target) ∧ w₁₂.Alike w₂₁ := by
  have hw₁ : w₁.Reachable D := hw.next ⟨_, hs₁⟩
  have hw₂ : w₂.Reachable D := hw.next ⟨_, hs₂⟩
  have hw₁₂ : w₁₂.Reachable D := hw₁.next ⟨_, hs₁₂⟩
  have hw₂₁ : w₂₁.Reachable D := hw₂.next ⟨_, hs₂₁⟩
  obtain ⟨r₁, rfl, hof₁, h₁⟩ := hw.ruling hid₁ hs₁
  obtain ⟨r₂, rfl, hof₂, h₂⟩ := hw.ruling hid₂ hs₂
  obtain ⟨r₂', hr₂', hof₂', h₁₂⟩ := hw₁.ruling hid₂ hs₁₂
  obtain ⟨r₁', hr₁', hof₁', h₂₁⟩ := hw₂.ruling hid₁ hs₂₁
  obtain ⟨d₁, hon₁⟩ := hof₁.on
  obtain ⟨d₂, hon₂⟩ := hof₂.on
  have htarget := hon₁.target_ne hon₂ hw.court hid
  have hkey := hon₁.key_ne hon₂ hw.court hid hkeys
  -- each call rules the same whether it comes first or second
  obtain rfl : r₂' = r₂ := hof₂.kept h₁ hid₂ hid hof₂'
  obtain rfl : r₁' = r₁ := hof₁.kept h₂ hid₁ hid.symm hof₁'
  have hledger := Ruling.ledger_comm (hof₁.wrongSide hw hkeys) (hof₂.wrongSide hw hkeys) (l := w.relay.ledger)
    (fun a => (Nat.add_le_add (hof₁.fromRelay_le (h₁ ▸ rfl) a) (hof₂.fromRelay_le (h₂ ▸ rfl) a)).trans
      (hpools.relay a))
    (fun v => (Nat.add_le_add (hof₁.fromVerifier_le hw hkeys ⟨_, hs₁⟩ (h₁ ▸ rfl) v)
      (hof₂.fromVerifier_le hw hkeys ⟨_, hs₂⟩ (h₂ ▸ rfl) v)).trans (hpools.verifier v))
  have hrelay := Storage.ruled_comm hw.registry.wf hid htarget hkey hledger
  refine ⟨⟨d₁, d₂, hon₁.dispute, hon₂.dispute, hon₁.unresolved, hon₂.unresolved, ?_⟩, ?_, fun b => ?_, ?_⟩
  · rwa [hon₁.target, hon₂.target] at htarget
  · rw [h₁₂, h₂₁, h₁, h₂]
    dsimp only
    rw [← hrelay]
  · refine (List.perm_ext_iff_of_nodup (hw₁₂.registry.leaves_nodup b) (hw₂₁.registry.leaves_nodup b)).2 fun l => ?_
    rw [h₁₂, h₂₁, h₁, h₂]
    exact Ruling.exposedLeaves_comm hon₁ hon₂ hw.court
  · rw [h₁₂, h₂₁, h₁, h₂]
    dsimp only [Storage.ruled]
    rw [List.append_assoc, List.append_assoc]
    exact List.perm_append_comm.append_left _

/-! ## Two fraud verdicts -/

/-- Nothing is asked of a relay that did not endorse the target. -/
theorem World.relayAsked_of_ne {w : World} {a b : Address} (h : ∀ d ∈ w.relay.court.disputes,
    w.relay.court.relayOf d.target = some b) (hab : a ≠ b) (id : ℕ) : w.relayAsked D id a = 0 := by
  unfold relayAsked
  split
  · rfl
  · rename_i d hd
    refine if_neg fun ha => hab ?_
    exact Option.some.inj (ha.2.symm.trans (h d (List.mem_of_getElem? hd)))

/-- Nothing is asked of who has never voted "valid". -/
theorem World.verifierAsked_of_not_mem {w : World} {v : Address} {voters : List Address}
    (h : w.relay.court.disputes.flatMap (·.validAttesters) ⊆ voters) (hv : v ∉ voters) (id : ℕ) :
    w.verifierAsked D id v = 0 := by
  unfold verifierAsked
  split
  · rfl
  · refine if_neg ?_
    rintro ⟨-, d, hd, -, hm⟩
    exact hv (h (List.mem_flatMap.2 ⟨d, hd, hm⟩))

namespace Toy

/-- A record and a leaf of the relay 2 are under dispute, each one vote short of a fraud verdict. -/
def crossroads : World := World.after (Deployment.toy 2) [vote 5 2 1 0 1 true] secondTrial

theorem crossroads_reachable : crossroads.Reachable (Deployment.toy 2) :=
  World.after_reachable _ secondTrial_reachable

def recordFirst : World := World.after (Deployment.toy 2) [vote 3 3 0 0 0 true] crossroads

def leafFirst : World := World.after (Deployment.toy 2) [vote 4 2 1 0 1 true] crossroads

def leafSecond : World := World.after (Deployment.toy 2) [vote 4 2 1 0 1 true] recordFirst

def recordSecond : World := World.after (Deployment.toy 2) [vote 3 3 0 0 0 true] leafFirst

end Toy

/-- The relay and the verifier 3 are slashed in both disputes. -/
theorem disputes_independent_toy : Toy.leafSecond.Alike Toy.recordSecond ∧
    Toy.leafSecond.relay.ledger.relayStake 2 = 10 ∧ Toy.leafSecond.relay.ledger.verifierStake 3 = 10 := by
  obtain ⟨⟨h₁, h₁₂, h₂, h₂₁, hstakes⟩, ⟨hrelays₁, hrelays₂, hvoters₁, hvoters₂⟩, hrelay, hverifiers⟩ :
      ((Toy.crossroads.step (Deployment.toy 2) (Toy.vote 3 3 0 0 0 true)).isOk ∧
        (Toy.recordFirst.step (Deployment.toy 2) (Toy.vote 4 2 1 0 1 true)).isOk ∧
        (Toy.crossroads.step (Deployment.toy 2) (Toy.vote 4 2 1 0 1 true)).isOk ∧
        (Toy.leafFirst.step (Deployment.toy 2) (Toy.vote 3 3 0 0 0 true)).isOk ∧
        Toy.leafSecond.relay.ledger.relayStake 2 = 10 ∧ Toy.leafSecond.relay.ledger.verifierStake 3 = 10) ∧
      ((∀ d ∈ Toy.recordFirst.relay.court.disputes, Toy.recordFirst.relay.court.relayOf d.target = some 2) ∧
        (∀ d ∈ Toy.leafFirst.relay.court.disputes, Toy.leafFirst.relay.court.relayOf d.target = some 2) ∧
        Toy.recordFirst.relay.court.disputes.flatMap (·.validAttesters) ⊆ [3, 4, 5] ∧
        Toy.leafFirst.relay.court.disputes.flatMap (·.validAttesters) ⊆ [3, 4, 5]) ∧
      Toy.recordFirst.relayAsked (Deployment.toy 2) 3 2 +
        Toy.leafFirst.relayAsked (Deployment.toy 2) 2 2 ≤ Toy.crossroads.relay.ledger.relayStake 2 ∧
      ([3, 4, 5] : List Address).all fun v => decide (Toy.recordFirst.verifierAsked (Deployment.toy 2) 3 v +
        Toy.leafFirst.verifierAsked (Deployment.toy 2) 2 v ≤ Toy.crossroads.relay.ledger.verifierStake v) := by
    decide +kernel
  have hpools : World.PoolsCover (Deployment.toy 2) Toy.crossroads Toy.recordFirst Toy.leafFirst 3 2 := by
    constructor
    · intro a
      by_cases ha : a = 2
      · subst ha
        exact hrelay
      · rw [World.relayAsked_of_ne hrelays₁ ha, World.relayAsked_of_ne hrelays₂ ha]
        exact Nat.zero_le _
    · intro v
      by_cases hv : v ∈ [3, 4, 5]
      · exact of_decide_eq_true (List.all_eq_true.1 hverifiers v hv)
      · rw [World.verifierAsked_of_not_mem hvoters₁ hv, World.verifierAsked_of_not_mem hvoters₂ hv]
        exact Nat.zero_le _
  exact ⟨(disputes_independent Toy.crossroads_reachable (.of_injective Evm.toy_injective) rfl rfl (by decide)
    (World.after_step h₁) (World.after_step h₁₂) (World.after_step h₂) (World.after_step h₂₁) hpools).2, hstakes⟩

end PqIotAuth
