import PqIotAuth.Nonces

/-!
# The registry and the relays

Both relays ask the registry whether a DID is active and keep the hash of the key that it has at that time. The
registry changes by registrations and deactivations only; a document that is there is never written again, but that its
owner may deactivate it (`DIDRegistry.Evolves`). So what is kept stays true (`KeysHeld`), and a DID that has been
deactivated stays so, with nothing accepted for it after the call (`registry_consistency`).
-/

namespace PqIotAuth

open Lib

variable {D : Deployment} {env : Env} {s s' : Storage} {call : Call} {u w w' : World} {a : Action} {didHash : Bytes32}
  {l : List (World × Action)}

/-! ## What an action needs of the registry -/

/-- The DIDs that a submission to `MetaTxRelay` is for. -/
def Action.submittedDids : Action → List Bytes32
  | .submitTransaction _ _ didHash _ _ => [didHash]
  | _ => []

/-- The DIDs that an action submits for, to either relay. -/
def Action.dids (a : Action) : List Bytes32 := a.submittedDids ++ a.filedDids

theorem Effect.active (he : Effect D env s call s') (hdid : didHash ∈ call.dids) :
    env.didRegistry.isActive didHash := by
  cases he with
  | submitAccountable _ _ did _ _ hactive =>
    rw [List.mem_singleton.1 hdid]
    exact hactive
  | submitBatch _ didHashes dataHashes data _ _ _ _ _ _ hm =>
    obtain ⟨i, hi⟩ := List.mem_iff_getElem?.1 hdid
    have hlt : i < didHashes.length := (List.getElem?_eq_some_iff.1 hi).1
    obtain ⟨m, m', hturn⟩ := foldlM_turn _ hm (List.mem_range.2 hlt)
    simp only [bind_eq_ok, load_eq_ok] at hturn
    obtain ⟨did, hload, _, -, hleaf⟩ := hturn
    obtain rfl := Option.some.inj (hi.symm.trans hload)
    exact (processLeaf_ok hleaf).1
  | _ => cases hdid

/-- Every DID that an action submits for is active at the time. -/
theorem World.step_active (hs : w.step D a = .ok w') (hdid : didHash ∈ a.dids) :
    w.didRegistry.isActive didHash := by
  cases a with
  | submitTransaction sender dataHash did sig verificationResult =>
    obtain rfl : didHash = did := List.mem_singleton.1 hdid
    simp only [World.step, bind_eq_ok, pure_eq_ok] at hs
    obtain ⟨_, hsubmit, -⟩ := hs
    exact (MetaTxRelay.submitTransaction_ok hsubmit).2.1
  | call sender value c =>
    obtain ⟨t, he, -⟩ := World.call_effect hs
    exact he.active hdid
  | _ => cases hdid

/-! ## What an action does to the registry -/

/-- What can have become of the registry. -/
inductive RegistryChange (w : World) : Action → DIDRegistry → Prop
  | register {sender : Address} {didHash : Bytes32} {key : List Byte} {R : DIDRegistry}
      (hok : w.didRegistry.registerDID sender w.now didHash key = .ok R) :
      RegistryChange w (.registerDID sender didHash key) R
  | deactivate {sender : Address} {didHash : Bytes32} {R : DIDRegistry}
      (hok : w.didRegistry.deactivateDID sender didHash = .ok R) : RegistryChange w (.deactivateDID sender didHash) R
  | keep {a : Action} (hreg : ∀ sender didHash key, a ≠ .registerDID sender didHash key)
      (hgone : ∀ sender didHash, a ≠ .deactivateDID sender didHash) : RegistryChange w a w.didRegistry

/-- What can have become of `MetaTxRelay`. -/
def MetaTxChange (D : Deployment) (w : World) (a : Action) (R : MetaTxRelay) : Prop :=
  (R = w.metaTxRelay ∧
      ∀ sender dataHash didHash sig result, a ≠ .submitTransaction sender dataHash didHash sig result) ∨
    ∃ sender dataHash didHash sig result, a = .submitTransaction sender dataHash didHash sig result ∧
      w.metaTxRelay.submitTransaction D.toEvm (w.env sender 0) dataHash didHash sig result = .ok R

/-- Each contract changes by its own functions only. -/
theorem World.step_contracts (hs : w.step D a = .ok w') :
    RegistryChange w a w'.didRegistry ∧ MetaTxChange D w a w'.metaTxRelay := by
  cases a with
  | registerDID sender did key =>
    simp only [World.step, bind_eq_ok, pure_eq_ok] at hs
    obtain ⟨_, hok, rfl⟩ := hs
    exact ⟨.register hok, .inl ⟨rfl, by simp⟩⟩
  | deactivateDID sender did =>
    simp only [World.step, bind_eq_ok, pure_eq_ok] at hs
    obtain ⟨_, hok, rfl⟩ := hs
    exact ⟨.deactivate hok, .inl ⟨rfl, by simp⟩⟩
  | submitTransaction sender dataHash did sig result =>
    simp only [World.step, bind_eq_ok, pure_eq_ok] at hs
    obtain ⟨_, hsubmit, rfl⟩ := hs
    exact ⟨.keep (by simp) (by simp), .inr ⟨_, _, _, _, _, rfl, hsubmit⟩⟩
  | tick | call =>
    simp only [World.step, bind_eq_ok, pure_eq_ok] at hs
    obtain ⟨_, -, rfl⟩ := hs
    exact ⟨.keep (by simp) (by simp), .inl ⟨rfl, by simp⟩⟩
  | withdraw sender =>
    simp only [World.step, bind_eq_ok, pure_eq_ok] at hs
    obtain ⟨_, -, _, -, rfl⟩ := hs
    exact ⟨.keep (by simp) (by simp), .inl ⟨rfl, by simp⟩⟩
  | withdrawReturn =>
    simp only [World.step] at hs
    split at hs
    · cases hs
    · obtain rfl := Except.ok.inj hs
      exact ⟨.keep (by simp) (by simp), .inl ⟨rfl, by simp⟩⟩
  | forceFeed amount =>
    obtain rfl := Except.ok.inj hs
    exact ⟨.keep (by simp) (by simp), .inl ⟨rfl, by simp⟩⟩

theorem RegistryChange.evolves {R : DIDRegistry} (h : RegistryChange w a R) : w.didRegistry.Evolves R := by
  cases h with
  | register hok => exact .of_registerDID hok
  | deactivate hok => exact .of_deactivateDID hok
  | keep => exact .refl _

theorem RegistryChange.registered {sender : Address} {key : List Byte} {R : DIDRegistry}
    (h : RegistryChange w (.registerDID sender didHash key) R) : R.dids didHash = ⟨sender, key, w.now, true⟩ := by
  cases h with
  | register hok =>
    obtain ⟨-, -, rfl⟩ := DIDRegistry.registerDID_ok hok
    exact Function.update_self ..
  | keep hreg => exact absurd rfl (hreg _ _ _)

/-- Only its owner deactivates a DID. -/
theorem RegistryChange.deactivated {R : DIDRegistry} (h : RegistryChange w a R)
    (hactive : w.didRegistry.isActive didHash) (hgone : ¬ R.isActive didHash) :
    a = .deactivateDID (w.didRegistry.dids didHash).owner didHash := by
  cases h with
  | register hok =>
    rw [DIDRegistry.isActive_congr (DIDRegistry.registerDID_kept hok (DIDRegistry.isActive_iff.1 hactive).1)] at hgone
    exact absurd hactive hgone
  | @deactivate sender did _ hok =>
    by_cases hdid : didHash = did
    · rw [hdid, (DIDRegistry.deactivateDID_ok hok).1]
    · rw [DIDRegistry.isActive_congr (DIDRegistry.deactivateDID_other hok hdid)] at hgone
      exact absurd hactive hgone
  | keep => exact absurd hactive hgone

theorem World.Reachable.registered_of_active (hw : w.Reachable D) (didHash : Bytes32)
    (h : (w.didRegistry.dids didHash).active) : w.didRegistry.Registered didHash := by
  refine World.Reachable.invariant (P := fun w => ∀ did, (w.didRegistry.dids did).active →
    w.didRegistry.Registered did) (fun _ _ did hactive => by cases hactive) ?_ hw didHash h
  rintro u u' hu ih ⟨a, hs⟩ did hactive
  have hchange := (World.step_contracts hs).1
  generalize u'.didRegistry = R at hchange hactive
  have hevolves := hchange.evolves
  by_cases hold : (u.didRegistry.dids did).active
  · exact hevolves.registered (ih did hold)
  · cases hchange with
    | @register sender did' key _ hok =>
      by_cases hdid : did = did'
      · rw [DIDRegistry.Registered, hdid, (RegistryChange.register hok).registered]
        exact hu.now_pos.ne'
      · obtain ⟨-, -, rfl⟩ := DIDRegistry.registerDID_ok hok
        dsimp only at hactive
        rw [Function.update_of_ne hdid] at hactive
        exact absurd hactive hold
    | @deactivate sender did' _ hok =>
      by_cases hdid : did = did'
      · obtain ⟨-, -, rfl⟩ := DIDRegistry.deactivateDID_ok hok
        dsimp only at hactive
        rw [hdid, Function.update_self] at hactive
        cases hactive
      · rw [DIDRegistry.deactivateDID_other hok hdid] at hactive
        exact absurd hactive hold
    | keep => exact absurd hactive hold

/-- The DID that a call deactivates is its caller's, and inactive after it. -/
theorem RegistryChange.gone {sender : Address} {R : DIDRegistry}
    (h : RegistryChange w (.deactivateDID sender didHash) R) :
    (w.didRegistry.dids didHash).owner = sender ∧ (w.didRegistry.dids didHash).active ∧ ¬ R.isActive didHash := by
  cases h with
  | deactivate hok =>
    obtain ⟨howner, hactive, rfl⟩ := DIDRegistry.deactivateDID_ok hok
    refine ⟨howner, hactive, ?_⟩
    rw [DIDRegistry.isActive_iff]
    dsimp only
    rw [Function.update_self]
    exact fun hlive => by cases hlive.2
  | keep _ hgone => exact absurd rfl (hgone _ _)

/-! ## The keys that are held -/

/-- The key hash `k` is that of the key that the registry has for `didHash`. -/
def KeyOf (D : Deployment) (R : DIDRegistry) (didHash k : Bytes32) : Prop :=
  R.Registered didHash ∧ k = D.keccak256 (R.dids didHash).publicKey

theorem KeyOf.evolves {R R' : DIDRegistry} {k : Bytes32} (h : KeyOf D R didHash k) (hR : R.Evolves R') :
    KeyOf D R' didHash k :=
  ⟨hR.registered h.1, by rw [h.2, hR.publicKey h.1]⟩

theorem KeyOf.of_isActive {R : DIDRegistry} (h : R.isActive didHash) :
    KeyOf D R didHash (D.keccak256 (R.dids didHash).publicKey) :=
  ⟨(DIDRegistry.isActive_iff.1 h).1, rfl⟩

/-- Every key is a Falcon-512 key, and the relays hold the hashes of the keys that the registry has. -/
structure KeysHeld (D : Deployment) (w : World) : Prop where
  size : w.didRegistry.Sized
  transactions : ∀ t ∈ w.metaTxRelay.transactions, KeyOf D w.didRegistry t.didHash t.pubKeyHash
  records : ∀ r ∈ w.relay.court.records, KeyOf D w.didRegistry r.didHash r.pubKeyHash

theorem KeysHeld.init (now : ℕ) : KeysHeld D (World.init now) where
  size := fun _ h => absurd rfl h
  transactions := fun t h => by cases h
  records := fun r h => by cases h

theorem KeysHeld.step (h : KeysHeld D w) (hw : w.Reachable D) (hs : w.step D a = .ok w') : KeysHeld D w' := by
  have hchange := (World.step_contracts hs).1
  have hevolves := hchange.evolves
  constructor
  · generalize w'.didRegistry = R at hchange
    cases hchange with
    | register hok => exact h.size.registerDID hok
    | deactivate hok => exact h.size.deactivateDID hok
    | keep => exact h.size
  · intro t ht
    rcases (World.step_contracts hs).2 with ⟨hsame, -⟩ | ⟨sender, _, did, _, _, -, hsubmit⟩
    · rw [hsame] at ht
      exact (h.transactions t ht).evolves hevolves
    · obtain ⟨-, hactive, -, hfiled⟩ := MetaTxRelay.submitTransaction_ok hsubmit
      rw [hfiled] at ht
      rcases List.mem_append.1 ht with ht | ht
      · exact (h.transactions t ht).evolves hevolves
      · rw [List.mem_singleton.1 ht]
        exact (KeyOf.of_isActive hactive).evolves hevolves
  · intro r' hr'
    refine KeyOf.evolves ?_ hevolves
    rcases hw.record_was ⟨a, hs⟩ hr' with ⟨r, hr, st, rfl⟩ | ⟨_, _, _, did, _, _, he, -, rfl⟩
    · exact h.records r hr
    · exact KeyOf.of_isActive (he.active (List.mem_singleton_self did))

theorem World.Reachable.keysHeld (hw : w.Reachable D) : KeysHeld D w := by
  refine World.Reachable.invariant (P := KeysHeld D) (fun now _ => .init now) ?_ hw
  rintro w w' hw h ⟨a, hs⟩
  exact h.step hw hs

/-! ## Every interleaving -/

/-- What the accepted actions `l`, made from `u` on, have led to in `w`. -/
structure RegistryKept (D : Deployment) (u : World) (l : List (World × Action)) (w : World) : Prop where
  /-- The documents of `u` are there as they were, but that some have been deactivated. -/
  evolves : u.didRegistry.Evolves w.didRegistry
  registered : ∀ v sender didHash key, (v, .registerDID sender didHash key) ∈ l → w.didRegistry.Registered didHash ∧
    ∃ active, w.didRegistry.dids didHash = ⟨sender, key, v.now, active⟩
  deactivated : ∀ didHash, u.didRegistry.isActive didHash → ¬ w.didRegistry.isActive didHash →
    ∃ v, (v, .deactivateDID (u.didRegistry.dids didHash).owner didHash) ∈ l
  /-- A DID that a call has deactivated was its caller's, and stays inactive. -/
  gone : ∀ v sender didHash, (v, .deactivateDID sender didHash) ∈ l →
    (v.didRegistry.dids didHash).owner = sender ∧ w.didRegistry.Registered didHash ∧ ¬ w.didRegistry.isActive didHash
  /-- Nothing is accepted for it after the call. -/
  closed : ∀ before v sender didHash after, l = before ++ (v, .deactivateDID sender didHash) :: after →
    ∀ p ∈ after, didHash ∉ p.2.dids
  /-- Every DID that has been submitted for was active at the time. -/
  active : ∀ p ∈ l, ∀ didHash ∈ p.2.dids, p.1.didRegistry.isActive didHash
  revoked : ∀ didHash, u.didRegistry.Registered didHash → ¬ u.didRegistry.isActive didHash →
    ∀ p ∈ l, didHash ∉ p.2.dids
  /-- What is stored was submitted in these actions or is there from `u` on. -/
  transactions : w.metaTxRelay.transactions.map (·.didHash) =
    u.metaTxRelay.transactions.map (·.didHash) ++ l.flatMap (·.2.submittedDids)
  filings : w.relay.filings.map Prod.fst = u.relay.filings.map Prod.fst ++ filedDids l

theorem RegistryKept.refl (u : World) : RegistryKept D u [] u where
  evolves := .refl _
  registered := by simp
  deactivated := fun _ h hgone => absurd h hgone
  gone := by simp
  closed := by simp
  active := by simp
  revoked := by simp
  transactions := by simp
  filings := by simp [filedDids]

theorem RegistryKept.deactivated_step (h : RegistryKept D u l w) (hs : w.step D a = .ok w')
    (hlive : u.didRegistry.isActive didHash) (hgone : ¬ w'.didRegistry.isActive didHash) :
    ∃ v, (v, .deactivateDID (u.didRegistry.dids didHash).owner didHash) ∈ l ++ [(w, a)] := by
  by_cases hmid : w.didRegistry.isActive didHash
  · have ha := (World.step_contracts hs).1.deactivated hmid hgone
    rw [(h.evolves didHash (DIDRegistry.isActive_iff.1 hlive).1).1] at ha
    exact ⟨w, List.mem_append_right _ (List.mem_singleton.2 (ha ▸ rfl))⟩
  · obtain ⟨v, hv⟩ := h.deactivated didHash hlive hmid
    exact ⟨v, List.mem_append_left _ hv⟩

theorem RegistryKept.gone_step (h : RegistryKept D u l w) (hw : w.Reachable D) (hs : w.step D a = .ok w') {v : World}
    {sender : Address} (hmem : (v, .deactivateDID sender didHash) ∈ l ++ [(w, a)]) :
    (v.didRegistry.dids didHash).owner = sender ∧ w'.didRegistry.Registered didHash ∧
      ¬ w'.didRegistry.isActive didHash := by
  have hchange := (World.step_contracts hs).1
  rcases List.mem_append.1 hmem with hmem | hmem
  · obtain ⟨howner, hreg, hdead⟩ := h.gone v sender didHash hmem
    refine ⟨howner, hchange.evolves.registered hreg, fun hlive => hdead ?_⟩
    exact DIDRegistry.isActive_iff.2 ⟨hreg, (hchange.evolves didHash hreg).2 (DIDRegistry.isActive_iff.1 hlive).2⟩
  · obtain ⟨rfl, rfl⟩ := Prod.mk.inj (List.mem_singleton.1 hmem)
    obtain ⟨howner, hlive, hdead⟩ := hchange.gone
    exact ⟨howner, hchange.evolves.registered (hw.registered_of_active didHash hlive), hdead⟩

theorem RegistryKept.closed_step (h : RegistryKept D u l w) (hs : w.step D a = .ok w')
    {before after : List (World × Action)} {v : World} {sender : Address}
    (hl : l ++ [(w, a)] = before ++ (v, .deactivateDID sender didHash) :: after) :
    ∀ p ∈ after, didHash ∉ p.2.dids := by
  intro p hp hdid
  rcases List.eq_nil_or_concat after with rfl | ⟨after, q, rfl⟩
  · cases hp
  · rw [List.concat_eq_append, ← List.cons_append, ← List.append_assoc] at hl
    obtain ⟨rfl, rfl⟩ := List.append_singleton_inj.1 hl
    rw [List.concat_eq_append] at hp
    rcases List.mem_append.1 hp with hp | hp
    · exact h.closed before v sender didHash after rfl p hp hdid
    · -- the DID is active when something is accepted for it, and it is not
      rw [List.mem_singleton.1 hp] at hdid
      have hmem : (v, Action.deactivateDID sender didHash) ∈ before ++ (v, .deactivateDID sender didHash) :: after := by
        simp
      exact (h.gone v sender didHash hmem).2.2 (World.step_active hs hdid)

theorem RegistryKept.transactions_step (h : RegistryKept D u l w) (hs : w.step D a = .ok w') :
    w'.metaTxRelay.transactions.map (·.didHash) =
      u.metaTxRelay.transactions.map (·.didHash) ++ (l ++ [(w, a)]).flatMap (·.2.submittedDids) := by
  rw [List.flatMap_append, List.flatMap_singleton, ← List.append_assoc, ← h.transactions]
  rcases (World.step_contracts hs).2 with ⟨hsame, hother⟩ | ⟨_, _, _, _, _, rfl, hsubmit⟩
  · have hdids : a.submittedDids = [] := by
      cases a with
      | submitTransaction => exact absurd rfl (hother _ _ _ _ _)
      | _ => rfl
    rw [hsame, hdids, List.append_nil]
  · rw [(MetaTxRelay.submitTransaction_ok hsubmit).2.2.2]
    exact List.map_append

theorem RegistryKept.step (h : RegistryKept D u l w) (hw : w.Reachable D) (hs : w.step D a = .ok w') :
    RegistryKept D u (l ++ [(w, a)]) w' := by
  have hchange := (World.step_contracts hs).1
  have hactive : ∀ did ∈ a.dids, w.didRegistry.isActive did := fun did hdid => World.step_active hs hdid
  constructor
  · exact h.evolves.trans hchange.evolves
  · intro v sender did key hmem
    rcases List.mem_append.1 hmem with hmem | hmem
    · obtain ⟨hreg, active, hdoc⟩ := h.registered v sender did key hmem
      refine ⟨hchange.evolves.registered hreg, (w'.didRegistry.dids did).active, ?_⟩
      rw [(hchange.evolves did hreg).1, hdoc]
    · obtain ⟨rfl, rfl⟩ := Prod.mk.inj (List.mem_singleton.1 hmem)
      have hdoc := hchange.registered
      refine ⟨?_, true, hdoc⟩
      rw [DIDRegistry.Registered, hdoc]
      exact hw.now_pos.ne'
  · exact fun _ hlive hgone => h.deactivated_step hs hlive hgone
  · exact fun _ _ _ hmem => h.gone_step hw hs hmem
  · exact fun _ _ _ _ _ hl => h.closed_step hs hl
  · intro p hp
    rcases List.mem_append.1 hp with hp | hp
    · exact h.active p hp
    · rw [List.mem_singleton.1 hp]
      exact hactive
  · intro did hreg hdead p hp hdid
    rcases List.mem_append.1 hp with hp | hp
    · exact h.revoked did hreg hdead p hp hdid
    · rw [List.mem_singleton.1 hp] at hdid
      have hlive := (DIDRegistry.isActive_iff.1 (hactive did hdid)).2
      exact hdead (DIDRegistry.isActive_iff.2 ⟨hreg, (h.evolves did hreg).2 hlive⟩)
  · exact h.transactions_step hs
  · rw [(World.step_filings hs).1, List.map_append, map_fst_number, h.filings, filedDids_concat, List.append_assoc]

/-- **Every interleaving keeps the registry and the relays consistent.** -/
theorem registry_consistency (hu : u.Reachable D) (as : List Action) :
    KeysHeld D u ∧ RegistryKept D u (World.accepted D as u) (World.attempts D as u) := by
  refine ⟨hu.keysHeld, World.attempts_invariant (P := RegistryKept D u) hu (.refl u) ?_ as⟩
  intro l w a w' hw h hs
  exact h.step hw hs

/-- The owner deactivates the DID between submissions to both relays, and someone else tries to register it again. -/
def Toy.revocation : List Action := [
  .submitTransaction 8 Toy.did Toy.did [1] true,
  .call 2 0 (.submitAccountable Toy.did Toy.did [4]),
  .deactivateDID 1 Toy.did,
  .submitTransaction 8 Toy.did Toy.did [2] true,
  .call 2 0 (.submitAccountable Toy.did Toy.did [5]),
  .registerDID 8 Toy.did (List.replicate 897 4)]

theorem registry_consistency_toy :
    (World.accepted (Deployment.toy 2) Toy.revocation Toy.world).map (·.2.dids) = [[Toy.did], [Toy.did], []] ∧
      KeysHeld (Deployment.toy 2) Toy.world ∧
      RegistryKept (Deployment.toy 2) Toy.world (World.accepted (Deployment.toy 2) Toy.revocation Toy.world)
        (World.attempts (Deployment.toy 2) Toy.revocation Toy.world) :=
  ⟨by decide +kernel, registry_consistency Toy.world_reachable Toy.revocation⟩

end PqIotAuth
