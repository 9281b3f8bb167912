import PqIotAuth.Evaluation
import PqIotAuth.Filings
import PqIotAuth.HardhatBackend
import PqIotAuth.Registry

/-!
# The books of the client

Whatever the calls of `HardhatBackend` do at the same time, and whatever others do with the contracts, no transaction is
lost or booked twice: once all calls have returned or raised, the books hold exactly what has been mined for them
(`books_balance`), and every call can always go on until then (`calls_end`). Only the block number is not safe: it is
computed and stored in two steps, so a later block can be overwritten by an earlier one (`block_number_lost`).

A DID counts as registered where the client has registered it. So a DID that somebody else registers first is lost to
the client (`frontrun_lost`).
-/

namespace PqIotAuth.Hardhat

open Lib

variable {D : Deployment} {N : Node} {n n' : Client} {s s' : Shared} {t t' : Task} {i : ℕ}

/-! ## What a turn does -/

/-- The receipt of a transaction that is not in `_tx_order` yet. -/
def Phase.receipt : Phase → Option Receipt
  | .ready | .ensured => none
  | .mined r | .maxed r _ | .counted r | .stored r => some r

/-- The receipt of a transaction that is not in `_transactions` yet. -/
def Phase.unrecorded : Phase → Option Receipt
  | .ready | .ensured | .stored _ => none
  | .mined r | .maxed r _ | .counted r => some r

/-- What a turn of the call `i` can do. -/
inductive Turn (D : Deployment) (N : Node) (i : ℕ) (s : Shared) (t : Task) (job : Job) : Shared → Task → Prop
  | ensured (hphase : t.phase = .ready) {s' : Shared} (hs : job.ensure D N s = .ok s') :
      Turn D N i s t job s' { t with phase := .ensured }
  | refused {e : Exn} (hphase : t.phase = .ready ∧ job.ensure D N s = .error e ∨
      t.phase = .ensured ∧ job.transact D N s.chain = .error e) : Turn D N i s t job s { t with raised := some e }
  | mined (hphase : t.phase = .ensured) {chain : Chain} (hs : job.transact D N s.chain = .ok chain) :
      Turn D N i s t job { s with chain, history := s.history ++ [⟨i, job, N.receipt s.chain.mined⟩] }
        { t with phase := .mined (N.receipt s.chain.mined) }
  | maxed {r : Receipt} (hphase : t.phase = .mined r) :
      Turn D N i s t job s { t with phase := .maxed r (max s.backend.blockNumber r.blockNumber) }
  | counted {r : Receipt} {blockNumber : ℕ} (hphase : t.phase = .maxed r blockNumber) :
      Turn D N i s t job { s with backend := { s.backend with blockNumber } } { t with phase := .counted r }
  | stored {r : Receipt} (hphase : t.phase = .counted r) :
      Turn D N i s t job
        { s with backend := { s.backend with
          transactions := Function.update s.backend.transactions r.transactionHash (some (job.info r)) } }
        { t with phase := .stored r }
  | listed {r : Receipt} (hphase : t.phase = .stored r) :
      Turn D N i s t job
        { s with backend := { s.backend with txOrder := s.backend.txOrder ++ [r.transactionHash] } }
        { t with phase := .ready, txIds := t.txIds ++ [r.transactionHash] }

theorem Task.turn_cases (h : t.turn D N i s = some (s', t')) :
    t.raised = none ∧ ∃ job, t.job = some job ∧ Turn D N i s t job s' t' := by
  unfold Task.turn at h
  split at h
  · rename_i job hraised hjob
    refine ⟨hraised, job, hjob, ?_⟩
    split at h
    · rename_i hphase
      split at h
      · rename_i s hs
        cases h
        exact .ensured hphase hs
      · rename_i e he
        cases h
        exact .refused (.inl ⟨hphase, he⟩)
    · rename_i hphase
      split at h
      · rename_i chain hs
        cases h
        exact .mined hphase hs
      · rename_i e he
        cases h
        exact .refused (.inr ⟨hphase, he⟩)
    · rename_i r hphase
      cases h
      exact .maxed hphase
    · rename_i r blockNumber hphase
      cases h
      exact .counted hphase
    · rename_i r hphase
      cases h
      exact .stored hphase
    · rename_i r hphase
      cases h
      exact .listed hphase
  · cases h

/-- A call that has not returned and not raised has a turn. -/
theorem Task.turn_isSome {job : Job} (hraised : t.raised = none) (hjob : t.job = some job) :
    ∃ p, t.turn D N i s = some p := by
  unfold Task.turn
  rw [hraised, hjob]
  dsimp only
  split
  · split <;> exact ⟨_, rfl⟩
  · split <;> exact ⟨_, rfl⟩
  all_goals exact ⟨_, rfl⟩

theorem raised_eq_ok {α : Type} {x : Except Error α} {a : α} : raised x = .ok a ↔ x = .ok a := by
  cases x <;> simp [raised]

/-- A registration that was needed was made; one that was not changes nothing. -/
theorem ensureDidRegistered_ok {did : Bytes32} {key : List Byte} (h : ensureDidRegistered D N did key s = .ok s') :
    (s.backend.registeredDids did = true ∧ s' = s) ∨
      ∃ w, s.chain.world.step D (.registerDID N.owner did key) = .ok w ∧ s' = { s with
        chain := { s.chain with world := w, mined := s.chain.mined + 1 }
        backend := { s.backend with registeredDids := Function.update s.backend.registeredDids did true } } := by
  unfold ensureDidRegistered at h
  split at h
  · rename_i hreg
    cases h
    exact .inl ⟨hreg, rfl⟩
  · simp only [bind_eq_ok, raised_eq_ok, pure_eq_ok] at h
    obtain ⟨w, hw, rfl⟩ := h
    exact .inr ⟨w, hw, rfl⟩

/-! ## What the contracts get -/

/-- What a job leaves in `MetaTxRelay`. -/
def Job.content (N : Node) : Job → Option (Bytes32 × Bytes32 × List Byte × Bool)
  | .relayed m => some (m.data N, m.did N, m.signature, m.didActive)
  | .direct _ => none

def content (t : VerifiedTransaction) : Bytes32 × Bytes32 × List Byte × Bool :=
  (t.dataHash, t.didHash, t.falconSignature, t.verified)

/-- What a job leaves in the events of `ECDSAVerify`. -/
def Job.event (D : Deployment) (N : Node) : Job → Option VerifyEvent
  | .relayed _ => none
  | .direct t =>
    match t.dataBytes with
    | .error _ => none
    | .ok data =>
      let dataHash := D.keccak256 data
      let (v, r, s) := N.signHash dataHash (N.sha256 (encodeUtf8 t.sender))
      let signer := D.ecrecover dataHash v r s
      some (if t.storeSignature then .dataVerifiedWithSig dataHash signer else .dataVerified dataHash signer)

/-- `c'` is a later state of the contracts, and they hold `contents` and `events` more than in `c`. -/
structure Holds (D : Deployment) (c c' : Chain) (contents : List (Bytes32 × Bytes32 × List Byte × Bool))
    (events : List VerifyEvent) : Prop where
  world : Reaches (World.Step D) c.world c'.world
  verify : Reaches (ECDSAVerify.Step D.toEvm) c.ecdsaVerify c'.ecdsaVerify
  contents : c'.world.metaTxRelay.transactions.map content = c.world.metaTxRelay.transactions.map content ++ contents
  events : c'.ecdsaVerify.logs = c.ecdsaVerify.logs ++ events

theorem metaTx_grows {w w' : World} (h : Reaches (World.Step D) w w') :
    ∃ l, w'.metaTxRelay.transactions = w.metaTxRelay.transactions ++ l := by
  induction h with
  | refl => exact ⟨[], (List.append_nil _).symm⟩
  | tail _ hs ih =>
    obtain ⟨l, hl⟩ := ih
    obtain ⟨a, hs⟩ := hs
    rcases (World.step_contracts hs).2 with ⟨hkeep, -⟩ | ⟨sender, dataHash, didHash, sig, result, -, hok⟩
    · exact ⟨l, by rw [hkeep, hl]⟩
    · obtain ⟨-, -, -, hfiled⟩ := MetaTxRelay.submitTransaction_ok hok
      exact ⟨l ++ [_], by rw [hfiled, MetaTxRelay.filed, hl, List.append_assoc]⟩

theorem registry_evolves {w w' : World} (h : Reaches (World.Step D) w w') :
    w.didRegistry.Evolves w'.didRegistry := by
  induction h with
  | refl => exact .refl _
  | tail _ hs ih =>
    obtain ⟨a, hs⟩ := hs
    exact ih.trans (World.step_contracts hs).1.evolves

theorem exec_grows {C C' : ECDSAVerify} {c : VerifyCall} (h : C.exec D.toEvm c = .ok C') :
    ∃ e, C'.logs = C.logs ++ [e] := by
  cases c with
  | setSignerVerification | registerSigner =>
    cases h
    exact ⟨_, rfl⟩
  | submitAndVerify =>
    obtain ⟨-, rfl⟩ := ECDSAVerify.submitAndVerify_ok.1 h
    exact ⟨_, rfl⟩
  | submitVerifyAndStore =>
    obtain ⟨-, rfl⟩ := ECDSAVerify.submitVerifyAndStore_ok.1 h
    exact ⟨_, rfl⟩

theorem verify_grows {C C' : ECDSAVerify} (h : Reaches (ECDSAVerify.Step D.toEvm) C C') :
    ∃ l, C'.logs = C.logs ++ l := by
  induction h with
  | refl => exact ⟨[], (List.append_nil _).symm⟩
  | tail _ hs ih =>
    obtain ⟨l, hl⟩ := ih
    obtain ⟨c, hs⟩ := hs
    obtain ⟨e, he⟩ := exec_grows hs
    exact ⟨l ++ [e], by rw [he, hl, List.append_assoc]⟩

/-- A job that is transacted leaves its content or its event, and one more transaction mined. -/
theorem Job.transact_ok {job : Job} {c c' : Chain} (h : job.transact D N c = .ok c') :
    Holds D c c' (job.content N).toList (job.event D N).toList ∧ c'.mined = c.mined + 1 := by
  cases job with
  | relayed m =>
    simp only [Job.transact, bind_eq_ok, raised_eq_ok, pure_eq_ok] at h
    obtain ⟨w, hw, rfl⟩ := h
    refine ⟨⟨.single ⟨_, hw⟩, .refl, ?_, (List.append_nil _).symm⟩, rfl⟩
    rcases (World.step_contracts hw).2 with ⟨-, hne⟩ | ⟨sender, dataHash, didHash, sig, result, ha, hok⟩
    · exact absurd rfl (hne _ _ _ _ _)
    · cases ha
      obtain ⟨-, -, -, hfiled⟩ := MetaTxRelay.submitTransaction_ok hok
      dsimp only
      rw [hfiled, MetaTxRelay.filed, List.map_append]
      rfl
  | direct t =>
    simp only [Job.transact, bind_eq_ok, raised_eq_ok, pure_eq_ok] at h
    obtain ⟨data, hdata, C, hC, rfl⟩ := h
    refine ⟨⟨.refl, .single ⟨_, hC⟩, (List.append_nil _).symm, ?_⟩, rfl⟩
    simp only [Job.event, hdata, Option.toList_some]
    split at hC
    · rename_i hstore
      obtain ⟨-, rfl⟩ := ECDSAVerify.submitVerifyAndStore_ok.1 hC
      rw [if_pos hstore]
    · rename_i hstore
      obtain ⟨-, rfl⟩ := ECDSAVerify.submitAndVerify_ok.1 hC
      rw [if_neg hstore]

/-! ## What holds of the contracts in every run -/

def Mined.hash (m : Mined) : String := m.receipt.transactionHash

/-- The client owns the DIDs that it counts as registered, and the contracts hold what has been mined for it. -/
structure Deposited (D : Deployment) (N : Node) (s : Shared) : Prop where
  world : s.chain.world.Reachable D
  owned : ∀ did, s.backend.registeredDids did = true → s.chain.world.didRegistry.Registered did ∧
    (s.chain.world.didRegistry.dids did).owner = N.owner
  relayed : ∀ m ∈ s.history, ∀ x, m.job = .relayed x → s.backend.registeredDids (x.did N) = true
  contents : (s.history.filterMap fun m => m.job.content N).Sublist
    (s.chain.world.metaTxRelay.transactions.map content)
  events : (s.history.filterMap fun m => m.job.event D N).Sublist s.chain.ecdsaVerify.logs
  receipts : ∀ m ∈ s.history, ∃ k < s.chain.mined, m.receipt = N.receipt k
  nodup : (s.history.map Mined.hash).Nodup

namespace Deposited

theorem init {now : ℕ} (hnow : 0 < now) : Deposited D N (Client.init now).toShared where
  world := .start ⟨now, hnow, rfl⟩
  owned := fun did h => by cases h
  relayed := fun m hm => by cases hm
  contents := .slnil
  events := .slnil
  receipts := fun m hm => by cases hm
  nodup := .nil

/-- The contracts go on, for whomever. -/
theorem others (h : Deposited D N s) {c : Chain} (hworld : Reaches (World.Step D) s.chain.world c.world)
    (hverify : Reaches (ECDSAVerify.Step D.toEvm) s.chain.ecdsaVerify c.ecdsaVerify)
    (hmined : s.chain.mined ≤ c.mined) :
    Deposited D N { s with chain := c } where
  world := h.world.trans hworld
  owned := fun did hdid => by
    obtain ⟨hreg, howner⟩ := h.owned did hdid
    have hevolves := registry_evolves hworld
    exact ⟨hevolves.registered hreg, by rw [(hevolves did hreg).1]; exact howner⟩
  relayed := h.relayed
  contents := by
    obtain ⟨l, hl⟩ := metaTx_grows hworld
    dsimp only
    rw [hl, List.map_append]
    exact h.contents.trans (List.sublist_append_left _ _)
  events := by
    obtain ⟨l, hl⟩ := verify_grows hverify
    dsimp only
    rw [hl]
    exact h.events.trans (List.sublist_append_left _ _)
  receipts := fun m hm => by
    obtain ⟨k, hk, hr⟩ := h.receipts m hm
    exact ⟨k, hk.trans_le hmined, hr⟩
  nodup := h.nodup

theorem ensured (h : Deposited D N s) {did : Bytes32} {key : List Byte}
    (hs : ensureDidRegistered D N did key s = .ok s') :
    Deposited D N s' ∧ s'.backend.registeredDids did = true := by
  rcases ensureDidRegistered_ok hs with ⟨hreg, rfl⟩ | ⟨w, hw, rfl⟩
  · exact ⟨h, hreg⟩
  · have hlater := h.others (c := { s.chain with world := w, mined := s.chain.mined + 1 }) (.single ⟨_, hw⟩) .refl
      (Nat.le_succ _)
    have hdoc := (World.step_contracts hw).1.registered
    refine ⟨{ hlater with owned := fun d hd => ?_, relayed := fun m hm x hx => ?_ }, Function.update_self ..⟩
    · dsimp only at hd ⊢
      by_cases hdid : d = did
      · subst hdid
        rw [DIDRegistry.Registered, hdoc]
        exact ⟨h.world.now_pos.ne', rfl⟩
      · rw [Function.update_of_ne hdid] at hd
        exact hlater.owned d hd
    · dsimp only
      by_cases hdid : x.did N = did
      · rw [hdid, Function.update_self]
      · rw [Function.update_of_ne hdid]
        exact h.relayed m hm x hx

theorem mined (h : Deposited D N s) {job : Job} {chain : Chain} (hs : job.transact D N s.chain = .ok chain)
    (hjob : ∀ x, job = .relayed x → s.backend.registeredDids (x.did N) = true) (i : ℕ) :
    Deposited D N { s with chain, history := s.history ++ [⟨i, job, N.receipt s.chain.mined⟩] } := by
  obtain ⟨hholds, hmined⟩ := Job.transact_ok hs
  have hlater := h.others hholds.world hholds.verify (by omega)
  refine ⟨hlater.world, hlater.owned, fun m hm x hx => ?_, ?_, ?_, fun m hm => ?_, ?_⟩
  · rcases List.mem_append.1 hm with hm | hm
    · exact h.relayed m hm x hx
    · obtain rfl := List.mem_singleton.1 hm
      exact hjob x hx
  · dsimp only
    rw [hholds.contents, List.filterMap_append]
    refine h.contents.append ?_
    cases hc : job.content N <;> simp [hc]
  · dsimp only
    rw [hholds.events, List.filterMap_append]
    refine h.events.append ?_
    cases he : job.event D N <;> simp [he]
  · rcases List.mem_append.1 hm with hm | hm
    · exact hlater.receipts m hm
    · obtain rfl := List.mem_singleton.1 hm
      exact ⟨s.chain.mined, by dsimp only; omega, rfl⟩
  · -- the receipt is a new one
    dsimp only
    rw [List.map_append, List.nodup_append]
    refine ⟨h.nodup, List.nodup_singleton _, fun a ha b hb => ?_⟩
    obtain ⟨m, hm, rfl⟩ := List.mem_map.1 ha
    obtain rfl := List.mem_singleton.1 hb
    obtain ⟨k, hk, hr⟩ := h.receipts m hm
    rw [Mined.hash, hr]
    exact fun heq => hk.ne (N.hash_injective heq)

end Deposited

/-! ## What holds of the books in every run -/

/-- The entry that is due for a transaction. -/
def Mined.info (m : Mined) : TransactionInfo := m.job.info m.receipt

/-- What has been mined for the call `i`. -/
def own (i : ℕ) (history : List Mined) : List Mined := history.filter fun m => m.task = i

/-- The id that the call has yet to put in `_tx_order`. -/
def Task.pending (t : Task) : Option String := t.phase.receipt.map (·.transactionHash)

/-- The books of the call `i`. -/
structure Task.Booked (N : Node) (i : ℕ) (t : Task) (s : Shared) : Prop where
  jobs : (own i s.history).map (·.job) = t.jobs.take (t.txIds.length + t.pending.toList.length)
  ids : (own i s.history).map Mined.hash = t.txIds ++ t.pending.toList
  current : ∀ r, t.phase.receipt = some r → ∃ m ∈ s.history, m.task = i ∧ m.receipt = r ∧ t.job = some m.job
  ensured : t.phase = .ensured → ∀ x, t.job = some (.relayed x) → s.backend.registeredDids (x.did N) = true
  raised : t.raised.isSome → t.phase.receipt = none
  maxed : ∀ r blockNumber, t.phase = .maxed r blockNumber → ∃ m ∈ s.history, m.receipt.blockNumber = blockNumber

/-- The books of all calls. -/
structure Client.Booked (N : Node) (n : Client) : Prop where
  tasks : ∀ (i : ℕ) (t : Task), n.tasks[i]? = some t → t.Booked N i n.toShared
  begun : ∀ m ∈ n.history, m.task < n.tasks.length
  order : ∀ id, n.backend.txOrder.count id + n.tasks.countP (fun t => decide (t.pending = some id)) =
    (n.history.map Mined.hash).count id
  entries : ∀ id info, n.backend.transactions id = some info → ∃ m ∈ n.history, m.hash = id ∧ m.info = info
  recorded : ∀ m ∈ n.history, n.backend.transactions m.hash = some m.info ∨
    ∃ t, n.tasks[m.task]? = some t ∧ t.phase.unrecorded = some m.receipt
  block : n.backend.blockNumber = 0 ∨ ∃ m ∈ n.history, m.receipt.blockNumber = n.backend.blockNumber

theorem own_append_self (i : ℕ) (history : List Mined) (job : Job) (r : Receipt) :
    own i (history ++ [⟨i, job, r⟩]) = own i history ++ [⟨i, job, r⟩] := by
  simp [own]

theorem own_append_of_ne {i j : ℕ} (h : j ≠ i) (history : List Mined) (job : Job) (r : Receipt) :
    own j (history ++ [⟨i, job, r⟩]) = own j history := by
  simp [own, Ne.symm h]

/-- The books of a call that does nothing. -/
theorem Task.Booked.idle (h : t.Booked N i s) (hown : own i s'.history = own i s.history)
    (hhistory : ∀ m ∈ s.history, m ∈ s'.history)
    (hdids : ∀ did, s.backend.registeredDids did = true → s'.backend.registeredDids did = true) :
    t.Booked N i s' where
  jobs := hown ▸ h.jobs
  ids := hown ▸ h.ids
  current := fun r hr => by
    obtain ⟨m, hm, htask, hrec⟩ := h.current r hr
    exact ⟨m, hhistory m hm, htask, hrec⟩
  ensured := fun hphase x hx => hdids _ (h.ensured hphase x hx)
  raised := h.raised
  maxed := fun r b hb => by
    obtain ⟨m, hm, hblock⟩ := h.maxed r b hb
    exact ⟨m, hhistory m hm, hblock⟩

/-- Ensuring a registration books nothing. -/
theorem Job.ensure_ok {job : Job} (h : job.ensure D N s = .ok s') :
    s'.history = s.history ∧ s'.backend = { s.backend with registeredDids := s'.backend.registeredDids } ∧
      ∀ did, s.backend.registeredDids did = true → s'.backend.registeredDids did = true := by
  cases job with
  | relayed m =>
    rcases ensureDidRegistered_ok h with ⟨-, rfl⟩ | ⟨w, -, rfl⟩
    · exact ⟨rfl, rfl, fun _ h => h⟩
    · refine ⟨rfl, rfl, fun did h => ?_⟩
      by_cases hdid : did = m.did N
      · exact hdid ▸ Function.update_self ..
      · exact (Function.update_of_ne hdid ..).trans h
  | direct =>
    cases h
    exact ⟨rfl, rfl, fun _ h => h⟩

theorem Deposited.ensure {job : Job} (h : Deposited D N s) (hs : job.ensure D N s = .ok s') :
    Deposited D N s' ∧ ∀ x, job = .relayed x → s'.backend.registeredDids (x.did N) = true := by
  cases job with
  | relayed m =>
    obtain ⟨hlater, hdid⟩ := h.ensured hs
    refine ⟨hlater, fun x hx => ?_⟩
    cases hx
    exact hdid
  | direct =>
    cases hs
    exact ⟨h, fun x hx => by cases hx⟩

/-- A turn adds to the history what the call itself has got mined, and forgets no DID. -/
theorem Turn.frame {job : Job} (h : Turn D N i s t job s' t') :
    (∀ j ≠ i, own j s'.history = own j s.history) ∧ (∀ m ∈ s.history, m ∈ s'.history) ∧
      ∀ did, s.backend.registeredDids did = true → s'.backend.registeredDids did = true := by
  cases h with
  | ensured _ hs =>
    obtain ⟨hhistory, -, hdids⟩ := Job.ensure_ok hs
    exact ⟨fun _ _ => by rw [hhistory], fun _ h => hhistory ▸ h, hdids⟩
  | mined => exact ⟨fun j hj => own_append_of_ne hj .., fun _ h => List.mem_append_left _ h, fun _ h => h⟩
  | _ => exact ⟨fun _ _ => rfl, fun _ h => h, fun _ h => h⟩

theorem Turn.jobs_eq {job : Job} (h : Turn D N i s t job s' t') : t'.jobs = t.jobs := by
  cases h <;> rfl

/-- The books of the call that takes the turn. -/
theorem Turn.booked {job : Job} (hturn : Turn D N i s t job s' t') (hjob : t.job = some job) (hraised : t.raised = none)
    (h : t.Booked N i s) (hdeposited : Deposited D N s) (hblock : s.backend.blockNumber = 0 ∨
      ∃ m ∈ s.history, m.receipt.blockNumber = s.backend.blockNumber) : t'.Booked N i s' := by
  have hnone : ∀ {phase : Phase}, t.phase = phase → phase.receipt = none → t.pending = none :=
    fun hphase hr => by rw [Task.pending, hphase, hr]; rfl
  have hsome : ∀ {phase : Phase} {r : Receipt}, t.phase = phase → phase.receipt = some r →
      t.pending = some r.transactionHash := fun hphase hr => by rw [Task.pending, hphase, hr]; rfl
  have hjobs := h.jobs
  have hids := h.ids
  cases hturn with
  | ensured hphase hs =>
    rw [hnone hphase rfl] at hjobs hids
    obtain ⟨hhistory, -, -⟩ := Job.ensure_ok hs
    refine ⟨hhistory ▸ hjobs, hhistory ▸ hids, fun r hr => (by cases hr), fun _ x hx => ?_, fun _ => rfl,
      fun r b hb => (by cases hb)⟩
    exact (hdeposited.ensure hs).2 x (Option.some.inj (hjob.symm.trans hx))
  | refused hphase =>
    have hreceipt : t.phase.receipt = none := by
      rcases hphase with ⟨hphase, -⟩ | ⟨hphase, -⟩
      · rw [hphase]; rfl
      · rw [hphase]; rfl
    exact ⟨hjobs, hids, h.current, h.ensured, fun _ => hreceipt, h.maxed⟩
  | mined hphase hs =>
    rw [hnone hphase rfl] at hjobs hids
    refine ⟨?_, ?_, fun r hr => ?_, fun hphase => (by cases hphase), fun hr => ?_, fun r b hb => (by cases hb)⟩
    · rw [own_append_self, List.map_append, hjobs]
      have htake : t.jobs.take (t.txIds.length + 1) = t.jobs.take t.txIds.length ++ t.jobs[t.txIds.length]?.toList :=
        List.take_add_one
      rw [show t.jobs[t.txIds.length]? = some job from hjob] at htake
      exact htake.symm
    · rw [own_append_self, List.map_append, hids]
      simp [Task.pending, Phase.receipt, Mined.hash]
    · obtain rfl := Option.some.inj hr
      exact ⟨_, List.mem_append_right _ (List.mem_singleton_self _), rfl, rfl, hjob⟩
    · rw [hraised] at hr
      cases hr
  | maxed hphase =>
    rw [hsome hphase rfl] at hjobs hids
    have hcurrent := h.current _ (by rw [hphase]; rfl)
    refine ⟨hjobs, hids, fun r hr => ?_, fun hphase => (by cases hphase), fun hr => ?_, fun r b hb => ?_⟩
    · obtain rfl := Option.some.inj hr
      exact hcurrent
    · rw [hraised] at hr
      cases hr
    · cases hb
      obtain ⟨m, hm, -, hr, -⟩ := hcurrent
      rcases hblock with hzero | hblock
      · exact ⟨m, hm, by rw [hr, hzero, Nat.zero_max]⟩
      · rcases Nat.le_total s.backend.blockNumber m.receipt.blockNumber with hle | hle
        · exact ⟨m, hm, by rw [← hr, Nat.max_eq_right hle]⟩
        · rwa [← hr, Nat.max_eq_left hle]
  | counted hphase =>
    rw [hsome hphase rfl] at hjobs hids
    have hcurrent := h.current _ (by rw [hphase]; rfl)
    refine ⟨hjobs, hids, fun r hr => ?_, fun hphase => (by cases hphase), fun hr => ?_, fun r b hb => (by cases hb)⟩
    · obtain rfl := Option.some.inj hr
      exact hcurrent
    · rw [hraised] at hr
      cases hr
  | stored hphase =>
    rw [hsome hphase rfl] at hjobs hids
    have hcurrent := h.current _ (by rw [hphase]; rfl)
    refine ⟨hjobs, hids, fun r hr => ?_, fun hphase => (by cases hphase), fun hr => ?_, fun r b hb => (by cases hb)⟩
    · obtain rfl := Option.some.inj hr
      exact hcurrent
    · rw [hraised] at hr
      cases hr
  | listed hphase =>
    rw [hsome hphase rfl] at hjobs hids
    refine ⟨?_, ?_, fun r hr => (by cases hr), fun hphase => (by cases hphase), fun _ => rfl,
      fun r b hb => (by cases hb)⟩
    · simpa [Task.pending, Phase.receipt] using hjobs
    · simpa [Task.pending, Phase.receipt] using hids

/-! ## Every run -/

theorem Mined.eq_of_hash {history : List Mined} (h : (history.map Mined.hash).Nodup) {m m' : Mined} (hm : m ∈ history)
    (hm' : m' ∈ history) (heq : m.hash = m'.hash) : m = m' :=
  List.inj_on_of_nodup_map h hm hm' heq

/-- The books after the call `i` has taken a turn. -/
theorem Client.Booked.turn {n : Client} (h : n.Booked N) (hdeposited : Deposited D N n.toShared) {job : Job}
    (ht : n.tasks[i]? = some t) (hraised : t.raised = none) (hjob : t.job = some job)
    (hturn : Turn D N i n.toShared t job s' t') : Client.Booked N { toShared := s', tasks := n.tasks.set i t' } := by
  have hi : i < n.tasks.length := (List.getElem?_eq_some_iff.1 ht).1
  have hbooked := hturn.booked hjob hraised (h.tasks i t ht) hdeposited h.block
  obtain ⟨hown, hhistory, hdids⟩ := hturn.frame
  have htasks : ∀ (j : ℕ) (u : Task), (n.tasks.set i t')[j]? = some u → u.Booked N j s' := by
    intro j u hu
    rcases (getElem?_set_some ht).1 hu with ⟨rfl, rfl⟩ | ⟨hj, hu⟩
    · exact hbooked
    · exact (h.tasks j u hu).idle (hown j hj) hhistory hdids
  -- what the call had yet to record it still has to, and all others too
  have hrecorded : (∀ r, t.phase.unrecorded = some r → t'.phase.unrecorded = some r) → ∀ m ∈ n.history,
      n.backend.transactions m.hash = some m.info ∨
        ∃ u, (n.tasks.set i t')[m.task]? = some u ∧ u.phase.unrecorded = some m.receipt := by
    intro hkept m hm
    refine (h.recorded m hm).imp_right ?_
    rintro ⟨u, hu, hr⟩
    by_cases hmi : m.task = i
    · subst hmi
      obtain rfl := Option.some.inj (ht.symm.trans hu)
      exact ⟨t', List.getElem?_set_self hi, hkept _ hr⟩
    · exact ⟨u, (List.getElem?_set_ne (Ne.symm hmi)).trans hu, hr⟩
  have hbegun : ∀ m ∈ n.history, m.task < (n.tasks.set i t').length := fun m hm =>
    (h.begun m hm).trans_eq List.length_set.symm
  have hcount : ∀ id, (n.tasks.set i t').countP (fun t => decide (t.pending = some id)) +
      (if t.pending = some id then 1 else 0) = n.tasks.countP (fun t => decide (t.pending = some id)) +
        if t'.pending = some id then 1 else 0 := fun id => by
    simpa using countP_set (fun t : Task => decide (t.pending = some id)) ht t'
  have horder : t'.pending = t.pending → ∀ id, n.backend.txOrder.count id +
      (n.tasks.set i t').countP (fun t => decide (t.pending = some id)) = (n.history.map Mined.hash).count id := by
    intro hpending id
    have := hcount id
    rw [hpending] at this
    have := h.order id
    omega
  cases hturn with
  | ensured hphase hs =>
    obtain ⟨hsame, hbackend, -⟩ := Job.ensure_ok hs
    have horder := horder (by rw [Task.pending, Task.pending, hphase]; rfl)
    have hrecorded := hrecorded (by rw [hphase]; exact fun r hr => by cases hr)
    refine ⟨htasks, ?_, ?_, ?_, ?_, ?_⟩
    · rwa [hsame]
    · rw [hsame, hbackend]
      exact horder
    · rw [hsame, hbackend]
      exact h.entries
    · rw [hsame, hbackend]
      exact hrecorded
    · rw [hsame, hbackend]
      exact h.block
  | refused => exact ⟨htasks, hbegun, horder rfl, h.entries, hrecorded fun _ hr => hr, h.block⟩
  | mined hphase hs =>
    refine ⟨htasks, fun m hm => ?_, fun id => ?_, fun id info hinfo => ?_, fun m hm => ?_, ?_⟩
    · rcases List.mem_append.1 hm with hm | hm
      · exact hbegun m hm
      · obtain rfl := List.mem_singleton.1 hm
        exact hi.trans_eq List.length_set.symm
    · have hpending : t.pending = none := by
        rw [Task.pending, hphase]
        rfl
      have hpending' : Task.pending { t with phase := .mined (N.receipt n.chain.mined) } =
        some (N.receipt n.chain.mined).transactionHash := rfl
      have hbefore := h.order id
      have hafter := hcount id
      rw [hpending, hpending', if_neg (by simp)] at hafter
      rw [List.map_append, List.count_append, List.map_singleton, List.count_singleton]
      simp only [Option.some.injEq, Mined.hash, beq_iff_eq] at hafter ⊢
      omega
    · obtain ⟨m, hm, hinfo⟩ := h.entries id info hinfo
      exact ⟨m, List.mem_append_left _ hm, hinfo⟩
    · rcases List.mem_append.1 hm with hm | hm
      · exact hrecorded (by rw [hphase]; exact fun r hr => by cases hr) m hm
      · obtain rfl := List.mem_singleton.1 hm
        exact .inr ⟨_, List.getElem?_set_self hi, rfl⟩
    · refine h.block.imp_right ?_
      rintro ⟨m, hm, hblock⟩
      exact ⟨m, List.mem_append_left _ hm, hblock⟩
  | maxed hphase =>
    refine ⟨htasks, hbegun, horder ?_, h.entries, hrecorded ?_, h.block⟩
    · rw [Task.pending, Task.pending, hphase]
      rfl
    · rw [hphase]
      exact fun _ hr => hr
  | counted hphase =>
    refine ⟨htasks, hbegun, horder ?_, h.entries, hrecorded ?_, .inr ?_⟩
    · rw [Task.pending, Task.pending, hphase]
      rfl
    · rw [hphase]
      exact fun _ hr => hr
    · exact (h.tasks i t ht).maxed _ _ hphase
  | @stored r hphase =>
    obtain ⟨m, hm, htask, rfl, hmjob⟩ := (h.tasks i t ht).current _ (by rw [hphase]; rfl)
    obtain rfl := Option.some.inj (hjob.symm.trans hmjob)
    refine ⟨htasks, hbegun, horder ?_, fun id info hinfo => ?_, fun m' hm' => ?_, h.block⟩
    · rw [Task.pending, Task.pending, hphase]
      rfl
    · have hentry : Function.update n.backend.transactions m.hash (some m.info) id = some info := hinfo
      by_cases hid : id = m.hash
      · rw [hid, Function.update_self] at hentry
        exact ⟨m, hm, hid.symm, Option.some.inj hentry⟩
      · rw [Function.update_of_ne hid] at hentry
        exact h.entries id info hentry
    · by_cases hsame : m'.hash = m.hash
      · obtain rfl := Mined.eq_of_hash hdeposited.nodup hm' hm hsame
        exact .inl (Function.update_self ..)
      · rcases h.recorded m' hm' with hentry | ⟨u, hu, hr⟩
        · exact .inl ((Function.update_of_ne hsame ..).trans hentry)
        · refine .inr ⟨u, (List.getElem?_set_ne fun hi' => hsame ?_).trans hu, hr⟩
          -- the call has one transaction to record
          rw [← hi', ht] at hu
          obtain rfl := Option.some.inj hu
          rw [hphase] at hr
          exact (congrArg Receipt.transactionHash (Option.some.inj hr)).symm
  | @listed r hphase =>
    refine ⟨htasks, hbegun, fun id => ?_, h.entries, hrecorded ?_, h.block⟩
    · have hpending : t.pending = some r.transactionHash := by
        rw [Task.pending, hphase]
        rfl
      have hpending' : Task.pending { t with phase := .ready, txIds := t.txIds ++ [r.transactionHash] } = none := rfl
      have hbefore := h.order id
      have hafter := hcount id
      rw [hpending, hpending', if_neg (show (none : Option String) ≠ some id by simp)] at hafter
      rw [List.count_append, List.count_singleton]
      simp only [Option.some.injEq, beq_iff_eq] at hafter ⊢
      omega
    · rw [hphase]
      exact fun r hr => by cases hr

theorem Client.Booked.call {n : Client} (h : n.Booked N) (jobs : List Job) :
    Client.Booked N { n with tasks := n.tasks ++ [.start jobs] } := by
  have hnone : own n.tasks.length n.history = [] := by
    refine List.filter_eq_nil_iff.2 fun m hm => ?_
    have := h.begun m hm
    simp only [decide_eq_true_eq]
    omega
  refine ⟨fun j u hu => ?_, fun m hm => ?_, fun id => ?_, h.entries, fun m hm => ?_, h.block⟩
  · rcases getElem?_append_singleton.1 hu with ⟨rfl, rfl⟩ | ⟨-, hu⟩
    · refine ⟨?_, ?_, fun r hr => (by cases hr), fun hphase => (by cases hphase), fun hr => (by cases hr),
        fun r b hb => (by cases hb)⟩
      · rw [hnone]
        rfl
      · rw [hnone]
        rfl
    · exact h.tasks j u hu
  · exact (h.begun m hm).trans_le (by simp)
  · rw [List.countP_append]
    exact h.order id
  · refine (h.recorded m hm).imp_right ?_
    rintro ⟨u, hu, hr⟩
    exact ⟨u, (List.getElem?_append_left (h.begun m hm)).trans hu, hr⟩

namespace Client

theorem Reachable.books (h : n.Reachable D N) : Deposited D N n.toShared ∧ n.Booked N := by
  refine Lib.Reachable.invariant (P := fun n => Deposited D N n.toShared ∧ n.Booked N) ?_ (fun n n' _ h hs => ?_) h
  · rintro n ⟨now, hnow, rfl⟩
    refine ⟨.init hnow, fun i t ht => ?_, fun m hm => ?_, fun id => rfl, fun id info hinfo => ?_, fun m hm => ?_,
      .inl rfl⟩
    · cases ht
    · cases hm
    · cases hinfo
    · cases hm
  · obtain ⟨hdeposited, hbooked⟩ := h
    cases hs with
    | call jobs => exact ⟨hdeposited, hbooked.call jobs⟩
    | others hworld hverify hmined =>
      exact ⟨hdeposited.others hworld hverify hmined,
        ⟨fun i t ht => (hbooked.tasks i t ht).idle rfl (fun _ h => h) fun _ h => h, hbooked.begun, hbooked.order,
          hbooked.entries, hbooked.recorded, hbooked.block⟩⟩
    | turn ht hturn =>
      obtain ⟨hraised, job, hjob, hturn⟩ := Task.turn_cases hturn
      refine ⟨?_, hbooked.turn hdeposited ht hraised hjob hturn⟩
      cases hturn with
      | ensured _ hs => exact (hdeposited.ensure hs).1
      | mined hphase hs =>
        refine hdeposited.mined hs (fun x hx => ?_) _
        exact (hbooked.tasks _ _ ht).ensured hphase x (hx ▸ hjob)
      | _ => exact ⟨hdeposited.world, hdeposited.owned, hdeposited.relayed, hdeposited.contents, hdeposited.events,
          hdeposited.receipts, hdeposited.nodup⟩

end Client

/-! ## The books at rest -/

/-- The call has returned or raised. -/
def Task.Ended (t : Task) : Prop := t.raised.isSome ∨ t.job = none

/-- The books of `n` hold what has been mined for the client, no more and no less. -/
structure Balanced (D : Deployment) (N : Node) (n : Client) : Prop where
  count : n.backend.transactionCount = n.history.length
  order : n.backend.txOrder.Perm (n.history.map Mined.hash)
  unique : n.backend.txOrder.Nodup
  receipts : ∀ id info, n.backend.getReceipt id = some info ↔ ∃ m ∈ n.history, m.hash = id ∧ m.info = info
  gas : n.backend.getGasDecomposition = decompose (n.history.map Mined.info)
  /-- A call that returns has got all its transactions mined, in order, one that raises those before the one that it
  raises at; what has been mined of it are the ids it has collected. -/
  returned : ∀ (i : ℕ) (t : Task), n.tasks[i]? = some t →
    (own i n.history).map (·.job) = t.jobs.take t.txIds.length ∧ (own i n.history).map Mined.hash = t.txIds ∧
      (t.raised = none → t.txIds.length = t.jobs.length)
  /-- What has been mined is in the contracts, in its order. -/
  contents : (n.history.filterMap fun m => m.job.content N).Sublist
    (n.chain.world.metaTxRelay.transactions.map content)
  events : (n.history.filterMap fun m => m.job.event D N).Sublist n.chain.ecdsaVerify.logs

theorem gasOf_perm {infos infos' : List TransactionInfo} (h : infos.Perm infos') (p : TransactionInfo → Bool) :
    (gasOf p infos).Perm (gasOf p infos') := (h.filter p).map _

/-- The decomposition does not depend on the order of the transactions. -/
theorem decompose_perm {infos infos' : List TransactionInfo} (h : infos.Perm infos') :
    decompose infos = decompose infos' := by
  have hmean : ∀ p, mean (gasOf p infos) = mean (gasOf p infos') := fun p => by
    rw [mean, mean, (gasOf_perm h p).sum_eq, (gasOf_perm h p).length_eq]
  have hempty : ∀ p, (gasOf p infos).isEmpty = (gasOf p infos').isEmpty := fun p => by
    rw [Bool.eq_iff_iff, List.isEmpty_iff, List.isEmpty_iff, ← List.length_eq_zero_iff, ← List.length_eq_zero_iff,
      (gasOf_perm h p).length_eq]
  simp only [decompose, hmean, hempty, (gasOf_perm h _).length_eq]

/-- **The books balance.** -/
theorem Client.Reachable.balanced (hn : n.Reachable D N) (hrest : ∀ t ∈ n.tasks, t.Ended) : Balanced D N n := by
  obtain ⟨hdeposited, hbooked⟩ := hn.books
  have hidle : ∀ t ∈ n.tasks, t.phase.receipt = none := by
    intro t ht
    obtain ⟨i, hi⟩ := List.mem_iff_getElem?.1 ht
    rcases hrest t ht with hraised | hjob
    · exact (hbooked.tasks i t hi).raised hraised
    · by_contra hr
      obtain ⟨r, hr⟩ := Option.ne_none_iff_exists'.1 hr
      obtain ⟨_, -, -, -, hsome⟩ := (hbooked.tasks i t hi).current r hr
      rw [hjob] at hsome
      cases hsome
  have hpending : ∀ t ∈ n.tasks, t.pending = none := fun t ht => by rw [Task.pending, hidle t ht]; rfl
  have hentry : ∀ m ∈ n.history, n.backend.transactions m.hash = some m.info := by
    intro m hm
    refine (hbooked.recorded m hm).resolve_right ?_
    rintro ⟨t, ht, hr⟩
    have hnone := hidle t (List.mem_of_getElem? ht)
    cases hphase : t.phase <;> rw [hphase] at hr hnone <;> cases hr <;> cases hnone
  have horder : n.backend.txOrder.Perm (n.history.map Mined.hash) := by
    refine List.perm_iff_count.2 fun id => ?_
    rw [← hbooked.order id, List.countP_eq_zero.2 fun t ht => ?_, Nat.add_zero]
    rw [hpending t ht]
    simp
  have hcount : n.backend.txOrder.length = n.history.length := horder.length_eq.trans (List.length_map ..)
  refine ⟨hcount, horder, horder.nodup_iff.2 hdeposited.nodup, fun id info => ⟨hbooked.entries id info, ?_⟩, ?_,
    fun i t ht => ?_, hdeposited.contents, hdeposited.events⟩
  · rintro ⟨m, hm, rfl, rfl⟩
    exact hentry m hm
  · refine decompose_perm ((horder.filterMap _).trans (List.Perm.of_eq ?_))
    rw [List.filterMap_map]
    exact (List.filterMap_congr (g := some ∘ Mined.info) hentry).trans (congrFun List.filterMap_eq_map _)
  · have hnone := hpending t (List.mem_of_getElem? ht)
    have hjobs := (hbooked.tasks i t ht).jobs
    have hids := (hbooked.tasks i t ht).ids
    rw [hnone] at hjobs hids
    rw [Option.toList_none, List.append_nil] at hids
    refine ⟨hjobs, hids, fun hraised => ?_⟩
    have hjob : t.job = none := (hrest t (List.mem_of_getElem? ht)).resolve_left (by simp [hraised])
    have hle := List.getElem?_eq_none_iff.1 hjob
    have hlength := congrArg List.length hjobs
    rw [List.length_map, ← List.length_map (f := Mined.hash), hids, List.length_take] at hlength
    simp only [Option.toList_none, List.length_nil, Nat.add_zero] at hlength
    omega

/-! ## Every call ends -/

/-- How many turns a call may still take. -/
def Task.turnsLeft (t : Task) : ℕ :=
  if t.raised.isSome then 0
  else (t.jobs.length - t.txIds.length) * 6 - match t.phase with
    | .ready => 0
    | .ensured => 1
    | .mined _ => 2
    | .maxed .. => 3
    | .counted _ => 4
    | .stored _ => 5

theorem Task.ended_of_turnsLeft (h : t.turnsLeft = 0) : t.Ended := by
  unfold turnsLeft at h
  split at h
  · rename_i hraised
    exact .inl hraised
  · refine .inr (List.getElem?_eq_none_iff.2 ?_)
    split at h <;> omega

theorem Task.job_of_turnsLeft (h : 0 < t.turnsLeft) : t.raised = none ∧ ∃ job, t.job = some job := by
  unfold turnsLeft at h
  split at h
  · cases h
  · rename_i hraised
    have hlt : t.txIds.length < t.jobs.length := by omega
    exact ⟨by simpa using hraised, _, List.getElem?_eq_getElem hlt⟩

theorem Turn.turnsLeft {job : Job} (hturn : Turn D N i s t job s' t') (hraised : t.raised = none)
    (hjob : t.job = some job) : t'.turnsLeft < t.turnsLeft := by
  have hlt : t.txIds.length < t.jobs.length := (List.getElem?_eq_some_iff.1 hjob).1
  cases hturn with
  | refused hphase =>
    simp only [Task.turnsLeft, hraised, Option.isSome_some, Option.isSome_none, if_true, Bool.false_eq_true, if_false]
    rcases hphase with ⟨hphase, -⟩ | ⟨hphase, -⟩ <;> rw [hphase] <;> dsimp only <;> omega
  | listed hphase =>
    simp only [Task.turnsLeft, hraised, hphase, Option.isSome_none, Bool.false_eq_true, if_false, List.length_append,
      List.length_singleton]
    omega
  | ensured hphase | mined hphase | maxed hphase | counted hphase | stored hphase =>
    simp only [Task.turnsLeft, hraised, hphase, Option.isSome_none, Bool.false_eq_true, if_false]
    omega

namespace Client

/-- Where a call has not ended, some call has a turn to take. -/
theorem lower {n : Client} (hpos : 0 < (n.tasks.map Task.turnsLeft).sum) :
    ∃ n', Step D N n n' ∧ n'.tasks.map (·.jobs) = n.tasks.map (·.jobs) ∧
      (n'.tasks.map Task.turnsLeft).sum < (n.tasks.map Task.turnsLeft).sum := by
  obtain ⟨t, ht, hleft⟩ : ∃ t ∈ n.tasks, 0 < t.turnsLeft := by
    by_contra hnone
    push Not at hnone
    refine hpos.ne' (List.sum_eq_zero_iff.2 fun k hk => ?_)
    obtain ⟨t, ht, rfl⟩ := List.mem_map.1 hk
    exact Nat.le_zero.1 (hnone t ht)
  obtain ⟨i, hi⟩ := List.mem_iff_getElem?.1 ht
  obtain ⟨hraised, job, hjob⟩ := Task.job_of_turnsLeft hleft
  obtain ⟨⟨s, t'⟩, hturn⟩ := Task.turn_isSome (D := D) (N := N) (i := i) (s := n.toShared) hraised hjob
  obtain ⟨-, _, hjob', hcases⟩ := Task.turn_cases hturn
  refine ⟨_, .turn hi hturn, map_set_eq hi hcases.jobs_eq, ?_⟩
  have hsum := sum_map_set Task.turnsLeft hi t'
  have hlt := hcases.turnsLeft hraised hjob'
  dsimp only
  omega

/-- **All calls can go on until they end**, whatever has happened so far. -/
theorem calls_end (D : Deployment) (N : Node) (n : Client) : ∃ n', Reaches (Step D N) n n' ∧
    (∀ t ∈ n'.tasks, t.Ended) ∧ n'.tasks.map (·.jobs) = n.tasks.map (·.jobs) := by
  have hlower : ∀ m : Client, m.tasks.map (·.jobs) = n.tasks.map (·.jobs) → 0 < (m.tasks.map Task.turnsLeft).sum →
      ∃ m', Reaches (Step D N) m m' ∧ m'.tasks.map (·.jobs) = n.tasks.map (·.jobs) ∧
        (m'.tasks.map Task.turnsLeft).sum < (m.tasks.map Task.turnsLeft).sum := by
    intro m hm hpos
    obtain ⟨m', hs, hjobs, hlt⟩ := lower hpos
    exact ⟨m', .single hs, hjobs.trans hm, hlt⟩
  obtain ⟨n', hrun, hjobs, hzero⟩ := Reaches.exhaust _ hlower rfl
  refine ⟨n', hrun, fun t ht => Task.ended_of_turnsLeft ?_, hjobs⟩
  exact List.sum_eq_zero_iff.1 hzero _ (List.mem_map_of_mem ht)

end Client

/-- The books of the client: they balance whenever no call is under way, which every run can be continued to. -/
structure BooksBalance (D : Deployment) (N : Node) (n : Client) : Prop where
  owned : ∀ did, n.backend.registeredDids did = true → n.chain.world.didRegistry.Registered did ∧
    (n.chain.world.didRegistry.dids did).owner = N.owner
  /-- No entry is about anything else than a transaction mined for the client, and none is wrong. -/
  entries : ∀ id info, n.backend.getReceipt id = some info → ∃ m ∈ n.history, m.hash = id ∧ m.info = info
  /-- The block number is the one of some transaction of the client. -/
  block : n.backend.blockNumber = 0 ∨ ∃ m ∈ n.history, m.receipt.blockNumber = n.backend.blockNumber
  balanced : (∀ t ∈ n.tasks, t.Ended) → Balanced D N n
  ends : ∃ n', Reaches (Client.Step D N) n n' ∧ (∀ t ∈ n'.tasks, t.Ended) ∧
    n'.tasks.map (·.jobs) = n.tasks.map (·.jobs)

/-- **The books of every run.** -/
theorem books_balance (hn : n.Reachable D N) : BooksBalance D N n where
  owned := hn.books.1.owned
  entries := hn.books.2.entries
  block := hn.books.2.block
  balanced := hn.balanced
  ends := n.calls_end D N

/-! ## A DID that somebody else has registered -/

/-- The DID is on the chain, and not by the client. -/
def Frontrun (did : Bytes32) (n : Client) : Prop :=
  n.chain.world.didRegistry.Registered did ∧ n.backend.registeredDids did = false

theorem registerDID_registered {w : World} {did : Bytes32} (h : w.didRegistry.Registered did) (sender : Address)
    (key : List Byte) : w.step D (.registerDID sender did key) = .error (.require "DID already exists") := by
  have hexists : ¬ (w.didRegistry.dids did).registeredAt = 0 := h
  simp only [World.step, DIDRegistry.registerDID]
  rw [revertIf_of hexists]
  rfl

theorem Frontrun.ensure {did : Bytes32} {job : Job} (h : s.chain.world.didRegistry.Registered did)
    (hnot : s.backend.registeredDids did = false) (hs : job.ensure D N s = .ok s') :
    s'.chain.world.didRegistry.Registered did ∧ s'.backend.registeredDids did = false := by
  cases job with
  | direct =>
    cases hs
    exact ⟨h, hnot⟩
  | relayed m =>
    rcases ensureDidRegistered_ok hs with ⟨-, rfl⟩ | ⟨w, hw, rfl⟩
    · exact ⟨h, hnot⟩
    · refine ⟨(World.step_contracts hw).1.evolves.registered h, ?_⟩
      by_cases hdid : did = m.did N
      · rw [hdid] at h
        rw [registerDID_registered h] at hw
        cases hw
      · exact (Function.update_of_ne hdid ..).trans hnot

theorem Frontrun.step {did : Bytes32} (h : Frontrun did n) (hs : Client.Step D N n n') : Frontrun did n' := by
  obtain ⟨hreg, hnot⟩ := h
  cases hs with
  | call => exact ⟨hreg, hnot⟩
  | others hworld => exact ⟨(registry_evolves hworld).registered hreg, hnot⟩
  | turn ht hturn =>
    obtain ⟨-, _, -, hcases⟩ := Task.turn_cases hturn
    cases hcases with
    | ensured _ hs => exact Frontrun.ensure hreg hnot hs
    | mined _ hs => exact ⟨(registry_evolves (Job.transact_ok hs).1.world).registered hreg, hnot⟩
    | _ => exact ⟨hreg, hnot⟩

/-- What becomes of the calls under a DID. -/
structure Lost (D : Deployment) (N : Node) (did : Bytes32) (n : Client) : Prop where
  frontrun : Frontrun did n
  /-- Nothing is mined under the DID for the client. -/
  unmined : ∀ m ∈ n.history, ∀ x, m.job = .relayed x → x.did N ≠ did
  /-- The next turn of a call that is at a transaction under the DID raises. -/
  raises : ∀ (i : ℕ) (t : Task) (x : MetaTransaction), n.tasks[i]? = some t → t.raised = none →
    t.job = some (.relayed x) → x.did N = did → t.turn D N i n.toShared =
      some (n.toShared, { t with raised := some (.reverted (.require "DID already exists")) })

/-- **A DID registered by somebody else first is lost to the client**, for good. -/
theorem frontrun_lost (hn : n.Reachable D N) {did : Bytes32} (hreg : n.chain.world.didRegistry.Registered did)
    (hnot : n.backend.registeredDids did = false) (hrun : Reaches (Client.Step D N) n n') : Lost D N did n' := by
  have hn' : n'.Reachable D N := hn.trans hrun
  have hfront : Frontrun did n' := by
    refine Reaches.invariant (P := Frontrun did) (fun _ _ _ h hs => h.step hs) hn ⟨hreg, hnot⟩ hrun
  obtain ⟨hdeposited, hbooked⟩ := hn'.books
  have hunmined : ∀ m ∈ n'.history, ∀ x, m.job = .relayed x → x.did N ≠ did := by
    rintro m hm x hx rfl
    have := hdeposited.relayed m hm x hx
    rw [hfront.2] at this
    cases this
  refine ⟨hfront, hunmined, fun i t x ht hraised hjob hdid => ?_⟩
  have hready : t.phase = .ready := by
    cases hphase : t.phase with
    | ready => rfl
    | ensured =>
      have := (hbooked.tasks i t ht).ensured hphase x hjob
      rw [hdid, hfront.2] at this
      cases this
    | mined r | maxed r | counted r | stored r =>
      obtain ⟨m, hm, -, -, hm'⟩ := (hbooked.tasks i t ht).current r (by rw [hphase]; rfl)
      rw [hjob] at hm'
      exact absurd hdid (hunmined m hm x (Option.some.inj hm').symm)
  have hfails : Job.ensure D N n'.toShared (.relayed x) = .error (.reverted (.require "DID already exists")) := by
    rw [Job.ensure, ensureDidRegistered, hdid, if_neg (by rw [hfront.2]; simp),
      registerDID_registered hfront.1]
    rfl
  unfold Task.turn
  rw [hraised, hjob, hready]
  dsimp only
  rw [hfails]

/-! ## Runs to evaluate -/

namespace Client

/-- The turns of the given calls, one after the other; a call that has ended is passed over. -/
def after (D : Deployment) (N : Node) (turns : List ℕ) (n : Client) : Client :=
  turns.foldl (fun n i =>
    match n.tasks[i]? with
    | none => n
    | some t =>
      match t.turn D N i n.toShared with
      | none => n
      | some (s, t') => { toShared := s, tasks := n.tasks.set i t' }) n

theorem after_reaches (turns : List ℕ) (n : Client) : Reaches (Step D N) n (after D N turns n) := by
  induction turns generalizing n with
  | nil => exact .refl
  | cons i turns ih =>
    rw [after, List.foldl_cons, ← after]
    refine Relation.ReflTransGen.trans ?_ (ih _)
    split
    · exact .refl
    · rename_i t ht
      split
      · exact .refl
      · rename_i s t' hturn
        exact .single (.turn ht hturn)

end Client

namespace Toy

/-- Every transaction has a block of its own. -/
def node : Node where
  receipt n := ⟨String.ofList (List.replicate n 'x'), 100, n⟩
  hash_injective := fun m n h => by simpa using congrArg List.length (String.ofList_injective h)
  sha256 := Bytes32.ofBytes
  signHash := fun digest _ => (27, digest, Bytes32.ofBytes [5])
  owner := 1
  relayAccount := 2

/-- A reading of the device with the DID `Toy.did`. -/
def reading (i : ℕ) : MetaTransaction where
  relayAddress := "relay"
  dataHash := "reading"
  signatureSize := 1
  didActive := true
  dataHashBytes := some (Bytes32.ofBytes [i])
  didHashBytes := some PqIotAuth.Toy.did
  signatureBytes := some [i]
  didPublicKey := some (List.replicate 897 3)
  urandom := fun n => List.replicate n 0

/-- Two calls with a reading each. -/
def calls : Client :=
  let n := Client.init 1000
  { n with tasks := [.start [.relayed (reading 1)], .start [.relayed (reading 2)]] }

theorem calls_reachable : calls.Reachable (Deployment.toy 2) node := by
  have hinit : (Client.init 1000).Reachable (Deployment.toy 2) node := .start ⟨1000, by decide, rfl⟩
  have hone : Client.Reachable (Deployment.toy 2) node _ := .step hinit (.call [.relayed (reading 1)])
  exact .step hone (.call [.relayed (reading 2)])

/-- The first call is overtaken by the second between the computation of the block number and the assignment. -/
def race : Client := Client.after (Deployment.toy 2) node [0, 0, 0, 1, 1, 1, 1, 1, 1, 0, 0, 0] calls

theorem race_reachable : race.Reachable (Deployment.toy 2) node := calls_reachable.trans (Client.after_reaches _ _)

/-- Another account registers the DID of the readings. -/
def takenWorld : World :=
  World.after (Deployment.toy 2) [.registerDID 7 PqIotAuth.Toy.did (List.replicate 897 3)] (World.init 1000)

theorem takenWorld_reaches : Reaches (World.Step (Deployment.toy 2)) (World.init 1000) takenWorld :=
  World.after_reaches _ _

def taken : Client := { calls with chain := ⟨takenWorld, ECDSAVerify.init, 1⟩ }

theorem taken_reachable : taken.Reachable (Deployment.toy 2) node := by
  have hstep : ∀ w, Reaches (World.Step (Deployment.toy 2)) (World.init 1000) w →
      Client.Step (Deployment.toy 2) node calls { calls with chain := ⟨w, ECDSAVerify.init, 1⟩ } :=
    fun w hw => .others hw .refl (Nat.zero_le 1)
  exact .step calls_reachable (hstep takenWorld takenWorld_reaches)

end Toy

theorem books_balance_toy : Balanced (Deployment.toy 2) Toy.node Toy.race := by
  refine (books_balance Toy.race_reachable).balanced ?_
  have hended : ∀ t ∈ Toy.race.tasks, (t.raised.isSome || t.job.isNone) = true := by decide +kernel
  intro t ht
  simpa [Task.Ended] using hended t ht

/-- The block number of the client falls behind: the later of two transactions was booked first. -/
theorem block_number_lost : Toy.race.Reachable (Deployment.toy 2) Toy.node ∧ Toy.race.backend.blockNumber = 1 ∧
    Toy.race.history.map (·.receipt.blockNumber) = [1, 2] ∧ Toy.race.backend.transactionCount = 2 :=
  ⟨Toy.race_reachable, by decide +kernel⟩

theorem frontrun_lost_toy :
    Lost (Deployment.toy 2) Toy.node PqIotAuth.Toy.did (Client.after (Deployment.toy 2) Toy.node [0] Toy.taken) := by
  have htaken : (Toy.taken.chain.world.didRegistry.dids PqIotAuth.Toy.did).registeredAt ≠ 0 ∧
      Toy.taken.backend.registeredDids PqIotAuth.Toy.did = false := by decide +kernel
  exact frontrun_lost Toy.taken_reachable htaken.1 htaken.2 (Client.after_reaches _ _)

end PqIotAuth.Hardhat
