import PqIotAuth.Books
import PqIotAuth.RelaySystem

/-!
# The audit trail

`run_relay_path` on a node: the DIDs of the devices are registered first, and what the gateway has verified is submitted
with the signature and the key of its device, in calls that may interleave with each other and with all that others do
to the contracts. `MetaTxRelay` verifies nothing; it stores a transaction "for offline verification". The verification
goes through: for everything that has been mined for the client, whoever has the payload can do it from the contracts
alone, as long as the DID is active (`audit_trail`). The key that was registered for a DID stays, so neither the relay
nor anybody else can change what an audit says, except that the owner may deactivate the DID.
-/

namespace PqIotAuth.Hardhat

open Lib
open RelaySystem (FalconBackend IoTDevice)

/-! ## What the path submits -/

/-- What `_submit_batch` hands over for a payload that the gateway has verified; nothing is left to be drawn. -/
def relayItem (N : Node) (device : IoTDevice) (payload signature : List Byte) : MetaTransaction where
  relayAddress := "relay-node-001"
  dataHash := String.ofList (Hex.encode (N.sha256 payload).bytes)
  signatureSize := signature.length
  didActive := true
  dataHashBytes := some (N.sha256 payload)
  didHashBytes := some (N.sha256 (encodeUtf8 device.did))
  signatureBytes := some signature
  didPublicKey := some device.keypair.publicKey
  urandom := fun _ => []

/-- The job submits what the gateway has verified of one of the devices. -/
def Job.Verified (N : Node) (B : FalconBackend) (devices : List IoTDevice) (job : Job) : Prop :=
  ∃ device ∈ devices, ∃ payload signature, B.falconVerify payload signature device.keypair.publicKey = some true ∧
    job = .relayed (relayItem N device payload signature)

/-- No two devices with different keys have DIDs of the same hash. -/
def Distinct (N : Node) (devices : List IoTDevice) : Prop :=
  ∀ device ∈ devices, ∀ device' ∈ devices, N.sha256 (encodeUtf8 device.did) = N.sha256 (encodeUtf8 device'.did) →
    device.keypair.publicKey = device'.keypair.publicKey

namespace Client

/-- What can happen next while the path is run: a DID of a device is registered, verified payloads are submitted, a
call takes a turn, or others use the contracts. -/
inductive PathStep (D : Deployment) (N : Node) (B : FalconBackend) (devices : List IoTDevice) (n : Client) :
    Client → Prop
  | register {device : IoTDevice} (hdevice : device ∈ devices) {s : Shared}
      (hs : ensureDidRegistered D N (N.sha256 (encodeUtf8 device.did)) device.keypair.publicKey n.toShared = .ok s) :
      PathStep D N B devices n { n with toShared := s }
  | call (jobs : List Job) (hjobs : ∀ job ∈ jobs, job.Verified N B devices) :
      PathStep D N B devices n { n with tasks := n.tasks ++ [.start jobs] }
  | turn {i : ℕ} {t t' : Task} {s : Shared} (ht : n.tasks[i]? = some t)
      (hturn : t.turn D N i n.toShared = some (s, t')) :
      PathStep D N B devices n { toShared := s, tasks := n.tasks.set i t' }
  | others {c : Chain} (hworld : Reaches (World.Step D) n.chain.world c.world)
      (hverify : Reaches (ECDSAVerify.Step D.toEvm) n.chain.ecdsaVerify c.ecdsaVerify)
      (hmined : n.chain.mined ≤ c.mined) :
      PathStep D N B devices n { n with chain := c }

/-- The runs of the path. -/
def PathReachable (D : Deployment) (N : Node) (B : FalconBackend) (devices : List IoTDevice) : Client → Prop :=
  Lib.Reachable (fun n => ∃ now, 0 < now ∧ n = init now) (PathStep D N B devices)

end Client

/-! ## Audits -/

/-- The offline verification of a transaction by someone who has the payload; `none` where the library raises. -/
def audit (D : Deployment) (N : Node) (B : FalconBackend) (w : World) (index : ℕ) (payload : List Byte) :
    Except Error (Option Bool) := do
  let (dataHash, didHash, falconSignature, pubKeyHash) ← w.metaTxRelay.getTransactionForVerification index
  let publicKey ← w.didRegistry.getPublicKey didHash
  return if dataHash = N.sha256 payload ∧ D.keccak256 publicKey = pubKeyHash then
    B.falconVerify payload falconSignature publicKey
  else some false

variable {D : Deployment} {N : Node} {B : FalconBackend} {devices : List IoTDevice} {n n' : Client} {s s' : Shared}
  {t t' : Task} {i : ℕ} {w w' : World}

/-- The transaction `i` is what has been mined, under the key of the device. -/
structure Stored (D : Deployment) (N : Node) (device : IoTDevice) (payload signature : List Byte) (w : World) (i : ℕ) :
    Prop where
  transaction : ∃ timestamp, w.metaTxRelay.transactions[i]? = some ⟨N.sha256 payload, N.sha256 (encodeUtf8 device.did),
    signature, D.keccak256 device.keypair.publicKey, timestamp, true⟩
  registered : w.didRegistry.Registered (N.sha256 (encodeUtf8 device.did))
  key : (w.didRegistry.dids (N.sha256 (encodeUtf8 device.did))).publicKey = device.keypair.publicKey

theorem Stored.later {device : IoTDevice} {payload signature : List Byte}
    (h : Stored D N device payload signature w i) (hw : Reaches (World.Step D) w w') :
    Stored D N device payload signature w' i := by
  obtain ⟨timestamp, htransaction⟩ := h.transaction
  obtain ⟨l, hl⟩ := metaTx_grows hw
  have hevolves := registry_evolves hw
  refine ⟨⟨timestamp, ?_⟩, hevolves.registered h.registered, (hevolves.publicKey h.registered).trans h.key⟩
  rw [hl, List.getElem?_append_left (List.getElem?_eq_some_iff.1 htransaction).1]
  exact htransaction

theorem getPublicKey_inactive {R : DIDRegistry} {didHash : Bytes32} (hreg : R.Registered didHash)
    (hactive : R.isActive didHash = false) : R.getPublicKey didHash = .error (.require "DID is deactivated") := by
  have hoff : ¬ (R.dids didHash).active = true := by
    intro hon
    rw [DIDRegistry.isActive_iff.2 ⟨hreg, hon⟩] at hactive
    cases hactive
  rw [DIDRegistry.getPublicKey, revertIf_of_not hreg, ok_bind, revertIf_of hoff, error_bind]

/-- What an audit of a stored transaction says. -/
theorem Stored.audit {device : IoTDevice} {payload signature : List Byte}
    (h : Stored D N device payload signature w i) (payload' : List Byte) :
    audit D N B w i payload' =
      if w.didRegistry.isActive (N.sha256 (encodeUtf8 device.did)) then
        .ok (if N.sha256 payload = N.sha256 payload' then B.falconVerify payload' signature device.keypair.publicKey
          else some false)
      else .error (.require "DID is deactivated") := by
  obtain ⟨timestamp, htransaction⟩ := h.transaction
  rw [Hardhat.audit, MetaTxRelay.getTransactionForVerification_ok htransaction, ok_bind]
  dsimp only
  by_cases hactive : w.didRegistry.isActive (N.sha256 (encodeUtf8 device.did)) = true
  · rw [DIDRegistry.getPublicKey_of_isActive hactive, ok_bind, if_pos hactive, h.key]
    simp only [and_true]
    rfl
  · rw [getPublicKey_inactive h.registered (by simpa using hactive), error_bind, if_neg hactive]

/-! ## Every run of the path -/

/-- What has been mined is stored as the transaction `i`, and the gateway has verified it. -/
def Audited (D : Deployment) (N : Node) (B : FalconBackend) (devices : List IoTDevice) (w : World) (m : Mined)
    (i : ℕ) : Prop :=
  ∃ device ∈ devices, ∃ payload signature, B.falconVerify payload signature device.keypair.publicKey = some true ∧
    m.job = .relayed (relayItem N device payload signature) ∧ Stored D N device payload signature w i

/-- What has been mined for the client is stored in this order, at these indices. -/
structure Filed (D : Deployment) (N : Node) (B : FalconBackend) (devices : List IoTDevice) (w : World)
    (history : List Mined) (indices : List ℕ) : Prop where
  increasing : indices.Pairwise (· < ·)
  lt : ∀ i ∈ indices, i < w.metaTxRelay.transactions.length
  audited : List.Forall₂ (Audited D N B devices w) history indices

theorem Filed.later {history : List Mined} {indices : List ℕ} (h : Filed D N B devices w history indices)
    (hw : Reaches (World.Step D) w w') : Filed D N B devices w' history indices := by
  obtain ⟨l, hl⟩ := metaTx_grows hw
  refine ⟨h.increasing, fun i hi => ?_, h.audited.imp ?_⟩
  · have := h.lt i hi
    rw [hl, List.length_append]
    omega
  · rintro m i ⟨device, hdevice, payload, signature, hverify, hjob, hstored⟩
    exact ⟨device, hdevice, payload, signature, hverify, hjob, hstored.later hw⟩

/-- What holds while the path is run. -/
structure Trail (D : Deployment) (N : Node) (B : FalconBackend) (devices : List IoTDevice) (n : Client) : Prop where
  world : n.chain.world.Reachable D
  /-- The DIDs that the client counts as registered are those of devices, with their keys. -/
  owned : ∀ did, n.backend.registeredDids did = true → n.chain.world.didRegistry.Registered did ∧
    ∃ device ∈ devices, did = N.sha256 (encodeUtf8 device.did) ∧
      (n.chain.world.didRegistry.dids did).publicKey = device.keypair.publicKey
  jobs : ∀ t ∈ n.tasks, ∀ job ∈ t.jobs, job.Verified N B devices
  ensured : ∀ t ∈ n.tasks, t.phase = .ensured → ∀ x, t.job = some (.relayed x) →
    n.backend.registeredDids (x.did N) = true
  filed : ∃ indices, Filed D N B devices n.chain.world n.history indices

theorem Trail.init {now : ℕ} (hnow : 0 < now) : Trail D N B devices (Client.init now) where
  world := .start ⟨now, hnow, rfl⟩
  owned := fun did h => by cases h
  jobs := fun t ht => by cases ht
  ensured := fun t ht => by cases ht
  filed := ⟨[], .nil, fun i hi => (by cases hi), .nil⟩

/-- The contracts go on, for whomever. -/
theorem Trail.others (h : Trail D N B devices n) {c : Chain} (hworld : Reaches (World.Step D) n.chain.world c.world) :
    Trail D N B devices { n with chain := c } where
  world := h.world.trans hworld
  owned := fun did hdid => by
    obtain ⟨hreg, device, hdevice, heq, hkey⟩ := h.owned did hdid
    have hevolves := registry_evolves hworld
    exact ⟨hevolves.registered hreg, device, hdevice, heq, (hevolves.publicKey hreg).trans hkey⟩
  jobs := h.jobs
  ensured := h.ensured
  filed := by
    obtain ⟨indices, hfiled⟩ := h.filed
    exact ⟨indices, hfiled.later hworld⟩

/-- A DID of a device is registered, or was already. -/
theorem Trail.register (h : Trail D N B devices n) {device : IoTDevice} (hdevice : device ∈ devices)
    (hs : ensureDidRegistered D N (N.sha256 (encodeUtf8 device.did)) device.keypair.publicKey n.toShared = .ok s) :
    Trail D N B devices { n with toShared := s } ∧
      s.backend.registeredDids (N.sha256 (encodeUtf8 device.did)) = true ∧
      ∀ did, n.backend.registeredDids did = true → s.backend.registeredDids did = true := by
  rcases ensureDidRegistered_ok hs with ⟨hreg, rfl⟩ | ⟨w, hw, rfl⟩
  · exact ⟨h, hreg, fun _ hdid => hdid⟩
  · have hlater := h.others (c := { n.chain with world := w, mined := n.chain.mined + 1 }) (.single ⟨_, hw⟩)
    have hdoc := (World.step_contracts hw).1.registered
    have hkept : ∀ did, n.backend.registeredDids did = true →
        Function.update n.backend.registeredDids (N.sha256 (encodeUtf8 device.did)) true did = true := by
      intro did hdid
      by_cases heq : did = N.sha256 (encodeUtf8 device.did)
      · rw [heq, Function.update_self]
      · rwa [Function.update_of_ne heq]
    refine ⟨⟨hlater.world, fun did hdid => ?_, h.jobs, fun t ht hphase x hx => hkept _ (h.ensured t ht hphase x hx),
      hlater.filed⟩, Function.update_self .., hkept⟩
    dsimp only at hdid ⊢
    by_cases heq : did = N.sha256 (encodeUtf8 device.did)
    · rw [heq, DIDRegistry.Registered, hdoc]
      exact ⟨h.world.now_pos.ne', device, hdevice, rfl, rfl⟩
    · rw [Function.update_of_ne heq] at hdid
      exact hlater.owned did hdid

/-- A verified job is mined under a DID that the client has registered. -/
theorem Filed.mined {history : List Mined} {indices : List ℕ} {job : Job} {c c' : Chain}
    (h : Filed D N B devices c.world history indices) (hs : job.transact D N c = .ok c')
    (hverified : job.Verified N B devices) (hdistinct : Distinct N devices)
    (howned : ∀ x, job = .relayed x → c.world.didRegistry.Registered (x.did N) ∧ ∃ device ∈ devices,
      x.did N = N.sha256 (encodeUtf8 device.did) ∧
        (c.world.didRegistry.dids (x.did N)).publicKey = device.keypair.publicKey) (task : ℕ) (r : Receipt) :
    Filed D N B devices c'.world (history ++ [⟨task, job, r⟩])
      (indices ++ [c.world.metaTxRelay.transactions.length]) := by
  obtain ⟨device, hdevice, payload, signature, hverify, rfl⟩ := hverified
  obtain ⟨hreg, device', hdevice', hdid, hkey⟩ := howned _ rfl
  have hsame : device'.keypair.publicKey = device.keypair.publicKey :=
    hdistinct device' hdevice' device hdevice hdid.symm
  simp only [Job.transact, bind_eq_ok, raised_eq_ok, pure_eq_ok] at hs
  obtain ⟨w, hw, rfl⟩ := hs
  have hlater := h.later (.single ⟨_, hw⟩)
  obtain ⟨hregistry, htx⟩ := World.step_contracts hw
  have hevolves := hregistry.evolves
  rcases htx with ⟨-, hne⟩ | ⟨sender, dataHash, didHash, sig, result, ha, hok⟩
  · exact absurd rfl (hne _ _ _ _ _)
  · cases ha
    obtain ⟨-, -, -, hfiled⟩ := MetaTxRelay.submitTransaction_ok hok
    have hlength : w.metaTxRelay.transactions.length = c.world.metaTxRelay.transactions.length + 1 := by
      rw [hfiled, MetaTxRelay.filed, List.length_append, List.length_singleton]
    refine ⟨?_, fun i hi => ?_, ?_⟩
    · refine List.pairwise_append.2 ⟨h.increasing, List.pairwise_singleton .., fun i hi j hj => ?_⟩
      obtain rfl := List.mem_singleton.1 hj
      exact h.lt i hi
    · rcases List.mem_append.1 hi with hi | hi
      · exact hlater.lt i hi
      · obtain rfl := List.mem_singleton.1 hi
        dsimp only
        omega
    · refine List.rel_append hlater.audited (.cons ?_ .nil)
      refine ⟨device, hdevice, payload, signature, hverify, rfl, ⟨c.world.now, ?_⟩, hevolves.registered hreg,
        (hevolves.publicKey hreg).trans (hkey.trans hsame)⟩
      rw [hfiled, MetaTxRelay.filed, List.getElem?_concat_length, ← hsame, ← hkey]
      rfl

theorem Trail.turn (h : Trail D N B devices n) (hdistinct : Distinct N devices) (ht : n.tasks[i]? = some t)
    (hturn : t.turn D N i n.toShared = some (s, t')) :
    Trail D N B devices { toShared := s, tasks := n.tasks.set i t' } := by
  obtain ⟨-, job, hjob, hturn⟩ := Task.turn_cases hturn
  have hmem := List.mem_of_getElem? ht
  have hverified : job.Verified N B devices := h.jobs t hmem job (List.mem_of_getElem? hjob)
  have hjobs : ∀ u ∈ n.tasks.set i t', ∀ job ∈ u.jobs, job.Verified N B devices := by
    intro u hu
    rcases List.mem_or_eq_of_mem_set hu with hu | rfl
    · exact h.jobs u hu
    · rw [hturn.jobs_eq]
      exact h.jobs t hmem
  -- a call that is not about to submit has nothing to be ensured
  have hensured : (∀ did, n.backend.registeredDids did = true → s.backend.registeredDids did = true) →
      (t'.phase = .ensured → ∀ x, t'.job = some (.relayed x) → s.backend.registeredDids (x.did N) = true) →
        ∀ u ∈ n.tasks.set i t', u.phase = .ensured → ∀ x, u.job = some (.relayed x) →
          s.backend.registeredDids (x.did N) = true := by
    intro hkept hself u hu hphase x hx
    rcases List.mem_or_eq_of_mem_set hu with hu | rfl
    · exact hkept _ (h.ensured u hu hphase x hx)
    · exact hself hphase x hx
  cases hturn with
  | ensured hphase hs =>
    obtain ⟨device, hdevice, payload, signature, hverify, rfl⟩ := hverified
    obtain ⟨htrail, hdid, hkept⟩ := h.register hdevice hs
    refine ⟨htrail.world, htrail.owned, hjobs, hensured hkept fun _ x hx => ?_, htrail.filed⟩
    cases (Option.some.inj (hjob.symm.trans hx))
    exact hdid
  | refused hphase =>
    refine ⟨h.world, h.owned, hjobs, hensured (fun _ hdid => hdid) fun hphase' x hx => ?_, h.filed⟩
    exact h.ensured t hmem hphase' x hx
  | mined hphase hs =>
    obtain ⟨hholds, -⟩ := Job.transact_ok hs
    have hlater := h.others hholds.world
    obtain ⟨indices, hfiled⟩ := h.filed
    have howned : ∀ x, job = .relayed x → n.chain.world.didRegistry.Registered (x.did N) ∧ ∃ device ∈ devices,
        x.did N = N.sha256 (encodeUtf8 device.did) ∧
          (n.chain.world.didRegistry.dids (x.did N)).publicKey = device.keypair.publicKey := by
      rintro x rfl
      exact h.owned _ (h.ensured t hmem hphase x hjob)
    refine ⟨hlater.world, hlater.owned, hjobs, hensured (fun _ hdid => hdid) fun hphase' => (by cases hphase'), _,
      hfiled.mined hs hverified hdistinct howned i (N.receipt n.chain.mined)⟩
  | maxed | counted | stored | listed =>
    exact ⟨h.world, h.owned, hjobs, hensured (fun _ hdid => hdid) fun hphase' => (by cases hphase'), h.filed⟩

theorem Client.PathReachable.trail (hdistinct : Distinct N devices) (hn : n.PathReachable D N B devices) :
    Trail D N B devices n := by
  refine Lib.Reachable.invariant (P := Trail D N B devices) ?_ ?_ hn
  · rintro n ⟨now, hnow, rfl⟩
    exact .init hnow
  · intro n n' _ h hs
    cases hs with
    | register hdevice hs => exact (h.register hdevice hs).1
    | call jobs hjobs =>
      refine ⟨h.world, h.owned, fun t ht => ?_, fun t ht hphase => ?_, h.filed⟩
      · rcases List.mem_append.1 ht with ht | ht
        · exact h.jobs t ht
        · obtain rfl := List.mem_singleton.1 ht
          exact hjobs
      · rcases List.mem_append.1 ht with ht | ht
        · exact h.ensured t ht hphase
        · obtain rfl := List.mem_singleton.1 ht
          cases hphase
    | turn ht hturn => exact h.turn hdistinct ht hturn
    | others hworld => exact h.others hworld

/-- Something that has been mined for the client can be audited: at the index `i`, in every later world, exactly while
its DID is active, and with no other payload. -/
def Auditable (D : Deployment) (N : Node) (B : FalconBackend) (devices : List IoTDevice) (w : World) (m : Mined)
    (i : ℕ) : Prop :=
  ∃ device ∈ devices, ∃ payload signature, m.job = .relayed (relayItem N device payload signature) ∧
    ∀ w', Reaches (World.Step D) w w' →
      audit D N B w' i payload = (if w'.didRegistry.isActive (N.sha256 (encodeUtf8 device.did)) then .ok (some true)
        else .error (.require "DID is deactivated")) ∧
      ∀ payload', N.sha256 payload' ≠ N.sha256 payload → audit D N B w' i payload' =
        if w'.didRegistry.isActive (N.sha256 (encodeUtf8 device.did)) then .ok (some false)
        else .error (.require "DID is deactivated")

/-- **Whatever the path has got mined can be audited**, each at an index of its own, in the order of submission. -/
theorem audit_trail (hdistinct : Distinct N devices) (hn : n.PathReachable D N B devices) :
    ∃ indices : List ℕ, indices.Pairwise (· < ·) ∧
      List.Forall₂ (Auditable D N B devices n.chain.world) n.history indices := by
  obtain ⟨indices, hfiled⟩ := (hn.trail hdistinct).filed
  refine ⟨indices, hfiled.increasing, hfiled.audited.imp ?_⟩
  rintro m i ⟨device, hdevice, payload, signature, hverify, hjob, hstored⟩
  refine ⟨device, hdevice, payload, signature, hjob, fun w' hw' => ⟨?_, fun payload' hne => ?_⟩⟩
  · rw [(hstored.later hw').audit payload, if_pos rfl, hverify]
  · rw [(hstored.later hw').audit payload', if_neg (Ne.symm hne)]

/-! ## A run to evaluate -/

theorem Client.after_path (turns : List ℕ) {n : Client} (hn : n.PathReachable D N B devices) :
    (n.after D N turns).PathReachable D N B devices := by
  induction turns generalizing n with
  | nil => exact hn
  | cons i turns ih =>
    rw [Client.after, List.foldl_cons, ← Client.after]
    refine ih ?_
    split
    · exact hn
    · rename_i t ht
      split
      · exact hn
      · rename_i s t' hturn
        exact .step hn (.turn ht hturn)

namespace Toy

def device : IoTDevice := ⟨"device-0000", ⟨List.replicate 897 3, []⟩, "did:falconiot:0"⟩

/-- The part of a signature of the device that is verified. -/
def signature (payload : List Byte) : List Byte := List.replicate 32 3 ++ (Bytes32.ofBytes payload).bytes

def payloads : List Job := [[1], [2]].map fun payload => .relayed (relayItem node device payload (signature payload))

def path : Client := { Client.init 1000 with tasks := [.start payloads] }

theorem path_reachable :
    path.PathReachable (Deployment.toy 2) node (.simulation PqIotAuth.Toy.primitives) [device] := by
  have hinit : (Client.init 1000).PathReachable (Deployment.toy 2) node (.simulation PqIotAuth.Toy.primitives)
      [device] := .start ⟨1000, by decide, rfl⟩
  refine .step hinit (.call payloads fun job hjob => ?_)
  obtain ⟨payload, hpayload, rfl⟩ := List.mem_map.1 hjob
  refine ⟨device, List.mem_singleton_self _, payload, signature payload, ?_, rfl⟩
  have hverify : ∀ payload ∈ ([[1], [2]] : List (List Byte)), (FalconBackend.simulation
      PqIotAuth.Toy.primitives).falconVerify payload (signature payload) device.keypair.publicKey = some true := by
    decide +kernel
  exact hverify payload hpayload

/-- Both payloads have been submitted. -/
def audited : Client := Client.after (Deployment.toy 2) node (List.replicate 12 0) path

end Toy

theorem audit_trail_toy : Toy.audited.history.length = 2 ∧ ∃ indices : List ℕ, indices.Pairwise (· < ·) ∧
    List.Forall₂ (Auditable (Deployment.toy 2) Toy.node (.simulation PqIotAuth.Toy.primitives) [Toy.device]
      Toy.audited.chain.world) Toy.audited.history indices := by
  refine ⟨by decide +kernel, audit_trail ?_ (Client.after_path _ Toy.path_reachable)⟩
  intro device hdevice device' hdevice' _
  rw [List.mem_singleton.1 hdevice, List.mem_singleton.1 hdevice']

end PqIotAuth.Hardhat
