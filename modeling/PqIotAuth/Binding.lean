import PqIotAuth.Filings
import PqIotAuth.Relay.MerkleTree

/-!
# What the leaves of a batch bind

`submitBatch` fills the array of leaves position by position, each with the caller's hashes, the next nonce of its DID
and the hash of its slice of the availability data (`processLeaves_bound`). The root it files stays as long as the batch
is there (`World.Reachable.submitted`), and with an injective `keccak256` no other tuple passes the proof check of
`openBatchLeafDispute` at a position (`leaf_binding`).
-/

namespace PqIotAuth

open Lib

variable {D : Deployment} {env : Env} {s : Storage}

/-! ## The leaves of a submission -/

/-- The position `i` of the array of leaves holds the leaf of the caller's hashes there, of the nonce that its DID has
reached there and of the hash of its slice of the data; the event of the leaf says so too. -/
def LeafBound (D : Deployment) (b : ℕ) (didHashes dataHashes : List Bytes32) (data : List Byte) (s : Storage)
    (m : Storage × List Bytes32) (i : ℕ) : Prop :=
  ∃ didHash dataHash : Bytes32, didHashes[i]? = some didHash ∧ dataHashes[i]? = some dataHash ∧
    let nonce := s.didNonce didHash + (didHashes.take (i + 1)).count didHash
    let sigHash := D.keccak256 ((data.drop (i * falcon512SigSizeMax)).take falcon512SigSizeMax)
    nonce < wordSize ∧ i * falcon512SigSizeMax + falcon512SigSizeMax ≤ data.length ∧
      m.2[i]? = some (leafHash D b didHash nonce dataHash sigHash) ∧
      .batchLeaf b i didHash nonce dataHash sigHash ∈ m.1.logs

theorem processLeaf_ok {b i : ℕ} {didHash dataHash : Bytes32} {data : List Byte} {m m' : Storage × List Bytes32}
    (h : processLeaf D env b i didHash dataHash data m = .ok m') :
    let nonce := m.1.didNonce didHash + 1
    let sigHash := D.keccak256 ((data.drop (i * falcon512SigSizeMax)).take falcon512SigSizeMax)
    env.didRegistry.isActive didHash ∧ nonce < wordSize ∧
      i * falcon512SigSizeMax + falcon512SigSizeMax ≤ data.length ∧ i < m.2.length ∧
      m' = ({ m.1 with didNonce := Function.update m.1.didNonce didHash nonce }.emit
          (.batchLeaf b i didHash nonce dataHash sigHash),
        m.2.set i (leafHash D b didHash nonce dataHash sigHash)) := by
  unfold processLeaf sliceHash at h
  simp only [bind_eq_ok, checkedAdd_eq_ok, checkedMul_eq_ok, revertIf_eq_ok, store, modifyAt_eq_ok, pure_eq_ok,
    not_lt, not_not] at h
  obtain ⟨_, hactive, _, ⟨hnonce, rfl⟩, _, ⟨-, rfl⟩, _, ⟨_, ⟨-, rfl⟩, _, hdata, rfl⟩, _, ⟨_, hi, rfl⟩, rfl⟩ := h
  exact ⟨hactive, hnonce, hdata, (List.getElem?_eq_some_iff.1 hi).1, rfl⟩

/-- What the loop over the leaves has done after `j` turns. -/
theorem processLeaves_turns {b k j : ℕ} {didHashes dataHashes : List Bytes32} {data : List Byte}
    {m : Storage × List Bytes32}
    (h : (List.range j).foldlM (fun m i => do
      let didHash ← load boundsPanic didHashes i
      let dataHash ← load boundsPanic dataHashes i
      processLeaf D env b i didHash dataHash data m) (s, List.replicate k (Bytes32.ofBytes [])) = .ok m) :
    m.2.length = k ∧ (∀ did, m.1.didNonce did = s.didNonce did + (didHashes.take j).count did) ∧
      ∀ i < j, LeafBound D b didHashes dataHashes data s m i := by
  induction j generalizing m with
  | zero =>
    rw [List.range_zero, List.foldlM_nil, pure_eq_ok] at h
    subst h
    exact ⟨List.length_replicate, fun _ => by simp, fun i hi => absurd hi (Nat.not_lt_zero i)⟩
  | succ j ih =>
    rw [List.range_succ, List.foldlM_append, bind_eq_ok] at h
    obtain ⟨m', hm', h⟩ := h
    simp only [List.foldlM_cons, List.foldlM_nil, bind_eq_ok, load_eq_ok, pure_eq_ok] at h
    obtain ⟨_, ⟨didHash, hdid, dataHash, hdata, h⟩, rfl⟩ := h
    obtain ⟨hlen, hnonces, hbound⟩ := ih hm'
    obtain ⟨-, hnonce, hsize, hj, rfl⟩ := processLeaf_ok h
    -- one more DID is counted: the one of the leaf `j`
    have htake : didHashes.take (j + 1) = didHashes.take j ++ [didHash] := by
      rw [List.take_succ_eq_append_getElem (List.getElem?_eq_some_iff.1 hdid).1, (List.getElem?_eq_some_iff.1 hdid).2]
    have hcount : m'.1.didNonce didHash + 1 = s.didNonce didHash + (didHashes.take (j + 1)).count didHash := by
      rw [hnonces, htake, List.count_append, List.count_singleton_self, Nat.add_assoc]
    refine ⟨List.length_set.trans hlen, fun did => ?_, fun i hi => ?_⟩
    · by_cases hd : did = didHash
      · subst hd
        rw [← hcount]
        exact Function.update_self ..
      · have hzero : [didHash].count did = 0 := List.count_eq_zero_of_not_mem (by simpa using hd)
        rw [htake, List.count_append, hzero, Nat.add_zero]
        exact (Function.update_of_ne hd ..).trans (hnonces did)
    · by_cases hij : i = j
      · subst hij
        rw [hcount] at hnonce ⊢
        exact ⟨didHash, dataHash, hdid, hdata, hnonce, hsize, List.getElem?_set_self hj,
          List.mem_append_right _ (List.mem_singleton_self _)⟩
      · obtain ⟨did, dh, hdid', hdata', hnonce', hsize', hleaf, hevent⟩ := hbound i (by omega)
        exact ⟨did, dh, hdid', hdata', hnonce', hsize', (List.getElem?_set_ne (Ne.symm hij)).trans hleaf,
          List.mem_append_left _ hevent⟩

theorem processLeaves_bound {b k : ℕ} {didHashes dataHashes : List Bytes32} {data : List Byte}
    {m : Storage × List Bytes32} (h : processLeaves D env b k didHashes dataHashes data s = .ok m) :
    m.2.length = k ∧ ∀ i < k, LeafBound D b didHashes dataHashes data s m i :=
  ⟨(processLeaves_turns h).1, (processLeaves_turns h).2.2⟩

/-! ## Submissions -/

/-- A call of `submitBatch` in a run. -/
structure Submission where
  before : World
  after : World
  sender : Address
  didHashes : List Bytes32
  dataHashes : List Bytes32
  availabilityData : List Byte

namespace Submission

/-- The submission has filed the batch `b` of the world `w` of a run. -/
structure Filed (D : Deployment) (x : Submission) (b : ℕ) (w : World) : Prop where
  reachable : x.before.Reachable D
  call : x.before.step D (.call x.sender 0 (.submitBatch x.didHashes x.dataHashes x.availabilityData)) = .ok x.after
  index : x.before.relay.court.batches.length = b
  later : Reaches (World.Step D) x.after w

/-- The tuple is the one that the submission of the batch `b` has bound at the position `l`. -/
structure Binds (D : Deployment) (x : Submission) (b l : ℕ) (didHash : Bytes32) (nonce : ℕ)
    (dataHash sigHash : Bytes32) : Prop where
  did_at : x.didHashes[l]? = some didHash
  data_at : x.dataHashes[l]? = some dataHash
  /-- The leaves of one DID have the nonces that follow its last one, in the order of their positions. -/
  nonce_eq : nonce = x.before.relay.didNonce didHash + (x.didHashes.take (l + 1)).count didHash
  event : .batchLeaf b l didHash nonce dataHash sigHash ∈ x.after.relay.logs
  sigHash_eq : sigHash = D.keccak256 ((x.availabilityData.drop (752 * l)).take 752)
  available : 752 * (l + 1) ≤ x.availabilityData.length

/-- The root and the number of leaves that the submission has filed are those of the batch `bt`. -/
def Roots (x : Submission) (b : ℕ) (bt : Batch) : Prop :=
  ∃ bt0 : Batch, x.after.relay.court.batches[b]? = some bt0 ∧ bt.merkleRoot = bt0.merkleRoot ∧
    bt.leafCount = bt0.leafCount

/-- What a submission has bound at every position of its batch. -/
theorem bound {D : Deployment} {x : Submission} {b : ℕ} {w : World} {bt : Batch} (hx : x.Filed D b w)
    (hroot : x.Roots b bt) :
    ∃ leaves : List Bytes32, buildTree D.toEvm leaves = .ok bt.merkleRoot ∧ leaves.length = bt.leafCount ∧
      ∀ i < bt.leafCount, ∃ m, m.2 = leaves ∧ (∀ e ∈ m.1.logs, e ∈ x.after.relay.logs) ∧
        LeafBound D b x.didHashes x.dataHashes x.availabilityData x.before.relay m i := by
  obtain ⟨bt0, hb0, hmerkle, hcount⟩ := hroot
  obtain ⟨t, he, hafter⟩ := World.call_effect hx.call
  rw [hafter] at hb0 ⊢
  cases he with
  | submitBatch _ _ _ _ _ _ _ _ _ _ hm hbuild bt hbt =>
    rw [hx.index] at hm
    obtain ⟨hlen, hbound⟩ := processLeaves_bound hm
    have hlast : (x.before.relay.court.batches ++ [bt])[b]? = some bt := by rw [← hx.index, List.getElem?_concat_length]
    obtain rfl := Option.some.inj (hlast.symm.trans hb0)
    subst hbt
    rw [hmerkle, hcount]
    exact ⟨_, hbuild, hlen, fun i hi => ⟨_, rfl, fun e he => List.mem_append_left _ he, hbound i hi⟩⟩

end Submission

namespace World

variable {w w' : World}

/-- A batch that a step adds is added by a call of `submitBatch`. -/
theorem Step.submission (hs : Step D w w') {b : ℕ} {bt : Batch} (hnone : w.relay.court.batches[b]? = none)
    (hb : w'.relay.court.batches[b]? = some bt) :
    ∃ sender didHashes dataHashes data,
      w.step D (.call sender 0 (.submitBatch didHashes dataHashes data)) = .ok w' ∧
      w.relay.court.batches.length = b := by
  cases hs.change with
  | outside _ hrelay =>
    rw [hrelay, hnone] at hb
    cases hb
  | call he _ _ _ _ hstep =>
    obtain ⟨didHashes, dataHashes, data, _, rfl, hvalue, hindex, -⟩ := he.new_batch hnone hb
    obtain rfl := hvalue
    exact ⟨_, didHashes, dataHashes, data, hstep, hindex⟩
  | withdraw _ _ _ hw | withdrawReturn _ hw =>
    rw [hw] at hb
    exact absurd (hnone.symm.trans hb) (by simp)

/-- Every batch has been filed by a submission, and has its root and number of leaves still. -/
theorem Reachable.submitted (hw : Reachable D w) {b : ℕ} {bt : Batch} (hb : w.relay.court.batches[b]? = some bt) :
    ∃ x : Submission, x.Filed D b w ∧ x.Roots b bt := by
  refine hw.invariant (P := fun w => ∀ bt : Batch, w.relay.court.batches[b]? = some bt →
    ∃ x : Submission, x.Filed D b w ∧ x.Roots b bt) (fun _ _ bt hb => by simp [init, Storage.init] at hb) ?_ bt hb
  intro w w' hw ih hs bt' hb'
  rcases hb : w.relay.court.batches[b]? with _ | bt
  · obtain ⟨sender, didHashes, dataHashes, data, hcall, hindex⟩ := hs.submission hb hb'
    exact ⟨⟨w, w', sender, didHashes, dataHashes, data⟩, ⟨hw, hcall, hindex, .refl⟩, bt', hb', rfl, rfl⟩
  · obtain ⟨x, hx, bt0, hb0, hmerkle, hcount⟩ := ih bt hb
    obtain ⟨ov, hstep, -⟩ := hw.courtStep hs
    obtain ⟨st, n, hkept, -⟩ := hstep.batch hb
    obtain rfl := Option.some.inj (hkept.symm.trans hb')
    exact ⟨x, ⟨hx.reachable, hx.call, hx.index, hx.later.tail hs⟩, bt0, hb0, hmerkle, hcount⟩

end World

/-! ## Binding -/

/-- **A leaf that passes the proof check is the one bound at its index.** -/
theorem leaf_binding {D : Deployment} {w : World} (hw : w.Reachable D) (hinj : Function.Injective D.keccak256) {b : ℕ}
    {bt : Batch} (hb : w.relay.court.batches[b]? = some bt) :
    ∃ x : Submission, x.Filed D b w ∧
      ∀ (env : Env) (l : ℕ) (didHash : Bytes32) (nonce : Fin wordSize) (dataHash sigHash : Bytes32)
        (merkleProof : List Bytes32) (bt' : Batch),
        checkBatchLeaf D env b l didHash nonce dataHash sigHash merkleProof w.relay = .ok bt' →
          x.Binds D b l didHash nonce dataHash sigHash := by
  obtain ⟨x, hx, hroots⟩ := hw.submitted hb
  refine ⟨x, hx, fun env l didHash nonce dataHash sigHash proof bt' hcheck => ?_⟩
  obtain ⟨-, hb', -, hl, -, hproof⟩ := checkBatchLeaf_ok hcheck
  obtain rfl := Option.some.inj (hb.symm.trans hb')
  obtain ⟨leaves, hbuild, hlen, hbound⟩ := Submission.bound hx hroots
  have hleaves : ∀ y ∈ leaves, ¬ Merkle.IsNode (nodeHash D.toEvm) y := fun y hy => by
    obtain ⟨i, hi, rfl⟩ := List.mem_iff_getElem.1 hy
    obtain ⟨m, rfl, -, _, _, -, -, -, -, hleaf, -⟩ := hbound i (hlen ▸ hi)
    rw [List.getElem?_eq_getElem hi, Option.some.injEq] at hleaf
    rw [hleaf]
    exact leafHash_not_node hinj
  have hclaimed := leaf_of_verifyProof hinj hbuild hleaves (hlen ▸ hl) hproof
  obtain ⟨m, rfl, hlogs, did, dh, hdid, hdata, hnonce, hsize, hleaf, hevent⟩ := hbound l hl
  have hbn : b < wordSize := (List.getElem?_eq_some_iff.1 hb).1.trans hw.court.batches_length
  obtain ⟨-, rfl, hn, rfl, hsig⟩ :=
    leafHash_inj hinj hbn hbn hnonce nonce.isLt (Option.some.inj (hleaf.symm.trans hclaimed))
  rw [hn, hsig] at hevent
  rw [Nat.mul_comm, falcon512SigSizeMax] at hsig
  rw [falcon512SigSizeMax] at hsize
  exact ⟨hdid, hdata, hn.symm, hlogs _ hevent, hsig.symm, by omega⟩

/-- In a run with a batch of two leaves: the first leaf and its proof pass the check. -/
theorem leaf_binding_toy : ∃ x : Submission, x.Filed (Deployment.toy 2) 0 Toy.world ∧
    x.Binds (Deployment.toy 2) 0 0 Toy.did 4 Toy.did (Toy.sigHash 0) := by
  have hok : (checkBatchLeaf (Deployment.toy 2) (Toy.world.env 8 10) 0 0 Toy.did 4 Toy.did (Toy.sigHash 0)
      [Toy.leaf 1] Toy.world.relay).isOk := by decide +kernel
  rcases hcheck : checkBatchLeaf (Deployment.toy 2) (Toy.world.env 8 10) 0 0 Toy.did 4 Toy.did (Toy.sigHash 0)
      [Toy.leaf 1] Toy.world.relay with e | bt
  · rw [hcheck] at hok
    cases hok
  · obtain ⟨x, hx, hbinds⟩ := leaf_binding Toy.world_reachable Evm.toy_injective (checkBatchLeaf_ok hcheck).2.1
    exact ⟨x, hx, hbinds _ _ _ _ _ _ _ _ hcheck⟩

end PqIotAuth
