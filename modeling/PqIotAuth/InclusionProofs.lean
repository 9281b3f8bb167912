import PqIotAuth.Nonces

/-!
# Inclusion proofs

Whoever disputes a leaf needs its proof, which no event tells: `buildTreeWithProofs` of the benchmark script builds the
tree again from the published leaves and collects the siblings of every position on the way up. It keeps a list of
positions and a list of proofs where the contract overwrites its one array, and `_verifyProof` halves an index. All of
them compute the tree of `Lib.Merkle`, whose `walk_path` says that the collected siblings lead to the root; so every
leaf of a batch can be disputed with what the events tell (`inclusion_proofs`).
-/

namespace PqIotAuth

open Lib

/-! ## The script -/

section Script

variable (E : Evm)

/-- The hashes of the next level; `none` where the script would read past the end of an array. -/
def nextLevel (level : List Bytes32) : Option (List Bytes32) :=
  (List.range ((level.length + 1) / 2)).mapM fun i => do
    let left ← level[2 * i]?
    let right ← if 2 * i + 1 < level.length then level[2 * i + 1]? else some left
    return nodeHash E left right

/-- One turn of the loop over the positions: the proof of the leaf `i` takes the sibling of its position, and the
position moves up. -/
def proofsTurn (level : List Bytes32) (m : List (List Bytes32) × List ℕ) (i : ℕ) :
    Option (List (List Bytes32) × List ℕ) := do
  let pos ← m.2[i]?
  let sibling := if pos % 2 = 0 then (if pos + 1 < level.length then pos + 1 else pos) else pos - 1
  let hash ← level[sibling]?
  let proof ← m.1[i]?
  return (m.1.set i (proof ++ [hash]), m.2.set i (pos / 2))

/-- The loop over the levels. The fuel only bounds the recursion. -/
def buildTreeWithProofsLoop : ℕ → List Bytes32 → List (List Bytes32) → List ℕ →
    Option (Bytes32 × List (List Bytes32))
  | 0, _, _, _ => none
  | fuel + 1, level, proofs, positions =>
    if level.length > 1 then do
      let next ← nextLevel E level
      let m ← (List.range positions.length).foldlM (proofsTurn level) (proofs, positions)
      buildTreeWithProofsLoop fuel next m.1 m.2
    else do
      let root ← level[0]?
      return (root, proofs)

/-- The root of the tree over the leaves, and the proof of each of them. -/
def buildTreeWithProofs (leaves : List Bytes32) : Option (Bytes32 × List (List Bytes32)) :=
  buildTreeWithProofsLoop E (leaves.length + 1) leaves (leaves.map fun _ => []) (List.range leaves.length)

end Script

/-! ## What the script builds -/

section Script

variable {E : Evm}

theorem mapM_range {α : Type} {f : ℕ → Option α} {l : List α} (h : ∀ i < l.length, f i = l[i]?) :
    (List.range l.length).mapM f = some l := by
  induction l using List.reverseRecOn with
  | nil => rfl
  | append_singleton l a ih =>
    have hfront := ih fun i hi => by
      rw [h i (by rw [List.length_append]; omega), List.getElem?_append_left hi]
    have hlast : f l.length = some a := by
      rw [h _ (by simp), List.getElem?_concat_length]
    rw [List.length_append, List.length_singleton, List.range_succ, List.mapM_append, hfront]
    simp [hlast]

theorem nextLevel_eq (level : List Bytes32) : nextLevel E level = some (Merkle.parents (nodeHash E) level) := by
  unfold nextLevel
  rw [← Merkle.length_parents (nodeHash E)]
  refine mapM_range fun i hi => ?_
  rw [Merkle.length_parents] at hi
  have hleft := List.getElem?_eq_getElem (show 2 * i < level.length by omega)
  rw [Merkle.getElem?_parents (nodeHash E) level i hleft, hleft]
  split
  · rename_i h
    rw [List.getElem?_eq_getElem h]
    rfl
  · rename_i h
    rw [List.getElem?_eq_none (by omega)]
    rfl

/-- What the loop over the positions has done after `k` turns. -/
structure ProofsTurns (level : List Bytes32) (proofs : List (List Bytes32)) (positions : List ℕ) (k : ℕ)
    (m : List (List Bytes32) × List ℕ) : Prop where
  proofs_length : m.1.length = proofs.length
  positions_length : m.2.length = positions.length
  done : ∀ (i : ℕ) (proof : List Bytes32) (pos : ℕ), i < k → proofs[i]? = some proof → positions[i]? = some pos →
    m.1[i]? = some (proof ++ level[Merkle.sibling level.length pos]?.toList) ∧ m.2[i]? = some (pos / 2)
  rest : ∀ i, k ≤ i → m.1[i]? = proofs[i]? ∧ m.2[i]? = positions[i]?

theorem foldlM_proofsTurn {level : List Bytes32} {proofs : List (List Bytes32)} {positions : List ℕ}
    (hlen : proofs.length = positions.length) (hlt : ∀ p ∈ positions, p < level.length) {k : ℕ}
    (hk : k ≤ positions.length) :
    ∃ m, (List.range k).foldlM (proofsTurn level) (proofs, positions) = some m ∧
      ProofsTurns level proofs positions k m := by
  induction k with
  | zero => exact ⟨_, rfl, rfl, rfl, fun i _ _ hi => absurd hi (Nat.not_lt_zero i), fun _ _ => ⟨rfl, rfl⟩⟩
  | succ k ih =>
    obtain ⟨m, hrun, hm⟩ := ih (by omega)
    have hpos := List.getElem?_eq_getElem (show k < positions.length by omega)
    have hproof := List.getElem?_eq_getElem (show k < proofs.length by omega)
    generalize positions[k] = pos at hpos
    generalize proofs[k] = proof at hproof
    obtain ⟨hkproof, hkpos⟩ := hm.rest k le_rfl
    -- the sibling of a position of the level is one too
    obtain ⟨hash, hsibling⟩ : ∃ hash, level[Merkle.sibling level.length pos]? = some hash :=
      ⟨_, List.getElem?_eq_getElem (Merkle.sibling_lt (hlt pos (List.mem_of_getElem? hpos)))⟩
    have hturn : proofsTurn level m k = some (m.1.set k (proof ++ [hash]), m.2.set k (pos / 2)) := by
      unfold Merkle.sibling at hsibling
      unfold proofsTurn
      rw [hkpos, hpos, hkproof, hproof]
      simp only [Option.bind_eq_bind, Option.bind_some, hsibling, Option.pure_def]
    refine ⟨(m.1.set k (proof ++ [hash]), m.2.set k (pos / 2)), ?_, List.length_set.trans hm.proofs_length,
      List.length_set.trans hm.positions_length, fun i proof' pos' hi hproof' hpos' => ?_, fun i hi => ?_⟩
    · rw [List.range_succ, List.foldlM_append, hrun]
      simp [hturn]
    · by_cases hik : i = k
      · subst hik
        obtain rfl := Option.some.inj (hpos.symm.trans hpos')
        obtain rfl := Option.some.inj (hproof.symm.trans hproof')
        have h1 : i < m.1.length := by rw [hm.proofs_length]; omega
        have h2 : i < m.2.length := by rw [hm.positions_length]; omega
        exact ⟨by rw [List.getElem?_set_self h1, hsibling]; rfl, List.getElem?_set_self h2⟩
      · rw [List.getElem?_set_ne (Ne.symm hik), List.getElem?_set_ne (Ne.symm hik)]
        exact hm.done i proof' pos' (by omega) hproof' hpos'
    · rw [List.getElem?_set_ne (by omega), List.getElem?_set_ne (by omega)]
      exact hm.rest i (by omega)

/-- From a level on, every proof is continued by the path of its position. -/
theorem buildTreeWithProofsLoop_eq (E : Evm) (d : Bytes32) {fuel : ℕ} {level : List Bytes32}
    (proofs : List (List Bytes32)) (positions : List ℕ) (hfuel : level.length ≤ fuel) (hpos : level ≠ [])
    (hlen : proofs.length = positions.length) (hlt : ∀ p ∈ positions, p < level.length) :
    ∃ proofs', buildTreeWithProofsLoop E fuel level proofs positions =
        some (Merkle.root (nodeHash E) d level, proofs') ∧ proofs'.length = proofs.length ∧
      ∀ (i : ℕ) (proof : List Bytes32) (pos : ℕ), proofs[i]? = some proof → positions[i]? = some pos →
        proofs'[i]? = some (proof ++ Merkle.path (nodeHash E) level pos) := by
  induction fuel generalizing level proofs positions with
  | zero => exact absurd (List.length_eq_zero_iff.1 (by omega)) hpos
  | succ fuel ih =>
    have hpos' := List.length_pos_iff.2 hpos
    by_cases h1 : level.length > 1
    · obtain ⟨m, hrun, hm⟩ := foldlM_proofsTurn hlen hlt le_rfl
      have hup := Merkle.length_parents (nodeHash E) level
      have hne : Merkle.parents (nodeHash E) level ≠ [] := List.length_pos_iff.1 (by omega)
      have hlen' : m.1.length = m.2.length := by rw [hm.proofs_length, hm.positions_length, hlen]
      have hlt' : ∀ p ∈ m.2, p < (Merkle.parents (nodeHash E) level).length := by
        intro p hp
        obtain ⟨i, hi, rfl⟩ := List.mem_iff_getElem.1 hp
        have hi' : i < positions.length := hm.positions_length ▸ hi
        have hdone := (hm.done i _ _ hi' (List.getElem?_eq_getElem (hlen ▸ hi')) (List.getElem?_eq_getElem hi')).2
        rw [List.getElem?_eq_getElem hi, Option.some.injEq] at hdone
        have := hlt _ (List.getElem_mem hi')
        omega
      obtain ⟨proofs', hloop, hlength, hproofs⟩ := ih _ _ (by omega) hne hlen' hlt'
      refine ⟨proofs', ?_, hlength.trans hm.proofs_length, fun i proof pos hproof hposi => ?_⟩
      · rw [buildTreeWithProofsLoop, if_pos h1, nextLevel_eq, hrun, Merkle.root, dif_neg (by omega)]
        exact hloop
      · obtain ⟨h2, h3⟩ := hm.done i proof pos (List.getElem?_eq_some_iff.1 hposi).1 hproof hposi
        rw [Merkle.path, dif_neg (by omega), ← List.append_assoc]
        exact hproofs i _ _ h2 h3
    · refine ⟨proofs, ?_, rfl, fun i proof pos hproof _ => ?_⟩
      · rw [buildTreeWithProofsLoop, if_neg h1, Merkle.root, dif_pos (by omega)]
        cases level with
        | nil => exact absurd rfl hpos
        | cons a l => rfl
      · rw [Merkle.path, dif_pos (by omega), List.append_nil]
        exact hproof

/-- The contract, the script and the tree of the library have one root, and every proof of the script verifies. -/
structure TreesAgree (E : Evm) (leaves : List Bytes32) (root : Bytes32) (proofs : List (List Bytes32)) : Prop where
  contract : buildTree E leaves = .ok root
  script : buildTreeWithProofs E leaves = some (root, proofs)
  plain : ∀ d, Merkle.root (nodeHash E) d leaves = root
  proofs_length : proofs.length = leaves.length
  verified : ∀ (i : ℕ) (leaf : Bytes32), leaves[i]? = some leaf →
    ∃ proof, proofs[i]? = some proof ∧ verifyProof E leaf proof i root = true

theorem treesAgree (E : Evm) {leaves : List Bytes32} (h : leaves ≠ []) :
    ∃ root proofs, TreesAgree E leaves root proofs := by
  have hplain : ∀ d d', Merkle.root (nodeHash E) d leaves = Merkle.root (nodeHash E) d' leaves := fun d d' =>
    Except.ok.inj ((buildTree_eq E d h).symm.trans (buildTree_eq E d' h))
  have d := leaves.head h
  obtain ⟨proofs, hscript, hlength, hproofs⟩ :=
    buildTreeWithProofsLoop_eq E d (leaves.map fun _ => []) (List.range leaves.length)
      (show leaves.length ≤ leaves.length + 1 by omega) h (by simp) (fun p hp => List.mem_range.1 hp)
  refine ⟨_, proofs, buildTree_eq E d h, hscript, fun d' => hplain d' d, hlength.trans (List.length_map _),
    fun i leaf hi => ?_⟩
  have hlt := (List.getElem?_eq_some_iff.1 hi).1
  have hpath := hproofs i [] i (by rw [List.getElem?_map, hi]; rfl) (List.getElem?_range hlt)
  refine ⟨_, hpath, ?_⟩
  rw [List.nil_append]
  exact (verifyProof_iff E).2 (Merkle.walk_path (nodeHash E) d leaves i hi)

end Script

/-! ## Disputes with the published data -/

section Published

variable {D : Deployment} {env : Env} {w : World} {b l : ℕ} {bt : Batch}

/-- The leaves of a batch as its events tell them. -/
def Storage.published (D : Deployment) (b : ℕ) (s : Storage) : List Bytes32 := (s.leaves D b).map Prod.fst

/-- Every leaf that is published comes from an event that tells its fields. -/
theorem World.Reachable.published (hw : w.Reachable D) (hb : w.relay.court.batches[b]? = some bt) :
    (w.relay.published D b).length = bt.leafCount ∧
      buildTree D.toEvm (w.relay.published D b) = .ok bt.merkleRoot ∧
      ∀ l < bt.leafCount, ∃ (didHash : Bytes32) (nonce : Fin wordSize) (dataHash sigHash : Bytes32),
        .batchLeaf b l didHash nonce dataHash sigHash ∈ w.relay.logs ∧
          (w.relay.published D b)[l]? = some (leafHash D b didHash nonce dataHash sigHash) := by
  obtain ⟨leaves, htold, hlen, hroot⟩ := hw.filingsTold.batches b bt hb
  have hpub : w.relay.published D b = leaves := by
    rw [Storage.published, htold, List.zipIdx_map_fst]
  rw [hpub]
  refine ⟨hlen, hroot, fun l hl => ?_⟩
  have hl' : l < leaves.length := hlen ▸ hl
  -- the event that the leaf has been read off
  have hmem : (leaves[l], l) ∈ w.relay.leaves D b := by
    rw [htold, List.mem_zipIdx_iff_getElem?]
    exact List.getElem?_eq_getElem hl'
  obtain ⟨e, he, hleaf⟩ := List.mem_filterMap.1 hmem
  obtain ⟨hlogs, hof⟩ := List.mem_filter.1 he
  obtain ⟨i, didHash, nonce, dataHash, sigHash, rfl, hnonce⟩ := hw.filingsTold.bounded e hlogs b hof
  obtain ⟨hhash, rfl⟩ := Prod.mk.inj (Option.some.inj hleaf)
  exact ⟨didHash, ⟨nonce, hnonce⟩, dataHash, sigHash, hlogs, by rw [List.getElem?_eq_getElem hl', ← hhash]⟩

/-- While there is room for it, a leaf that passes the check is put under dispute. -/
theorem World.Reachable.openBatchLeafDispute_returns (hw : w.Reachable D) {sender : Address} {value : ℕ}
    {didHash : Bytes32} {nonce : Fin wordSize} {dataHash sigHash : Bytes32} {proof : List Bytes32}
    (hcheck : checkBatchLeaf D (w.env sender value) b l didHash nonce dataHash sigHash proof w.relay = .ok bt)
    (htime : w.now + D.challengePeriod < uint64Size) (hroom : w.relay.court.disputes.length + 1 < wordSize) :
    ∃ w', w.step D (.call sender value (.openBatchLeafDispute b l didHash nonce dataHash sigHash proof)) = .ok w' := by
  have hopen : w.relay.court.batchOpenLeafDisputes b + 1 < wordSize := by
    rw [hw.court.open_leaves]
    exact (Nat.succ_le_succ List.countP_le_length).trans_lt hroom
  have hactive : w.relay.court.relayActiveDisputes bt.relay + 1 < wordSize := by
    rw [hw.court.active]
    exact (Nat.succ_le_succ List.countP_le_length).trans_lt hroom
  have hclock : uint64 w.now + D.challengePeriod < uint64Size :=
    (Nat.add_le_add_right (Nat.mod_le _ _) _).trans_lt htime
  have hrun : ∃ s', openBatchLeafDispute D (w.env sender value) b l didHash nonce dataHash sigHash proof w.relay =
      .ok s' := by
    unfold openBatchLeafDispute addActiveDispute pushDispute
    simp only [hcheck, ok_bind, bind_eq_ok, checkedAdd_eq_ok, checkedAdd64_eq_ok, push_eq_ok, pure_eq_ok]
    exact ⟨_, _, ⟨hopen, rfl⟩, _, ⟨_, ⟨hactive, rfl⟩, rfl⟩, _, ⟨hclock, rfl⟩, _, ⟨hroom, rfl⟩, rfl⟩
  obtain ⟨s', hs'⟩ := hrun
  rw [World.step, Call.exec, revertIf_of_not (by simp [Call.payable]), ok_bind, Call.run, hs']
  exact ⟨_, rfl⟩

/-- With the tuple of its event and the proof of the script, the leaf `l` of the batch can be disputed. -/
structure Disputable (D : Deployment) (w : World) (b l : ℕ) (bt : Batch) (didHash : Bytes32) (nonce : Fin wordSize)
    (dataHash sigHash : Bytes32) (proof : List Bytes32) : Prop where
  event : .batchLeaf b l didHash nonce dataHash sigHash ∈ w.relay.logs
  check : ∀ env : Env, D.challengerBondAmount ≤ env.value → bt.state = .provisional →
    w.relay.court.batchLeafState b l ≠ .disputed → w.relay.court.batchLeafState b l ≠ .revoked →
      checkBatchLeaf D env b l didHash nonce dataHash sigHash proof w.relay = .ok bt
  opens : ∀ (sender : Address) (value : ℕ), D.challengerBondAmount ≤ value → bt.state = .provisional →
    w.relay.court.batchLeafState b l ≠ .disputed → w.relay.court.batchLeafState b l ≠ .revoked →
      w.now + D.challengePeriod < uint64Size → w.relay.court.disputes.length + 1 < wordSize →
        ∃ w', w.step D (.call sender value (.openBatchLeafDispute b l didHash nonce dataHash sigHash proof)) = .ok w'

theorem World.Reachable.disputable (hw : w.Reachable D) (hb : w.relay.court.batches[b]? = some bt)
    (hl : l < bt.leafCount) {didHash : Bytes32} {nonce : Fin wordSize} {dataHash sigHash : Bytes32}
    {proof : List Bytes32} (hevent : .batchLeaf b l didHash nonce dataHash sigHash ∈ w.relay.logs)
    (hproof : verifyProof D.toEvm (leafHash D b didHash nonce dataHash sigHash) proof l bt.merkleRoot = true) :
    Disputable D w b l bt didHash nonce dataHash sigHash proof := by
  have hcheck : ∀ env : Env, D.challengerBondAmount ≤ env.value → bt.state = .provisional →
      w.relay.court.batchLeafState b l ≠ .disputed → w.relay.court.batchLeafState b l ≠ .revoked →
        checkBatchLeaf D env b l didHash nonce dataHash sigHash proof w.relay = .ok bt := by
    intro env hbond hstate hnot hnot'
    unfold checkBatchLeaf
    simp only [bind_eq_ok, load_eq_ok, revertIf_eq_ok, pure_eq_ok]
    exact ⟨(), Nat.not_lt.2 hbond, bt, hb, (), by simp [hstate], (), Nat.not_le.2 hl, (), not_or.2 ⟨hnot, hnot'⟩, (),
      by simp [hproof], rfl⟩
  exact ⟨hevent, hcheck, fun sender value hbond hstate hnot hnot' htime hroom =>
    hw.openBatchLeafDispute_returns (hcheck (w.env sender value) hbond hstate hnot hnot') htime hroom⟩

end Published

/-- **The trees agree, and every leaf of every batch can be disputed with the published data.** -/
theorem inclusion_proofs :
    (∀ (E : Evm) (leaves : List Bytes32), leaves ≠ [] → ∃ root proofs, TreesAgree E leaves root proofs) ∧
    ∀ (D : Deployment) (w : World), w.Reachable D → ∀ (b : ℕ) (bt : Batch), w.relay.court.batches[b]? = some bt →
      ∃ proofs, TreesAgree D.toEvm (w.relay.published D b) bt.merkleRoot proofs ∧ proofs.length = bt.leafCount ∧
        ∀ l < bt.leafCount, ∃ (didHash : Bytes32) (nonce : Fin wordSize) (dataHash sigHash : Bytes32)
          (proof : List Bytes32), proofs[l]? = some proof ∧
          (w.relay.published D b)[l]? = some (leafHash D b didHash nonce dataHash sigHash) ∧
          Disputable D w b l bt didHash nonce dataHash sigHash proof := by
  refine ⟨fun E leaves h => treesAgree E h, fun D w hw b bt hb => ?_⟩
  obtain ⟨hlen, hroot, hleaves⟩ := hw.published hb
  have hne : w.relay.published D b ≠ [] := by
    intro hnil
    rw [hnil] at hroot
    cases hroot
  obtain ⟨root, proofs, htrees⟩ := treesAgree D.toEvm hne
  obtain rfl := Except.ok.inj (htrees.contract.symm.trans hroot)
  refine ⟨proofs, htrees, htrees.proofs_length.trans hlen, fun l hl => ?_⟩
  obtain ⟨didHash, nonce, dataHash, sigHash, hevent, hleaf⟩ := hleaves l hl
  obtain ⟨proof, hproof, hverified⟩ := htrees.verified l _ hleaf
  exact ⟨didHash, nonce, dataHash, sigHash, proof, hproof, hleaf, hw.disputable hb hl hevent hverified⟩

/-- Three leaves, the last one its own sibling; and the first leaf of the batch of a run, which nobody disputes. -/
theorem inclusion_proofs_toy :
    (∃ root proofs, TreesAgree Evm.toy [Toy.leaf 0, Toy.leaf 1, Toy.leaf 2] root proofs) ∧
    ∃ (didHash : Bytes32) (nonce : Fin wordSize) (dataHash sigHash : Bytes32) (proof : List Bytes32) (w' : World),
      Toy.world.step (Deployment.toy 2) (.call 9 10 (.openBatchLeafDispute 0 0 didHash nonce dataHash sigHash proof)) =
        .ok w' := by
  refine ⟨inclusion_proofs.1 Evm.toy [Toy.leaf 0, Toy.leaf 1, Toy.leaf 2] (by simp), ?_⟩
  obtain ⟨hbatch, hdisputed, hrevoked, htime, hroom⟩ :
      (Toy.world.relay.court.batches[0]?.map fun bt => (bt.state, bt.leafCount)) = some (.provisional, 2) ∧
      Toy.world.relay.court.batchLeafState 0 0 ≠ .disputed ∧ Toy.world.relay.court.batchLeafState 0 0 ≠ .revoked ∧
      Toy.world.now + (Deployment.toy 2).challengePeriod < uint64Size ∧
      Toy.world.relay.court.disputes.length + 1 < wordSize := by decide +kernel
  obtain ⟨bt, hb, hbt⟩ := Option.map_eq_some_iff.1 hbatch
  obtain ⟨hstate, hcount⟩ := Prod.mk.inj hbt
  obtain ⟨proofs, -, -, hleaves⟩ :=
    inclusion_proofs.2 (Deployment.toy 2) Toy.world Toy.world_reachable 0 bt hb
  obtain ⟨didHash, nonce, dataHash, sigHash, proof, -, -, h⟩ := hleaves 0 (by omega)
  obtain ⟨w', hw'⟩ := h.opens 9 10 (by decide) hstate hdisputed hrevoked htime hroom
  exact ⟨didHash, nonce, dataHash, sigHash, proof, w', hw'⟩

end PqIotAuth
