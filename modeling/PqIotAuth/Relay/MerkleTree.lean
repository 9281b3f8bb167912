import PqIotAuth.Lib.Merkle
import PqIotAuth.Relay.Hashing

/-!
# The Merkle tree of a batch

`_buildTree` overwrites one array level after level: a turn of its inner loop reads entries that no earlier turn has
written, so each pass leaves the level above in front (`foldlM_buildTreeTurn`) and the array ends with the root of
`Lib.Merkle` (`buildTree_eq`). `_verifyProof` is the walk of `Lib.Merkle` (`verifyProof_iff`). With an injective
`keccak256` a node determines its children and a leaf its fields, and no leaf is a node, their preimages having
different lengths; so a proof that verifies proves the leaf at its index (`leaf_of_verifyProof`).
-/

namespace PqIotAuth

open Lib

variable (E : Evm)

/-! ## Building -/

/-- A turn whose reads find the two children writes their parent. -/
theorem buildTreeTurn_eq {n i : ℕ} {arr : List Bytes32} {left : Bytes32} (hi : 2 * i < n) (hn : n ≤ arr.length)
    (hleft : arr[2 * i]? = some left) :
    buildTreeTurn E n arr i =
      .ok (arr.set i (nodeHash E left (if 2 * i + 1 < n then arr[2 * i + 1]?.getD left else left))) := by
  have hright : load boundsPanic arr (if 2 * i + 1 < n then 2 * i + 1 else 2 * i) =
      .ok (if 2 * i + 1 < n then arr[2 * i + 1]?.getD left else left) := by
    rw [load_eq_ok]
    split
    · rename_i h
      rw [List.getElem?_eq_getElem (show 2 * i + 1 < arr.length by omega)]
      rfl
    · exact hleft
  have hi' : i < arr.length := by omega
  unfold buildTreeTurn
  rw [load_eq_ok.2 hleft, ok_bind, hright, ok_bind, store, modifyAt_eq_ok.2]
  exact ⟨_, List.getElem?_eq_getElem hi', rfl⟩

/-- The entries of a level above, read off the level. -/
theorem getElem?_parents_take {arr : List Bytes32} {n i : ℕ} {left : Bytes32} (hi : 2 * i < n)
    (hleft : arr[2 * i]? = some left) :
    (Merkle.parents (nodeHash E) (arr.take n))[i]? =
      some (nodeHash E left (if 2 * i + 1 < n then arr[2 * i + 1]?.getD left else left)) := by
  rw [Merkle.getElem?_parents (nodeHash E) _ i (a := left) (by rw [List.getElem?_take_of_lt hi, hleft])]
  split
  · rename_i h
    rw [List.getElem?_take_of_lt h]
  · rename_i h
    rw [List.getElem?_take_eq_none (by omega)]
    rfl

/-- After `m` turns the first `m` entries are parents and the rest are as before. -/
theorem foldlM_buildTreeTurn {arr : List Bytes32} {n : ℕ} (hn : n ≤ arr.length) (m : ℕ) (hm : m ≤ (n + 1) / 2) :
    ∃ arr', (List.range m).foldlM (buildTreeTurn E n) arr = .ok arr' ∧ arr'.length = arr.length ∧
      (∀ j < m, arr'[j]? = (Merkle.parents (nodeHash E) (arr.take n))[j]?) ∧ ∀ j, m ≤ j → arr'[j]? = arr[j]? := by
  induction m with
  | zero => exact ⟨arr, rfl, rfl, fun j hj => absurd hj (Nat.not_lt_zero j), fun _ _ => rfl⟩
  | succ m ih =>
    obtain ⟨arr', hrun, hlen, hdone, hrest⟩ := ih (by omega)
    have hi : 2 * m < n := by omega
    have hleft := List.getElem?_eq_getElem (show 2 * m < arr.length by omega)
    -- both children are at or behind the entry to write, where nothing has changed
    have hleft' : arr'[2 * m]? = some arr[2 * m] := by rw [hrest _ (by omega), hleft]
    have hturn := buildTreeTurn_eq E hi (hlen ▸ hn) hleft'
    rw [hrest (2 * m + 1) (by omega)] at hturn
    refine ⟨arr'.set m (nodeHash E arr[2 * m] (if 2 * m + 1 < n then arr[2 * m + 1]?.getD arr[2 * m] else arr[2 * m])),
      ?_, List.length_set.trans hlen, fun j hj => ?_, fun j hj => ?_⟩
    · rw [List.range_succ, List.foldlM_append, hrun, ok_bind, List.foldlM_cons, hturn, ok_bind]
      rfl
    · by_cases hjm : j = m
      · subst hjm
        rw [List.getElem?_set_self (by omega), getElem?_parents_take E hi hleft]
      · rw [List.getElem?_set_ne (Ne.symm hjm)]
        exact hdone j (by omega)
    · rw [List.getElem?_set_ne (by omega)]
      exact hrest j (by omega)

theorem buildTreeLoop_eq (d : Bytes32) (fuel n : ℕ) (arr : List Bytes32) (hfuel : n ≤ fuel) (hpos : 0 < n)
    (hn : n ≤ arr.length) :
    ∃ arr', buildTreeLoop E fuel n arr = .ok arr' ∧ arr'[0]? = some (Merkle.root (nodeHash E) d (arr.take n)) := by
  induction fuel generalizing n arr with
  | zero => omega
  | succ fuel ih =>
    have hlen : (arr.take n).length = n := List.length_take_of_le hn
    by_cases h1 : n > 1
    · obtain ⟨up, hrun, huplen, hdone, -⟩ := foldlM_buildTreeTurn E hn ((n + 1) / 2) le_rfl
      have htake : up.take ((n + 1) / 2) = Merkle.parents (nodeHash E) (arr.take n) := by
        refine List.ext_getElem? fun j => ?_
        by_cases hj : j < (n + 1) / 2
        · rw [List.getElem?_take_of_lt hj, hdone j hj]
        · rw [List.getElem?_take_eq_none (by omega), List.getElem?_eq_none]
          rw [Merkle.length_parents, hlen]
          omega
      obtain ⟨arr', hloop, hroot⟩ := ih ((n + 1) / 2) up (by omega) (by omega) (by omega)
      refine ⟨arr', ?_, ?_⟩
      · rw [buildTreeLoop, if_pos h1, hrun, ok_bind, hloop]
      · rw [hroot, htake, Merkle.root.eq_1 _ _ (arr.take n), dif_neg (by omega)]
    · have hn1 : n = 1 := by omega
      subst hn1
      refine ⟨arr, ?_, ?_⟩
      · rw [buildTreeLoop, if_neg h1]
        rfl
      · rw [Merkle.root, dif_pos (by omega)]
        cases arr with
        | nil => simp at hn
        | cons a l => rfl

/-- **The array that `_buildTree` overwrites ends with the root of the tree.** -/
theorem buildTree_eq (d : Bytes32) {leaves : List Bytes32} (h : leaves ≠ []) :
    buildTree E leaves = .ok (Merkle.root (nodeHash E) d leaves) := by
  have hpos : 0 < leaves.length := List.length_pos_iff.2 h
  unfold buildTree
  split
  · rename_i h1
    rw [load_eq_ok, Merkle.root, dif_pos (by omega)]
    cases leaves with
    | nil => exact absurd rfl h
    | cons a l => rfl
  · obtain ⟨arr, hloop, hroot⟩ := buildTreeLoop_eq E d (leaves.length + 1) leaves.length leaves (by omega) hpos le_rfl
    rw [hloop, ok_bind, load_eq_ok, hroot, List.take_length]

/-! ## Verifying -/

theorem verifyProofLoop_eq_walk (proof : List Bytes32) (idx : ℕ) (h : Bytes32) :
    verifyProofLoop E proof idx h = Merkle.walk (nodeHash E) proof idx h := by
  induction proof generalizing idx h with
  | nil => rfl
  | cons p proof ih => exact ih _ _

theorem verifyProof_iff {leaf root : Bytes32} {proof : List Bytes32} {index : ℕ} :
    verifyProof E leaf proof index root ↔ Merkle.walk (nodeHash E) proof index leaf = root := by
  rw [verifyProof, verifyProofLoop_eq_walk, decide_eq_true_iff]

/-! ## Binding -/

variable {E} (hinj : Function.Injective E.keccak256)

include hinj in
theorem nodeHash_inj {a b c d : Bytes32} (h : nodeHash E a b = nodeHash E c d) : a = c ∧ b = d := by
  obtain ⟨h1, h2⟩ := List.append_inj (hinj h) (by rw [a.length_eq, c.length_eq])
  exact ⟨Bytes32.ext' h1, Bytes32.ext' h2⟩

/-- Values of 32 bytes each can be read off their concatenation. -/
theorem flatten_inj : ∀ {ws ws' : List (List Byte)}, ws.length = ws'.length → (∀ w ∈ ws, w.length = 32) →
    (∀ w ∈ ws', w.length = 32) → ws.flatten = ws'.flatten → ws = ws'
  | [], [], _, _, _, _ => rfl
  | w :: ws, w' :: ws', hlen, hw, hw', h => by
    rw [List.flatten_cons, List.flatten_cons] at h
    obtain ⟨h1, h2⟩ := List.append_inj h ((hw w (by simp)).trans (hw' w' (by simp)).symm)
    rw [h1, flatten_inj (by simpa using hlen) (fun x hx => hw x (by simp [hx])) (fun x hx => hw' x (by simp [hx])) h2]

theorem length_flatten_words {ws : List (List Byte)} (h : ∀ w ∈ ws, w.length = 32) :
    ws.flatten.length = 32 * ws.length := by
  induction ws with
  | nil => rfl
  | cons w ws ih =>
    rw [List.flatten_cons, List.length_append, h w (by simp), ih fun x hx => h x (by simp [hx]), List.length_cons]
    omega

/-- The values of an ABI encoding can be read off it. -/
theorem abiEncode_inj {s : List Byte} {ws ws' : List (List Byte)} (hlen : ws.length = ws'.length)
    (hw : ∀ w ∈ ws, w.length = 32) (hw' : ∀ w ∈ ws', w.length = 32) (h : abiEncode s ws = abiEncode s ws') :
    ws = ws' := by
  unfold abiEncode at h
  simp only [List.append_assoc] at h
  obtain ⟨-, h⟩ := List.append_inj h (by simp)
  obtain ⟨h, -⟩ := List.append_inj h (by rw [length_flatten_words hw, length_flatten_words hw', hlen])
  exact flatten_inj hlen hw hw' h

theorem length_abiEncode (s : List Byte) {ws : List (List Byte)} (hw : ∀ w ∈ ws, w.length = 32) :
    (abiEncode s ws).length = 64 + 32 * ws.length + s.length + (abiPadding s.length).length := by
  simp only [abiEncode, List.length_append, length_uint256Bytes, length_flatten_words hw]
  omega

section Leaves

variable {D : Deployment} {b b' : ℕ} {didHash didHash' dataHash dataHash' sigHash sigHash' : Bytes32} {nonce nonce' : ℕ}

theorem leafWords_length : ∀ w ∈ [uint256Bytes D.chainid, uint256Bytes D.self, uint256Bytes b, didHash.bytes,
    uint256Bytes nonce, dataHash.bytes, sigHash.bytes], w.length = 32 := by
  intro w hw
  simp only [List.mem_cons, List.not_mem_nil, or_false] at hw
  rcases hw with rfl | rfl | rfl | rfl | rfl | rfl | rfl
  all_goals simp [Bytes32.length_eq]

/-- The hash of a leaf determines its batch and its fields. -/
theorem leafHash_inj (hinj : Function.Injective D.keccak256) (hb : b < wordSize) (hb' : b' < wordSize)
    (hn : nonce < wordSize) (hn' : nonce' < wordSize)
    (h : leafHash D b didHash nonce dataHash sigHash = leafHash D b' didHash' nonce' dataHash' sigHash') :
    b = b' ∧ didHash = didHash' ∧ nonce = nonce' ∧ dataHash = dataHash' ∧ sigHash = sigHash' := by
  have hpre : leafPreimage D b didHash nonce dataHash sigHash = leafPreimage D b' didHash' nonce' dataHash' sigHash' :=
    hinj h
  unfold leafPreimage at hpre
  have hwords := abiEncode_inj (by rfl) (by exact leafWords_length) (by exact leafWords_length) hpre
  simp only [List.cons.injEq, and_true] at hwords
  obtain ⟨-, -, h1, h2, h3, h4, h5⟩ := hwords
  exact ⟨uint256Bytes_inj hb hb' h1, Bytes32.ext' h2, uint256Bytes_inj hn hn' h3, Bytes32.ext' h4, Bytes32.ext' h5⟩

/-- No leaf is a node: the preimage of a leaf has 320 bytes, that of a node 64. -/
theorem leafHash_not_node (hinj : Function.Injective D.keccak256) :
    ¬ Merkle.IsNode (nodeHash D.toEvm) (leafHash D b didHash nonce dataHash sigHash) := by
  rintro ⟨left, right, h⟩
  have hlen := congrArg List.length (hinj h)
  rw [leafPreimage, length_abiEncode _ leafWords_length, List.length_append, left.length_eq, right.length_eq] at hlen
  simp only [List.length_cons, List.length_nil] at hlen
  omega

/-- **A proof that verifies proves the leaf at its index.** -/
theorem leaf_of_verifyProof (hinj : Function.Injective D.keccak256) {leaves proof : List Bytes32} {root : Bytes32}
    {index : ℕ} (hroot : buildTree D.toEvm leaves = .ok root)
    (hleaves : ∀ x ∈ leaves, ¬ Merkle.IsNode (nodeHash D.toEvm) x) (hindex : index < leaves.length)
    (h : verifyProof D.toEvm (leafHash D b didHash nonce dataHash sigHash) proof index root) :
    leaves[index]? = some (leafHash D b didHash nonce dataHash sigHash) := by
  have hne : leaves ≠ [] := List.length_pos_iff.1 (by omega)
  rw [buildTree_eq D.toEvm root hne] at hroot
  rw [verifyProof_iff, ← Except.ok.inj hroot] at h
  exact Merkle.walk_sound (fun _ _ _ _ => nodeHash_inj hinj) hleaves (leafHash_not_node hinj) hindex h

end Leaves

end PqIotAuth
