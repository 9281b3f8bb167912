import Mathlib.Data.List.Basic
import Mathlib.Tactic.Ring

/-!
# Merkle trees

A Merkle tree over any type of hashes, with any two-argument `node`: a level is the list of its hashes, the next level
pairs them from the left, an odd last one with itself, and the root is what is left when one hash is. A proof is walked
from the leaves up, the parity of the index saying on which side the hash stands.

`walk_sound`: when `node` is injective and no leaf is a node, a walk that ends at the root starts at the leaf of its
index. The proof peels the walk from the top (`walk_root`): a walk with more steps than the tree has levels reaches a
leaf with a node, and one with fewer starts at a node.

`walk_path`: the siblings of a position on the way up (`path`) walk its hash to the root.
-/

namespace PqIotAuth.Lib.Merkle

variable {H : Type} (node : H → H → H)

/-- The level above. -/
def parents : List H → List H
  | [] => []
  | [a] => [node a a]
  | a :: b :: l => node a b :: parents l

theorem length_parents : ∀ l : List H, (parents node l).length = (l.length + 1) / 2
  | [] => by simp [parents]
  | [_] => by simp [parents]
  | a :: b :: l => by
    simp only [parents, List.length_cons, length_parents l]
    omega

/-- Entry `i` of the level above is the node over the entries `2i` and `2i + 1`, or `2i` twice at an odd end. -/
theorem getElem?_parents : ∀ (l : List H) (i : ℕ) {a : H}, l[2 * i]? = some a →
    (parents node l)[i]? = some (node a (l[2 * i + 1]?.getD a))
  | [], i, a, h => by simp at h
  | [x], i, a, h => by
    obtain ⟨hi, rfl⟩ := List.getElem?_eq_some_iff.1 h
    obtain rfl : i = 0 := by simp at hi; omega
    rfl
  | x :: y :: l, 0, a, h => by
    simp only [Nat.mul_zero, List.getElem?_cons_zero, Option.some.injEq] at h
    subst h
    rfl
  | x :: y :: l, i + 1, a, h => by
    have e : 2 * (i + 1) = 2 * i + 2 := by ring_nf
    simp only [e, List.getElem?_cons_succ] at h
    simp only [parents, e, List.getElem?_cons_succ]
    exact getElem?_parents l i h

/-- The hash at the top of the tree over a level; `d` when the level is empty. -/
def root (d : H) (l : List H) : H :=
  if _h : l.length ≤ 1 then l.headD d else root d (parents node l)
termination_by l.length
decreasing_by
  rw [length_parents]
  omega

/-- The number of levels above a level of `n` hashes. -/
def depth (n : ℕ) : ℕ := if _h : n ≤ 1 then 0 else depth ((n + 1) / 2) + 1
termination_by n
decreasing_by omega

/-- The hash that a proof leads to from `h` at the index `idx`. -/
def walk : List H → ℕ → H → H
  | [], _, h => h
  | p :: proof, idx, h => walk proof (idx / 2) (if idx % 2 = 0 then node h p else node p h)

theorem walk_concat (proof : List H) (q : H) (idx : ℕ) (h : H) :
    walk node (proof ++ [q]) idx h =
      if idx / 2 ^ proof.length % 2 = 0 then node (walk node proof idx h) q else node q (walk node proof idx h) := by
  induction proof generalizing idx h with
  | nil => simp [walk]
  | cons p proof ih =>
    rw [List.cons_append, walk, ih, walk, List.length_cons, pow_succ', Nat.div_div_eq_div_mul]

/-! ## Soundness -/

section Sound

variable {node}

/-- A hash of a level above the leaves. -/
def IsNode (node : H → H → H) (h : H) : Prop := ∃ a b, h = node a b

theorem isNode_of_mem_parents : ∀ {l : List H} {h : H}, h ∈ parents node l → IsNode node h
  | [], h, hm => by simp [parents] at hm
  | [a], h, hm => ⟨a, a, by simpa [parents] using hm⟩
  | a :: b :: l, h, hm => by
    rcases List.mem_cons.1 hm with e | hm
    · exact ⟨a, b, e⟩
    · exact isNode_of_mem_parents hm

theorem isNode_walk {proof : List H} (hp : proof ≠ []) (idx : ℕ) (h : H) : IsNode node (walk node proof idx h) := by
  obtain ⟨front, q, rfl⟩ : ∃ front q, proof = front ++ [q] := ⟨_, _, (List.dropLast_append_getLast hp).symm⟩
  rw [walk_concat]
  split
  · exact ⟨_, _, rfl⟩
  · exact ⟨_, _, rfl⟩

/-- One step down: when the last step of a walk ends at entry `i` of a level, the walk without it ends at an entry of
the level below, which is the one its index says where that is in range. -/
theorem step_down (hinj : ∀ a b c d, node a b = node c d → a = c ∧ b = d) {l front : List H} {q h : H} {idx i : ℕ}
    (hi : (parents node l)[i]? = some (walk node (front ++ [q]) idx h))
    (hidx : idx / 2 ^ (front ++ [q]).length < (parents node l).length → i = idx / 2 ^ (front ++ [q]).length) :
    ∃ j, l[j]? = some (walk node front idx h) ∧ (idx / 2 ^ front.length < l.length → j = idx / 2 ^ front.length) := by
  have hlt : 2 * i < l.length := by
    have := (List.getElem?_eq_some_iff.1 hi).1
    rw [length_parents] at this
    omega
  have hl := List.getElem?_eq_getElem hlt
  rw [getElem?_parents node l i hl, walk_concat, Option.some.injEq] at hi
  rw [length_parents, List.length_append, List.length_singleton, pow_succ, ← Nat.div_div_eq_div_mul] at hidx
  generalize hk : idx / 2 ^ front.length = k at hi hidx ⊢
  by_cases hpar : k % 2 = 0
  · rw [if_pos hpar] at hi
    refine ⟨2 * i, ?_, fun hlt' => ?_⟩
    · rw [hl, (hinj _ _ _ _ hi).1]
    · have := hidx (by omega)
      omega
  · rw [if_neg hpar] at hi
    have hq := (hinj _ _ _ _ hi).2
    rcases hn : l[2 * i + 1]? with _ | b
    · -- an odd end: the entry stands on both sides, and the index is out of range
      rw [hn] at hq
      refine ⟨2 * i, by rw [hl, ← hq]; rfl, fun hlt' => ?_⟩
      have h1 := List.getElem?_eq_none_iff.1 hn
      have := hidx (by omega)
      omega
    · rw [hn] at hq
      refine ⟨2 * i + 1, by rw [hn, ← hq]; rfl, fun hlt' => ?_⟩
      have := hidx (by omega)
      omega

/-- A walk that ends at the root, peeled down to the leaves: with at least as many steps as there are levels, the steps
before those lead to a leaf; with fewer, it starts at a node. -/
theorem walk_root (hinj : ∀ a b c d, node a b = node c d → a = c ∧ b = d) (d : H) (proof : List H) (idx : ℕ) (h : H)
    (l : List H) (hl : l ≠ []) (hw : walk node proof idx h = root node d l) :
    if depth l.length ≤ proof.length then
      ∃ i, l[i]? = some (walk node (proof.take (proof.length - depth l.length)) idx h) ∧
        (idx / 2 ^ (proof.length - depth l.length) < l.length → i = idx / 2 ^ (proof.length - depth l.length))
    else IsNode node h := by
  induction hn : l.length using Nat.strong_induction_on generalizing l with
  | _ n ih =>
    subst hn
    have hpos : 0 < l.length := List.length_pos_iff.2 hl
    by_cases h1 : l.length ≤ 1
    · -- one hash: it is the root
      rw [depth, dif_pos h1, if_pos (Nat.zero_le _), Nat.sub_zero, List.take_length, hw, root, dif_pos h1]
      refine ⟨0, ?_, fun hlt => (Nat.lt_one_iff.1 (hlt.trans_le h1)).symm⟩
      cases l with
      | nil => exact absurd rfl hl
      | cons a l => rfl
    · rw [root, dif_neg h1] at hw
      have hlen := length_parents node l
      have hp : parents node l ≠ [] := List.length_pos_iff.1 (by omega)
      have hup := ih _ (by omega) (parents node l) hp hw rfl
      rw [depth, dif_neg h1, ← hlen]
      generalize hm : depth (parents node l).length = m at hup ⊢
      by_cases hle : m + 1 ≤ proof.length
      · rw [if_pos (by omega)] at hup
        rw [if_pos hle]
        obtain ⟨i, hi, hidx⟩ := hup
        have hlt : proof.length - (m + 1) < proof.length := by omega
        have htake : proof.take (proof.length - m) =
            proof.take (proof.length - (m + 1)) ++ [proof[proof.length - (m + 1)]] := by
          rw [List.take_append_getElem hlt]
          congr 1
          omega
        have hlen1 : (proof.take (proof.length - (m + 1)) ++ [proof[proof.length - (m + 1)]]).length =
            proof.length - m := by
          rw [← htake, List.length_take]
          omega
        have hlen2 : (proof.take (proof.length - (m + 1))).length = proof.length - (m + 1) := by
          rw [List.length_take]
          omega
        rw [htake] at hi
        rw [← hlen1] at hidx
        have := step_down hinj hi hidx
        rwa [hlen2] at this
      · rw [if_neg hle]
        by_cases hm' : m ≤ proof.length
        · -- as many steps as there are levels above: the walk starts at a parent
          rw [if_pos hm'] at hup
          obtain ⟨i, hi, -⟩ := hup
          have e : proof.length - m = 0 := by omega
          rw [e, List.take_zero] at hi
          exact isNode_of_mem_parents (List.mem_of_getElem? hi)
        · rwa [if_neg hm'] at hup

/-- **Soundness.** When `node` is injective and no leaf is a node, whatever is not a node and is walked to the root from
an index in range is the leaf at that index. -/
theorem walk_sound (hinj : ∀ a b c d, node a b = node c d → a = c ∧ b = d) {d : H} {l proof : List H} {idx : ℕ} {h : H}
    (hleaf : ∀ x ∈ l, ¬ IsNode node x) (hh : ¬ IsNode node h) (hidx : idx < l.length)
    (hw : walk node proof idx h = root node d l) : l[idx]? = some h := by
  have hl : l ≠ [] := List.length_pos_iff.1 (by omega)
  have := walk_root hinj d proof idx h l hl hw
  split at this
  · obtain ⟨i, hi, he⟩ := this
    by_cases htake : proof.take (proof.length - depth l.length) = []
    · rw [htake] at hi
      have hz : proof.length - depth l.length = 0 := by
        rcases List.take_eq_nil_iff.1 htake with e | e
        · exact e
        · rw [e, List.length_nil]
          omega
      rw [hz, pow_zero, Nat.div_one] at he
      rw [← he hidx]
      exact hi
    · exact absurd (isNode_walk htake idx h) (hleaf _ (List.mem_of_getElem? hi))
  · exact absurd this hh

end Sound

/-! ## Completeness -/

/-- The position that the position `i` of a level of `n` hashes is paired with, itself at an odd end. -/
def sibling (n i : ℕ) : ℕ := if i % 2 = 0 then (if i + 1 < n then i + 1 else i) else i - 1

theorem sibling_lt {n i : ℕ} (h : i < n) : sibling n i < n := by
  unfold sibling
  split
  · split <;> omega
  · omega

/-- The hash above an entry and its sibling. -/
theorem getElem?_parents_half {l : List H} {i : ℕ} {h q : H} (hi : l[i]? = some h)
    (hq : l[sibling l.length i]? = some q) :
    (parents node l)[i / 2]? = some (if i % 2 = 0 then node h q else node q h) := by
  have hlt : i < l.length := (List.getElem?_eq_some_iff.1 hi).1
  unfold sibling at hq
  by_cases hpar : i % 2 = 0
  · have e : 2 * (i / 2) = i := by omega
    rw [if_pos hpar] at hq
    rw [if_pos hpar, getElem?_parents node l (i / 2) (e ▸ hi), e]
    by_cases hend : i + 1 < l.length
    · rw [if_pos hend] at hq
      rw [hq]
      rfl
    · -- an odd end: the entry is its own sibling
      rw [if_neg hend, hi] at hq
      rw [List.getElem?_eq_none (by omega), Option.some.inj hq]
      rfl
  · have e : 2 * (i / 2) = i - 1 := by omega
    have e' : i - 1 + 1 = i := by omega
    rw [if_neg hpar] at hq
    rw [if_neg hpar, getElem?_parents node l (i / 2) (e ▸ hq), e, e', hi]
    rfl

/-- The proof of the position `i` of a level: its siblings on the way to the root. -/
def path (l : List H) (i : ℕ) : List H :=
  if _h : l.length ≤ 1 then [] else l[sibling l.length i]?.toList ++ path (parents node l) (i / 2)
termination_by l.length
decreasing_by
  rw [length_parents]
  omega

/-- **Completeness.** The proof of a position walks its hash to the root. -/
theorem walk_path (d : H) (l : List H) (i : ℕ) {h : H} (hi : l[i]? = some h) :
    walk node (path node l i) i h = root node d l := by
  induction l, i using path.induct node generalizing h with
  | case1 l i h1 =>
    rw [path, dif_pos h1, root, dif_pos h1, walk]
    cases l with
    | nil => simp at hi
    | cons a l =>
      obtain rfl : i = 0 := by
        have := (List.getElem?_eq_some_iff.1 hi).1
        omega
      exact (Option.some.inj hi).symm
  | case2 l i h1 ih =>
    have hq := List.getElem?_eq_getElem (sibling_lt (List.getElem?_eq_some_iff.1 hi).1)
    rw [path, dif_neg h1, root, dif_neg h1, hq, Option.toList_some, List.singleton_append, walk]
    exact ih (getElem?_parents_half node hi hq)

end PqIotAuth.Lib.Merkle
