import Mathlib.Data.List.Range

/-!
# Nested loops

A loop over `d` elements with an inner loop of `k` turns for each of them is one loop of `d * k` turns: its turn `m` is
the turn `m % k` of the element `m / k` (`foldlM_nested`). The turns are programs of any monad, so the rule holds for
loops that fail, and an invariant of the one loop is proved by an induction on the number of its turns
(`foldlM_range_succ`).
-/

namespace PqIotAuth.Lib

variable {α β σ : Type}

/-- The pairs of an element and a turn, by their numbers. -/
theorem flatMap_range (d k : ℕ) (f : ℕ → ℕ → α) :
    ((List.range d).flatMap fun i => (List.range k).map (f i)) =
      (List.range (d * k)).map fun m => f (m / k) (m % k) := by
  induction d with
  | zero => rw [Nat.zero_mul, List.range_zero, List.flatMap_nil, List.map_nil]
  | succ d ih =>
    rw [List.range_succ, List.flatMap_append, ih, Nat.succ_mul, List.range_add, List.map_append, List.map_map,
      List.flatMap_singleton]
    refine congrArg _ (List.map_congr_left fun j hj => ?_)
    have hlt := List.mem_range.1 hj
    rw [Function.comp_apply, Nat.mul_comm d k, Nat.mul_add_div (by omega), Nat.div_eq_of_lt hlt, Nat.add_zero,
      Nat.mul_add_mod, Nat.mod_eq_of_lt hlt]

theorem zipIdx_map_range (d : ℕ) (x : ℕ → α) :
    ((List.range d).map x).zipIdx = (List.range d).map fun i => (x i, i) := by
  refine List.ext_getElem? fun i => ?_
  rw [List.getElem?_zipIdx, List.getElem?_map, List.getElem?_map, Option.map_map, Nat.zero_add]
  by_cases hi : i < d
  · rw [List.getElem?_range hi]
    rfl
  · rw [List.getElem?_eq_none (by rw [List.length_range]; omega)]
    rfl

variable {M : Type → Type} [Monad M] [LawfulMonad M]

theorem foldlM_flatMap (g : α → List β) (f : σ → β → M σ) (l : List α) (s : σ) :
    (l.flatMap g).foldlM f s = l.foldlM (fun s a => (g a).foldlM f s) s := by
  induction l generalizing s with
  | nil => rfl
  | cons a l ih =>
    rw [List.flatMap_cons, List.foldlM_append, List.foldlM_cons]
    exact congrArg _ (funext ih)

theorem foldlM_range_succ (f : σ → ℕ → M σ) (n : ℕ) (s : σ) :
    (List.range (n + 1)).foldlM f s = (List.range n).foldlM f s >>= fun s => f s n := by
  rw [List.range_succ, List.foldlM_append]
  simp only [List.foldlM_cons, List.foldlM_nil, bind_pure]

/-- A loop over the elements `x 0, x 1, …` with their indices, and an inner loop for each of them. -/
theorem foldlM_nested (f : α → ℕ → ℕ → σ → M σ) (d k : ℕ) (x : ℕ → α) (s : σ) :
    (((List.range d).map x).zipIdx.foldlM (fun s (a, i) => (List.range k).foldlM (fun s j => f a i j s) s) s) =
      (List.range (d * k)).foldlM (fun s m => f (x (m / k)) (m / k) (m % k) s) s := by
  have hturns := congrArg (fun l => l.foldlM (fun s t => f t.1 t.2.1 t.2.2 s) s)
    (flatMap_range d k fun i j => (x i, i, j))
  simp only [foldlM_flatMap, List.foldlM_map] at hturns
  rw [zipIdx_map_range, List.foldlM_map]
  exact hturns

end PqIotAuth.Lib
