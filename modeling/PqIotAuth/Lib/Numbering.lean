import Mathlib.Data.List.Count
import Mathlib.Data.List.Nodup
import Mathlib.Data.List.Range
import Mathlib.Logic.Function.Basic

/-!
# Numbering by key

Every key has a counter, and each entry that arrives under a key takes the next number of that counter. `number f ks`
is what the entries with the keys `ks` get when the counters stand at `f`, `advance f ks` where the counters stand then.
However the keys are mixed, the entries of one key get consecutive numbers (`numbers_of`), later ones higher numbers
(`pairwise_number`), so no two entries share key and number (`nodup_number`).
-/

namespace PqIotAuth.Lib

variable {K : Type} [DecidableEq K]

/-- The counters after entries with the keys `ks`. -/
def advance (f : K → ℕ) (ks : List K) (k : K) : ℕ := f k + ks.count k

/-- The entries with the keys `ks`, each with its number. -/
def number (f : K → ℕ) : List K → List (K × ℕ)
  | [] => []
  | k :: ks => (k, f k + 1) :: number (Function.update f k (f k + 1)) ks

variable (f : K → ℕ) (ks : List K)

@[simp] theorem advance_nil : advance f [] = f := by
  funext k
  rw [advance, List.count_nil, Nat.add_zero]

theorem advance_cons (k : K) : advance f (k :: ks) = advance (Function.update f k (f k + 1)) ks := by
  funext j
  unfold advance
  by_cases hj : j = k
  · subst hj
    rw [Function.update_self, List.count_cons_self]
    omega
  · rw [Function.update_of_ne hj, List.count_cons_of_ne (Ne.symm hj)]

theorem advance_singleton (k : K) : advance f [k] = Function.update f k (f k + 1) := by
  rw [advance_cons, advance_nil]

theorem number_append (ks' : List K) : number f (ks ++ ks') = number f ks ++ number (advance f ks) ks' := by
  induction ks generalizing f with
  | nil => rw [advance_nil, number, List.nil_append, List.nil_append]
  | cons k ks ih => rw [List.cons_append, number, ih, number, advance_cons, List.cons_append]

theorem advance_append (ks' : List K) : advance f (ks ++ ks') = advance (advance f ks) ks' := by
  funext k
  rw [advance, advance, advance, List.count_append, Nat.add_assoc]

@[simp] theorem map_fst_number : (number f ks).map Prod.fst = ks := by
  induction ks generalizing f with
  | nil => rfl
  | cons k ks ih => rw [number, List.map_cons, ih]

/-- The entries of one key get the numbers that follow its counter, in the order of their arrival. -/
theorem numbers_of (k : K) :
    ((number f ks).filter fun p => p.1 = k).map Prod.snd = List.range' (f k + 1) (ks.count k) := by
  induction ks generalizing f with
  | nil => rfl
  | cons j ks ih =>
    rw [number]
    by_cases hj : j = k
    · subst hj
      rw [List.filter_cons_of_pos (by simp), List.map_cons, ih, Function.update_self, List.count_cons_self,
        List.range'_succ]
    · rw [List.filter_cons_of_neg (by simpa using hj), ih, Function.update_of_ne (Ne.symm hj),
        List.count_cons_of_ne hj]

theorem le_of_mem_number {k : K} {n : ℕ} (h : (k, n) ∈ number f ks) : f k < n ∧ n ≤ advance f ks k := by
  have hmem : n ∈ ((number f ks).filter fun p => p.1 = k).map Prod.snd :=
    List.mem_map.2 ⟨(k, n), List.mem_filter.2 ⟨h, by simp⟩, rfl⟩
  rw [numbers_of, List.mem_range'_1] at hmem
  unfold advance
  omega

/-- Later entries of a key get higher numbers. -/
theorem pairwise_number : (number f ks).Pairwise fun p q => p.1 = q.1 → p.2 < q.2 := by
  induction ks generalizing f with
  | nil => exact List.Pairwise.nil
  | cons k ks ih =>
    rw [number, List.pairwise_cons]
    refine ⟨?_, ih _⟩
    rintro ⟨j, n⟩ hmem rfl
    have hlt := (le_of_mem_number _ _ hmem).1
    rwa [Function.update_self] at hlt

/-- No two entries get the same number under the same key. -/
theorem nodup_number : (number f ks).Nodup := by
  refine (pairwise_number f ks).imp ?_
  rintro p q hlt rfl
  exact absurd (hlt rfl) (lt_irrefl _)

end PqIotAuth.Lib
