import Mathlib.Algebra.BigOperators.Group.Finset.Basic
import Mathlib.Algebra.BigOperators.Group.List.Basic
import Mathlib.Algebra.Order.BigOperators.Group.Finset
import Mathlib.Algebra.BigOperators.Ring.Finset
import Mathlib.Tactic.Ring

/-!
# Sums and counts under a change of one entry

A mapping is a function changed with `Function.update`, an array a list changed with `List.set`. Every total over such
a store (a sum over all keys, a sum or a count over all entries) changes by the difference at the one entry that was
written; the lemmas say so as equations between sums, so that no subtraction is truncated.
-/

namespace PqIotAuth.Lib

variable {α β : Type}

/-! ## Mappings -/

section Mapping

variable [DecidableEq α]

theorem sum_update [Fintype α] (f : α → ℕ) (a : α) (n : ℕ) :
    ∑ x, Function.update f a n x + f a = ∑ x, f x + n := by
  have hrest : ∑ x ∈ Finset.univ.erase a, Function.update f a n x = ∑ x ∈ Finset.univ.erase a, f x :=
    Finset.sum_congr rfl fun x hx => Function.update_of_ne (Finset.ne_of_mem_erase hx) _ _
  rw [← Finset.add_sum_erase _ _ (Finset.mem_univ a), ← Finset.add_sum_erase _ f (Finset.mem_univ a), hrest,
    Function.update_self]
  ring

/-- Counters discounted one after the other, in either order. -/
theorem update_pred_comm (f : α → ℕ) (a b : α) :
    Function.update (Function.update f a (f a - 1)) b (Function.update f a (f a - 1) b - 1) =
      Function.update (Function.update f b (f b - 1)) a (Function.update f b (f b - 1) a - 1) := by
  by_cases h : a = b
  · rw [h]
  · rw [Function.update_of_ne (Ne.symm h), Function.update_of_ne h, Function.update_comm h]

/-- The number of keys of a finite set with a property, after the property has changed at one of them. -/
theorem card_filter_update (S : Finset α) (f : α → β) (p : β → Prop) [DecidablePred p] {a : α} (ha : a ∈ S) (b : β) :
    (S.filter fun x => p (Function.update f a b x)).card + (if p (f a) then 1 else 0) =
      (S.filter fun x => p (f x)).card + if p b then 1 else 0 := by
  have hrest : ∀ x ∈ S.erase a, (if p (Function.update f a b x) then 1 else 0) = if p (f x) then 1 else 0 :=
    fun x hx => by rw [Function.update_of_ne (Finset.ne_of_mem_erase hx)]
  rw [Finset.card_filter, Finset.card_filter, ← Finset.add_sum_erase S _ ha, ← Finset.add_sum_erase S _ ha,
    Finset.sum_congr rfl hrest, Function.update_self]
  ring

end Mapping

/-! ## Arrays -/

theorem sum_map_set (f : α → ℕ) {l : List α} {i : ℕ} {a : α} (h : l[i]? = some a) (b : α) :
    ((l.set i b).map f).sum + f a = (l.map f).sum + f b := by
  induction l generalizing i with
  | nil => simp at h
  | cons x l ih =>
    cases i with
    | zero =>
      simp only [List.getElem?_cons_zero, Option.some.injEq] at h
      subst h
      simp only [List.set_cons_zero, List.map_cons, List.sum_cons]
      ring
    | succ i =>
      have := ih (by simpa using h)
      simp only [List.set_cons_succ, List.map_cons, List.sum_cons]
      omega

theorem countP_set (p : α → Bool) {l : List α} {i : ℕ} {a : α} (h : l[i]? = some a) (b : α) :
    (l.set i b).countP p + (if p a then 1 else 0) = l.countP p + if p b then 1 else 0 := by
  induction l generalizing i with
  | nil => simp at h
  | cons x l ih =>
    cases i with
    | zero =>
      simp only [List.getElem?_cons_zero, Option.some.injEq] at h
      subst h
      simp only [List.set_cons_zero, List.countP_cons]
      omega
    | succ i =>
      have := ih (by simpa using h)
      simp only [List.set_cons_succ, List.countP_cons]
      omega

theorem countP_pos_of_getElem? {p : α → Bool} {l : List α} {i : ℕ} {a : α} (h : l[i]? = some a) (hp : p a) :
    0 < l.countP p :=
  List.countP_pos_iff.2 ⟨a, List.mem_of_getElem? h, hp⟩

/-- What an array holds after a write: at the written index the new entry, elsewhere the old one. -/
theorem getElem?_set_some {l : List α} {i j : ℕ} {a b x : α} (h : l[i]? = some a) :
    (l.set i b)[j]? = some x ↔ (j = i ∧ x = b) ∨ (j ≠ i ∧ l[j]? = some x) := by
  have hi : i < l.length := (List.getElem?_eq_some_iff.1 h).1
  rw [List.getElem?_set]
  by_cases hij : i = j
  · subst hij
    simp [hi, eq_comm]
  · simp [hij, Ne.symm hij]

theorem getElem?_append_singleton {l : List α} {j : ℕ} {b x : α} :
    (l ++ [b])[j]? = some x ↔ (j = l.length ∧ x = b) ∨ (j < l.length ∧ l[j]? = some x) := by
  rcases Nat.lt_trichotomy j l.length with h | h | h
  · rw [List.getElem?_append_left h]
    simp [h, Nat.ne_of_lt h]
  · subst h
    simp [eq_comm]
  · rw [List.getElem?_append_right (by omega)]
    have : [b][j - l.length]? = none := by simp; omega
    rw [this]
    simp
    omega

theorem modify_eq_set {l : List α} {i : ℕ} {a : α} (h : l[i]? = some a) (f : α → α) : l.modify i f = l.set i (f a) := by
  rw [List.modify_eq_set_getElem?, h]
  rfl

theorem set_self {l : List α} {i : ℕ} {a : α} (h : l[i]? = some a) : l.set i a = l := by
  obtain ⟨hi, rfl⟩ := List.getElem?_eq_some_iff.1 h
  exact List.set_getElem_self hi

/-- A field that a write leaves alone. -/
theorem map_modify_eq {g : α → β} {f : α → α} (h : ∀ a, g (f a) = g a) (l : List α) (i : ℕ) :
    (l.modify i f).map g = l.map g := by
  induction l generalizing i with
  | nil => simp
  | cons a l ih =>
    cases i with
    | zero => simp [h]
    | succ i => simp [ih]

theorem map_set_eq {g : α → β} {l : List α} {i : ℕ} {a b : α} (h : l[i]? = some a) (hg : g b = g a) :
    (l.set i b).map g = l.map g := by
  rw [← modify_eq_set h fun _ => b]
  refine List.ext_getElem? fun j => ?_
  simp only [List.getElem?_map, List.getElem?_modify]
  split
  · rename_i e
    subst e
    rw [h]
    exact congrArg some hg
  · cases l[j]? <;> rfl

/-- An array counted through a finite set of classes: the entries in one of the classes, class by class. -/
theorem countP_mem_eq_sum [DecidableEq β] (f : α → β) (p : α → Bool) (S : Finset β) (l : List α) :
    l.countP (fun x => p x && decide (f x ∈ S)) = ∑ t ∈ S, l.countP (fun x => p x && decide (f x = t)) := by
  induction l with
  | nil => simp
  | cons x l ih =>
    simp only [List.countP_cons, Finset.sum_add_distrib, ih]
    congr 1
    cases hp : p x with
    | false => simp
    | true => simp

end PqIotAuth.Lib
