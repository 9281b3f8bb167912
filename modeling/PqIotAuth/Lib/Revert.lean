import Mathlib.Logic.Basic
import Mathlib.Data.List.Basic

/-!
# Programs that may revert

A program over a state `σ` that may fail is a value of `Except ε σ`. A guard is `revertIf`, a bounds-checked array
read is `load`, and a loop over an array is `List.foldlM`. What is proved here is what a successful run says:

* every guard it passed was false and every read was in range (the `_eq_ok` lemmas);
* a loop whose body, when it succeeds, is a pure function is the pure fold of that function
  (`foldlM_eq_foldl`), and every turn of it has succeeded (`foldlM_turn`);
* a loop succeeds when an invariant on the rest of the array lets every turn succeed (`foldlM_ok`).
-/

namespace PqIotAuth.Lib

variable {ε α β σ : Type}

/-- Fail with `e` when `c` holds. -/
def revertIf (c : Prop) [Decidable c] (e : ε) : Except ε Unit := if c then .error e else .ok ()

@[simp] theorem revertIf_eq_ok {c : Prop} [Decidable c] {e : ε} {u : Unit} :
    revertIf c e = .ok u ↔ ¬ c := by
  unfold revertIf
  split <;> simp [*]

theorem revertIf_of {c : Prop} [Decidable c] (h : c) (e : ε) : revertIf c e = .error e := if_pos h

theorem revertIf_of_not {c : Prop} [Decidable c] (h : ¬ c) (e : ε) : revertIf c e = .ok () := if_neg h

@[simp] theorem bind_eq_ok {x : Except ε α} {f : α → Except ε β} {b : β} :
    (x >>= f) = .ok b ↔ ∃ a, x = .ok a ∧ f a = .ok b := by
  cases x with
  | error e => simp [bind, Except.bind]
  | ok a => simp [bind, Except.bind]

@[simp] theorem pure_eq_ok {a b : α} : (pure a : Except ε α) = .ok b ↔ a = b := by
  simp [pure, Except.pure]

@[simp] theorem ok_bind (a : α) (f : α → Except ε β) : ((.ok a : Except ε α) >>= f) = f a := rfl

@[simp] theorem error_bind (e : ε) (f : α → Except ε β) : ((.error e : Except ε α) >>= f) = .error e := rfl

/-- A program that goes on in the same way after either branch. -/
theorem ite_bind {c : Prop} [Decidable c] (x y : Except ε α) (f : α → Except ε β) :
    (if c then x >>= f else y >>= f) = (if c then x else y) >>= f := by
  split <;> rfl

/-! ## Arrays -/

/-- The `i`-th element of an array, `e` when `i` is out of range. -/
def load (e : ε) (l : List α) (i : ℕ) : Except ε α :=
  match l[i]? with
  | some x => .ok x
  | none => .error e

@[simp] theorem load_eq_ok {e : ε} {l : List α} {i : ℕ} {x : α} :
    load e l i = .ok x ↔ l[i]? = some x := by
  unfold load
  cases l[i]? <;> simp

/-- Rewrite the `i`-th element of an array with `f`, `e` when `i` is out of range. -/
def modifyAt (e : ε) (l : List α) (i : ℕ) (f : α → α) : Except ε (List α) :=
  match l[i]? with
  | some x => .ok (l.set i (f x))
  | none => .error e

@[simp] theorem modifyAt_eq_ok {e : ε} {l l' : List α} {i : ℕ} {f : α → α} :
    modifyAt e l i f = .ok l' ↔ ∃ x, l[i]? = some x ∧ l' = l.set i (f x) := by
  unfold modifyAt
  cases l[i]? <;> simp [eq_comm]

/-! ## Loops -/

/-- A loop whose body computes `g` when it succeeds computes the fold of `g` when it succeeds. -/
theorem foldlM_eq_foldl {f : σ → α → Except ε σ} {g : σ → α → σ}
    (h : ∀ s x s', f s x = .ok s' → s' = g s x) :
    ∀ (l : List α) {s s' : σ}, l.foldlM f s = .ok s' → s' = l.foldl g s
  | [], _, _, hs => (pure_eq_ok.1 hs).symm
  | x :: l, s, s', hs => by
    rw [List.foldlM_cons, bind_eq_ok] at hs
    obtain ⟨t, ht, hs⟩ := hs
    rw [List.foldl_cons, ← h s x t ht]
    exact foldlM_eq_foldl h l hs

/-- What every turn of a loop preserves. -/
theorem foldlM_invariant {f : σ → α → Except ε σ} {P : σ → Prop} (h : ∀ s x s', f s x = .ok s' → P s → P s') :
    ∀ (l : List α) {s s' : σ}, l.foldlM f s = .ok s' → P s → P s'
  | [], _, _, hs, hP => pure_eq_ok.1 hs ▸ hP
  | x :: l, s, s', hs, hP => by
    rw [List.foldlM_cons, bind_eq_ok] at hs
    obtain ⟨t, ht, hs⟩ := hs
    exact foldlM_invariant h l hs (h s x t ht hP)

/-- What commutes with one turn of a loop commutes with the loop. -/
theorem foldlM_map {f : σ → α → Except ε σ} {g : σ → σ} (h : ∀ s x, f (g s) x = g <$> f s x) (s : σ) (l : List α) :
    l.foldlM f (g s) = g <$> l.foldlM f s := by
  induction l generalizing s with
  | nil => rfl
  | cons x l ih =>
    rw [List.foldlM_cons, List.foldlM_cons, h, bind_map_left, map_bind]
    exact bind_congr fun s' => ih s'

/-- Every turn of a loop that succeeds has succeeded. -/
theorem foldlM_turn {f : σ → α → Except ε σ} {x : α} :
    ∀ (l : List α) {s s' : σ}, l.foldlM f s = .ok s' → x ∈ l → ∃ t t', f t x = .ok t'
  | y :: l, s, s', hs, hx => by
    rw [List.foldlM_cons, bind_eq_ok] at hs
    obtain ⟨t, ht, hs⟩ := hs
    rcases List.mem_cons.1 hx with rfl | hx
    · exact ⟨s, t, ht⟩
    · exact foldlM_turn l hs hx

/-- A loop succeeds when `P`, a property of the state and of the rest of the array, lets every turn succeed and
survives it. -/
theorem foldlM_ok {f : σ → α → Except ε σ} {g : σ → α → σ} {P : σ → List α → Prop}
    (h : ∀ s x l, P s (x :: l) → f s x = .ok (g s x) ∧ P (g s x) l) :
    ∀ (l : List α) {s : σ}, P s l → l.foldlM f s = .ok (l.foldl g s)
  | [], _, _ => rfl
  | x :: l, s, hs => by
    obtain ⟨h1, h2⟩ := h s x l hs
    rw [List.foldlM_cons, h1, ok_bind, List.foldl_cons]
    exact foldlM_ok h l h2

end PqIotAuth.Lib
