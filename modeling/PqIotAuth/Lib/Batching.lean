import Mathlib.Data.List.Induction
import Mathlib.Tactic.Ring

/-!
# Batching

A loop over a list holds the elements it accepts until `size` of them are held, and then hands them over; what is still
held at the end is handed over last. Along with every element goes the one that the loop has just read when it hands
over: `closing` says from the positions alone which one that is, and `handedOver_eq` that the loop agrees. Every
accepted element is handed over once and in order, whatever the size.
-/

namespace PqIotAuth.Lib.Batching

variable {α : Type} (accept : α → Bool) (size : ℕ)

/-- What the loop has handed over, each element after the one read last, and what it holds. -/
structure Buffer (α : Type) where
  handed : List (α × α)
  held : List α

/-- The held elements are handed over when `x` has been read. -/
def Buffer.hand (x : α) (b : Buffer α) : Buffer α := ⟨b.handed ++ b.held.map fun y => (x, y), []⟩

/-- A turn of the loop. -/
def Buffer.feed (b : Buffer α) (x : α) : Buffer α :=
  if accept x then
    if size ≤ b.held.length + 1 then Buffer.hand x ⟨b.handed, b.held ++ [x]⟩ else ⟨b.handed, b.held ++ [x]⟩
  else b

/-- The buffer after the loop over `xs`. -/
def fed (xs : List α) : Buffer α := xs.foldl (Buffer.feed accept size) ⟨[], []⟩

/-- All that is handed over, the last batch included. -/
def handedOver (xs : List α) : List (α × α) :=
  match xs.getLast? with
  | some x => ((fed accept size xs).hand x).handed
  | none => []

/-- The element at which the accepted element `j` is handed over: the accepted one that completes its batch, or the
last of all where none does. -/
def closing (xs : List α) (j : ℕ) : Option α := ((xs.filter accept)[(j / size + 1) * size - 1]?).or xs.getLast?

theorem fed_concat (xs : List α) (x : α) :
    fed accept size (xs ++ [x]) = (fed accept size xs).feed accept size x := by
  rw [fed, List.foldl_append]
  rfl

/-- The buffer after the loop over `xs`: full batches have been handed over, each at its last element. -/
structure Fed (xs : List α) (b : Buffer α) : Prop where
  elements : b.handed.map Prod.snd ++ b.held = xs.filter accept
  full : size ∣ b.handed.length
  held_lt : b.held.length < size
  handed_at : ∀ (j : ℕ) (p : α × α), b.handed[j]? = some p →
    (xs.filter accept)[(j / size + 1) * size - 1]? = some p.1

variable {accept size} {xs : List α} {b : Buffer α}

theorem Buffer.map_hand (x : α) (b : Buffer α) :
    (b.hand x).handed.map Prod.snd = b.handed.map Prod.snd ++ b.held := by
  simp [Buffer.hand, Function.comp_def]

theorem Buffer.length_hand (x : α) (b : Buffer α) :
    (b.hand x).handed.length = b.handed.length + b.held.length := by
  simp [Buffer.hand]

theorem Buffer.hand_of_nil {x : α} {b : Buffer α} (h : b.held = []) : b.hand x = b := by
  cases b
  simp_all [Buffer.hand]

/-- What is handed over at a position: what was before, or one of the held elements, at `x`. -/
theorem Buffer.getElem?_hand {x : α} {b : Buffer α} {j : ℕ} {p : α × α} (h : (b.hand x).handed[j]? = some p) :
    b.handed[j]? = some p ∨ p.1 = x ∧ ∃ i < b.held.length, j = b.handed.length + i := by
  by_cases hj : j < b.handed.length
  · rw [Buffer.hand, List.getElem?_append_left hj] at h
    exact .inl h
  · rw [Buffer.hand, List.getElem?_append_right (by omega), List.getElem?_map, Option.map_eq_some_iff] at h
    obtain ⟨y, hy, rfl⟩ := h
    exact .inr ⟨rfl, j - b.handed.length, (List.getElem?_eq_some_iff.1 hy).1, by omega⟩

theorem Fed.length (h : Fed accept size xs b) : (xs.filter accept).length = b.handed.length + b.held.length := by
  rw [← h.elements, List.length_append, List.length_map]

/-- The batch that follows full batches ends `size` elements on. -/
theorem closing_position {m i : ℕ} (hfull : size ∣ m) (hi : i < size) :
    ((m + i) / size + 1) * size - 1 = m + (size - 1) := by
  obtain ⟨q, rfl⟩ := hfull
  have hdiv : (size * q + i) / size = q := by
    rw [Nat.mul_add_div (by omega), Nat.div_eq_of_lt hi, Nat.add_zero]
  rw [hdiv, Nat.add_mul, Nat.mul_comm q, Nat.one_mul]
  omega

/-- A turn that accepts its element, which completes the batch or does not. -/
theorem Fed.accepted (h : Fed accept size xs b) {x : α} (hx : accept x) :
    Fed accept size (xs ++ [x]) (b.feed accept size x) := by
  have hlen := h.length
  have hlt := h.held_lt
  have hfilter : (xs ++ [x]).filter accept = xs.filter accept ++ [x] := by
    rw [List.filter_append, List.filter_cons_of_pos hx, List.filter_nil]
  -- what has been handed over before stays where it is
  have hold : ∀ (j : ℕ) (p : α × α), b.handed[j]? = some p →
      ((xs ++ [x]).filter accept)[(j / size + 1) * size - 1]? = some p.1 := by
    intro j p hp
    have hat := h.handed_at j p hp
    rw [hfilter, List.getElem?_append_left (List.getElem?_eq_some_iff.1 hat).1]
    exact hat
  rw [Buffer.feed, if_pos hx]
  split
  · have hfull : b.held.length + 1 = size := by omega
    refine ⟨?_, ?_, by simp only [Buffer.hand, List.length_nil]; omega, fun j p hp => ?_⟩
    · rw [Buffer.map_hand, hfilter, ← h.elements]
      exact (List.append_nil _).trans (List.append_assoc ..).symm
    · rw [Buffer.length_hand, List.length_append, List.length_singleton, hfull]
      exact Nat.dvd_add h.full (Nat.dvd_refl size)
    · rcases Buffer.getElem?_hand hp with hp | ⟨hpx, i, hi, rfl⟩
      · exact hold j p hp
      · rw [List.length_append, List.length_singleton, hfull] at hi
        have hlast : b.handed.length + (size - 1) = (xs.filter accept).length := by omega
        rw [closing_position h.full hi, hfilter, hlast, List.getElem?_concat_length, hpx]
  · refine ⟨?_, h.full, by simp only [List.length_append, List.length_singleton]; omega, hold⟩
    rw [hfilter, ← h.elements, List.append_assoc]

theorem Fed.feed (h : Fed accept size xs b) (x : α) : Fed accept size (xs ++ [x]) (b.feed accept size x) := by
  by_cases hx : accept x
  · exact h.accepted hx
  · have hfilter : (xs ++ [x]).filter accept = xs.filter accept := by
      rw [List.filter_append, List.filter_cons_of_neg hx, List.filter_nil, List.append_nil]
    rw [Buffer.feed, if_neg hx]
    exact ⟨hfilter ▸ h.elements, h.full, h.held_lt, hfilter ▸ h.handed_at⟩

theorem fed_fed (accept : α → Bool) (hsize : 0 < size) (xs : List α) : Fed accept size xs (fed accept size xs) := by
  induction xs using List.reverseRecOn with
  | nil => exact ⟨rfl, Nat.dvd_zero size, hsize, fun j p hp => by simp [fed] at hp⟩
  | append_singleton xs x ih =>
    rw [fed_concat]
    exact ih.feed x

/-- **Every accepted element is handed over once and in order**, after the element that `closing` says. -/
theorem handedOver_eq (accept : α → Bool) (hsize : 0 < size) (xs : List α) :
    (handedOver accept size xs).map Prod.snd = xs.filter accept ∧
      ∀ (j : ℕ) (p : α × α), (handedOver accept size xs)[j]? = some p → closing accept size xs j = some p.1 := by
  have h := fed_fed accept hsize xs
  unfold handedOver
  rcases hlast : xs.getLast? with _ | x
  · obtain rfl := List.getLast?_eq_none_iff.1 hlast
    exact ⟨rfl, fun j p hp => by simp at hp⟩
  · refine ⟨?_, fun j p hp => ?_⟩
    · rw [Buffer.map_hand, h.elements]
    · rw [closing]
      rcases Buffer.getElem?_hand hp with hp | ⟨hpx, i, hi, rfl⟩
      · rw [h.handed_at j p hp, Option.some_or]
      · -- the last batch is not complete
        have hout : (xs.filter accept).length ≤ (fed accept size xs).handed.length + (size - 1) := by
          have := h.held_lt
          rw [h.length]
          omega
        rw [closing_position h.full (hi.trans h.held_lt), List.getElem?_eq_none hout, Option.none_or, hlast, hpx]

end PqIotAuth.Lib.Batching
