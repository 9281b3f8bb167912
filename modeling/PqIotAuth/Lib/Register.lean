import Mathlib.Data.Set.Card
import Mathlib.Data.List.Count

/-!
# Registers with counted members

A register keeps, for each key, the list of the members entered there, a flag for each member that was ever entered
there, and for each member a counter. Entering a member at a key for the first time appends it and counts it;
releasing a key empties its list and discounts the members that were in it, while the flags stay.

`Register.Wf` is what entering and releasing preserve: no list repeats a member, every listed member has its flag, and
the counter of a member is the number of keys it is listed at. So a release never takes a counter below 0
(`Wf.live_pos`), and operations on different keys commute (`LocalAt.comm`).
-/

namespace PqIotAuth.Lib

structure Register (K V : Type) where
  list : K → List V
  has : K → V → Bool
  live : V → ℕ

namespace Register

variable {K V : Type} {x : Register K V}

/-- The keys that list `v`. -/
def keysOf (x : Register K V) (v : V) : Set K := {k | v ∈ x.list k}

@[simp] theorem mem_keysOf {k : K} {v : V} : k ∈ x.keysOf v ↔ v ∈ x.list k := Iff.rfl

structure Wf (x : Register K V) : Prop where
  nodup : ∀ k, (x.list k).Nodup
  has_of_mem : ∀ k v, v ∈ x.list k → x.has k v
  finite : ∀ v, (x.keysOf v).Finite
  live_eq : ∀ v, x.live v = (x.keysOf v).ncard

theorem wf_empty : Wf (⟨fun _ => [], fun _ _ => false, fun _ => 0⟩ : Register K V) where
  nodup := fun _ => List.nodup_nil
  has_of_mem := fun k v h => by simp at h
  finite := fun v => by simp [keysOf]
  live_eq := fun v => by simp [keysOf]

theorem Wf.live_pos (h : x.Wf) {k : K} {v : V} (hv : v ∈ x.list k) : 0 < x.live v := by
  rw [h.live_eq]
  exact (Set.ncard_pos (h.finite v)).2 ⟨k, hv⟩

/-! ## Operations on one key -/

/-- A well-formed register is determined by its lists and flags. -/
theorem Wf.ext {y : Register K V} (hx : x.Wf) (hy : y.Wf) (hlist : x.list = y.list) (hhas : x.has = y.has) : x = y := by
  have hlive : x.live = y.live := by
    funext v
    rw [hx.live_eq, hy.live_eq, keysOf, keysOf, hlist]
  obtain ⟨list, has, live⟩ := x
  obtain rfl : list = y.list := hlist
  obtain rfl : has = y.has := hhas
  obtain rfl : live = y.live := hlive
  rfl

/-- Apart from the counters, `f` writes at the key `k` only, and what it writes there depends on `k` only. -/
structure LocalAt (k : K) (f : Register K V → Register K V) : Prop where
  wf : ∀ x : Register K V, x.Wf → (f x).Wf
  list_of_ne : ∀ (x : Register K V) {k' : K}, k' ≠ k → (f x).list k' = x.list k'
  has_of_ne : ∀ (x : Register K V) {k' : K}, k' ≠ k → (f x).has k' = x.has k'
  congr : ∀ x y : Register K V, x.list k = y.list k → x.has k = y.has k →
    (f x).list k = (f y).list k ∧ (f x).has k = (f y).has k

theorem LocalAt.id (k : K) : LocalAt (V := V) k id where
  wf := fun _ h => h
  list_of_ne := fun _ _ _ => rfl
  has_of_ne := fun _ _ _ => rfl
  congr := fun _ _ hlist hhas => ⟨hlist, hhas⟩

theorem LocalAt.comp {k : K} {f g : Register K V → Register K V} (hf : LocalAt k f) (hg : LocalAt k g) :
    LocalAt k fun x => g (f x) where
  wf := fun x h => hg.wf _ (hf.wf x h)
  list_of_ne := fun x _ hk => (hg.list_of_ne _ hk).trans (hf.list_of_ne x hk)
  has_of_ne := fun x _ hk => (hg.has_of_ne _ hk).trans (hf.has_of_ne x hk)
  congr := fun x y hlist hhas => by
    obtain ⟨hlist', hhas'⟩ := hf.congr x y hlist hhas
    exact hg.congr _ _ hlist' hhas'

/-- Operations on different keys commute. -/
theorem LocalAt.comm {k k' : K} {f g : Register K V → Register K V} (hf : LocalAt k f) (hg : LocalAt k' g) (hk : k ≠ k')
    (hx : x.Wf) : g (f x) = f (g x) := by
  refine Wf.ext (hg.wf _ (hf.wf x hx)) (hf.wf _ (hg.wf x hx)) ?_ ?_
  · funext j
    by_cases hj : j = k
    · subst hj
      rw [hg.list_of_ne _ hk]
      exact ((hf.congr _ _ (hg.list_of_ne x hk) (hg.has_of_ne x hk)).1).symm
    · rw [hf.list_of_ne _ hj]
      by_cases hj' : j = k'
      · subst hj'
        exact (hg.congr _ _ (hf.list_of_ne x hk.symm) (hf.has_of_ne x hk.symm)).1
      · rw [hg.list_of_ne _ hj', hg.list_of_ne _ hj', hf.list_of_ne _ hj]
  · funext j
    by_cases hj : j = k
    · subst hj
      rw [hg.has_of_ne _ hk]
      exact ((hf.congr _ _ (hg.list_of_ne x hk) (hg.has_of_ne x hk)).2).symm
    · rw [hf.has_of_ne _ hj]
      by_cases hj' : j = k'
      · subst hj'
        exact (hg.congr _ _ (hf.list_of_ne x hk.symm) (hf.has_of_ne x hk.symm)).2
      · rw [hg.has_of_ne _ hj', hg.has_of_ne _ hj', hf.has_of_ne _ hj]

variable [DecidableEq K] [DecidableEq V]

/-- Enter `v` at `k`, unless it was entered there before. -/
def enter (k : K) (v : V) (x : Register K V) : Register K V :=
  if x.has k v then x
  else
    { list := Function.update x.list k (x.list k ++ [v])
      has := Function.update x.has k (Function.update (x.has k) v true)
      live := Function.update x.live v (x.live v + 1) }

def enterAll (k : K) (vs : List V) (x : Register K V) : Register K V := vs.foldl (fun x v => x.enter k v) x

/-- The counters with every member of `vs` discounted. -/
def discount (vs : List V) (live : V → ℕ) : V → ℕ :=
  vs.foldl (fun live v => Function.update live v (live v - 1)) live

/-- Empty the list of `k` and discount its members. -/
def release (k : K) (x : Register K V) : Register K V :=
  { x with list := Function.update x.list k [], live := discount (x.list k) x.live }

/-! ## Entering -/

theorem enter_of_has {k : K} {v : V} (h : x.has k v) : x.enter k v = x := if_pos h

theorem enter_of_not_has {k : K} {v : V} (h : ¬ x.has k v) :
    x.enter k v = ⟨Function.update x.list k (x.list k ++ [v]),
      Function.update x.has k (Function.update (x.has k) v true), Function.update x.live v (x.live v + 1)⟩ :=
  if_neg h

theorem list_enter_of_ne {k k' : K} (hk : k' ≠ k) (v : V) : (x.enter k v).list k' = x.list k' := by
  by_cases h : x.has k v
  · rw [enter_of_has h]
  · rw [enter_of_not_has h]
    exact Function.update_of_ne hk _ _

theorem has_enter_of_ne {k k' : K} (hk : k' ≠ k) (v : V) : (x.enter k v).has k' = x.has k' := by
  by_cases h : x.has k v
  · rw [enter_of_has h]
  · rw [enter_of_not_has h]
    exact Function.update_of_ne hk _ _

theorem live_enter_of_ne {v u : V} (hu : u ≠ v) (k : K) : (x.enter k v).live u = x.live u := by
  by_cases h : x.has k v
  · rw [enter_of_has h]
  · rw [enter_of_not_has h]
    exact Function.update_of_ne hu _ _

theorem has_enter_self {k : K} {v u : V} : (x.enter k v).has k u ↔ x.has k u ∨ u = v := by
  by_cases h : x.has k v
  · rw [enter_of_has h]
    refine ⟨.inl, ?_⟩
    rintro (hu | rfl)
    · exact hu
    · exact h
  · rw [enter_of_not_has h]
    by_cases hu : u = v
    · simp [hu]
    · simp [hu]

/-- Where the flags of `k` say who is listed there, they still do after an entry. -/
theorem mem_enter_self {k : K} (hk : ∀ u, x.has k u ↔ u ∈ x.list k) (v u : V) :
    u ∈ (x.enter k v).list k ↔ u ∈ x.list k ∨ u = v := by
  by_cases h : x.has k v
  · rw [enter_of_has h]
    refine ⟨.inl, ?_⟩
    rintro (hu | rfl)
    · exact hu
    · exact (hk u).1 h
  · simp [enter_of_not_has h]

theorem keysOf_enter {k : K} {v : V} (h : ¬ x.has k v) (u : V) :
    (x.enter k v).keysOf u = if u = v then insert k (x.keysOf v) else x.keysOf u := by
  ext k'
  rw [mem_keysOf, enter_of_not_has h]
  dsimp only
  by_cases hk : k' = k
  · subst hk
    by_cases hu : u = v
    · simp [hu]
    · simp [hu]
  · rw [Function.update_of_ne hk]
    by_cases hu : u = v
    · simp [hu, hk]
    · simp [hu]

theorem Wf.enter (h : x.Wf) (k : K) (v : V) : (x.enter k v).Wf := by
  by_cases hv : x.has k v
  · rw [enter_of_has hv]
    exact h
  have hnew : k ∉ x.keysOf v := fun hm => hv (h.has_of_mem k v hm)
  refine ⟨fun k' => ?_, fun k' u hu => ?_, fun u => ?_, fun u => ?_⟩
  · by_cases hk : k' = k
    · subst hk
      rw [enter_of_not_has hv]
      dsimp only
      rw [Function.update_self, List.nodup_append]
      refine ⟨h.nodup k', List.nodup_singleton v, fun a ha b hb => ?_⟩
      rw [List.mem_singleton.1 hb]
      exact ne_of_mem_of_not_mem ha hnew
    · rw [list_enter_of_ne hk]
      exact h.nodup k'
  · by_cases hk : k' = k
    · subst hk
      rw [has_enter_self]
      rw [enter_of_not_has hv] at hu
      rcases (by simpa using hu : u ∈ x.list k' ∨ u = v) with hu | hu
      · exact .inl (h.has_of_mem k' u hu)
      · exact .inr hu
    · rw [has_enter_of_ne hk]
      rw [list_enter_of_ne hk] at hu
      exact h.has_of_mem k' u hu
  · rw [keysOf_enter hv]
    split
    · exact (h.finite v).insert k
    · exact h.finite u
  · rw [keysOf_enter hv, enter_of_not_has hv]
    dsimp only
    rw [Function.update_apply]
    split
    · rw [Set.ncard_insert_of_notMem hnew (h.finite v), h.live_eq]
    · exact h.live_eq u

theorem Wf.enterAll (h : x.Wf) (k : K) (vs : List V) : (x.enterAll k vs).Wf := by
  induction vs generalizing x with
  | nil => exact h
  | cons v vs ih => exact ih (h.enter k v)

theorem list_enterAll_of_ne {k k' : K} (hk : k' ≠ k) (vs : List V) : (x.enterAll k vs).list k' = x.list k' := by
  induction vs generalizing x with
  | nil => rfl
  | cons v vs ih => exact (ih (x := x.enter k v)).trans (list_enter_of_ne hk v)

theorem has_enterAll_of_ne {k k' : K} (hk : k' ≠ k) (vs : List V) : (x.enterAll k vs).has k' = x.has k' := by
  induction vs generalizing x with
  | nil => rfl
  | cons v vs ih => exact (ih (x := x.enter k v)).trans (has_enter_of_ne hk v)

/-- Who is listed after an entry was listed before or is entered there. -/
theorem of_mem_enter {k k' : K} {v u : V} (h : u ∈ (x.enter k v).list k') : u ∈ x.list k' ∨ k' = k ∧ u = v := by
  by_cases hk : k' = k
  · subst hk
    by_cases hv : x.has k' v
    · rw [enter_of_has hv] at h
      exact .inl h
    · rw [enter_of_not_has hv] at h
      simpa using h
  · rw [list_enter_of_ne hk] at h
    exact .inl h

theorem of_mem_enterAll {k k' : K} {vs : List V} {u : V} (h : u ∈ (x.enterAll k vs).list k') :
    u ∈ x.list k' ∨ k' = k ∧ u ∈ vs := by
  induction vs generalizing x with
  | nil => exact .inl h
  | cons v vs ih =>
    rcases ih (x := x.enter k v) h with h | ⟨hk, hu⟩
    · rcases of_mem_enter h with h | ⟨hk, rfl⟩
      · exact .inl h
      · exact .inr ⟨hk, List.mem_cons_self ..⟩
    · exact .inr ⟨hk, List.mem_cons_of_mem _ hu⟩

/-- Where the flags of `k` say who is listed there, they do so after the entries, and the list has grown by those
entered. -/
theorem mem_enterAll {k : K} (hk : ∀ u, x.has k u ↔ u ∈ x.list k) (vs : List V) :
    (∀ u, (x.enterAll k vs).has k u ↔ u ∈ (x.enterAll k vs).list k) ∧
      ∀ u, u ∈ (x.enterAll k vs).list k ↔ u ∈ x.list k ∨ u ∈ vs := by
  induction vs generalizing x with
  | nil => exact ⟨hk, fun u => by simp [enterAll]⟩
  | cons v vs ih =>
    have hk' : ∀ u, (x.enter k v).has k u ↔ u ∈ (x.enter k v).list k := by
      intro u
      rw [mem_enter_self hk, has_enter_self, hk]
    refine ⟨(ih hk').1, fun u => ?_⟩
    rw [List.mem_cons, ← or_assoc, ← mem_enter_self hk]
    exact (ih hk').2 u

/-! ## Releasing -/

theorem discount_apply (vs : List V) (live : V → ℕ) (v : V) : discount vs live v = live v - vs.count v := by
  induction vs generalizing live with
  | nil => rfl
  | cons u vs ih =>
    have : discount (u :: vs) live = discount vs (Function.update live u (live u - 1)) := rfl
    rw [this, ih]
    by_cases hv : v = u
    · subst hv
      rw [Function.update_self, List.count_cons_self]
      omega
    · rw [Function.update_of_ne hv, List.count_cons_of_ne (Ne.symm hv)]

theorem list_release_self (k : K) : (x.release k).list k = [] := Function.update_self _ _ _

theorem list_release_of_ne {k k' : K} (hk : k' ≠ k) : (x.release k).list k' = x.list k' :=
  Function.update_of_ne hk _ _

theorem has_release (k : K) : (x.release k).has = x.has := rfl

theorem mem_release {k k' : K} {v : V} : v ∈ (x.release k).list k' ↔ k' ≠ k ∧ v ∈ x.list k' := by
  by_cases hk : k' = k
  · subst hk
    simp [list_release_self]
  · simp [list_release_of_ne hk, hk]

theorem Wf.release (h : x.Wf) (k : K) : (x.release k).Wf := by
  have hkeys : ∀ v, (x.release k).keysOf v = x.keysOf v \ {k} := by
    intro v
    ext k'
    simp [keysOf, mem_release, and_comm]
  refine ⟨fun k' => ?_, fun k' v hv => ?_, fun v => ?_, fun v => ?_⟩
  · by_cases hk : k' = k
    · rw [hk, list_release_self]
      exact List.nodup_nil
    · rw [list_release_of_ne hk]
      exact h.nodup k'
  · exact h.has_of_mem k' v (mem_release.1 hv).2
  · rw [hkeys]
    exact (h.finite v).sdiff
  · change discount (x.list k) x.live v = _
    rw [discount_apply, hkeys, h.live_eq]
    by_cases hv : v ∈ x.list k
    · rw [List.count_eq_one_of_mem (h.nodup k) hv, Set.ncard_sdiff_singleton_of_mem (show k ∈ x.keysOf v from hv)]
    · rw [List.count_eq_zero_of_not_mem hv, Set.sdiff_singleton_eq_self (show k ∉ x.keysOf v from hv), Nat.sub_zero]

/-- Release every key of a list. -/
def releaseAll (ks : List K) (x : Register K V) : Register K V := ks.foldl (fun x k => x.release k) x

theorem Wf.releaseAll (h : x.Wf) (ks : List K) : (x.releaseAll ks).Wf := by
  induction ks generalizing x with
  | nil => exact h
  | cons k ks ih => exact ih (h.release k)

theorem mem_releaseAll {ks : List K} {k : K} {v : V} :
    v ∈ (x.releaseAll ks).list k ↔ k ∉ ks ∧ v ∈ x.list k := by
  induction ks generalizing x with
  | nil => simp [releaseAll]
  | cons k' ks ih =>
    have : x.releaseAll (k' :: ks) = (x.release k').releaseAll ks := rfl
    rw [this, ih, mem_release, List.mem_cons, not_or]
    tauto

theorem has_releaseAll (ks : List K) : (x.releaseAll ks).has = x.has := by
  induction ks generalizing x with
  | nil => rfl
  | cons k ks ih => exact ih.trans (has_release k)

/-! ## What works on one key -/

theorem LocalAt.enter (k : K) (v : V) : LocalAt k (Register.enter (V := V) k v) where
  wf := fun _ h => h.enter k v
  list_of_ne := fun _ _ hk => list_enter_of_ne hk v
  has_of_ne := fun _ _ hk => has_enter_of_ne hk v
  congr := fun x y hlist hhas => by
    by_cases hv : x.has k v
    · rw [enter_of_has hv, enter_of_has (hhas ▸ hv)]
      exact ⟨hlist, hhas⟩
    · rw [enter_of_not_has hv, enter_of_not_has (hhas ▸ hv)]
      dsimp only
      rw [Function.update_self, Function.update_self, Function.update_self, Function.update_self, hlist, hhas]
      exact ⟨rfl, rfl⟩

theorem LocalAt.enterAll (k : K) (vs : List V) : LocalAt k (Register.enterAll (V := V) k vs) := by
  induction vs with
  | nil => exact .id k
  | cons v vs ih => exact (LocalAt.enter k v).comp ih

theorem LocalAt.release (k : K) : LocalAt k (Register.release (V := V) k) where
  wf := fun _ h => h.release k
  list_of_ne := fun _ _ hk => list_release_of_ne hk
  has_of_ne := fun _ _ _ => rfl
  congr := fun x y _ hhas => ⟨by rw [list_release_self, list_release_self], hhas⟩

end Register

end PqIotAuth.Lib
