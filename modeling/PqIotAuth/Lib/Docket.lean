import PqIotAuth.Lib.Counting

/-!
# Dockets

The abstract model of optimistic adjudication, over any type of targets. A target is filed and then undecided; while it
is undecided a case can be opened on it, which makes it disputed; the verdict of the case revokes the target or returns
it to the undecided, and a target that is undecided can be confirmed. The docket lists the cases ever opened, in order,
each with a flag that says whether it is closed, and the verdicts ever given, in order, each with the index of its case.

`Docket.Step` is one move, any number of targets being filed or confirmed at a time. What every run preserves is
`Docket.Wf`: a disputed target has exactly one open case and any other target has none, a case is closed by exactly one
verdict, and a revoking verdict leaves its target revoked. So a target is revoked by one verdict at most.
-/

namespace PqIotAuth.Lib

inductive Phase where
  | absent
  | undecided
  | disputed
  | revoked
  | confirmed
  deriving DecidableEq

inductive Verdict where
  | fraud
  | spurious
  | expired
  deriving DecidableEq

/-- What a target is after the verdict. -/
def Verdict.phase : Verdict → Phase
  | .spurious => .undecided
  | .fraud | .expired => .revoked

theorem Verdict.phase_of_ne {v : Verdict} (h : v ≠ .spurious) : v.phase = .revoked := by
  cases v <;> first | rfl | exact absurd rfl h

theorem Verdict.phase_ne_absent (v : Verdict) : v.phase ≠ .absent := by cases v <;> simp [Verdict.phase]

theorem Verdict.phase_ne_disputed (v : Verdict) : v.phase ≠ .disputed := by cases v <;> simp [Verdict.phase]

/-- What a phase can become in one step. -/
inductive Phase.Move : Phase → Phase → Prop
  | stay (p : Phase) : Move p p
  | file : Move .absent .undecided
  | openCase : Move .undecided .disputed
  | close (v : Verdict) : Move .disputed v.phase
  | confirm : Move .undecided .confirmed

theorem Phase.Move.revoked {p : Phase} (h : Phase.Move .revoked p) : p = .revoked := by cases h; rfl

theorem Phase.Move.confirmed {p : Phase} (h : Phase.Move .confirmed p) : p = .confirmed := by cases h; rfl

theorem Phase.Move.ne_absent {p q : Phase} (h : Phase.Move p q) (hp : p ≠ .absent) : q ≠ .absent := by
  cases h with
  | stay => exact hp
  | file => exact absurd rfl hp
  | openCase | confirm => simp
  | close v => exact v.phase_ne_absent

structure Docket (T : Type) where
  phase : T → Phase
  cases : List (T × Bool)
  verdicts : List (ℕ × Verdict)

namespace Docket

variable {T : Type} [DecidableEq T] {d d' : Docket T}

/-- The number of open cases on `t`. -/
def openCases (d : Docket T) (t : T) : ℕ := d.cases.countP fun c => c = (t, false)

inductive Step : Docket T → Docket T → Prop
  | idle (d : Docket T) : Step d d
  | file {d : Docket T} {phase : T → Phase}
      (h : ∀ t, phase t = d.phase t ∨ d.phase t = .absent ∧ phase t = .undecided) :
      Step d { d with phase }
  | openCase {d : Docket T} {t : T} (h : d.phase t = .undecided) :
      Step d { d with phase := Function.update d.phase t .disputed, cases := d.cases ++ [(t, false)] }
  | close {d : Docket T} {i : ℕ} {t : T} (h : d.cases[i]? = some (t, false)) (v : Verdict) :
      Step d ⟨Function.update d.phase t v.phase, d.cases.set i (t, true), d.verdicts ++ [(i, v)]⟩
  | confirm {d : Docket T} {phase : T → Phase}
      (h : ∀ t, phase t = d.phase t ∨ d.phase t = .undecided ∧ phase t = .confirmed) :
      Step d { d with phase }

/-- What holds of the docket of every run. -/
structure Wf (d : Docket T) : Prop where
  one_open : ∀ t, d.openCases t = if d.phase t = .disputed then 1 else 0
  /-- A verdict belongs to a closed case, and a revoking one has revoked the target. -/
  decided : ∀ i v, (i, v) ∈ d.verdicts → ∃ t, d.cases[i]? = some (t, true) ∧ d.phase t ≠ .absent ∧
    (v ≠ .spurious → d.phase t = .revoked)
  has_verdict : ∀ i t, d.cases[i]? = some (t, true) → ∃ v, (i, v) ∈ d.verdicts
  once : (d.verdicts.map Prod.fst).Nodup
  /-- Two revoking verdicts on one target are the same. -/
  single : ∀ i v j u t, (i, v) ∈ d.verdicts → v ≠ .spurious → (j, u) ∈ d.verdicts → u ≠ .spurious →
    d.cases[i]? = some (t, true) → d.cases[j]? = some (t, true) → i = j

/-! ## What a well-formed docket says -/

theorem Wf.disputed_of_open (h : d.Wf) {i : ℕ} {t : T} (hi : d.cases[i]? = some (t, false)) :
    d.phase t = .disputed := by
  have hpos : 0 < d.openCases t := countP_pos_of_getElem? hi (by simp)
  by_contra hne
  rw [h.one_open t, if_neg hne] at hpos
  exact absurd hpos (lt_irrefl 0)

/-- A target has one open case. -/
theorem Wf.open_unique (h : d.Wf) {i j : ℕ} {t : T} (hi : d.cases[i]? = some (t, false))
    (hj : d.cases[j]? = some (t, false)) : i = j := by
  by_contra hne
  have hone : d.openCases t = 1 := by rw [h.one_open t, if_pos (h.disputed_of_open hi)]
  -- with the first closed, the second is still open
  have hset := countP_set (fun c => c = (t, false)) hi (t, true)
  have hpos : 0 < (d.cases.set i (t, true)).countP fun c => c = (t, false) :=
    countP_pos_of_getElem? ((getElem?_set_some hi).2 (.inr ⟨Ne.symm hne, hj⟩)) (by simp)
  simp only [decide_true, if_true, Prod.mk.injEq, Bool.true_eq_false, and_false, decide_false, Bool.false_eq_true,
    if_false] at hset
  rw [openCases] at hone
  omega

theorem Wf.open_of_disputed (h : d.Wf) {t : T} (ht : d.phase t = .disputed) :
    ∃ i : ℕ, d.cases[i]? = some (t, false) := by
  have hpos : 0 < d.openCases t := by rw [h.one_open t, if_pos ht]; exact Nat.one_pos
  obtain ⟨c, hc, hp⟩ := List.countP_pos_iff.1 hpos
  obtain ⟨i, hi⟩ := List.mem_iff_getElem?.1 hc
  have e : c = (t, false) := by simpa using hp
  exact ⟨i, e ▸ hi⟩

theorem Wf.filed (h : d.Wf) {i : ℕ} {t : T} {b : Bool} (hi : d.cases[i]? = some (t, b)) : d.phase t ≠ .absent := by
  cases b with
  | false => rw [h.disputed_of_open hi]; simp
  | true =>
    obtain ⟨v, hv⟩ := h.has_verdict i t hi
    obtain ⟨t', ht', hne, -⟩ := h.decided i v hv
    rw [hi, Option.some.injEq, Prod.mk.injEq] at ht'
    exact ht'.1 ▸ hne

/-- While a target is not revoked, every verdict on it was spurious. -/
theorem Wf.spurious_of_not_revoked (h : d.Wf) {i : ℕ} {t : T} {v : Verdict} (hv : (i, v) ∈ d.verdicts)
    (hi : d.cases[i]? = some (t, true)) (ht : d.phase t ≠ .revoked) : v = .spurious := by
  obtain ⟨t', ht', -, hr⟩ := h.decided i v hv
  rw [hi, Option.some.injEq, Prod.mk.injEq] at ht'
  by_contra hne
  exact ht (ht'.1 ▸ hr hne)

/-- The open cases on a finite set of targets are as many as its disputed targets. -/
theorem Wf.open_in (h : d.Wf) (S : Finset T) :
    d.cases.countP (fun c => !c.2 && decide (c.1 ∈ S)) = (S.filter fun t => d.phase t = .disputed).card := by
  rw [countP_mem_eq_sum Prod.fst (fun c => !c.2) S, Finset.card_filter]
  refine Finset.sum_congr rfl fun t _ => ?_
  rw [← h.one_open t]
  refine List.countP_congr fun c _ => ?_
  obtain ⟨t', b⟩ := c
  cases b <;> simp

/-! ## Steps -/

theorem Step.move (h : d.Wf) (hs : Step d d') (t : T) : Phase.Move (d.phase t) (d'.phase t) := by
  cases hs with
  | idle => exact .stay _
  | file hp =>
    dsimp only
    rcases hp t with e | ⟨e, e'⟩
    · rw [e]
      exact .stay _
    · rw [e, e']
      exact .file
  | @openCase u hu =>
    dsimp only
    by_cases htu : t = u
    · subst htu
      rw [hu, Function.update_self]
      exact .openCase
    · rw [Function.update_of_ne htu]
      exact .stay _
  | @close i u hi v =>
    dsimp only
    by_cases htu : t = u
    · subst htu
      rw [h.disputed_of_open hi, Function.update_self]
      exact .close v
    · rw [Function.update_of_ne htu]
      exact .stay _
  | confirm hp =>
    dsimp only
    rcases hp t with e | ⟨e, e'⟩
    · rw [e]
      exact .stay _
    · rw [e, e']
      exact .confirm

/-- Cases are never removed, and a closed case stays closed. -/
theorem Step.cases_closed (hs : Step d d') {i : ℕ} {t : T} (hi : d.cases[i]? = some (t, true)) :
    d'.cases[i]? = some (t, true) := by
  cases hs with
  | idle | file | confirm => exact hi
  | openCase =>
    rw [List.getElem?_append_left (List.getElem?_eq_some_iff.1 hi).1]
    exact hi
  | @close j u hj v =>
    rw [getElem?_set_some hj]
    refine .inr ⟨fun hij => ?_, hi⟩
    subst hij
    rw [hj] at hi
    simp at hi

/-- The step that gives a verdict closes its case. -/
theorem Step.closed (hs : Step d d') {i : ℕ} {v : Verdict} (h : d'.verdicts = d.verdicts ++ [(i, v)]) :
    ∃ t, d.cases[i]? = some (t, false) ∧ d'.phase = Function.update d.phase t v.phase := by
  cases hs with
  | idle | file | openCase | confirm => simp at h
  | @close j t hj w =>
    rw [List.append_right_inj, List.singleton_inj, Prod.mk.injEq] at h
    obtain ⟨rfl, rfl⟩ := h
    exact ⟨t, hj, rfl⟩

theorem Wf.step_one_open (h : d.Wf) (hs : Step d d') (t : T) :
    d'.openCases t = if d'.phase t = .disputed then 1 else 0 := by
  have hd := h.one_open t
  cases hs with
  | idle => exact hd
  | file hp =>
    rcases hp t with e | ⟨e, e'⟩
    · simpa [openCases, e] using hd
    · simpa [openCases, e, e'] using hd
  | @openCase u hu =>
    by_cases htu : t = u
    · subst htu
      simp only [openCases, hu] at hd
      simp [openCases, hd]
    · simpa [openCases, htu, Ne.symm htu] using hd
  | @close i u hi v =>
    have hset := Lib.countP_set (fun c => decide (c = (t, false))) hi (u, true)
    by_cases htu : t = u
    · subst htu
      simp only [openCases, h.disputed_of_open hi, if_true] at hd
      simp [openCases, v.phase_ne_disputed] at hset ⊢
      simp [hd] at hset
      exact hset
    · simp only [openCases] at hd ⊢
      simp [htu, Ne.symm htu] at hset ⊢
      rw [← hd, ← hset]
  | confirm hp =>
    rcases hp t with e | ⟨e, e'⟩
    · simpa [openCases, e] using hd
    · simpa [openCases, e, e'] using hd

theorem Wf.step_decided (h : d.Wf) (hs : Step d d') (i : ℕ) (v : Verdict) (hv : (i, v) ∈ d'.verdicts) :
    ∃ t, d'.cases[i]? = some (t, true) ∧ d'.phase t ≠ .absent ∧ (v ≠ .spurious → d'.phase t = .revoked) := by
  -- a verdict that was there before keeps its target, and a revoked target stays revoked
  have hold : (i, v) ∈ d.verdicts →
      ∃ t, d'.cases[i]? = some (t, true) ∧ d'.phase t ≠ .absent ∧ (v ≠ .spurious → d'.phase t = .revoked) := by
    intro hv
    obtain ⟨t, ht, hne, hr⟩ := h.decided i v hv
    refine ⟨t, hs.cases_closed ht, (hs.move h t).ne_absent hne, fun hvs => ?_⟩
    have := hs.move h t
    rw [hr hvs] at this
    exact this.revoked
  cases hs with
  | idle | file | openCase | confirm => exact hold hv
  | @close j u hj w =>
    rcases List.mem_append.1 hv with hv | hv
    · exact hold hv
    · simp only [List.mem_singleton, Prod.mk.injEq] at hv
      obtain ⟨rfl, rfl⟩ := hv
      refine ⟨u, (getElem?_set_some hj).2 (.inl ⟨rfl, rfl⟩), ?_, fun hvs => ?_⟩
      · simpa using v.phase_ne_absent
      · simpa using Verdict.phase_of_ne hvs

theorem Wf.step_has_verdict (h : d.Wf) (hs : Step d d') (i : ℕ) (t : T) (hi : d'.cases[i]? = some (t, true)) :
    ∃ v, (i, v) ∈ d'.verdicts := by
  cases hs with
  | idle | file | confirm => exact h.has_verdict i t hi
  | openCase =>
    rcases getElem?_append_singleton.1 hi with ⟨-, e⟩ | ⟨-, hi⟩
    · simp at e
    · exact h.has_verdict i t hi
  | @close j u hj w =>
    rcases (getElem?_set_some hj).1 hi with ⟨rfl, -⟩ | ⟨-, hi⟩
    · exact ⟨w, by simp⟩
    · obtain ⟨v, hv⟩ := h.has_verdict i t hi
      exact ⟨v, List.mem_append_left _ hv⟩

/-- Every revoked target has a case with a revoking verdict. -/
def RevokedBy (d : Docket T) : Prop :=
  ∀ t, d.phase t = .revoked → ∃ i v, (i, v) ∈ d.verdicts ∧ v ≠ .spurious ∧ d.cases[i]? = some (t, true)

theorem Step.revokedBy (hs : Step d d') (h : d.RevokedBy) : d'.RevokedBy := by
  intro t ht
  -- what has a revoking verdict keeps it
  have hold : d.phase t = .revoked → ∃ i v, (i, v) ∈ d'.verdicts ∧ v ≠ .spurious ∧ d'.cases[i]? = some (t, true) := by
    intro ht
    obtain ⟨i, v, hv, hne, hi⟩ := h t ht
    refine ⟨i, v, ?_, hne, hs.cases_closed hi⟩
    cases hs with
    | idle | file | openCase | confirm => exact hv
    | close => exact List.mem_append_left _ hv
  cases hs with
  | idle => exact hold ht
  | file hp =>
    rcases hp t with e | ⟨-, e⟩
    · exact hold (e ▸ ht)
    · exact absurd (e.symm.trans ht) (by decide)
  | @openCase u hu =>
    dsimp only at ht
    by_cases htu : t = u
    · subst htu
      rw [Function.update_self] at ht
      cases ht
    · rw [Function.update_of_ne htu] at ht
      exact hold ht
  | @close i u hi v =>
    dsimp only at ht
    by_cases htu : t = u
    · subst htu
      rw [Function.update_self] at ht
      refine ⟨i, v, by simp, ?_, (getElem?_set_some hi).2 (.inl ⟨rfl, rfl⟩)⟩
      rintro rfl
      cases ht
    · rw [Function.update_of_ne htu] at ht
      exact hold ht
  | confirm hp =>
    rcases hp t with e | ⟨-, e⟩
    · exact hold (e ▸ ht)
    · exact absurd (e.symm.trans ht) (by decide)

/-- The case of a verdict is not open. -/
theorem Wf.not_open (h : d.Wf) {i : ℕ} {v : Verdict} (hv : (i, v) ∈ d.verdicts) (t : T) :
    d.cases[i]? ≠ some (t, false) := by
  obtain ⟨u, hu, -⟩ := h.decided i v hv
  rw [hu]
  simp

theorem Wf.step_once (h : d.Wf) (hs : Step d d') : (d'.verdicts.map Prod.fst).Nodup := by
  cases hs with
  | idle | file | openCase | confirm => exact h.once
  | @close j u hj w =>
    rw [List.map_append, List.map_singleton, List.nodup_append]
    refine ⟨h.once, List.nodup_singleton _, ?_⟩
    intro i hi k hk
    simp only [List.mem_singleton] at hk
    subst hk
    rintro rfl
    obtain ⟨⟨i, v⟩, hv, rfl⟩ := List.mem_map.1 hi
    exact h.not_open hv u hj

theorem Wf.step_single (h : d.Wf) (hs : Step d d') (i : ℕ) (v : Verdict) (j : ℕ) (u : Verdict) (t : T)
    (hv : (i, v) ∈ d'.verdicts) (hvs : v ≠ .spurious) (hu : (j, u) ∈ d'.verdicts) (hus : u ≠ .spurious)
    (hi : d'.cases[i]? = some (t, true)) (hj : d'.cases[j]? = some (t, true)) : i = j := by
  cases hs with
  | idle | file | confirm => exact h.single i v j u t hv hvs hu hus hi hj
  | openCase =>
    have hlt : ∀ {k w}, (k, w) ∈ d.verdicts → k < d.cases.length := fun hk => by
      obtain ⟨x, hx, -⟩ := h.decided _ _ hk
      exact (List.getElem?_eq_some_iff.1 hx).1
    rw [List.getElem?_append_left (hlt hv)] at hi
    rw [List.getElem?_append_left (hlt hu)] at hj
    exact h.single i v j u t hv hvs hu hus hi hj
  | @close k x hk w =>
    -- the new verdict is on a disputed target, the earlier ones are on revoked targets
    have hclash : ∀ {m z}, (m, z) ∈ d.verdicts → z ≠ .spurious → (d.cases.set k (x, true))[m]? = some (x, true) →
        False := by
      intro m z hm hz hx
      have hmk : m ≠ k := fun e => h.not_open (e ▸ hm) x hk
      rcases (getElem?_set_some hk).1 hx with ⟨e, -⟩ | ⟨-, hx⟩
      · exact hmk e
      · exact hz (h.spurious_of_not_revoked hm hx (by rw [h.disputed_of_open hk]; simp))
    have hself : (d.cases.set k (x, true))[k]? = some (x, true) := (getElem?_set_some hk).2 (.inl ⟨rfl, rfl⟩)
    simp only [List.mem_append, List.mem_singleton, Prod.mk.injEq] at hv hu
    rcases hv with hv | ⟨rfl, rfl⟩ <;> rcases hu with hu | ⟨rfl, rfl⟩
    · have hik : i ≠ k := fun e => h.not_open (e ▸ hv) x hk
      have hjk : j ≠ k := fun e => h.not_open (e ▸ hu) x hk
      rw [List.getElem?_set_ne (Ne.symm hik)] at hi
      rw [List.getElem?_set_ne (Ne.symm hjk)] at hj
      exact h.single i v j u t hv hvs hu hus hi hj
    · rw [hself, Option.some.injEq, Prod.mk.injEq] at hj
      exact (hclash hv hvs (hj.1 ▸ hi)).elim
    · rw [hself, Option.some.injEq, Prod.mk.injEq] at hi
      exact (hclash hu hus (hi.1 ▸ hj)).elim
    · rfl

/-- **A step keeps a docket well formed.** -/
theorem Wf.step (h : d.Wf) (hs : Step d d') : d'.Wf where
  one_open := h.step_one_open hs
  decided := h.step_decided hs
  has_verdict := h.step_has_verdict hs
  once := h.step_once hs
  single := h.step_single hs

theorem wf_empty : Wf (⟨fun _ => .absent, [], []⟩ : Docket T) where
  one_open := fun _ => rfl
  decided := fun i v h => by simp at h
  has_verdict := fun i t h => by simp at h
  once := List.nodup_nil
  single := fun i v j u t h => by simp at h

end Docket

end PqIotAuth.Lib
