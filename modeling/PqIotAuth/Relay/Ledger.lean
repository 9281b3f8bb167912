import PqIotAuth.Lib.Counting
import PqIotAuth.Relay.Internal

/-!
# What credits and slashes do to the ledger

Each function of the ledger, when it does not revert, is a plain operation on the three balances of the accounts it
names: `credited`, `deducted`, `slashed`, `paid` and the settlements of the three outcomes of a dispute. The `_ok`
lemmas say so, and the `_total` lemmas what each operation does to the sum of all balances, so that a settlement is
followed to the last wei. Conversely nothing but a balance beyond 256 bits can make them revert: below a bound on the
sum of all balances they return (`credit_eq` and its like).
-/

namespace PqIotAuth

open Lib

namespace Ledger

/-- Everything the ledger owes. -/
def total (l : Ledger) : ℕ :=
  ∑ a, l.relayStake a + ∑ a, l.verifierStake a + ∑ a, l.pendingWithdrawals a

def credited (recipient : Address) (amount : ℕ) (l : Ledger) : Ledger :=
  { l with
    pendingWithdrawals := Function.update l.pendingWithdrawals recipient (l.pendingWithdrawals recipient + amount) }

/-- What can be taken from `account` when `amount` is asked for. -/
def seized (account : Address) (amount : ℕ) (l : Ledger) : ℕ :=
  min amount (l.relayStake account + l.verifierStake account)

/-- `amount` taken from the one pool of `account`, what is missing from the other. -/
def deducted (account : Address) (amount : ℕ) (fromVerifierPool : Bool) (l : Ledger) : Ledger :=
  let r := l.relayStake account
  let v := l.verifierStake account
  if fromVerifierPool then
    { l with
      relayStake := Function.update l.relayStake account (r - (amount - v))
      verifierStake := Function.update l.verifierStake account (v - amount) }
  else
    { l with
      relayStake := Function.update l.relayStake account (r - amount)
      verifierStake := Function.update l.verifierStake account (v - (amount - r)) }

def slashed (account : Address) (amount : ℕ) (recipient : Address) (fromVerifierPool : Bool) (l : Ledger) : Ledger :=
  (l.deducted account amount fromVerifierPool).credited recipient (l.seized account amount)

/-- Every verifier of `vs` slashed, its verifier pool first. -/
def slashedAll (vs : List Address) (amount : ℕ) (recipient : Address) (l : Ledger) : Ledger :=
  vs.foldl (fun l v => l.slashed v amount recipient true) l

/-- Every attester credited its equal share of `total`. -/
def paid (attesters : List Address) (total : ℕ) (l : Ledger) : Ledger :=
  attesters.foldl (fun l a => l.credited a (total / attesters.length)) l

/-- The settlement of a fraud verdict. -/
def afterFraud (D : Deployment) (d : Dispute) (relay : Address) (wrongSide : List Address) (l : Ledger) : Ledger :=
  let l := l.slashedAll wrongSide D.verifierSlashAmount d.challenger
  let collected := l.seized relay D.relaySlashAmount
  let l := (l.deducted relay D.relaySlashAmount false).credited d.challenger (collected * 3 / 5)
  (l.paid d.fraudAttesters (collected * 2 / 5)).credited d.challenger d.bond

/-- The settlement of a spurious verdict. -/
def afterSpurious (d : Dispute) (relay : Address) (l : Ledger) : Ledger :=
  (l.paid d.validAttesters (d.bond / 2)).credited relay (d.bond - d.bond / 2)

/-- The settlement of an expiry. -/
def afterExpiry (d : Dispute) (l : Ledger) : Ledger := l.credited d.challenger (d.bond / 2)

/-! ## Single balances -/

variable {l : Ledger}

@[simp] theorem relayStake_credited (a : Address) (n : ℕ) : (l.credited a n).relayStake = l.relayStake := rfl

@[simp] theorem verifierStake_credited (a : Address) (n : ℕ) : (l.credited a n).verifierStake = l.verifierStake := rfl

@[simp] theorem credited_zero (a : Address) : l.credited a 0 = l := by simp [credited]

theorem relayStake_deducted (a : Address) (n : ℕ) (fromV : Bool) (b : Address) :
    (l.deducted a n fromV).relayStake b =
      if b = a then l.relayStake a - (if fromV then n - l.verifierStake a else n) else l.relayStake b := by
  cases fromV <;> simp [deducted, Function.update_apply]

theorem verifierStake_deducted (a : Address) (n : ℕ) (fromV : Bool) (b : Address) :
    (l.deducted a n fromV).verifierStake b =
      if b = a then l.verifierStake a - (if fromV then n else n - l.relayStake a) else l.verifierStake b := by
  cases fromV <;> simp [deducted, Function.update_apply]

@[simp] theorem stakes_paid (attesters : List Address) (n : ℕ) :
    (l.paid attesters n).relayStake = l.relayStake ∧ (l.paid attesters n).verifierStake = l.verifierStake := by
  unfold paid
  generalize n / attesters.length = share
  induction attesters generalizing l with
  | nil => exact ⟨rfl, rfl⟩
  | cons a as ih => exact ih (l := l.credited a share)

/-- Slashing different verifiers takes from each of them once. -/
theorem stakes_slashedAll {vs : List Address} (hnd : vs.Nodup) (n : ℕ) (recipient b : Address) :
    (l.slashedAll vs n recipient).verifierStake b = (if b ∈ vs then l.verifierStake b - n else l.verifierStake b) ∧
      (l.slashedAll vs n recipient).relayStake b =
        if b ∈ vs then l.relayStake b - (n - l.verifierStake b) else l.relayStake b := by
  induction vs generalizing l with
  | nil => exact ⟨rfl, rfl⟩
  | cons v vs ih =>
    rw [List.nodup_cons] at hnd
    obtain ⟨hv, hr⟩ := ih (l := l.slashed v n recipient true) hnd.2
    have hcons : l.slashedAll (v :: vs) n recipient = (l.slashed v n recipient true).slashedAll vs n recipient := rfl
    have hv' : (l.slashed v n recipient true).verifierStake b =
        if b = v then l.verifierStake v - n else l.verifierStake b := by
      rw [slashed, verifierStake_credited, verifierStake_deducted, if_pos rfl]
    have hr' : (l.slashed v n recipient true).relayStake b =
        if b = v then l.relayStake v - (n - l.verifierStake v) else l.relayStake b := by
      rw [slashed, relayStake_credited, relayStake_deducted, if_pos rfl]
    rw [hcons, hv, hr, hv', hr']
    by_cases hb : b = v
    · subst hb
      simp [hnd.1]
    · simp [hb]

/-- What a fraud verdict leaves of the stakes, when the relay is not among the wrong-side verifiers. -/
theorem stakes_afterFraud {wrongSide : List Address} (hnd : wrongSide.Nodup) {relay : Address}
    (hrelay : relay ∉ wrongSide) (D : Deployment) (d : Dispute) (b : Address) :
    (l.afterFraud D d relay wrongSide).verifierStake b =
        (if b ∈ wrongSide then l.verifierStake b - D.verifierSlashAmount
        else if b = relay then l.verifierStake b - (D.relaySlashAmount - l.relayStake b) else l.verifierStake b) ∧
      (l.afterFraud D d relay wrongSide).relayStake b =
        if b ∈ wrongSide then l.relayStake b - (D.verifierSlashAmount - l.verifierStake b)
        else if b = relay then l.relayStake b - D.relaySlashAmount else l.relayStake b := by
  obtain ⟨hv, hr⟩ := stakes_slashedAll (l := l) hnd D.verifierSlashAmount d.challenger b
  obtain ⟨hv', hr'⟩ := stakes_slashedAll (l := l) hnd D.verifierSlashAmount d.challenger relay
  rw [if_neg hrelay] at hv' hr'
  unfold afterFraud
  dsimp only
  rw [verifierStake_credited, relayStake_credited, (stakes_paid _ _).1, (stakes_paid _ _).2, verifierStake_credited,
    relayStake_credited, verifierStake_deducted, relayStake_deducted, hv, hr, hv', hr']
  by_cases hb : b = relay
  · subst hb
    simp [hrelay]
  · simp [hb]

/-! ## Single credits -/

theorem pendingWithdrawals_credited (a : Address) (n : ℕ) (b : Address) :
    (l.credited a n).pendingWithdrawals b = l.pendingWithdrawals b + if b = a then n else 0 := by
  by_cases h : b = a
  · simp [credited, h]
  · simp [credited, h]

@[simp] theorem pendingWithdrawals_deducted (a : Address) (n : ℕ) (fromV : Bool) :
    (l.deducted a n fromV).pendingWithdrawals = l.pendingWithdrawals := by
  unfold deducted
  split <;> rfl

/-- An attester is paid its share as often as it is listed. -/
theorem pendingWithdrawals_paid (attesters : List Address) (n : ℕ) (b : Address) :
    (l.paid attesters n).pendingWithdrawals b =
      l.pendingWithdrawals b + attesters.count b * (n / attesters.length) := by
  unfold paid
  generalize n / attesters.length = share
  induction attesters generalizing l with
  | nil => simp
  | cons a as ih =>
    rw [List.foldl_cons, ih, pendingWithdrawals_credited, List.count_cons, Nat.add_mul]
    by_cases h : a = b
    · subst h
      simp
      omega
    · simp [h, Ne.symm h]

/-- What slashing different verifiers takes from all of them. -/
def seizedAll (vs : List Address) (n : ℕ) (l : Ledger) : ℕ := (vs.map fun v => l.seized v n).sum

/-- All that is taken from the slashed verifiers is credited to the recipient. -/
theorem pendingWithdrawals_slashedAll {vs : List Address} (hnd : vs.Nodup) (n : ℕ) (recipient b : Address) :
    (l.slashedAll vs n recipient).pendingWithdrawals b =
      l.pendingWithdrawals b + if b = recipient then l.seizedAll vs n else 0 := by
  induction vs generalizing l with
  | nil => simp [slashedAll, seizedAll]
  | cons v vs ih =>
    rw [List.nodup_cons] at hnd
    have hcons : l.slashedAll (v :: vs) n recipient = (l.slashed v n recipient true).slashedAll vs n recipient := rfl
    -- slashing `v` leaves the stakes of the others as they are
    have hrest : (l.slashed v n recipient true).seizedAll vs n = l.seizedAll vs n := by
      refine congrArg List.sum (List.map_congr_left fun u hu => ?_)
      have hne : u ≠ v := ne_of_mem_of_not_mem hu hnd.1
      simp only [slashed, seized, relayStake_credited, verifierStake_credited, relayStake_deducted,
        verifierStake_deducted, if_neg hne]
    have hsum : l.seizedAll (v :: vs) n = l.seized v n + l.seizedAll vs n := rfl
    rw [hcons, ih hnd.2, hrest, hsum, slashed, pendingWithdrawals_credited, pendingWithdrawals_deducted]
    split <;> omega

/-- What a fraud verdict collects from the relay. -/
theorem seized_slashedAll {vs : List Address} (hnd : vs.Nodup) {relay : Address} (hrelay : relay ∉ vs) (m n : ℕ)
    (recipient : Address) : (l.slashedAll vs n recipient).seized relay m = l.seized relay m := by
  obtain ⟨hv, hr⟩ := stakes_slashedAll (l := l) hnd n recipient relay
  rw [if_neg hrelay] at hv hr
  rw [seized, seized, hv, hr]

/-- What a fraud verdict adds to the credits, when the relay is not among the wrong-side verifiers. -/
theorem pendingWithdrawals_afterFraud {wrongSide : List Address} (hnd : wrongSide.Nodup) {relay : Address}
    (hrelay : relay ∉ wrongSide) (D : Deployment) (d : Dispute) (b : Address) :
    (l.afterFraud D d relay wrongSide).pendingWithdrawals b = l.pendingWithdrawals b +
      (if b = d.challenger then
        l.seizedAll wrongSide D.verifierSlashAmount + l.seized relay D.relaySlashAmount * 3 / 5 + d.bond else 0) +
      d.fraudAttesters.count b * (l.seized relay D.relaySlashAmount * 2 / 5 / d.fraudAttesters.length) := by
  unfold afterFraud
  dsimp only
  rw [seized_slashedAll hnd hrelay, pendingWithdrawals_credited, pendingWithdrawals_paid, pendingWithdrawals_credited,
    pendingWithdrawals_deducted, pendingWithdrawals_slashedAll hnd]
  split <;> omega

theorem pendingWithdrawals_afterSpurious (d : Dispute) (relay b : Address) :
    (l.afterSpurious d relay).pendingWithdrawals b = l.pendingWithdrawals b +
      d.validAttesters.count b * (d.bond / 2 / d.validAttesters.length) +
      if b = relay then d.bond - d.bond / 2 else 0 := by
  rw [afterSpurious, pendingWithdrawals_credited, pendingWithdrawals_paid]

/-! ## Totals -/

theorem total_credited (a : Address) (n : ℕ) : (l.credited a n).total = l.total + n := by
  have := sum_update l.pendingWithdrawals a (l.pendingWithdrawals a + n)
  simp only [total, credited]
  omega

theorem total_deducted (a : Address) (n : ℕ) (fromV : Bool) :
    (l.deducted a n fromV).total + l.seized a n = l.total := by
  cases fromV with
  | false =>
    have hr := sum_update l.relayStake a (l.relayStake a - n)
    have hv := sum_update l.verifierStake a (l.verifierStake a - (n - l.relayStake a))
    simp only [total, deducted, seized, Bool.false_eq_true, if_false]
    omega
  | true =>
    have hr := sum_update l.relayStake a (l.relayStake a - (n - l.verifierStake a))
    have hv := sum_update l.verifierStake a (l.verifierStake a - n)
    simp only [total, deducted, seized, if_true]
    omega

@[simp] theorem total_slashed (a : Address) (n : ℕ) (recipient : Address) (fromV : Bool) :
    (l.slashed a n recipient fromV).total = l.total := by
  rw [slashed, total_credited, total_deducted]

@[simp] theorem total_slashedAll (vs : List Address) (n : ℕ) (recipient : Address) :
    (l.slashedAll vs n recipient).total = l.total := by
  induction vs generalizing l with
  | nil => rfl
  | cons v vs ih => exact (ih (l := l.slashed v n recipient true)).trans (total_slashed v n recipient true)

theorem total_foldl_credited (attesters : List Address) (share : ℕ) :
    (attesters.foldl (fun l a => l.credited a share) l).total = l.total + share * attesters.length := by
  induction attesters generalizing l with
  | nil => simp
  | cons a as ih =>
    rw [List.foldl_cons, ih, total_credited, List.length_cons, Nat.mul_succ]
    omega

/-- What does not divide among the attesters is not paid. -/
theorem total_paid {attesters : List Address} (hne : attesters ≠ []) (n : ℕ) :
    (l.paid attesters n).total + n % attesters.length = l.total + n ∧ n % attesters.length < attesters.length := by
  have hdiv := Nat.div_add_mod n attesters.length
  rw [Nat.mul_comm] at hdiv
  refine ⟨?_, Nat.mod_lt _ (List.length_pos_iff.2 hne)⟩
  rw [paid, total_foldl_credited]
  omega

theorem total_paid_le (attesters : List Address) (n : ℕ) : (l.paid attesters n).total ≤ l.total + n := by
  rw [paid, total_foldl_credited]
  have := Nat.div_mul_le_self n attesters.length
  omega

theorem total_afterFraud_le (D : Deployment) (d : Dispute) (relay : Address) (wrongSide : List Address) :
    (l.afterFraud D d relay wrongSide).total ≤ l.total + d.bond := by
  unfold afterFraud
  dsimp only
  have hslash := total_slashedAll (l := l) wrongSide D.verifierSlashAmount d.challenger
  generalize l.slashedAll wrongSide D.verifierSlashAmount d.challenger = l' at hslash ⊢
  have hded := total_deducted (l := l') relay D.relaySlashAmount false
  generalize l'.seized relay D.relaySlashAmount = c at hded ⊢
  have hpaid := total_paid_le
    (l := (l'.deducted relay D.relaySlashAmount false).credited d.challenger (c * 3 / 5)) d.fraudAttesters (c * 2 / 5)
  rw [total_credited] at hpaid ⊢
  omega

/-- A fraud verdict pays out the bond and all that it collects, up to one wei for each attester when there is one. -/
theorem total_afterFraud (D : Deployment) (d : Dispute) (relay : Address) (wrongSide : List Address) :
    ∃ dust, (l.afterFraud D d relay wrongSide).total + dust = l.total + d.bond ∧
      (d.fraudAttesters ≠ [] → dust ≤ d.fraudAttesters.length) := by
  refine ⟨l.total + d.bond - (l.afterFraud D d relay wrongSide).total,
    Nat.add_sub_cancel' (total_afterFraud_le D d relay wrongSide), fun hne => ?_⟩
  unfold afterFraud
  dsimp only
  have hslash := total_slashedAll (l := l) wrongSide D.verifierSlashAmount d.challenger
  generalize l.slashedAll wrongSide D.verifierSlashAmount d.challenger = l' at hslash ⊢
  have hded := total_deducted (l := l') relay D.relaySlashAmount false
  generalize l'.seized relay D.relaySlashAmount = c at hded ⊢
  obtain ⟨hpaid, hlt⟩ :=
    total_paid (l := (l'.deducted relay D.relaySlashAmount false).credited d.challenger (c * 3 / 5)) hne (c * 2 / 5)
  rw [total_credited] at hpaid ⊢
  omega

theorem total_afterSpurious_le (d : Dispute) (relay : Address) :
    (l.afterSpurious d relay).total ≤ l.total + d.bond := by
  have := total_paid_le (l := l) d.validAttesters (d.bond / 2)
  rw [afterSpurious, total_credited]
  omega

/-- A spurious verdict pays out the bond, up to less than one wei for each attester when there is one. -/
theorem total_afterSpurious (d : Dispute) (relay : Address) :
    ∃ dust, (l.afterSpurious d relay).total + dust = l.total + d.bond ∧
      (d.validAttesters ≠ [] → dust ≤ d.validAttesters.length) := by
  refine ⟨l.total + d.bond - (l.afterSpurious d relay).total,
    Nat.add_sub_cancel' (total_afterSpurious_le d relay), fun hne => ?_⟩
  obtain ⟨hpaid, hlt⟩ := total_paid (l := l) hne (d.bond / 2)
  rw [afterSpurious, total_credited]
  omega

/-- An expiry pays out half of the bond. -/
theorem total_afterExpiry (d : Dispute) :
    (l.afterExpiry d).total + (d.bond - d.bond / 2) = l.total + d.bond := by
  rw [afterExpiry, total_credited]
  omega

end Ledger

/-! ## The functions of the contract -/

variable {l l' : Ledger}

theorem credit_ok {a : Address} {n : ℕ} (h : credit a n l = .ok l') : l' = l.credited a n := by
  unfold credit at h
  split at h
  · simp only [bind_eq_ok, checkedAdd_eq_ok, pure_eq_ok] at h
    obtain ⟨_, ⟨-, rfl⟩, rfl⟩ := h
    rfl
  · obtain rfl : n = 0 := by omega
    rw [Ledger.credited_zero]
    exact (pure_eq_ok.1 h).symm

/-- `take` in `_collectFromPool`: as much of the stake `s` as is asked for. -/
theorem ite_lt_eq_min (s m : ℕ) : (if s < m then s else m) = min s m := by
  rw [Nat.min_def]
  split <;> split <;> omega

theorem collectFromPool_ok {a : Address} {n : ℕ} {fromV : Bool} {p : Ledger × ℕ}
    (h : collectFromPool a n fromV l = .ok p) : p = (l.deducted a n fromV, l.seized a n) := by
  unfold collectFromPool at h
  simp only [ite_lt_eq_min] at h
  cases fromV with
  | false =>
    simp only [Bool.false_eq_true, if_false, bind_eq_ok, checkedSub_eq_ok] at h
    obtain ⟨_, ⟨-, rfl⟩, h⟩ := h
    split at h
    · simp only [bind_eq_ok, checkedSub_eq_ok, checkedAdd_eq_ok, pure_eq_ok] at h
      obtain ⟨_, ⟨-, rfl⟩, _, ⟨-, rfl⟩, rfl⟩ := h
      simp only [Ledger.deducted, Ledger.seized, Bool.false_eq_true, if_false, Prod.mk.injEq, Ledger.mk.injEq,
        and_true]
      exact ⟨⟨by congr 1; omega, by congr 1; omega⟩, by omega⟩
    · have hp := (pure_eq_ok.1 h).symm
      subst hp
      have hv : l.verifierStake a - (n - l.relayStake a) = l.verifierStake a := by omega
      simp only [Ledger.deducted, Ledger.seized, Bool.false_eq_true, if_false, Prod.mk.injEq, Ledger.mk.injEq,
        and_true, hv, Function.update_eq_self]
      exact ⟨by congr 1; omega, by omega⟩
  | true =>
    simp only [if_true, bind_eq_ok, checkedSub_eq_ok] at h
    obtain ⟨_, ⟨-, rfl⟩, h⟩ := h
    split at h
    · simp only [bind_eq_ok, checkedSub_eq_ok, checkedAdd_eq_ok, pure_eq_ok] at h
      obtain ⟨_, ⟨-, rfl⟩, _, ⟨-, rfl⟩, rfl⟩ := h
      simp only [Ledger.deducted, Ledger.seized, if_true, Prod.mk.injEq, Ledger.mk.injEq, and_true]
      exact ⟨⟨by congr 1; omega, by congr 1; omega⟩, by omega⟩
    · have hp := (pure_eq_ok.1 h).symm
      subst hp
      have hr : l.relayStake a - (n - l.verifierStake a) = l.relayStake a := by omega
      simp only [Ledger.deducted, Ledger.seized, if_true, Prod.mk.injEq, Ledger.mk.injEq, true_and,
        and_true, hr, Function.update_eq_self]
      exact ⟨by congr 1; omega, by omega⟩

theorem slashFromPool_ok {a : Address} {n : ℕ} {recipient : Address} {fromV : Bool}
    (h : slashFromPool a n recipient fromV l = .ok l') : l' = l.slashed a n recipient fromV := by
  unfold slashFromPool at h
  rw [bind_eq_ok] at h
  obtain ⟨p, hp, h⟩ := h
  obtain rfl := collectFromPool_ok hp
  dsimp only at h
  split at h
  · exact credit_ok h
  · rename_i hz
    have hz : l.seized a n = 0 := by omega
    rw [Ledger.slashed, hz, Ledger.credited_zero]
    exact (pure_eq_ok.1 h).symm

theorem payAttesters_ok {attesters : List Address} {n : ℕ} (h : payAttesters attesters n l = .ok l') :
    l' = l.paid attesters n := by
  unfold payAttesters at h
  split at h
  · rename_i hz
    have hp := (pure_eq_ok.1 h).symm
    subst hp
    rcases hz with hz | rfl
    · rw [List.length_eq_zero_iff.1 hz]
      rfl
    · -- nothing is paid, to however many attesters
      simp only [Ledger.paid, Nat.zero_div, Ledger.credited_zero]
      induction attesters with
      | nil => rfl
      | cons a as ih => exact ih
  · exact foldlM_eq_foldl (fun _ _ _ => credit_ok) _ h

theorem foldlM_slashFromPool_ok {vs : List Address} {n : ℕ} {recipient : Address}
    (h : vs.foldlM (fun l v => slashFromPool v n recipient true l) l = .ok l') :
    l' = l.slashedAll vs n recipient :=
  foldlM_eq_foldl (fun _ _ _ => slashFromPool_ok) _ h

/-! ## Returning -/

namespace Ledger

theorem pendingWithdrawals_le_total (l : Ledger) (a : Address) : l.pendingWithdrawals a ≤ l.total := by
  have := Finset.single_le_sum (f := l.pendingWithdrawals) (fun _ _ => Nat.zero_le _) (Finset.mem_univ a)
  simp only [total]
  omega

theorem stakes_le_total (l : Ledger) (a : Address) : l.relayStake a + l.verifierStake a ≤ l.total := by
  have hr := Finset.single_le_sum (f := l.relayStake) (fun _ _ => Nat.zero_le _) (Finset.mem_univ a)
  have hv := Finset.single_le_sum (f := l.verifierStake) (fun _ _ => Nat.zero_le _) (Finset.mem_univ a)
  simp only [total]
  omega

end Ledger

theorem credit_eq {a : Address} {n : ℕ} (h : l.total + n < wordSize) : credit a n l = .ok (l.credited a n) := by
  have := l.pendingWithdrawals_le_total a
  unfold credit
  split
  · rw [checkedAdd, if_pos (by omega)]
    rfl
  · obtain rfl : n = 0 := by omega
    rw [Ledger.credited_zero]
    rfl

theorem collectFromPool_eq (a : Address) (n : ℕ) (fromV : Bool) (h : l.total < wordSize) :
    collectFromPool a n fromV l = .ok (l.deducted a n fromV, l.seized a n) := by
  have hle := l.stakes_le_total a
  -- it returns: no stake is taken twice and the sum of the two parts is at most both pools
  obtain ⟨p, hp⟩ : ∃ p, collectFromPool a n fromV l = .ok p := by
    unfold collectFromPool
    simp only [ite_lt_eq_min]
    cases fromV with
    | false =>
      simp only [Bool.false_eq_true, if_false, checkedSub, checkedAdd, Nat.min_le_left, if_true, ok_bind]
      split
      · rw [if_pos (by omega)]
        exact ⟨_, rfl⟩
      · exact ⟨_, rfl⟩
    | true =>
      simp only [checkedSub, checkedAdd, Nat.min_le_left, if_true, ok_bind]
      split
      · rw [if_pos (by omega)]
        exact ⟨_, rfl⟩
      · exact ⟨_, rfl⟩
  rw [hp, collectFromPool_ok hp]

theorem slashFromPool_eq (a : Address) (n : ℕ) (recipient : Address) (fromV : Bool) (h : l.total < wordSize) :
    slashFromPool a n recipient fromV l = .ok (l.slashed a n recipient fromV) := by
  have htotal := Ledger.total_deducted (l := l) a n fromV
  rw [slashFromPool, collectFromPool_eq a n fromV h, ok_bind]
  dsimp only
  split
  · exact credit_eq (by omega)
  · have hz : l.seized a n = 0 := by omega
    rw [Ledger.slashed, hz, Ledger.credited_zero]
    rfl

theorem foldlM_slashFromPool_eq (vs : List Address) (n : ℕ) (recipient : Address) (h : l.total < wordSize) :
    vs.foldlM (fun l v => slashFromPool v n recipient true l) l = .ok (l.slashedAll vs n recipient) :=
  foldlM_ok (P := fun l _ => l.total < wordSize)
    (fun l v _ hl => ⟨slashFromPool_eq v n recipient true hl, (Ledger.total_slashed (l := l) ..).trans_lt hl⟩) vs h

theorem payAttesters_eq (attesters : List Address) (n : ℕ) (h : l.total + n < wordSize) :
    payAttesters attesters n l = .ok (l.paid attesters n) := by
  obtain ⟨l', hl'⟩ : ∃ l', payAttesters attesters n l = .ok l' := by
    unfold payAttesters
    split
    · exact ⟨_, rfl⟩
    · have hshare := Nat.div_mul_le_self n attesters.length
      -- what is still to be paid fits on top of the balances
      refine ⟨_, foldlM_ok (P := fun l rest => l.total + n / attesters.length * rest.length < wordSize)
        (g := fun l a => l.credited a (n / attesters.length)) ?_ attesters (by omega)⟩
      intro l a rest hl
      rw [List.length_cons, Nat.mul_succ] at hl
      refine ⟨credit_eq (by omega), ?_⟩
      rw [Ledger.total_credited]
      omega
  rw [hl', payAttesters_ok hl']

end PqIotAuth
