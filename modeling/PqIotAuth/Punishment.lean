import PqIotAuth.Settlement

/-!
# What a slash costs

A fraud verdict takes from the relay and from the verifiers of the wrong side, and hands all the slashes and the bounty
to the challenger. Nothing keeps one of those from being the challenger: it then gets its own slash back, and those of
the others with it. `slash_kept_iff` says when the slashed really pay: when the challenger is none of them, or when
there is nothing to hand out.
-/

namespace PqIotAuth

open Lib

variable {D : Deployment} {w w' : World} {id : ℕ} {d d' : Dispute} {env : Env} {call : Call} {a relay : Address}

/-! ## What an account has -/

/-- The bonds of the unresolved disputes that `a` has opened. -/
def bondsOf (a : Address) (disputes : List Dispute) : ℕ :=
  (disputes.map fun d => if d.resolved = false ∧ d.challenger = a then d.bond else 0).sum

/-- All that the contract holds for `a`. -/
def Storage.holdings (a : Address) (s : Storage) : ℕ :=
  s.ledger.relayStake a + s.ledger.verifierStake a + s.ledger.pendingWithdrawals a + bondsOf a s.court.disputes

/-- A dispute that ends holds the bond of its challenger no longer. -/
theorem bondsOf_close {ds : List Dispute} (hd : ds[id]? = some d) (hun : d.resolved = false)
    (hres : d'.resolved = true) :
    bondsOf a (ds.set id d') + (if a = d.challenger then d.bond else 0) = bondsOf a ds := by
  have hsum := sum_map_set (fun d : Dispute => if d.resolved = false ∧ d.challenger = a then d.bond else 0) hd d'
  simp only [hun, hres, Bool.true_eq_false, false_and, if_false, Nat.add_zero, true_and] at hsum
  rw [bondsOf, bondsOf, ← hsum]
  congr 1
  exact if_congr eq_comm rfl rfl

/-! ## What a fraud verdict leaves of it -/

/-- What a fraud verdict takes from the stakes of `a`. -/
def Ledger.forfeited (D : Deployment) (relay : Address) (wrongSide : List Address) (a : Address) (l : Ledger) : ℕ :=
  if wrongSide.contains a then l.seized a D.verifierSlashAmount
  else if a = relay then l.seized a D.relaySlashAmount else 0

theorem Ledger.forfeited_of_mem {wrongSide : List Address} (ha : a ∈ wrongSide) (l : Ledger) :
    l.forfeited D relay wrongSide a = l.seized a D.verifierSlashAmount :=
  if_pos (List.contains_iff_mem.2 ha)

theorem Ledger.forfeited_of_notMem {wrongSide : List Address} (ha : a ∉ wrongSide) (l : Ledger) :
    l.forfeited D relay wrongSide a = if a = relay then l.seized a D.relaySlashAmount else 0 :=
  if_neg fun h => ha (List.contains_iff_mem.1 h)

/-- What a fraud verdict hands to the challenger out of what it takes. -/
def Ledger.handed (D : Deployment) (relay : Address) (wrongSide : List Address) (l : Ledger) : ℕ :=
  l.seizedAll wrongSide D.verifierSlashAmount + 3 * l.seized relay D.relaySlashAmount / 5

/-- The reward of one attester of a fraud verdict. -/
def Ledger.reward (D : Deployment) (relay : Address) (l : Ledger) : ℕ :=
  2 * l.seized relay D.relaySlashAmount / 5 / D.quorum

theorem SettledFraud.holdings {wrongSide : List Address} {l l' : Ledger}
    (h : SettledFraud D d' relay wrongSide l l') (a : Address) :
    l'.relayStake a + l'.verifierStake a + l'.pendingWithdrawals a + l.forfeited D relay wrongSide a =
      l.relayStake a + l.verifierStake a + l.pendingWithdrawals a +
        (if a = d'.challenger then l.handed D relay wrongSide + d'.bond else 0) +
        if a ∈ d'.fraudAttesters then l.reward D relay else 0 := by
  have hcredits : l'.pendingWithdrawals a = l.pendingWithdrawals a +
      (if a = d'.challenger then l.handed D relay wrongSide + d'.bond else 0) +
      if a ∈ d'.fraudAttesters then l.reward D relay else 0 := h.credits a
  have hstakes : l'.relayStake a + l'.verifierStake a + l.forfeited D relay wrongSide a =
      l.relayStake a + l.verifierStake a := by
    by_cases ha : a ∈ wrongSide
    · obtain ⟨hv, hr⟩ := h.slashed a ha
      rw [Ledger.forfeited_of_mem ha, Ledger.seized, hv, hr]
      omega
    · rw [Ledger.forfeited_of_notMem ha, Ledger.seized]
      by_cases hrelay : a = relay
      · subst hrelay
        obtain ⟨hr, hv⟩ := h.collected
        rw [if_pos rfl, hr, hv]
        omega
      · obtain ⟨hr, hv⟩ := h.others a ha hrelay
        rw [if_neg hrelay, hr, hv]
        omega
  rw [hcredits]
  omega

/-- Who voted "valid" on what is told by the targets and the "valid" sides of the disputes. -/
theorem Court.votedValid_congr {c c' : Court}
    (h : c'.disputes.map (fun d => (d.target, d.validAttesters)) = c.disputes.map fun d => (d.target, d.validAttesters))
    (t : Target) (v : Address) : c'.VotedValid t v ↔ c.VotedValid t v := by
  have hiff : ∀ c : Court, c.VotedValid t v ↔
      ∃ p ∈ c.disputes.map fun d => (d.target, d.validAttesters), p.1 = t ∧ v ∈ p.2 := by
    intro c
    simp [Court.VotedValid]
  rw [hiff, hiff, h]

/-- The vote that completes a fraud verdict is a vote "fraud", so it adds nobody to the wrong side. -/
theorem Ending.votedValid (hq : 0 < D.quorum) (hw : w.Reachable D) {e : Dispute} {s' : Storage}
    (h : Ending D env w.relay id d call .fraud relay e s') (t : Target) (v : Address) :
    s'.court.VotedValid t v ↔ w.relay.court.VotedValid t v := by
  have hds := h.disputes
  cases h with
  | @fraud verdict _ signer _ hvote hfull =>
    have hshort := ((hw.votes.each id d hvote.dispute).short hq hvote.unresolved).1
    cases verdict with
    | false => exact absurd hfull (Nat.not_le.2 hshort)
    | true =>
      refine Court.votedValid_congr ?_ t v
      rw [hds]
      exact map_set_eq hvote.dispute rfl

/-- The relay is not among the attesters. -/
theorem Ending.independent (hw : w.Reachable D) {e : Dispute} {s' : Storage}
    (h : Ending D env w.relay id d call .fraud relay e s') : relay ∉ e.fraudAttesters := by
  cases h with
  | @fraud verdict _ signer _ hvote =>
    have hold := ((hw.votes.each id d hvote.dispute).independent relay (targetRelay_ok'.1 hvote.endorsed)).1
    cases verdict with
    | false => exact hold
    | true =>
      intro hmem
      rcases List.mem_append.1 hmem with hmem | hmem
      · exact hold hmem
      · exact hvote.independent (List.mem_singleton.1 hmem).symm

/-! ## When the slashed pay -/

/-- What is promised of the fraud verdict in `d`, on a target of `relay`: what is taken from the relay is gone, and so
is what is taken from a verifier of the wrong side, but for what it earns as an attester. -/
structure SlashKept (D : Deployment) (w w' : World) (d : Dispute) (relay : Address) : Prop where
  endorser : w'.relay.holdings relay + w.relay.ledger.seized relay D.relaySlashAmount ≤ w.relay.holdings relay
  wrong_side : ∀ v, w'.relay.court.VotedValid d.target v →
    w'.relay.holdings v + w.relay.ledger.seized v D.verifierSlashAmount ≤
      w.relay.holdings v + if v ∈ d.fraudAttesters then w.relay.ledger.reward D relay else 0

/-- Before the verdict: the challenger has neither endorsed the target nor voted "valid" on it, or a fraud verdict has
nothing to hand to it. -/
def ChallengerApart (D : Deployment) (w : World) (d : Dispute) (relay : Address) : Prop :=
  (d.challenger ≠ relay ∧ ¬ w.relay.court.VotedValid d.target d.challenger) ∨
    (3 * w.relay.ledger.seized relay D.relaySlashAmount / 5 = 0 ∧
      ∀ v, w.relay.court.VotedValid d.target v → w.relay.ledger.seized v D.verifierSlashAmount = 0)

/-- What a fraud verdict leaves of the holdings of everyone. -/
theorem Ending.holdings (hd : w.relay.court.disputes[id]? = some d) (hun : d.resolved = false) {e : Dispute}
    (h : Ending D env w.relay id d call .fraud relay e w'.relay) {wrongSide : List Address}
    (hset : SettledFraud D { e with resolved := true } relay wrongSide w.relay.ledger w'.relay.ledger) (a : Address) :
    w'.relay.holdings a + w.relay.ledger.forfeited D relay wrongSide a =
      w.relay.holdings a + (if a = d.challenger then w.relay.ledger.handed D relay wrongSide else 0) +
        if a ∈ e.fraudAttesters then w.relay.ledger.reward D relay else 0 := by
  have hchallenger : e.challenger = d.challenger := by rw [h.kept]
  have hbond : e.bond = d.bond := by rw [h.kept]
  have hsum := hset.holdings a
  have hclose := bondsOf_close (a := a) hd hun (show ({ e with resolved := true } : Dispute).resolved = true from rfl)
  dsimp only at hsum
  rw [hchallenger, hbond] at hsum
  rw [Storage.holdings, Storage.holdings, h.disputes]
  by_cases ha : a = d.challenger
  · simp only [if_pos ha] at hsum hclose ⊢
    omega
  · simp only [if_neg ha] at hsum hclose ⊢
    omega

/-- Who is slashed and does not pay is the challenger. -/
theorem slashKept_iff_handed {wrongSide : List Address}
    (hmem : ∀ v, v ∈ wrongSide ↔ w'.relay.court.VotedValid d'.target v) (hapart : relay ∉ wrongSide)
    (hindependent : relay ∉ d'.fraudAttesters)
    (hholdings : ∀ a, w'.relay.holdings a + w.relay.ledger.forfeited D relay wrongSide a =
      w.relay.holdings a + (if a = d'.challenger then w.relay.ledger.handed D relay wrongSide else 0) +
        if a ∈ d'.fraudAttesters then w.relay.ledger.reward D relay else 0) :
    SlashKept D w w' d' relay ↔
      (d'.challenger = relay ∨ d'.challenger ∈ wrongSide → w.relay.ledger.handed D relay wrongSide = 0) := by
  have hrelay := hholdings relay
  rw [Ledger.forfeited_of_notMem hapart, if_pos rfl, if_neg hindependent] at hrelay
  have hside : ∀ v ∈ wrongSide, _ := fun v hv => hholdings v
  constructor
  · rintro ⟨hendorser, hwrong⟩ (hc | hc)
    · rw [if_pos hc.symm] at hrelay
      omega
    · have hv := hside _ hc
      rw [Ledger.forfeited_of_mem hc, if_pos rfl] at hv
      have := hwrong _ ((hmem _).1 hc)
      omega
  · intro hzero
    constructor
    · by_cases hc : relay = d'.challenger
      · rw [if_pos hc, hzero (.inl hc.symm)] at hrelay
        omega
      · rw [if_neg hc] at hrelay
        omega
    · intro v hv
      have hv' := (hmem v).2 hv
      have hsum := hside v hv'
      rw [Ledger.forfeited_of_mem hv'] at hsum
      by_cases hc : v = d'.challenger
      · rw [if_pos hc, hzero (.inr (hc ▸ hv'))] at hsum
        omega
      · rw [if_neg hc] at hsum
        omega

/-- **The slashed pay exactly when the challenger is none of them, or when nothing is handed out.** -/
theorem slash_kept_iff {D : Deployment} {w w' : World} (hq : 0 < D.quorum) (hw : w.Reachable D)
    (hkeys : KeysInjective D.toEvm) {sender : Address} {value id : ℕ} {verdict : Bool} {signature : List Byte}
    (hs : w.step D (.call sender value (.submitAttestation id verdict signature)) = .ok w')
    (hfraud : .disputeResolved id true ∈ w'.relay.logs) :
    ∃ (d d' : Dispute) (relay : Address), w.relay.court.disputes[id]? = some d ∧ d.resolved = false ∧
      w'.relay.court.disputes[id]? = some d' ∧ d'.resolved = true ∧ w.relay.court.relayOf d.target = some relay ∧
      (SlashKept D w w' d' relay ↔ ChallengerApart D w d relay) := by
  obtain ⟨d, relay, e, hd, hun, hend⟩ := hw.fraud_ending hs hfraud
  obtain ⟨wrongSide, hnodup, hmem, hset⟩ := hend.settled hq hw hkeys ⟨_, hs⟩ hd
  have htarget : e.target = d.target := by rw [hend.kept]; rfl
  have hchallenger : e.challenger = d.challenger := by rw [hend.kept]
  refine ⟨d, _, relay, hd, hun, hend.resolved hd, rfl, hend.endorsed, ?_⟩
  have hbefore : ∀ v, v ∈ wrongSide ↔ w.relay.court.VotedValid d.target v := fun v => by
    rw [hmem, ← hend.votedValid hq hw, ← htarget]
    rfl
  have hholdings := hend.holdings hd hun hset
  rw [← hchallenger] at hholdings
  rw [slashKept_iff_handed hmem hset.apart (hend.independent hw) hholdings]
  dsimp only
  -- nothing is handed out when no verifier and too little of the relay is slashed
  have hhanded : w.relay.ledger.handed D relay wrongSide = 0 ↔
      3 * w.relay.ledger.seized relay D.relaySlashAmount / 5 = 0 ∧
        ∀ v, w.relay.court.VotedValid d.target v → w.relay.ledger.seized v D.verifierSlashAmount = 0 := by
    rw [Ledger.handed, Nat.add_eq_zero_iff, Ledger.seizedAll, List.sum_eq_zero_iff, and_comm]
    simp only [List.forall_mem_map, hbefore]
  rw [hchallenger, hbefore, hhanded, ChallengerApart, imp_iff_not_or, not_or]

namespace Toy

/-- The first record disputed by 3, who has upheld it before; 5 votes "fraud". -/
def ownTrial : World := World.after (Deployment.toy 2) [.call 3 10 (.openDispute 0), vote 5 3 0 0 0 true] world

theorem ownTrial_reachable : ownTrial.Reachable (Deployment.toy 2) := World.after_reachable _ world_reachable

def ownVerdict : World := World.after (Deployment.toy 2) [vote 4 3 0 0 0 true] ownTrial

end Toy

/-- With the challenger 9 the slashed pay. -/
theorem slash_kept_iff_toy : ∃ d relay, SlashKept (Deployment.toy 2) Toy.secondTrial Toy.secondVerdict d relay := by
  obtain ⟨hok, hfraud, ⟨d, hd, hapart⟩, hrelay⟩ :
      (Toy.secondTrial.step (Deployment.toy 2) (Toy.vote 3 3 0 0 0 true)).isOk ∧
      .disputeResolved 3 true ∈ Toy.secondVerdict.relay.logs ∧
      (∃ d ∈ Toy.secondTrial.relay.court.disputes[3]?, d.challenger ≠ 2 ∧
        ∀ e ∈ Toy.secondTrial.relay.court.disputes, e.target = d.target → d.challenger ∉ e.validAttesters) ∧
      (Toy.secondTrial.relay.court.disputes[3]?.bind fun d => Toy.secondTrial.relay.court.relayOf d.target) =
        some 2 := by
    decide +kernel
  have hs : Toy.secondTrial.step (Deployment.toy 2) (Toy.vote 3 3 0 0 0 true) = .ok Toy.secondVerdict :=
    World.after_step hok
  obtain ⟨e, d', relay, he, -, -, -, hof, hiff⟩ :=
    slash_kept_iff (by decide) Toy.secondTrial_reachable (.of_injective Evm.toy_injective) hs hfraud
  obtain rfl := Option.some.inj ((Option.mem_def.1 hd).symm.trans he)
  rw [Option.mem_def.1 hd, Option.bind_some, hof] at hrelay
  obtain rfl := Option.some.inj hrelay
  refine ⟨d', 2, hiff.2 (.inl ⟨hapart.1, ?_⟩)⟩
  rintro ⟨x, hx, hxt, hv⟩
  exact hapart.2 x hx hxt hv

/-- Verifier 3 is slashed 15 and has 33 more than before: it gets back the 15, the 15 of verifier 4 and a bounty of
18. -/
theorem slash_returned : Toy.ownTrial.Reachable (Deployment.toy 2) ∧
    Toy.ownTrial.step (Deployment.toy 2) (Toy.vote 4 3 0 0 0 true) = .ok Toy.ownVerdict ∧
    .disputeResolved 3 true ∈ Toy.ownVerdict.relay.logs ∧
    Toy.ownVerdict.relay.holdings 3 = Toy.ownTrial.relay.holdings 3 + 33 ∧
    ∃ d relay, Toy.ownVerdict.relay.court.disputes[3]? = some d ∧
      Toy.ownTrial.relay.court.relayOf d.target = some relay ∧
      ¬ SlashKept (Deployment.toy 2) Toy.ownTrial Toy.ownVerdict d relay := by
  obtain ⟨hok, hfraud, hgain, ⟨d, hd, hrelay, hvoted, hattest⟩, hseized⟩ :
      (Toy.ownTrial.step (Deployment.toy 2) (Toy.vote 4 3 0 0 0 true)).isOk ∧
      .disputeResolved 3 true ∈ Toy.ownVerdict.relay.logs ∧
      Toy.ownVerdict.relay.holdings 3 = Toy.ownTrial.relay.holdings 3 + 33 ∧
      (∃ d ∈ Toy.ownVerdict.relay.court.disputes[3]?, Toy.ownTrial.relay.court.relayOf d.target = some 2 ∧
        (∃ e ∈ Toy.ownVerdict.relay.court.disputes, e.target = d.target ∧ 3 ∈ e.validAttesters) ∧
        3 ∉ d.fraudAttesters) ∧
      Toy.ownTrial.relay.ledger.seized 3 15 = 15 := by
    decide +kernel
  refine ⟨Toy.ownTrial_reachable, World.after_step hok, hfraud, hgain, d, 2, hd, hrelay, fun hkept => ?_⟩
  have hpays := hkept.wrong_side 3 hvoted
  rw [if_neg hattest] at hpays
  have hslash : Toy.ownTrial.relay.ledger.seized 3 (Deployment.toy 2).verifierSlashAmount = 15 := hseized
  omega

end PqIotAuth
