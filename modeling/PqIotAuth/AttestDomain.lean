import PqIotAuth.Progress
import PqIotAuth.Relay.MerkleTree

/-!
# The domain of attestations

What a verifier signs is the hash of a tag, the index of the dispute, the verdict and the target. With an injective
`keccak256` the digest determines these three (`attestDigest_inj`), so within one deployment a signature is a vote in
one dispute with one verdict. The chain and the address of the contract are not among the bytes that are hashed, unlike
those of a leaf of a batch: a signature that one deployment has accepted is accepted by another exactly when a vote of
the same verifier is open there in a dispute with the same index on the same target (`attestation_domain`), and two
deployments in which the same has happened take the same signatures (`attestation_replayed`).
-/

namespace PqIotAuth

open Lib

variable {E : Evm} {D D' : Deployment} {w w' : World} {id id' : ℕ} {verdict verdict' : Bool} {signature : List Byte}
  {v : Address} {d d' : Dispute}

/-! ## Digests -/

/-- The fields of a dispute are those of a target with indices of 256 bits. -/
structure Dispute.Ranged (d : Dispute) : Prop where
  kind : d.targetType = 0 ∧ d.leafIndex = 0 ∨ d.targetType = 1
  index : d.targetIndex < wordSize
  leaf : d.leafIndex < wordSize

theorem Court.Inv.ranged {c : Court} {vs : List (ℕ × Verdict)} (h : c.Inv vs) (hd : d ∈ c.disputes) : d.Ranged := by
  have hrange := h.inRange (h.filed hd)
  rcases h.kinds d hd with ⟨ht, hl⟩ | ht
  · rw [Dispute.target_record ht] at hrange
    exact ⟨.inl ⟨ht, hl⟩, hrange, hl ▸ (by decide : 0 < wordSize)⟩
  · rw [Dispute.target_leaf ht] at hrange
    exact ⟨.inr ht, hrange.1, hrange.2⟩

/-- The target tells all fields that are hashed. -/
theorem Dispute.Ranged.target_eq_iff (hd : d.Ranged) (hd' : d'.Ranged) : d.target = d'.target ↔
    d.targetType = d'.targetType ∧ d.targetIndex = d'.targetIndex ∧ d.leafIndex = d'.leafIndex := by
  rcases hd.kind with ⟨ht, hl⟩ | ht
  · rcases hd'.kind with ⟨ht', hl'⟩ | ht'
    · simp [Dispute.target_record ht, Dispute.target_record ht', ht, ht', hl, hl']
    · simp [Dispute.target_record ht, Dispute.target_leaf ht', ht, ht']
  · rcases hd'.kind with ⟨ht', hl'⟩ | ht'
    · simp [Dispute.target_leaf ht, Dispute.target_record ht', ht, ht']
    · simp [Dispute.target_leaf ht, Dispute.target_leaf ht', ht, ht']

theorem attestWords_length (a b c e f : ℕ) : ∀ x ∈ [uint256Bytes a, uint256Bytes b, uint256Bytes c, uint256Bytes e,
    uint256Bytes f], x.length = 32 := by
  intro x hx
  simp only [List.mem_cons, List.not_mem_nil, or_false] at hx
  rcases hx with rfl | rfl | rfl | rfl | rfl
  all_goals simp

/-- **The digest determines the dispute, the verdict and the target, and nothing else.** -/
theorem attestDigest_inj (hinj : Function.Injective E.keccak256) (hid : id < wordSize) (hid' : id' < wordSize)
    (hd : d.Ranged) (hd' : d'.Ranged) :
    attestDigest E id verdict d = attestDigest E id' verdict' d' ↔
      id = id' ∧ verdict = verdict' ∧ d.target = d'.target := by
  have hbool : ∀ b : Bool, b.toNat < wordSize := fun b => by cases b <;> decide
  have htype : ∀ {x : Dispute}, x.Ranged → x.targetType < wordSize := by
    intro x hx
    rcases hx.kind with ⟨ht, -⟩ | ht
    · rw [ht]
      decide
    · rw [ht]
      decide
  constructor
  · intro h
    have hinner : attestInner E id verdict d = attestInner E id' verdict' d' :=
      Bytes32.ext' (List.append_cancel_left (hinj h))
    have hwords := abiEncode_inj (by rfl) (by exact attestWords_length _ _ _ _ _)
      (by exact attestWords_length _ _ _ _ _) (hinj hinner)
    simp only [List.cons.injEq, and_true] at hwords
    obtain ⟨h1, h2, h3, h4, h5⟩ := hwords
    refine ⟨uint256Bytes_inj hid hid' h1, ?_, (hd.target_eq_iff hd').2 ⟨uint256Bytes_inj (htype hd) (htype hd') h3,
      uint256Bytes_inj hd.index hd'.index h4, uint256Bytes_inj hd.leaf hd'.leaf h5⟩⟩
    have hverdict := uint256Bytes_inj (hbool verdict) (hbool verdict') h2
    cases verdict <;> cases verdict' <;> first | rfl | cases hverdict
  · rintro ⟨rfl, rfl, htarget⟩
    obtain ⟨h1, h2, h3⟩ := (hd.target_eq_iff hd').1 htarget
    unfold attestDigest attestInner
    rw [h1, h2, h3]

/-! ## Acceptance -/

/-- `submitAttestation` accepts the signature as the vote of `v` in the dispute `id`. -/
def World.Accepts (D : Deployment) (w : World) (id : ℕ) (verdict : Bool) (signature : List Byte) (v : Address) : Prop :=
  ∃ d, w.relay.court.disputes[id]? = some d ∧
    recover D.toEvm (attestDigest D.toEvm id verdict d) signature = .ok v ∧
    ∃ sender w', w.step D (.call sender 0 (.submitAttestation id verdict signature)) = .ok w'

/-- A vote of `v` is open in the dispute `id`, which stands as in `d`: all that `submitAttestation` asks but for the
signature. -/
structure MayVote (D : Deployment) (w : World) (id : ℕ) (d : Dispute) (v : Address) : Prop where
  idle : w.openCalls = []
  dispute : w.relay.court.disputes[id]? = some d
  attestable : d.Attestable w.now
  registered : w.relay.roster.isRegisteredVerifier v
  staked : D.verifierStakeAmount ≤ w.relay.ledger.verifierStake v
  independent : w.relay.court.relayOf d.target ≠ some v
  fresh : v ∉ d.fraudAttesters ∧ v ∉ d.validAttesters

/-- A vote that is accepted was open. -/
theorem World.Reachable.mayVote (hw : w.Reachable D) (h : w.Accepts D id verdict signature v) :
    ∃ d, MayVote D w id d v ∧ recover D.toEvm (attestDigest D.toEvm id verdict d) signature = .ok v := by
  obtain ⟨d, hd, hsigned, sender, w', hs⟩ := h
  obtain ⟨s, he, rfl⟩ := World.call_effect hs
  have hvoting : ∃ relay, Voting D (w.env sender 0) w.relay id verdict signature v d relay := by
    cases he with
    | vote _ hvote | fraud _ hvote | spurious _ hvote =>
      obtain rfl := Option.some.inj (hd.symm.trans hvote.dispute)
      obtain rfl := Except.ok.inj (hsigned.symm.trans hvote.signed)
      exact ⟨_, hvote⟩
  obtain ⟨relay, hvote⟩ := hvoting
  refine ⟨d, ⟨?_, hd, ⟨hvote.deadline, hvote.unresolved, hvote.in_time⟩, hvote.registered, hvote.staked, ?_, ?_⟩,
    hsigned⟩
  · rcases hw.guard with ⟨-, hidle⟩ | ⟨hup, -⟩
    · exact hidle
    · rw [hvote.guard] at hup
      cases hup
  · rw [targetRelay_ok'.1 hvote.endorsed]
    simpa using hvote.independent.symm
  · have hfresh := hvote.fresh
    rw [(hw.votes.each id d hd).attested, not_or] at hfresh
    exact hfresh

/-- An open vote is accepted with any signature of it. -/
theorem World.Reachable.accepts (hw : w.Reachable D) (hether : w.balance < 2 ^ 250) (hv : MayVote D w id d v)
    (hsigned : recover D.toEvm (attestDigest D.toEvm id verdict d) signature = .ok v) :
    w.Accepts D id verdict signature v := by
  obtain ⟨hpos, hun, hdue⟩ := hv.attestable
  have heligible : Eligible D w id verdict signature d v :=
    ⟨hsigned, hv.registered, hv.staked, hv.independent, hv.fresh⟩
  exact ⟨d, hv.dispute, hsigned, v, hw.attest_returns hether hv.idle hv.dispute hpos hun hdue heligible v⟩

/-! ## Two deployments -/

/-- A signature is one of an account on one digest at most. -/
def SignaturesBind (E : Evm) : Prop := ∀ (signature : List Byte) (v : Address) (digest digest' : Bytes32),
  recover E digest signature = .ok v → recover E digest' signature = .ok v → digest = digest'

/-- The two are one deployment: on the same chain, at the same address. -/
def Deployment.SamePlace (D D' : Deployment) : Prop := D.chainid = D'.chainid ∧ D.self = D'.self

/-- A signature of `v`, accepted by `D` for the dispute `id` and the verdict, is accepted by `D'` in `w'` for `id'` and
`verdict'` only if all of these are the same. -/
def Separated (D : Deployment) (id : ℕ) (verdict : Bool) (D' : Deployment) (w' : World) (id' : ℕ) (verdict' : Bool)
    (signature : List Byte) (v : Address) : Prop :=
  w'.Accepts D' id' verdict' signature v → D.SamePlace D' ∧ id = id' ∧ verdict = verdict'

/-- A vote of `v` with the verdict is open in `w'` in a dispute that has the index `id` and the target `t` too. -/
def Twin (id : ℕ) (verdict : Bool) (t : Target) (D' : Deployment) (w' : World) (id' : ℕ) (verdict' : Bool)
    (v : Address) : Prop :=
  id = id' ∧ verdict = verdict' ∧ ∃ d', MayVote D' w' id' d' v ∧ d'.target = t

/-- **A signature is accepted for nothing else if and only if no other deployment has the same vote open.** -/
theorem attestation_domain {D D' : Deployment} (hevm : D'.toEvm = D.toEvm) (hinj : Function.Injective D.keccak256)
    (hbind : SignaturesBind D.toEvm) {w w' : World} (hw : w.Reachable D) (hw' : w'.Reachable D') {id id' : ℕ}
    {verdict verdict' : Bool} {signature : List Byte} {v : Address} (h : w.Accepts D id verdict signature v) :
    ∃ d, w.relay.court.disputes[id]? = some d ∧
      (∀ d', w'.relay.court.disputes[id']? = some d' →
        (attestDigest D.toEvm id verdict d = attestDigest D'.toEvm id' verdict' d' ↔
          id = id' ∧ verdict = verdict' ∧ d.target = d'.target)) ∧
      ((Twin id verdict d.target D' w' id' verdict' v → D.SamePlace D') →
        Separated D id verdict D' w' id' verdict' signature v) ∧
      (w'.balance < 2 ^ 250 → Separated D id verdict D' w' id' verdict' signature v →
        Twin id verdict d.target D' w' id' verdict' v → D.SamePlace D') := by
  obtain ⟨d, hvote, hsigned⟩ := hw.mayVote h
  have hdigest : ∀ d', w'.relay.court.disputes[id']? = some d' →
      (attestDigest D.toEvm id verdict d = attestDigest D'.toEvm id' verdict' d' ↔
        id = id' ∧ verdict = verdict' ∧ d.target = d'.target) := by
    intro d' hd'
    rw [hevm]
    exact attestDigest_inj hinj ((List.getElem?_eq_some_iff.1 hvote.dispute).1.trans hw.court.disputes_length)
      ((List.getElem?_eq_some_iff.1 hd').1.trans hw'.court.disputes_length)
      (hw.court.ranged (List.mem_of_getElem? hvote.dispute)) (hw'.court.ranged (List.mem_of_getElem? hd'))
  refine ⟨d, hvote.dispute, hdigest, fun htwin haccepts => ?_, fun hether hsep htwin => ?_⟩
  · -- the signature is one of `v` on both digests, so they are the same
    obtain ⟨d', hvote', hsigned'⟩ := hw'.mayVote haccepts
    have hsame : attestDigest D.toEvm id verdict d = attestDigest D'.toEvm id' verdict' d' := by
      rw [hevm] at hsigned' ⊢
      exact hbind signature v _ _ hsigned hsigned'
    obtain ⟨hid, hverdict, htarget⟩ := (hdigest d' hvote'.dispute).1 hsame
    exact ⟨htwin ⟨hid, hverdict, d', hvote', htarget.symm⟩, hid, hverdict⟩
  · obtain ⟨hid, hverdict, d', hvote', htarget⟩ := htwin
    have hsame := (hdigest d' hvote'.dispute).2 ⟨hid, hverdict, htarget.symm⟩
    have hsigned' : recover D'.toEvm (attestDigest D'.toEvm id' verdict' d') signature = .ok v := by
      rw [← hsame, hevm]
      exact hsigned
    exact (hsep (hw'.accepts hether hvote' hsigned')).1

namespace Toy

/-- The first record has been disputed, and nobody has voted. -/
def opened (D : Deployment) : World := World.after D (filings ++ [.call 9 10 (.openDispute 0)]) (World.init 1000)

theorem opened_reachable (D : Deployment) : (opened D).Reachable D :=
  World.after_reachable _ (World.init_reachable (by decide))

/-- Another chain, with the contract at another address. -/
def elsewhere : Deployment := { Deployment.toy 2 with chainid := 2, self := 98 }

/-- The signature of the verifier 3 under the verdict "valid" in the first dispute. -/
def ballot : List Byte :=
  Evm.toySignature (attestDigest Evm.toy 0 false ⟨0, 0, 0, 0, 0, 0, 0, [], [], false⟩) 3

end Toy

theorem Evm.toy_signaturesBind : SignaturesBind Evm.toy := by
  have hdigest : ∀ {digest : Bytes32} {signature : List Byte} {v : Address},
      recover Evm.toy digest signature = .ok v → Bytes32.ofBytes (signature.take 32) = digest := by
    intro digest signature v h
    unfold recover at h
    simp only [bind_eq_ok, revertIf_eq_ok, pure_eq_ok] at h
    obtain ⟨_, -, _, -, _, hsigner, -⟩ := h
    by_contra hne
    exact hsigner (if_neg hne)
  intro signature v digest digest' h h'
  exact (hdigest h).symm.trans (hdigest h')

/-- In one deployment: the vote "valid" is not accepted as a vote "fraud". -/
theorem attestation_domain_toy :
    (Toy.opened (Deployment.toy 2)).Accepts (Deployment.toy 2) 0 false Toy.ballot 3 ∧
      ¬ (Toy.opened (Deployment.toy 2)).Accepts (Deployment.toy 2) 0 true Toy.ballot 3 := by
  have haccepts : (Toy.opened (Deployment.toy 2)).Accepts (Deployment.toy 2) 0 false Toy.ballot 3 := by
    obtain ⟨hd, hok⟩ : (∃ d ∈ (Toy.opened (Deployment.toy 2)).relay.court.disputes[0]?,
        recover Evm.toy (attestDigest Evm.toy 0 false d) Toy.ballot = .ok 3) ∧
        ((Toy.opened (Deployment.toy 2)).step (Deployment.toy 2)
          (.call 9 0 (.submitAttestation 0 false Toy.ballot))).isOk := by decide +kernel
    obtain ⟨d, hd, hsigned⟩ := hd
    exact ⟨d, hd, hsigned, 9, _, World.after_step hok⟩
  refine ⟨haccepts, fun hfraud => ?_⟩
  have hopened : (Toy.opened (Deployment.toy 2)).Reachable (Deployment.toy 2) := Toy.opened_reachable _
  obtain ⟨d, -, -, hsep, -⟩ := @attestation_domain _ _ rfl Evm.toy_injective Evm.toy_signaturesBind _ _ hopened hopened
    0 0 false true Toy.ballot 3 haccepts
  exact absurd (hsep (fun _ => ⟨rfl, rfl⟩) hfraud).2.2 (by decide)

/-- The same vote is accepted on another chain by a contract at another address. -/
theorem attestation_replayed : Function.Injective Evm.toy.keccak256 ∧ SignaturesBind Evm.toy ∧
    Toy.elsewhere.toEvm = Evm.toy ∧ (Toy.opened (Deployment.toy 2)).Reachable (Deployment.toy 2) ∧
    (Toy.opened Toy.elsewhere).Reachable Toy.elsewhere ∧
    (Toy.opened (Deployment.toy 2)).Accepts (Deployment.toy 2) 0 false Toy.ballot 3 ∧
    (Toy.opened Toy.elsewhere).Accepts Toy.elsewhere 0 false Toy.ballot 3 ∧
    (Deployment.toy 2).chainid ≠ Toy.elsewhere.chainid ∧ (Deployment.toy 2).self ≠ Toy.elsewhere.self ∧
    ¬ Separated (Deployment.toy 2) 0 false Toy.elsewhere (Toy.opened Toy.elsewhere) 0 false Toy.ballot 3 := by
  have haccepts : ∀ D ∈ [Deployment.toy 2, Toy.elsewhere], (Toy.opened D).Accepts D 0 false Toy.ballot 3 := by
    have hok : ∀ D ∈ [Deployment.toy 2, Toy.elsewhere], (∃ d ∈ (Toy.opened D).relay.court.disputes[0]?,
        recover D.toEvm (attestDigest D.toEvm 0 false d) Toy.ballot = .ok 3) ∧
        ((Toy.opened D).step D (.call 9 0 (.submitAttestation 0 false Toy.ballot))).isOk := by decide +kernel
    intro D hD
    obtain ⟨⟨d, hd, hsigned⟩, hok⟩ := hok D hD
    exact ⟨d, hd, hsigned, 9, _, World.after_step hok⟩
  have hhere := haccepts (Deployment.toy 2) (by simp)
  have hthere := haccepts Toy.elsewhere (by simp)
  refine ⟨Evm.toy_injective, Evm.toy_signaturesBind, rfl, Toy.opened_reachable _, Toy.opened_reachable _, hhere, hthere,
    by decide, by decide, fun hsep => ?_⟩
  exact absurd (hsep hthere).1.1 (by decide)

end PqIotAuth
