import PqIotAuth.Evm

/-!
# The simulation backend of `falcon_utils`

Where no Falcon library is installed, keys and signatures are Ed25519's, padded to the sizes of Falcon-512. The pad is
derived from the signature, so there is one padded signature; but the verifier cuts it off unread. What is accepted is
therefore decided by the first 64 bytes (`simulation_unmalleable_iff`): every truncation that keeps them and every
change behind them passes.

SHA-256 and Ed25519 are parameters (`Primitives`), and what is assumed of Ed25519 is `Primitives.Correct`.
-/

namespace PqIotAuth

/-! ## The backend -/

def falcon512PublicKeySize : ℕ := 897

def falcon512PrivateKeySize : ℕ := 1281

def falcon512SignatureSizeMax : ℕ := 752

structure FalconKeyPair where
  publicKey : List Byte
  privateKey : List Byte

/-- The functions of the libraries that the backend calls, on raw keys. -/
structure Primitives where
  sha256 : List Byte → Bytes32
  publicKey : Bytes32 → Bytes32
  sign : Bytes32 → List Byte → List Byte
  /-- Whether `verify` returns; it raises an exception otherwise. -/
  verify : Bytes32 → List Byte → List Byte → Bool

/-- Ed25519 is correct, and accepts one signature for a key and a message. -/
structure Primitives.Correct (P : Primitives) : Prop where
  sign_length : ∀ priv message, (P.sign priv message).length = 64
  verify_iff : ∀ priv message signature,
    P.verify (P.publicKey priv) signature message = true ↔ signature = P.sign priv message

/-- `from_private_bytes` and `from_public_bytes`; `none` where they raise. -/
def rawKey (bytes : List Byte) : Option Bytes32 :=
  if h : bytes.length = 32 then some ⟨bytes, h⟩ else none

/-- `counter.to_bytes(4, "big")`; `none` where it raises. -/
def toBytes4 (counter : ℕ) : Option (List Byte) := if counter < 256 ^ 4 then some (beBytes 4 counter) else none

namespace Primitives

variable (P : Primitives)

def deterministicPadLoop (label : List Byte) (targetLen counter : ℕ) (buf : List Byte) : Option (List Byte) :=
  if buf.length < targetLen then
    match toBytes4 counter with
    | some bytes =>
      deterministicPadLoop label targetLen (counter + 1) (buf ++ (P.sha256 (label ++ bytes)).bytes)
    | none => none
  else some buf
termination_by targetLen - buf.length
decreasing_by
  rw [List.length_append, Bytes32.length_eq]
  omega

/-- `_deterministic_pad`. -/
def deterministicPad (data label : List Byte) (targetLen : ℕ) : Option (List Byte) :=
  (P.deterministicPadLoop label targetLen 0 data).map fun buf => buf.take targetLen

/-- The Ed25519 key of `_simulation_keygen`: from the seed, or the one that `generate` draws. -/
def seededKey (seed : Option (List Byte)) (generated : Bytes32) : Bytes32 :=
  match seed with
  | some seed =>
    P.sha256 (ascii ['f', 'a', 'l', 'c', 'o', 'n', '-', 's', 'i', 'm', '-', 's', 'e', 'e', 'd'] ++ seed)
  | none => generated

/-- `_simulation_keygen`. -/
def simulationKeygen (seed : Option (List Byte)) (generated : Bytes32) : Option FalconKeyPair := do
  let priv ← rawKey (P.seededKey seed generated).bytes
  let rawPub := (P.publicKey priv).bytes
  let paddedPub ←
    P.deterministicPad rawPub (ascii ['p', 'u', 'b', '_', 'p', 'a', 'd', ':'] ++ rawPub) falcon512PublicKeySize
  let paddedPriv ← P.deterministicPad priv.bytes (ascii ['p', 'r', 'i', 'v', '_', 'p', 'a', 'd', ':'] ++ priv.bytes)
    falcon512PrivateKeySize
  return ⟨paddedPub, paddedPriv⟩

/-- `_simulation_sign`. -/
def simulationSign (message privateKey : List Byte) : Option (List Byte) := do
  let priv ← rawKey (privateKey.take 32)
  let rawSig := P.sign priv message
  P.deterministicPad rawSig (ascii ['s', 'i', 'g', '_', 'p', 'a', 'd', ':'] ++ rawSig) falcon512SignatureSizeMax

/-- `_simulation_verify`. -/
def simulationVerify (message signature publicKey : List Byte) : Bool :=
  match rawKey (publicKey.take 32) with
  | some pub => P.verify pub (signature.take 64) message
  | none => false

/-! ## What is padded and what is read -/

variable {P}

theorem rawKey_bytes (key : Bytes32) : rawKey key.bytes = some key := by
  rw [rawKey, dif_pos key.length_eq]

/-- The loop only appends, and goes on until the length is reached, which the counter suffices for. -/
theorem deterministicPadLoop_eq (label : List Byte) (targetLen counter : ℕ) (buf : List Byte)
    (h : targetLen + 32 * counter ≤ buf.length + 32 * 256 ^ 4) :
    ∃ pad, P.deterministicPadLoop label targetLen counter buf = some (buf ++ pad) ∧
      targetLen ≤ (buf ++ pad).length := by
  induction hk : targetLen - buf.length using Nat.strong_induction_on generalizing counter buf with
  | _ k ih =>
    by_cases hlt : buf.length < targetLen
    · have hcounter : counter < 256 ^ 4 := by omega
      have hbuf : (buf ++ (P.sha256 (label ++ beBytes 4 counter)).bytes).length = buf.length + 32 := by
        rw [List.length_append, Bytes32.length_eq]
      obtain ⟨pad, hloop, hlength⟩ := ih _ (by omega) (counter + 1)
        (buf ++ (P.sha256 (label ++ beBytes 4 counter)).bytes) (by omega) rfl
      rw [List.append_assoc] at hloop hlength
      refine ⟨_, ?_, hlength⟩
      rw [deterministicPadLoop, if_pos hlt, toBytes4, if_pos hcounter]
      exact hloop
    · refine ⟨[], ?_, ?_⟩
      · rw [deterministicPadLoop, if_neg hlt, List.append_nil]
      · rw [List.append_nil]
        omega

/-- **Padding gives the target length and keeps the data in front.** -/
theorem deterministicPad_eq (data label : List Byte) (targetLen : ℕ) (hdata : data.length ≤ targetLen)
    (htarget : targetLen ≤ 32 * 256 ^ 4) :
    ∃ padded, P.deterministicPad data label targetLen = some padded ∧ padded.length = targetLen ∧
      padded.take data.length = data := by
  obtain ⟨pad, hloop, hlength⟩ := deterministicPadLoop_eq (P := P) label targetLen 0 data (by omega)
  refine ⟨(data ++ pad).take targetLen, ?_, List.length_take_of_le hlength, ?_⟩
  · rw [deterministicPad, hloop]
    rfl
  · rw [List.take_take, Nat.min_eq_left hdata, List.take_left]

theorem simulationKeygen_eq (seed : Option (List Byte)) (generated : Bytes32) :
    ∃ kp, P.simulationKeygen seed generated = some kp ∧ kp.publicKey.length = falcon512PublicKeySize ∧
      kp.privateKey.length = falcon512PrivateKeySize ∧
      kp.publicKey.take 32 = (P.publicKey (P.seededKey seed generated)).bytes ∧
      kp.privateKey.take 32 = (P.seededKey seed generated).bytes := by
  generalize hpriv : P.seededKey seed generated = priv
  have hpub := (P.publicKey priv).length_eq
  have hkey := priv.length_eq
  obtain ⟨pub, hpad, hpublength, hpubtake⟩ := deterministicPad_eq (P := P) (P.publicKey priv).bytes
    (ascii ['p', 'u', 'b', '_', 'p', 'a', 'd', ':'] ++ (P.publicKey priv).bytes) falcon512PublicKeySize
    (by rw [hpub]; decide) (by decide)
  obtain ⟨key, hpad', hlength, htake⟩ := deterministicPad_eq (P := P) priv.bytes
    (ascii ['p', 'r', 'i', 'v', '_', 'p', 'a', 'd', ':'] ++ priv.bytes) falcon512PrivateKeySize
    (by rw [hkey]; decide) (by decide)
  rw [hpub] at hpubtake
  rw [hkey] at htake
  refine ⟨⟨pub, key⟩, ?_, hpublength, hlength, hpubtake, htake⟩
  rw [simulationKeygen, hpriv, rawKey_bytes]
  simp only [Option.bind_eq_bind, Option.bind_some, hpad, hpad', Option.pure_def]

theorem simulationSign_eq (hP : P.Correct) (message : List Byte) {privateKey : List Byte} {priv : Bytes32}
    (hkey : privateKey.take 32 = priv.bytes) :
    ∃ s, P.simulationSign message privateKey = some s ∧ s.length = falcon512SignatureSizeMax ∧
      s.take 64 = P.sign priv message := by
  have hsig := hP.sign_length priv message
  obtain ⟨s, hpad, hlength, htake⟩ := deterministicPad_eq (P := P) (P.sign priv message)
    (ascii ['s', 'i', 'g', '_', 'p', 'a', 'd', ':'] ++ P.sign priv message) falcon512SignatureSizeMax
    (by rw [hsig]; decide) (by decide)
  rw [hsig] at htake
  refine ⟨s, ?_, hlength, htake⟩
  rw [simulationSign, hkey, rawKey_bytes]
  exact hpad

/-- The verifier reads the first 64 bytes. -/
theorem simulationVerify_iff (hP : P.Correct) (message signature : List Byte) {publicKey : List Byte} {priv : Bytes32}
    (hkey : publicKey.take 32 = (P.publicKey priv).bytes) :
    P.simulationVerify message signature publicKey = true ↔ signature.take 64 = P.sign priv message := by
  rw [simulationVerify, hkey, rawKey_bytes]
  exact hP.verify_iff priv message (signature.take 64)

/-- A key pair and a signature that have been made with it: both calls return, and what is accepted is decided by the
first 64 bytes. -/
theorem simulation_roundtrip (hP : P.Correct) (message : List Byte) (seed : Option (List Byte)) (generated : Bytes32) :
    ∃ kp s, P.simulationKeygen seed generated = some kp ∧ P.simulationSign message kp.privateKey = some s ∧
      s.length = falcon512SignatureSizeMax ∧
      ∀ s', P.simulationVerify message s' kp.publicKey = true ↔ s'.take 64 = s.take 64 := by
  obtain ⟨kp, hkeygen, -, -, hpub, hpriv⟩ := simulationKeygen_eq (P := P) seed generated
  obtain ⟨s, hsign, hlength, htake⟩ := simulationSign_eq hP message hpriv
  refine ⟨kp, s, hkeygen, hsign, hlength, fun s' => ?_⟩
  rw [simulationVerify_iff hP message s' hpub, htake]

end Primitives

/-! ## Malleability -/

/-- The signature `s` has the size of Falcon-512 and verifies, and `s'` does not unless it is `s`. -/
def Primitives.Unmalleable (P : Primitives) (message : List Byte) (kp : FalconKeyPair) (s s' : List Byte) : Prop :=
  s.length = falcon512SignatureSizeMax ∧ P.simulationVerify message s kp.publicKey = true ∧
    (s' ≠ s → P.simulationVerify message s' kp.publicKey = false)

/-- **Other byte strings are rejected just when they differ within the first 64 bytes.** A proper prefix is when it is
shorter than that, and a changed byte when it is one of these. -/
theorem simulation_unmalleable_iff (P : Primitives) (hP : P.Correct) (message : List Byte) (seed : Option (List Byte))
    (generated : Bytes32) :
    ∃ kp s, P.simulationKeygen seed generated = some kp ∧ P.simulationSign message kp.privateKey = some s ∧
      (∀ s', P.Unmalleable message kp s s' ↔ s' = s ∨ s'.take 64 ≠ s.take 64) ∧
      (∀ k < falcon512SignatureSizeMax, P.Unmalleable message kp s (s.take k) ↔ k < 64) ∧
      ∀ i < falcon512SignatureSizeMax, ∀ b, s[i]? ≠ some b → (P.Unmalleable message kp s (s.set i b) ↔ i < 64) := by
  obtain ⟨kp, s, hkeygen, hsign, hlength, hverify⟩ := Primitives.simulation_roundtrip hP message seed generated
  have hiff : ∀ s', P.Unmalleable message kp s s' ↔ s' = s ∨ s'.take 64 ≠ s.take 64 := by
    intro s'
    rw [Primitives.Unmalleable, ← Bool.not_eq_true, hverify, hverify]
    constructor
    · rintro ⟨-, -, h⟩
      exact or_iff_not_imp_left.2 h
    · exact fun h => ⟨hlength, rfl, or_iff_not_imp_left.1 h⟩
  refine ⟨kp, s, hkeygen, hsign, hiff, fun k hk => ?_, fun i hi b hb => ?_⟩
  · rw [hiff, List.take_take]
    constructor
    · rintro (h | h)
      · have := congrArg List.length h
        rw [List.length_take] at this
        omega
      · by_contra hge
        rw [Nat.min_eq_left (by omega)] at h
        exact h rfl
    · intro h
      right
      intro htake
      have := congrArg List.length htake
      rw [List.length_take, List.length_take, hlength, falcon512SignatureSizeMax] at this
      omega
  · have hne : s.set i b ≠ s := by
      intro h
      rw [← h, List.getElem?_set_self (by omega)] at hb
      exact hb rfl
    rw [hiff, or_iff_right hne]
    constructor
    · intro h
      by_contra hge
      rw [List.take_set_of_le (by omega)] at h
      exact h rfl
    · intro h htake
      have hi' := congrArg (fun l : List Byte => l[i]?) htake
      rw [List.getElem?_take_of_lt h, List.getElem?_take_of_lt h, List.getElem?_set_self (by omega)] at hi'
      exact hb hi'.symm

namespace Toy

/-- A signature is the key and the first 32 bytes of the message. -/
def primitives : Primitives where
  sha256 := Bytes32.ofBytes
  publicKey := id
  sign := fun priv message => priv.bytes ++ (Bytes32.ofBytes message).bytes
  verify := fun pub signature message => signature = pub.bytes ++ (Bytes32.ofBytes message).bytes

theorem primitives_correct : primitives.Correct where
  sign_length := fun priv message => by
    rw [primitives, List.length_append, Bytes32.length_eq, Bytes32.length_eq]
  verify_iff := fun priv message signature => by
    rw [primitives, decide_eq_true_eq]
    rfl

end Toy

theorem simulation_unmalleable_iff_toy :
    ∃ kp s, Toy.primitives.simulationKeygen (some [1]) (Bytes32.ofBytes []) = some kp ∧
      Toy.primitives.simulationSign [2] kp.privateKey = some s ∧ Toy.primitives.Unmalleable [2] kp s (s.take 63) := by
  obtain ⟨kp, s, hkeygen, hsign, -, htruncated, -⟩ :=
    simulation_unmalleable_iff Toy.primitives Toy.primitives_correct [2] (some [1]) (Bytes32.ofBytes [])
  exact ⟨kp, s, hkeygen, hsign, (htruncated 63 (by decide)).2 (by decide)⟩

/-- The first half of a signature is accepted. -/
theorem truncated_accepted : Toy.primitives.Correct ∧
    ∃ kp s, Toy.primitives.simulationKeygen (some [1]) (Bytes32.ofBytes []) = some kp ∧
      Toy.primitives.simulationSign [2] kp.privateKey = some s ∧ s.take 376 ≠ s ∧
      Toy.primitives.simulationVerify [2] (s.take 376) kp.publicKey = true ∧
      ¬ Toy.primitives.Unmalleable [2] kp s (s.take 376) := by
  obtain ⟨kp, s, hkeygen, hsign, hlength, hverify⟩ :=
    Primitives.simulation_roundtrip Toy.primitives_correct [2] (some [1]) (Bytes32.ofBytes [])
  have hne : s.take 376 ≠ s := by
    intro h
    have := congrArg List.length h
    rw [List.length_take, hlength, falcon512SignatureSizeMax] at this
    omega
  have haccepted : Toy.primitives.simulationVerify [2] (s.take 376) kp.publicKey = true := by
    rw [hverify, List.take_take]
    rfl
  refine ⟨Toy.primitives_correct, kp, s, hkeygen, hsign, hne, haccepted, ?_⟩
  rintro ⟨-, -, hrejected⟩
  rw [hrejected hne] at haccepted
  cases haccepted

end PqIotAuth
