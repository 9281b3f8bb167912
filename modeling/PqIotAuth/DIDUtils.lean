import PqIotAuth.Lib.Hex
import PqIotAuth.Lib.Revert
import Mathlib.Data.List.Induction
import Mathlib.Data.Rat.Defs
import Mathlib.Tactic.Common

/-!
# DIDs off the chain

`did_utils`: the generation of DIDs, the documents that tie a key to a DID, and the registry that leads from the hash
of a DID back to it. SHA-256 is a parameter (`Digest`), and so are the random bytes and the time. Every function of the
registry takes the lock once, so the calls of several threads come one after the other.

* `generated_did`: two DIDs are the same when and only when their namespaces and 16 bytes are.
* `did_document`: a document is what is read from its dictionary, and no other document has the same dictionary; with a
  generated DID and a key it is valid.
* `did_registry`: the registry answers as the set of the registered DIDs, while no two of them collide.
-/

namespace PqIotAuth.DIDUtils

open Lib

/-- SHA-256, as far as its digests are read as bytes. -/
structure Digest where
  sha256 : List ℕ → List ℕ
  length : ∀ b, (sha256 b).length = 32
  lt : ∀ b, ∀ x ∈ sha256 b, x < 256

inductive Error where
  | keyError (key : String)
  /-- From `bytes.fromhex`. -/
  | valueError
  | didNotFound (message : String)
  deriving DecidableEq

variable (H : Digest)

/-! ## DIDs -/

def didPrefix : String := "did:falconiot:"

/-- The characters of an identifier. -/
def didIdentifierLength : ℕ := 32

/-- The bytes of which an identifier shows the first: the digest of the seed, or `urandom`, 17 random bytes. -/
def source (seed : Option (List ℕ)) (urandom : List ℕ) : List ℕ :=
  match seed with
  | some seed => H.sha256 seed
  | none => urandom

def generateDid (space : Option String) (seed : Option (List ℕ)) (urandom : List ℕ) : String :=
  let raw := String.ofList ((Hex.encode (source H seed urandom)).take didIdentifierLength)
  match space with
  | some space => didPrefix ++ space ++ ":" ++ raw
  | none => didPrefix ++ raw

/-! ## Documents -/

structure DIDDocument where
  did : String
  publicKey : List ℕ
  createdAt : ℚ
  active : Bool

/-- The entries of a dictionary with these keys, as far as it has them. -/
structure Data where
  did : Option String
  publicKey : Option String
  createdAt : Option ℚ
  active : Option Bool

def DIDDocument.toDict (doc : DIDDocument) : Data :=
  ⟨some doc.did, some (String.ofList (Hex.encode doc.publicKey)), some doc.createdAt, some doc.active⟩

/-- An entry that has to be there. -/
def entry {α : Type} (key : String) : Option α → Except Error α
  | some value => .ok value
  | none => .error (.keyError key)

/-- `bytes.fromhex`. -/
def fromhex (hex : String) : Except Error (List ℕ) :=
  match Hex.decode hex.toList with
  | some bytes => .ok bytes
  | none => .error .valueError

def DIDDocument.fromDict (data : Data) : Except Error DIDDocument := do
  let did ← entry "did" data.did
  let hex ← entry "public_key" data.publicKey
  let publicKey ← fromhex hex
  let createdAt ← entry "created_at" data.createdAt
  let active ← entry "active" data.active
  return ⟨did, publicKey, createdAt, active⟩

def createDidDocument (did : String) (publicKey : List ℕ) (time : ℚ) : DIDDocument := ⟨did, publicKey, time, true⟩

def verifyDidDocument (doc : DIDDocument) : Bool :=
  if doc.did.isEmpty || !"did:".toList.isPrefixOf doc.did.toList then false
  else if doc.publicKey.isEmpty then false
  else doc.active

/-! ## The registry -/

/-- `_did_registry`. -/
abbrev Registry := List ℕ → Option String

def hashDid (did : String) : List ℕ := H.sha256 (encodeUtf8 did)

def didToBytes32 (did : String) (reg : Registry) : List ℕ × Registry :=
  let b32 := hashDid H did
  (b32, Function.update reg b32 (some did))

def bytes32ToDid (b32 : List ℕ) (reg : Registry) : Except Error String :=
  match reg b32 with
  | none => .error (.didNotFound ("DID not found for bytes32: " ++ String.ofList (Hex.encode b32) ++
      ". Call did_to_bytes32() first to register."))
  | some did => .ok did

def registerDid (did : String) (reg : Registry) : List ℕ × Registry := didToBytes32 H did reg

def unregisterDid (did : String) (reg : Registry) : Except Error Registry :=
  let b32 := hashDid H did
  match reg b32 with
  | none => .error (.didNotFound ("DID not registered: " ++ did))
  | some _ => .ok (Function.update reg b32 none)

def clearRegistry : Registry := fun _ => none

/-- The calls that write the registry. -/
inductive Call where
  | didToBytes32 (did : String)
  | registerDid (did : String)
  | unregisterDid (did : String)
  | clearRegistry

/-- The registry after a call, also after one that raises. -/
def Call.run : Call → Registry → Registry
  | .didToBytes32 did, reg => (DIDUtils.didToBytes32 H did reg).2
  | .registerDid did, reg => (DIDUtils.registerDid H did reg).2
  | .unregisterDid did, reg =>
    match DIDUtils.unregisterDid H did reg with
    | .ok reg' => reg'
    | .error _ => reg
  | .clearRegistry, _ => DIDUtils.clearRegistry

/-- The registry after the calls of all threads, in the order in which they have got the lock. -/
def run (calls : List Call) : Registry := calls.foldl (fun reg c => c.run H reg) clearRegistry

/-- The DIDs that calls name. -/
def named (calls : List Call) : List String :=
  calls.flatMap fun
    | .didToBytes32 did | .registerDid did | .unregisterDid did => [did]
    | .clearRegistry => []

/-- Whether `did` is registered after a call. -/
def Call.after (did : String) (was : Bool) : Call → Bool
  | .didToBytes32 did' | .registerDid did' => was || did = did'
  | .unregisterDid did' => was && did ≠ did'
  | .clearRegistry => false

/-- `did` has been registered, and since then neither unregistered nor cleared. -/
def registered (calls : List Call) (did : String) : Bool := calls.foldl (Call.after did) false

variable {H}

/-! ## Generated DIDs -/

section Generated

variable {space space' : Option String} {seed seed' : Option (List ℕ)} {urandom urandom' : List ℕ}

/-- What `os.urandom(17)` returns. -/
structure Drawn (urandom : List ℕ) : Prop where
  length : urandom.length = 17
  lt : ∀ x ∈ urandom, x < 256

/-- The bytes that an identifier shows. -/
def identifier (H : Digest) (seed : Option (List ℕ)) (urandom : List ℕ) : List ℕ := (source H seed urandom).take 16

theorem identifier_lt (hu : Drawn urandom) : ∀ x ∈ identifier H seed urandom, x < 256 := by
  intro x hx
  have hx := List.mem_of_mem_take hx
  cases seed with
  | some seed => exact H.lt seed x hx
  | none => exact hu.lt x hx

theorem length_identifier (hu : Drawn urandom) : (identifier H seed urandom).length = 16 := by
  rw [identifier, List.length_take]
  cases seed with
  | some seed =>
    rw [source, H.length]
    rfl
  | none =>
    rw [source, hu.length]
    rfl

/-- The characters of a generated DID. -/
theorem toList_generateDid (H : Digest) (space : Option String) (seed : Option (List ℕ)) (urandom : List ℕ) :
    (generateDid H space seed urandom).toList = didPrefix.toList ++
      ((space.map fun space => space.toList ++ [':']).getD [] ++ Hex.encode (identifier H seed urandom)) := by
  have hraw : (Hex.encode (source H seed urandom)).take didIdentifierLength = Hex.encode (identifier H seed urandom) :=
    Hex.take_encode 16 _
  unfold generateDid
  rw [hraw]
  cases space with
  | none => simp
  | some space => simp

/-- **DIDs by their namespaces and 16 bytes.** -/
theorem generated_did (hu : Drawn urandom) (hu' : Drawn urandom') :
    generateDid H space seed urandom = generateDid H space' seed' urandom' ↔
      space = space' ∧ identifier H seed urandom = identifier H seed' urandom' := by
  have hlength : (Hex.encode (identifier H seed urandom)).length =
      (Hex.encode (identifier H seed' urandom')).length := by
    rw [Hex.length_encode, Hex.length_encode, length_identifier hu, length_identifier hu']
  rw [← String.toList_inj, toList_generateDid, toList_generateDid, List.append_cancel_left_eq]
  constructor
  · intro h
    obtain ⟨hspace, hraw⟩ := List.append_inj' h hlength
    refine ⟨?_, (Hex.encode_inj (identifier_lt hu) (identifier_lt hu')).1 hraw⟩
    cases space with
    | none => cases space' with
      | none => rfl
      | some space' => simp at hspace
    | some space => cases space' with
      | none => simp at hspace
      | some space' => simpa [String.toList_inj] using hspace
  · rintro ⟨rfl, h⟩
    rw [h]

/-- A digest that shows the first bytes. -/
def toyDigest : Digest where
  sha256 b := ((b ++ List.replicate 32 0).take 32).map (· % 256)
  length b := by simp
  lt b x hx := by
    obtain ⟨y, -, rfl⟩ := List.mem_map.1 hx
    exact Nat.mod_lt _ (by decide)

/-- The 17th byte is drawn and not shown. -/
theorem generated_did_toy : generateDid toyDigest (some "sensor01") none (List.replicate 17 0) =
    generateDid toyDigest (some "sensor01") none (List.replicate 16 0 ++ [1]) :=
  (generated_did ⟨by decide, by decide⟩ ⟨by decide, by decide⟩).2 ⟨rfl, rfl⟩

end Generated

/-! ## Documents and their dictionaries -/

variable {doc doc' : DIDDocument} {data : Data}

theorem entry_ok {α : Type} {key : String} {o : Option α} {x : α} : entry key o = .ok x ↔ o = some x := by
  cases o <;> simp [entry]

theorem fromhex_ok {hex : String} {bytes : List ℕ} : fromhex hex = .ok bytes ↔ Hex.decode hex.toList = some bytes := by
  unfold fromhex
  cases Hex.decode hex.toList <;> simp

/-- What is read from a dictionary. -/
theorem fromDict_ok : DIDDocument.fromDict data = .ok doc ↔ data.did = some doc.did ∧
    (∃ hex, data.publicKey = some hex ∧ Hex.decode hex.toList = some doc.publicKey) ∧
    data.createdAt = some doc.createdAt ∧ data.active = some doc.active := by
  simp only [DIDDocument.fromDict, bind_eq_ok, pure_eq_ok, entry_ok, fromhex_ok]
  constructor
  · rintro ⟨did, hdid, hex, hhex, bytes, hbytes, createdAt, hcreated, active, hactive, rfl⟩
    exact ⟨hdid, ⟨hex, hhex, hbytes⟩, hcreated, hactive⟩
  · rintro ⟨hdid, ⟨hex, hhex, hbytes⟩, hcreated, hactive⟩
    exact ⟨_, hdid, hex, hhex, _, hbytes, _, hcreated, _, hactive, rfl⟩

theorem fromDict_toDict (h : ∀ x ∈ doc.publicKey, x < 256) : DIDDocument.fromDict doc.toDict = .ok doc := by
  refine fromDict_ok.2 ⟨rfl, ⟨_, rfl, ?_⟩, rfl, rfl⟩
  rw [String.toList_ofList, Hex.decode_encode h]

/-- What a document that has been read is written to, and read from again. -/
theorem fromDict_again (h : DIDDocument.fromDict data = .ok doc) : DIDDocument.fromDict doc.toDict = .ok doc := by
  obtain ⟨-, ⟨hex, -, hbytes⟩, -⟩ := fromDict_ok.1 h
  exact fromDict_toDict (Hex.lt_of_decode hbytes)

/-- What the error says that is raised where a dictionary cannot be read. -/
inductive Data.Lacks (data : Data) : Error → Prop
  | did (h : data.did = none) : Lacks data (.keyError "did")
  | publicKey (h : data.publicKey = none) : Lacks data (.keyError "public_key")
  | createdAt (h : data.createdAt = none) : Lacks data (.keyError "created_at")
  | active (h : data.active = none) : Lacks data (.keyError "active")
  | bytes {hex : String} (h : data.publicKey = some hex) (hbytes : Hex.decode hex.toList = none) :
      Lacks data .valueError

theorem fromDict_error {e : Error} (h : DIDDocument.fromDict data = .error e) : data.Lacks e := by
  obtain ⟨did, publicKey, createdAt, active⟩ := data
  cases did with
  | none =>
    cases h
    exact .did rfl
  | some did =>
  cases publicKey with
  | none =>
    cases h
    exact .publicKey rfl
  | some hex =>
  cases hbytes : Hex.decode hex.toList with
  | none =>
    simp only [DIDDocument.fromDict, entry, fromhex, ok_bind, hbytes, error_bind] at h
    cases h
    exact .bytes rfl hbytes
  | some bytes =>
    simp only [DIDDocument.fromDict, entry, fromhex, ok_bind, hbytes] at h
    cases createdAt with
    | none =>
      cases h
      exact .createdAt rfl
    | some createdAt =>
    cases active with
    | none =>
      cases h
      exact .active rfl
    | some active => cases h

/-- A document with a generated DID is valid when it has a key. -/
theorem verify_generated (space : Option String) (seed : Option (List ℕ)) (urandom publicKey : List ℕ) (time : ℚ) :
    verifyDidDocument (createDidDocument (generateDid H space seed urandom) publicKey time) = !publicKey.isEmpty := by
  have hstart : "did:".toList.isPrefixOf (generateDid H space seed urandom).toList := by
    rw [toList_generateDid]
    rfl
  have hne : (generateDid H space seed urandom).isEmpty = false := by
    rw [Bool.eq_false_iff]
    intro hempty
    have hnil := congrArg String.toList (String.isEmpty_iff.1 hempty)
    rw [hnil] at hstart
    cases hstart
  rw [verifyDidDocument, createDidDocument]
  dsimp only
  rw [hstart, hne]
  cases publicKey <;> rfl

/-- **Documents and their dictionaries.** What is accepted is well formed and read again after it is written; an error
names what is lacking; a dictionary that is written of a document is written of that document only; and what is read
from the dictionary of a document that was created with a generated DID is valid when it has a key. -/
theorem did_document (H : Digest) (data : Data) :
    (∀ doc, DIDDocument.fromDict data = .ok doc →
      (∀ x ∈ doc.publicKey, x < 256) ∧ DIDDocument.fromDict doc.toDict = .ok doc) ∧
    (∀ e, DIDDocument.fromDict data = .error e → data.Lacks e) ∧
    (∀ doc doc' : DIDDocument, (∀ x ∈ doc.publicKey, x < 256) → (∀ x ∈ doc'.publicKey, x < 256) → doc.toDict = data →
      doc'.toDict = data → DIDDocument.fromDict data = .ok doc ∧ doc' = doc) ∧
    ∀ space seed urandom publicKey time, (∀ x ∈ publicKey, x < 256) →
      (createDidDocument (generateDid H space seed urandom) publicKey time).toDict = data →
      ∃ doc, DIDDocument.fromDict data = .ok doc ∧ verifyDidDocument doc = !publicKey.isEmpty := by
  refine ⟨fun doc h => ?_, fun e h => fromDict_error h, fun doc doc' hdoc hdoc' h h' => ?_,
    fun space seed urandom publicKey time hbytes h => ?_⟩
  · obtain ⟨-, ⟨hex, -, hbytes⟩, -⟩ := fromDict_ok.1 h
    exact ⟨Hex.lt_of_decode hbytes, fromDict_again h⟩
  · subst h
    have hread := fromDict_toDict hdoc'
    rw [h', fromDict_toDict hdoc] at hread
    exact ⟨fromDict_toDict hdoc, (Except.ok.inj hread).symm⟩
  · subst h
    exact ⟨_, fromDict_toDict hbytes, verify_generated space seed urandom publicKey time⟩

/-! ## The registry as a set of DIDs -/

section Registry

variable {calls : List Call} {c : Call} {did : String}

theorem registered_concat (calls : List Call) (c : Call) (did : String) :
    registered (calls ++ [c]) did = c.after did (registered calls did) := by
  rw [registered, List.foldl_append]
  rfl

theorem run_concat (calls : List Call) (c : Call) : run H (calls ++ [c]) = c.run H (run H calls) := by
  rw [run, List.foldl_append]
  rfl

theorem named_concat (calls : List Call) (c : Call) : named (calls ++ [c]) = named calls ++ named [c] := by
  rw [named, List.flatMap_append]
  rfl

theorem named_of_registered (h : registered calls did) : did ∈ named calls := by
  induction calls using List.reverseRecOn with
  | nil => cases h
  | append_singleton calls c ih =>
    rw [registered_concat] at h
    rw [named_concat, List.mem_append]
    cases c with
    | didToBytes32 did' | registerDid did' =>
      simp only [Call.after, Bool.or_eq_true, decide_eq_true_eq] at h
      rcases h with h | rfl
      · exact .inl (ih h)
      · exact .inr (by simp [named])
    | unregisterDid did' =>
      simp only [Call.after, Bool.and_eq_true] at h
      exact .inl (ih h.1)
    | clearRegistry => cases h

/-- No two of the DIDs have the same hash. -/
def Distinct (H : Digest) (dids : List String) : Prop :=
  ∀ d ∈ dids, ∀ d' ∈ dids, hashDid H d = hashDid H d' → d = d'

theorem run_unregisterDid (reg : Registry) (did : String) :
    (Call.unregisterDid did).run H reg = Function.update reg (hashDid H did) none := by
  rw [Call.run, DIDUtils.unregisterDid]
  cases hreg : reg (hashDid H did) with
  | none =>
    dsimp only
    rw [← hreg, Function.update_eq_self]
  | some d => rfl

/-- What one call does to a registry that answers as a set. -/
theorem Call.run_exact {reg : Registry} {S : String → Bool}
    (hdistinct : ∀ d d', (S d ∨ d ∈ named [c]) → (S d' ∨ d' ∈ named [c]) → hashDid H d = hashDid H d' → d = d')
    (h : ∀ b d, reg b = some d ↔ S d ∧ hashDid H d = b) (b : List ℕ) (d : String) :
    c.run H reg b = some d ↔ c.after d (S d) ∧ hashDid H d = b := by
  cases c with
  | didToBytes32 did | registerDid did =>
    change Function.update reg (hashDid H did) (some did) b = some d ↔ _
    rw [Function.update_apply, Call.after, Bool.or_eq_true, decide_eq_true_eq]
    split
    · rename_i hb
      subst hb
      constructor
      · intro hd
        obtain rfl := Option.some.inj hd
        exact ⟨.inr rfl, rfl⟩
      · rintro ⟨hS, hhash⟩
        rw [hdistinct d did (hS.imp id fun hd => by simp [named, hd]) (.inr (by simp [named])) hhash]
    · rename_i hb
      rw [h]
      constructor
      · exact fun hd => ⟨.inl hd.1, hd.2⟩
      · rintro ⟨hS | rfl, hhash⟩
        · exact ⟨hS, hhash⟩
        · exact absurd hhash.symm hb
  | unregisterDid did =>
    rw [run_unregisterDid, Function.update_apply, Call.after, Bool.and_eq_true, decide_eq_true_eq]
    split
    · rename_i hb
      subst hb
      constructor
      · intro hd
        cases hd
      · rintro ⟨⟨hS, hne⟩, hhash⟩
        exact absurd (hdistinct d did (.inl hS) (.inr (by simp [named])) hhash) hne
    · rename_i hb
      rw [h]
      constructor
      · rintro ⟨hS, hhash⟩
        refine ⟨⟨hS, ?_⟩, hhash⟩
        rintro rfl
        exact hb hhash.symm
      · exact fun hd => ⟨hd.1.1, hd.2⟩
  | clearRegistry => simp [Call.run, DIDUtils.clearRegistry, Call.after]

theorem run_exact (hdistinct : Distinct H (named calls)) (b : List ℕ) (d : String) :
    run H calls b = some d ↔ registered calls d ∧ hashDid H d = b := by
  induction calls using List.reverseRecOn generalizing b d with
  | nil => simp [run, clearRegistry, registered]
  | append_singleton calls c ih =>
    rw [named_concat] at hdistinct
    have hcalls : Distinct H (named calls) := fun d hd d' hd' =>
      hdistinct d (List.mem_append_left _ hd) d' (List.mem_append_left _ hd')
    rw [run_concat, registered_concat]
    refine Call.run_exact (fun d d' hd hd' => ?_) (ih hcalls) b d
    exact hdistinct d (List.mem_append.2 (hd.imp named_of_registered id)) d'
      (List.mem_append.2 (hd'.imp named_of_registered id))

/-- **The registry answers as a set of DIDs.** After any calls, of whatever threads, in which no two DIDs collide, the
DID of a hash is looked up when and only when it is registered, a DID that collides with none of them is unregistered
when and only when it is registered, and what is refused says so. -/
theorem did_registry (H : Digest) {calls : List Call} (hdistinct : Distinct H (named calls)) :
    (∀ b d, bytes32ToDid b (run H calls) = .ok d ↔ registered calls d ∧ hashDid H d = b) ∧
    (∀ b, (∀ d, registered calls d → hashDid H d ≠ b) → bytes32ToDid b (run H calls) = .error (.didNotFound
      ("DID not found for bytes32: " ++ String.ofList (Hex.encode b) ++ ". Call did_to_bytes32() first to register."))) ∧
    ∀ d, Distinct H (d :: named calls) →
      ((∃ reg, unregisterDid H d (run H calls) = .ok reg) ↔ registered calls d) ∧
      (registered calls d = false →
        unregisterDid H d (run H calls) = .error (.didNotFound ("DID not registered: " ++ d))) := by
  have hexact := run_exact hdistinct
  refine ⟨fun b d => ?_, fun b hb => ?_, fun d hd => ?_⟩
  · rw [← hexact, bytes32ToDid]
    cases run H calls b <;> simp
  · have hnone : run H calls b = none := by
      rw [Option.eq_none_iff_forall_ne_some]
      intro d hd
      exact hb d ((hexact b d).1 hd).1 ((hexact b d).1 hd).2
    rw [bytes32ToDid, hnone]
  · -- only `d` itself could be registered under its hash
    have honly : ∀ d', run H calls (hashDid H d) = some d' ↔ registered calls d' ∧ d' = d := by
      intro d'
      rw [hexact]
      constructor
      · rintro ⟨hreg, hhash⟩
        exact ⟨hreg, hd d' (List.mem_cons_of_mem _ (named_of_registered hreg)) d List.mem_cons_self hhash⟩
      · rintro ⟨hreg, rfl⟩
        exact ⟨hreg, rfl⟩
    rw [unregisterDid]
    cases hlook : run H calls (hashDid H d) with
    | none =>
      have hnot : ¬ registered calls d := fun hreg => by
        rw [(honly d).2 ⟨hreg, rfl⟩] at hlook
        cases hlook
      simp [hnot]
    | some d' =>
      obtain ⟨hreg, rfl⟩ := (honly d').1 hlook
      simp [hreg]

def toyCalls : List Call := [.didToBytes32 "did:a", .registerDid "did:b", .unregisterDid "did:a"]

theorem did_registry_toy : bytes32ToDid (hashDid toyDigest "did:b") (run toyDigest toyCalls) = .ok "did:b" := by
  have hdistinct : ∀ d ∈ named toyCalls, ∀ d' ∈ named toyCalls,
      hashDid toyDigest d = hashDid toyDigest d' → d = d' := by
    decide +kernel
  exact ((did_registry toyDigest hdistinct).1 _ _).2 ⟨by decide +kernel, rfl⟩

end Registry

end PqIotAuth.DIDUtils
