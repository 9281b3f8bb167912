import PqIotAuth.Lib.Revert
import Mathlib.Data.Fintype.Basic
import Mathlib.Data.Fintype.Card
import Mathlib.Tactic.Ring

/-!
# The machine the contracts run on

Words, byte strings and their ABI encodings, the errors a call can revert with, checked arithmetic, and the two
builtins the contracts call, `keccak256` and `ecrecover`, which are parameters (`Evm`).

A byte string is a list of naturals. The EVM's bytes are below 256 and so is every byte that an encoding here
produces; nothing depends on an upper bound, and an alphabet without one is what makes an injective `keccak256`
possible (no function into 32 bytes drawn from 256 values is injective).

A `uint256` is a natural; every sum, difference and product that the compiler checks goes through `checkedAdd`,
`checkedSub` and `checkedMul`, which revert with the panic code of the language.
-/

namespace PqIotAuth

open Lib

/-! ## Words and byte strings -/

abbrev Byte := ℕ

/-- `address`: 160 bits. -/
abbrev Address := Fin (2 ^ 160)

/-- What a literal address rests on. -/
instance Address.neZero : NeZero (2 ^ 160) := ⟨by decide⟩

/-- `bytes32`: exactly 32 bytes. -/
structure Bytes32 where
  bytes : List Byte
  length_eq : bytes.length = 32
  deriving DecidableEq

theorem Bytes32.ext' {h h' : Bytes32} (e : h.bytes = h'.bytes) : h = h' := by
  cases h; cases h'; cases e; rfl

/-- The conversion `bytes32(b)`: cut after 32 bytes, padded with zeros on the right. -/
def Bytes32.ofBytes (b : List Byte) : Bytes32 :=
  ⟨(b ++ List.replicate 32 0).take 32, by simp⟩

/-- The value of `type(uint256).max + 1`. -/
abbrev wordSize : ℕ := 2 ^ 256

instance wordSize.neZero : NeZero wordSize := ⟨by decide⟩

/-- The value of `type(uint64).max + 1`. -/
abbrev uint64Size : ℕ := 2 ^ 64

/-- The conversion `uint64(n)`. -/
def uint64 (n : ℕ) : ℕ := n % uint64Size

theorem uint64_le (n : ℕ) : uint64 n ≤ n := Nat.mod_le _ _

theorem uint64_eq {n : ℕ} (h : n < uint64Size) : uint64 n = n := Nat.mod_eq_of_lt h

/-- The `k` low bytes of `n`, the most significant first. -/
def beBytes : ℕ → ℕ → List Byte
  | 0, _ => []
  | k + 1, n => n / 256 ^ k % 256 :: beBytes k n

@[simp] theorem length_beBytes (k n : ℕ) : (beBytes k n).length = k := by
  induction k with
  | zero => rfl
  | succ k ih => rw [beBytes, List.length_cons, ih]

theorem mod_eq_of_beBytes {k n m : ℕ} (h : beBytes k n = beBytes k m) : n % 256 ^ k = m % 256 ^ k := by
  induction k with
  | zero => rw [pow_zero, Nat.mod_one, Nat.mod_one]
  | succ k ih =>
    obtain ⟨h1, h2⟩ := List.cons.inj h
    rw [Nat.mod_pow_succ, Nat.mod_pow_succ, h1, ih h2]

theorem beBytes_inj {k n m : ℕ} (hn : n < 256 ^ k) (hm : m < 256 ^ k) (h : beBytes k n = beBytes k m) :
    n = m := by
  have := mod_eq_of_beBytes h
  rwa [Nat.mod_eq_of_lt hn, Nat.mod_eq_of_lt hm] at this

/-! ## ABI encodings -/

/-- `abi.encodePacked` of a `uint8`. -/
def uint8Bytes (n : ℕ) : List Byte := beBytes 1 n

/-- The 32 bytes of a `uint256`. -/
def uint256Bytes (n : ℕ) : List Byte := beBytes 32 n

@[simp] theorem length_uint8Bytes (n : ℕ) : (uint8Bytes n).length = 1 := length_beBytes 1 n

@[simp] theorem length_uint256Bytes (n : ℕ) : (uint256Bytes n).length = 32 := length_beBytes 32 n

theorem uint8Bytes_inj {n m : ℕ} (hn : n < 256) (hm : m < 256) (h : uint8Bytes n = uint8Bytes m) : n = m :=
  beBytes_inj (by omega) (by omega) h

theorem uint256Bytes_inj {n m : ℕ} (hn : n < wordSize) (hm : m < wordSize)
    (h : uint256Bytes n = uint256Bytes m) : n = m :=
  beBytes_inj (k := 32) (hn.trans_eq (by norm_num)) (hm.trans_eq (by norm_num)) h

/-- The bytes of an ASCII string. -/
def ascii (s : List Char) : List Byte := s.map Char.toNat

/-- The zeros that fill a byte string up to a multiple of 32. -/
def abiPadding (n : ℕ) : List Byte := List.replicate ((32 - n % 32) % 32) 0

/-- `abi.encode` of a string followed by static values, each given by its 32 bytes: the head holds the offset of the
string's tail and the values, the tail the string's length and its padded bytes. -/
def abiEncode (s : List Byte) (words : List (List Byte)) : List Byte :=
  uint256Bytes (32 * (words.length + 1)) ++ words.flatten ++ uint256Bytes s.length ++ s ++ abiPadding s.length

/-! ## Reverting -/

/-- What a call reverts with: a custom error of `AccountableRelay`, the message of a failed `require`, a panic of the
language, a value sent to a function that is not payable, or an action the chain does not offer in its state. -/
inductive Error where
  | notStakedRelay
  | inactiveDID
  | badSignatureLength
  | badAvailabilityLength
  | batchLengthMismatch
  | duplicateAttestation
  | notVerifier
  | notRegisteredVerifier
  | badAttestation
  | nothingToFinalize
  | challengeWindowOpen
  | noDisputeOpen
  | alreadyResolved
  | nothingToWithdraw
  | badMerkleProof
  | unknownDispute
  | stillStaked
  | activeDisputes
  | insufficientBond
  | conflictOfInterest
  | leafNotDisputable
  | openLeafDisputes
  | reentrant
  | require (message : String)
  | panic (code : ℕ)
  | nonPayable
  | notOffered
  deriving DecidableEq

/-- A checked operation left the range of its type. -/
def arithmeticPanic : Error := .panic 0x11

/-- An array was read or written out of its bounds. -/
def boundsPanic : Error := .panic 0x32

/-- An array would be longer than its length can say. -/
def sizePanic : Error := .panic 0x41

def checkedAdd (a b : ℕ) : Except Error ℕ := if a + b < wordSize then .ok (a + b) else .error arithmeticPanic

def checkedSub (a b : ℕ) : Except Error ℕ := if b ≤ a then .ok (a - b) else .error arithmeticPanic

def checkedMul (a b : ℕ) : Except Error ℕ := if a * b < wordSize then .ok (a * b) else .error arithmeticPanic

/-- The checked sum of two `uint64`. -/
def checkedAdd64 (a b : ℕ) : Except Error ℕ := if a + b < uint64Size then .ok (a + b) else .error arithmeticPanic

/-- `array.push(x)`. -/
def push {α : Type} (l : List α) (x : α) : Except Error (List α) :=
  if l.length + 1 < wordSize then .ok (l ++ [x]) else .error sizePanic

/-- `array[i] = x` for an array in memory. -/
def store {α : Type} (l : List α) (i : ℕ) (x : α) : Except Error (List α) := modifyAt boundsPanic l i fun _ => x

@[simp] theorem checkedAdd_eq_ok {a b c : ℕ} : checkedAdd a b = .ok c ↔ a + b < wordSize ∧ c = a + b := by
  unfold checkedAdd
  split <;> simp [*, eq_comm]

@[simp] theorem checkedSub_eq_ok {a b c : ℕ} : checkedSub a b = .ok c ↔ b ≤ a ∧ c = a - b := by
  unfold checkedSub
  split <;> simp [*, eq_comm]

@[simp] theorem checkedMul_eq_ok {a b c : ℕ} : checkedMul a b = .ok c ↔ a * b < wordSize ∧ c = a * b := by
  unfold checkedMul
  split <;> simp [*, eq_comm]

@[simp] theorem checkedAdd64_eq_ok {a b c : ℕ} : checkedAdd64 a b = .ok c ↔ a + b < uint64Size ∧ c = a + b := by
  unfold checkedAdd64
  split <;> simp [*, eq_comm]

@[simp] theorem push_eq_ok {α : Type} {l l' : List α} {x : α} :
    push l x = .ok l' ↔ l.length + 1 < wordSize ∧ l' = l ++ [x] := by
  unfold push
  split <;> simp [*, eq_comm]

/-! ## Builtins -/

/-- The two builtins of the machine that the contracts use. -/
structure Evm where
  keccak256 : List Byte → Bytes32
  ecrecover : Bytes32 → ℕ → Bytes32 → Bytes32 → Address

end PqIotAuth
