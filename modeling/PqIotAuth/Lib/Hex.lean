import Mathlib.Data.List.Basic

/-!
# Bytes as text

The bytes of a text are its UTF-8 form (`encodeUtf8`). In a hexadecimal string a byte has two digits, the high half
first. Writing uses lower-case digits and nothing else; reading takes digits of either case and skips white space
between two bytes, so it reads more than is ever written, and undoes the writing (`decode_encode`).
-/

namespace PqIotAuth.Lib

/-- The UTF-8 bytes of a text. -/
def encodeUtf8 (text : String) : List ℕ := text.toUTF8.toList.map UInt8.toNat

namespace Hex

/-- The digit of a value below 16. -/
def digit (n : ℕ) : Char := Char.ofNat (if n < 10 then 48 + n else 87 + n)

/-- The value of a digit of either case. -/
def value (c : Char) : Option ℕ :=
  if 48 ≤ c.toNat ∧ c.toNat ≤ 57 then some (c.toNat - 48)
  else if 97 ≤ c.toNat ∧ c.toNat ≤ 102 then some (c.toNat - 87)
  else if 65 ≤ c.toNat ∧ c.toNat ≤ 70 then some (c.toNat - 55)
  else none

/-- Tab, line feed, vertical tab, form feed, carriage return and space. -/
def isSpace (c : Char) : Bool := c.toNat = 32 || (9 ≤ c.toNat && c.toNat ≤ 13)

def encode (bytes : List ℕ) : List Char := bytes.flatMap fun b => [digit (b / 16), digit (b % 16)]

def decode : List Char → Option (List ℕ)
  | [] => some []
  | [c] => if isSpace c then some [] else none
  | c :: d :: s =>
    if isSpace c then decode (d :: s)
    else do
      let high ← value c
      let low ← value d
      let bytes ← decode s
      return (16 * high + low) :: bytes

theorem value_digit {n : ℕ} (h : n < 16) : value (digit n) = some n := by
  have : ∀ i : Fin 16, value (digit i) = some i.val := by decide
  exact this ⟨n, h⟩

theorem not_isSpace_digit {n : ℕ} (h : n < 16) : isSpace (digit n) = false := by
  have : ∀ i : Fin 16, isSpace (digit i) = false := by decide
  exact this ⟨n, h⟩

/-- **Reading undoes writing.** -/
theorem decode_encode {bytes : List ℕ} (h : ∀ b ∈ bytes, b < 256) : decode (encode bytes) = some bytes := by
  induction bytes with
  | nil => rfl
  | cons b bytes ih =>
    have hb : b < 256 := h b List.mem_cons_self
    have hhigh : b / 16 < 16 := by omega
    have hlow : b % 16 < 16 := by omega
    have hrest : decode (encode bytes) = some bytes := ih fun b' hb' => h b' (List.mem_cons_of_mem _ hb')
    rw [encode, List.flatMap_cons, ← encode, List.cons_append, List.cons_append, List.nil_append, decode,
      not_isSpace_digit hhigh, value_digit hhigh, value_digit hlow, hrest]
    simp only [Bool.false_eq_true, if_false, bind, Option.bind, pure]
    rw [Nat.div_add_mod]

theorem length_encode (bytes : List ℕ) : (encode bytes).length = 2 * bytes.length := by
  induction bytes with
  | nil => rfl
  | cons b bytes ih =>
    rw [encode, List.flatMap_cons, ← encode, List.length_append, ih]
    simp only [List.length_cons, List.length_nil]
    omega

/-- The digits of the first bytes. -/
theorem take_encode (n : ℕ) (bytes : List ℕ) : (encode bytes).take (2 * n) = encode (bytes.take n) := by
  induction n generalizing bytes with
  | zero => rw [Nat.mul_zero, List.take_zero, List.take_zero]; rfl
  | succ n ih =>
    cases bytes with
    | nil => rw [List.take_nil]; rfl
    | cons b bytes =>
      rw [List.take_succ_cons, encode, encode, List.flatMap_cons, List.flatMap_cons, ← encode, ← encode, ← ih bytes]
      rfl

theorem encode_inj {bytes bytes' : List ℕ} (h : ∀ b ∈ bytes, b < 256) (h' : ∀ b ∈ bytes', b < 256) :
    encode bytes = encode bytes' ↔ bytes = bytes' := by
  constructor
  · intro he
    have hdecode := decode_encode h
    rw [he, decode_encode h'] at hdecode
    exact (Option.some.inj hdecode).symm
  · rintro rfl
    rfl

/-- What is read are bytes. -/
theorem lt_of_decode {s : List Char} {bytes : List ℕ} (h : decode s = some bytes) : ∀ b ∈ bytes, b < 256 := by
  have hvalue : ∀ {c : Char} {n : ℕ}, value c = some n → n < 16 := by
    intro c n hn
    unfold value at hn
    split at hn
    · cases hn
      omega
    · split at hn
      · cases hn
        omega
      · split at hn
        · cases hn
          omega
        · cases hn
  induction s using decode.induct generalizing bytes with
  | case1 =>
    cases h
    simp
  | case2 c hc =>
    rw [decode, if_pos hc] at h
    cases h
    simp
  | case3 c hc =>
    rw [decode, if_neg hc] at h
    cases h
  | case4 c d s hc ih =>
    rw [decode, if_pos hc] at h
    exact ih h
  | case5 c d s hc ih =>
    rw [decode, if_neg hc] at h
    simp only [Option.bind_eq_bind, Option.bind_eq_some_iff, Option.pure_def, Option.some.injEq] at h
    obtain ⟨high, hhigh, low, hlow, rest, hrest, rfl⟩ := h
    intro b hb
    rcases List.mem_cons.1 hb with rfl | hb
    · have := hvalue hhigh
      have := hvalue hlow
      omega
    · exact ih hrest b hb

end Hex

end PqIotAuth.Lib
