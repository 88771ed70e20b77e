import MessagePack.BigEndian
/-
  Hexadecimal text: two digits for a byte. Writing uses lowercase digits; reading takes both cases and says
  where the first character stands that is no digit.

  What is proved:
    1. `digitValue?_digit`: the value of a written digit is the number it was written for.
    2. `length_number`: a number is never shorter than its least width.
    3. `length_decode`: a text that spells bytes has two digits for each.
    4. `exists_decode_iff`: the texts that spell bytes are those of digits, even in number.
-/
namespace MessagePack
namespace Hex

def digit (n : Nat) : Char := Char.ofNat (if n < 10 then 48 + n else 87 + n)

/-- The value of a digit given by its ASCII code. -/
def digitValue? (code : Nat) : Option Nat :=
  if 48 ≤ code ∧ code ≤ 57 then some (code - 48)
  else if 97 ≤ code ∧ code ≤ 102 then some (code - 87)
  else if 65 ≤ code ∧ code ≤ 70 then some (code - 55)
  else none

theorem digitValue?_digit {n : Nat} (h : n < 16) : digitValue? (digit n).toNat = some n := by
  have : ∀ k : Fin 16, digitValue? (digit k).toNat = some k.val := by decide
  exact this ⟨n, h⟩

def pair (b : UInt8) : List Char := [digit (b.toNat / 16), digit (b.toNat % 16)]

def encode (bytes : Bytes) : List Char := bytes.flatMap pair

/-- The digits of all bytes, with a space between one byte and the next. -/
def spaced (bytes : Bytes) : List Char := [' '].intercalate (bytes.map pair)

/-- A number in hexadecimal, filled up with zeros in front to `width` digits. -/
def number (width n : Nat) : List Char := (Nat.toDigits 16 n).leftpad width '0'

theorem length_number (width n : Nat) : width ≤ (number width n).length := by
  rw [number, List.length_leftpad]
  exact Nat.le_max_left _ _

inductive Error where
  | oddLength
  /-- The byte at `position` of the text is no digit. -/
  | invalidCharacter (byte : UInt8) (position : Nat)
  deriving DecidableEq, Repr

/-- A character that messages show in quotes, by its code below 256. Characters that cannot be seen are
named by their code, those that end or escape the quote by a backslash. -/
def quoted (code : Nat) : List Char :=
  let body :=
    if code = 0 then ['\\', '0']
    else if code = 9 then ['\\', 't']
    else if code = 10 then ['\\', 'n']
    else if code = 13 then ['\\', 'r']
    else if code = 39 ∨ code = 92 then ['\\', Char.ofNat code]
    else if code < 32 ∨ (127 ≤ code ∧ code ≤ 160) ∨ code = 173 then
      '\\' :: 'u' :: '\x7b' :: (Nat.toDigits 16 code ++ ['\x7d'])
    else [Char.ofNat code]
  Char.ofNat 39 :: (body ++ [Char.ofNat 39])

def Error.message : Error → String
  | oddLength => "Odd number of digits"
  | invalidCharacter byte position =>
    let shown := String.ofList (quoted byte.toNat)
    s!"Invalid character {shown} at position {position}"

/-- Reads digits two by two from `position` on; the bytes read before come in reverse. -/
def decodePairs (position : Nat) (before : Bytes) : Bytes → Except Error Bytes
  | high :: low :: rest =>
    match digitValue? high.toNat, digitValue? low.toNat with
    | none, _ => .error (.invalidCharacter high position)
    | some _, none => .error (.invalidCharacter low (position + 1))
    | some h, some l => decodePairs (position + 2) (UInt8.ofNat (16 * h + l) :: before) rest
  | _ => .ok before.reverse

/-- The bytes that a text spells. The text is given by its own bytes, and its length is checked before
any of its digits. -/
def decode (text : Bytes) : Except Error Bytes :=
  if text.length % 2 = 1 then .error .oddLength else decodePairs 0 [] text

theorem length_decodePairs {position : Nat} {before text data : Bytes}
    (h : decodePairs position before text = .ok data) :
    data.length = before.length + text.length / 2 := by
  fun_induction decodePairs position before text with
  | case1 | case2 => cases h
  | case3 position before high low rest high' low' hhigh hlow ih =>
    rw [ih h]
    simp only [List.length_cons]
    omega
  | case4 text position before hshort =>
    cases h
    have htext : text.length < 2 := by
      rcases text with _ | ⟨first, _ | ⟨second, rest⟩⟩
      · exact Nat.zero_lt_two
      · exact Nat.one_lt_two
      · exact absurd rfl (hshort first second rest)
    rw [List.length_reverse]
    omega

/-- A text that spells bytes has two digits for each. -/
theorem length_decode {text data : Bytes} (h : decode text = .ok data) :
    2 * data.length = text.length := by
  unfold decode at h
  split at h
  · cases h
  · have hlength := length_decodePairs h
    rw [List.length_nil] at hlength
    omega

/-- A text of digits, even in number. -/
def Valid (text : Bytes) : Prop :=
  text.length % 2 = 0 ∧ ∀ b ∈ text, (digitValue? b.toNat).isSome = true

instance (text : Bytes) : Decidable (Valid text) := inferInstanceAs (Decidable (_ ∧ _))

theorem exists_decodePairs_iff {position : Nat} {before text : Bytes} (heven : text.length % 2 = 0) :
    (∃ data, decodePairs position before text = .ok data)
      ↔ ∀ b ∈ text, (digitValue? b.toNat).isSome = true := by
  fun_induction decodePairs position before text with
  | case1 position before high low rest hhigh | case2 position before high low rest h hhigh hlow =>
    simp [*]
  | case3 position before high low rest h l hlow hhigh ih =>
    have hrest : rest.length % 2 = 0 := by
      simp only [List.length_cons] at heven
      omega
    rw [ih hrest]
    simp [hhigh, hlow]
  | case4 text position before hshort =>
    -- The digits go by twos, so nothing is left of an even number.
    rcases text with _ | ⟨first, _ | ⟨second, rest⟩⟩
    · simp
    · cases heven
    · exact absurd rfl (hshort first second rest)

/-- The texts that spell bytes are those of digits, even in number. -/
theorem exists_decode_iff {text : Bytes} : (∃ data, decode text = .ok data) ↔ Valid text := by
  unfold decode Valid
  split
  case isTrue hodd =>
    simp only [reduceCtorEq, exists_false, false_iff, not_and]
    omega
  case isFalse hodd =>
    have heven : text.length % 2 = 0 := by omega
    rw [exists_decodePairs_iff heven]
    exact (and_iff_right heven).symm

end Hex
end MessagePack
