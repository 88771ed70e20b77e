import MessagePack.Json.Number
/-
  JSON lexemes: the words, texts and signs that a document is made of.

  The scan goes through the characters once. It is in a word, inside a text, or between the two; inside a
  text it may be in the middle of an escape. A word ends where a sign, a text or a blank begins.

  Escapes name UTF-16 units: a character beyond the first plane takes two of them, and neither of the two may
  stand alone.
-/
namespace MessagePack
namespace Json

inductive Scalar where
  | null
  | bool (b : Bool)
  | number (n : Number)
  deriving DecidableEq, Repr

inductive Lexeme where
  | openArray
  | closeArray
  | openObject
  | closeObject
  | comma
  | colon
  | text (s : String)
  | scalar (v : Scalar)
  deriving DecidableEq, Repr

def Scalar.ofWord? (cs : List Char) : Option Scalar :=
  if cs = "null".toList then some .null
  else if cs = "true".toList then some (.bool true)
  else if cs = "false".toList then some (.bool false)
  else (number? cs).map .number

/-- The characters that may stand anywhere between lexemes. -/
def isBlank (c : Char) : Bool := c = ' ' || c = '\n' || c = '\t' || c = '\r'

def Lexeme.ofSign? (c : Char) : Option Lexeme :=
  match c with
  | '[' => some .openArray
  | ']' => some .closeArray
  | '\x7b' => some .openObject
  | '\x7d' => some .closeObject
  | ',' => some .comma
  | ':' => some .colon
  | _ => none

/-- The character for a letter behind a backslash. -/
def escaped? (c : Char) : Option Char :=
  match c with
  | '\x22' => some '\x22'
  | '\\' => some '\\'
  | '/' => some '/'
  | 'b' => some '\x08'
  | 'f' => some '\x0c'
  | 'n' => some '\n'
  | 'r' => some '\r'
  | 't' => some '\t'
  | _ => none

def hexValue? (c : Char) : Option Nat :=
  if '0' ≤ c ∧ c ≤ '9' then some (c.toNat - 48)
  else if 'a' ≤ c ∧ c ≤ 'f' then some (c.toNat - 87)
  else if 'A' ≤ c ∧ c ≤ 'F' then some (c.toNat - 55)
  else none

/-- Where a scan is. Characters that were collected come in reverse. -/
inductive Mode where
  | between
  | word (letters : List Char)
  | text (chars : List Char)
  | escape (chars : List Char)
  /-- In an escaped unit, of which `left` digits are to come. `high` is the first unit of a pair. -/
  | unit (chars : List Char) (high : Option Nat) (left value : Nat)
  /-- Behind the first unit of a pair: a backslash has to follow. -/
  | pairBackslash (chars : List Char) (high : Nat)
  /-- Behind the first unit of a pair and a backslash. -/
  | pairLetter (chars : List Char) (high : Nat)
  deriving DecidableEq, Repr

/-- A scan so far, the last lexeme first. -/
structure Scanner where
  mode : Mode
  lexemes : List Lexeme
  deriving DecidableEq, Repr

/-- The mode behind a complete unit; none if the unit is one half of a pair that has no other half. -/
def Mode.afterUnit (chars : List Char) (high : Option Nat) (value : Nat) : Option Mode :=
  let isFirst : Bool := 0xD800 ≤ value && value < 0xDC00
  let isSecond : Bool := 0xDC00 ≤ value && value < 0xE000
  match high with
  | none =>
    if isFirst then some (.pairBackslash chars value)
    else if isSecond then none
    else some (.text (Char.ofNat value :: chars))
  | some h =>
    if isSecond then
      some (.text (Char.ofNat (0x10000 + (h - 0xD800) * 0x400 + (value - 0xDC00)) :: chars))
    else none

namespace Scanner

/-- The scan behind a character that follows a complete lexeme. -/
def between (lexemes : List Lexeme) (c : Char) : Scanner :=
  if isBlank c then ⟨.between, lexemes⟩
  else if c = '\x22' then ⟨.text [], lexemes⟩
  else match Lexeme.ofSign? c with
    | some l => ⟨.between, l :: lexemes⟩
    | none => ⟨.word [c], lexemes⟩

def endsWord (c : Char) : Bool := isBlank c || c = '\x22' || (Lexeme.ofSign? c).isSome

def step (s : Scanner) (c : Char) : Option Scanner :=
  match s.mode with
  | .between => some (between s.lexemes c)
  | .word letters =>
    if endsWord c then
      (Scalar.ofWord? letters.reverse).map fun v => between (.scalar v :: s.lexemes) c
    else some { s with mode := .word (c :: letters) }
  | .text chars =>
    if c = '\x22' then some ⟨.between, .text (String.ofList chars.reverse) :: s.lexemes⟩
    else if c = '\\' then some { s with mode := .escape chars }
    else if c.toNat < 0x20 then none
    else some { s with mode := .text (c :: chars) }
  | .escape chars =>
    if c = 'u' then some { s with mode := .unit chars none 4 0 }
    else (escaped? c).map fun e => { s with mode := .text (e :: chars) }
  | .unit chars high left value =>
    (hexValue? c).bind fun d =>
      let value := value * 16 + d
      if left ≤ 1 then (Mode.afterUnit chars high value).map fun mode => { s with mode }
      else some { s with mode := .unit chars high (left - 1) value }
  | .pairBackslash chars high =>
    if c = '\\' then some { s with mode := .pairLetter chars high } else none
  | .pairLetter chars high =>
    if c = 'u' then some { s with mode := .unit chars (some high) 4 0 } else none

/-- The lexemes of a scan that is at the end of the document. -/
def finish (s : Scanner) : Option (List Lexeme) :=
  match s.mode with
  | .between => some s.lexemes.reverse
  | .word letters =>
    (Scalar.ofWord? letters.reverse).map fun v => (Lexeme.scalar v :: s.lexemes).reverse
  | _ => none

end Scanner

/-- The lexemes of a document; none if some characters make no lexeme. -/
def lexemes? (cs : List Char) : Option (List Lexeme) :=
  (cs.foldlM Scanner.step ⟨.between, []⟩).bind Scanner.finish

end Json
end MessagePack
