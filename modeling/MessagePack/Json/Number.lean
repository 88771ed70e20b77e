import MessagePack.Binary.Nearest
/-
  JSON numbers: from the characters of a literal to an integer or to a double.

  An integer between -2^63 and 2^64 - 1 is kept exactly, but -0 is a double. Every other number becomes a double
  in a few rounded steps: as many digits as fit 64 bits make a whole number, the digits behind them only count
  for the exponent, and the whole number is multiplied or divided by a power of ten. A result beyond the
  largest double is refused.
-/
namespace MessagePack
namespace Json

inductive Number where
  | integer (v : Int)
  | float (x : Binary64)
  deriving DecidableEq, Repr

/-- The parts of a number literal. Digits are given by their values. -/
structure Literal where
  negative : Bool
  whole : List Nat
  /-- The digits behind the point; none if there is no point. -/
  fraction : Option (List Nat)
  exponent : Option Int
  deriving DecidableEq, Repr

namespace Literal

def digitValue (c : Char) : Nat := c.toNat - 48

/-- The digits at the front, and what follows them. -/
def takeDigits (cs : List Char) : List Nat × List Char :=
  ((cs.takeWhile Char.isDigit).map digitValue, cs.dropWhile Char.isDigit)

def ofDigits (ds : List Nat) : Nat := ds.foldl (fun n d => n * 10 + d) 0

/-- The digits behind the point, if there is one; then there is at least one digit. -/
def fraction? (cs : List Char) : Option (Option (List Nat) × List Char) :=
  match cs with
  | '.' :: rest =>
    match takeDigits rest with
    | ([], _) => none
    | (ds, rest) => some (some ds, rest)
  | rest => some (none, rest)

/-- The exponent, if there is one; then it has at least one digit. -/
def exponent? (cs : List Char) : Option (Option Int × List Char) :=
  match cs with
  | c :: rest =>
    if c = 'e' ∨ c = 'E' then
      let (negative, rest) := match rest with
        | '+' :: rest => (false, rest)
        | '-' :: rest => (true, rest)
        | rest => (false, rest)
      match takeDigits rest with
      | ([], _) => none
      | (ds, rest) => some (some (if negative then -(ofDigits ds : Int) else ofDigits ds), rest)
    else some (none, c :: rest)
  | [] => some (none, [])

/-- Whether the digits in front of the point are admitted: at least one, and no zero in front of others. -/
def wholeAdmitted : List Nat → Bool
  | [] => false
  | [_] => true
  | d :: _ => d ≠ 0

/-- The parts of a literal; none if the characters are no number. -/
def parse? (cs : List Char) : Option Literal :=
  let (negative, cs) := match cs with
    | '-' :: rest => (true, rest)
    | rest => (false, rest)
  let (whole, cs) := takeDigits cs
  if wholeAdmitted whole then
    match fraction? cs with
    | none => none
    | some (fraction, cs) =>
      match exponent? cs with
      | some (exponent, []) => some { negative, whole, fraction, exponent }
      | _ => none
  else none

/-- Appends digits to a number as long as it stays within 64 bits, and gives those left over. -/
def append (n : Nat) : List Nat → Nat × List Nat
  | [] => (n, [])
  | d :: ds => if wordMax < n * 10 + d then (n, d :: ds) else append (n * 10 + d) ds

end Literal

/-- The double nearest to a power of ten. -/
def powerOfTen (k : Nat) : Binary64 := .nearest (Nat.pow 10 k) 1

/-- `x * 10 ^ e`, rounded after each step; none if it is beyond the largest double. Powers of ten up to
`10 ^ 308` are multiplied with or divided by at once; below that, `10 ^ 308` is divided by first. -/
def scaled (x : Binary64) (e : Int) : Option Binary64 :=
  if 308 < e then if x.isZero then some x else none
  else if 0 ≤ e then
    let r := x.mul (powerOfTen e.toNat)
    if r.isInfinite then none else some r
  else if -308 ≤ e then some (x.div (powerOfTen (-e).toNat))
  else if x.isZero then some x
  else scaled (x.div (powerOfTen 308)) (e + 308)
termination_by e.natAbs

/-- The value of a literal; none if it is too large. -/
def Literal.value? (l : Literal) : Option Number :=
  let signed (x : Binary64) : Number := .float (if l.negative then x.negate else x)
  let (n, dropped) := append 0 l.whole
  if l.fraction.isNone ∧ l.exponent.isNone ∧ dropped.isEmpty then
    if !l.negative then some (.integer n)
    else if 0 < n ∧ n ≤ Nat.pow 2 63 then some (.integer (-(n : Int)))
    else some (signed (.nearest n 1))
  else
    let fraction := l.fraction.getD []
    let (n, unused) := append n fraction
    let shift : Int := dropped.length - (fraction.length - unused.length : Nat)
    (scaled (.nearest n 1) (shift + l.exponent.getD 0)).map signed

def number? (cs : List Char) : Option Number := (Literal.parse? cs).bind Literal.value?

end Json
end MessagePack
