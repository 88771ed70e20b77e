import MessagePack.Binary
/-
  Doubles as numbers: the exact magnitude of a finite double, and the double nearest to a quotient of two
  whole numbers. All arithmetic is on whole numbers, so nothing is rounded but where this module says so.

  The bits of a magnitude count the doubles from zero up: the next double has the next bits. So the bits of a
  rounded quotient are found by adding the rounded significand to the bits at which its binade starts; a
  significand that is rounded up to a power of two lands on the next binade by itself.

  What is proved:
    1. `roundDiv_bounds`: a rounded quotient is within half a unit of the quotient.
-/
namespace MessagePack

/-- A quotient rounded to the nearest whole number; halfway, to the even one. -/
def roundDiv (num den : Nat) : Nat :=
  let q := num / den
  let r := num % den
  if 2 * r < den ∨ (2 * r = den ∧ q % 2 = 0) then q else q + 1

theorem roundDiv_bounds (num : Nat) {den : Nat} (h : 0 < den) :
    2 * num ≤ (2 * roundDiv num den + 1) * den ∧ (2 * roundDiv num den) * den ≤ 2 * num + den := by
  have hdiv : den * (num / den) + num % den = num := Nat.div_add_mod num den
  have hmod : num % den < den := Nat.mod_lt _ h
  unfold roundDiv
  simp only
  generalize num / den = q at *
  generalize num % den = r at *
  subst hdiv
  split
  · constructor
    · rw [Nat.add_mul, Nat.mul_add, Nat.mul_assoc, Nat.mul_comm den q]
      omega
    · rw [Nat.mul_add, Nat.mul_assoc, Nat.mul_comm den q]
      omega
  · constructor
    · rw [Nat.mul_add, Nat.add_mul, Nat.mul_add, Nat.add_mul, Nat.mul_assoc, Nat.mul_comm den q]
      omega
    · rw [Nat.mul_add, Nat.mul_add, Nat.add_mul, Nat.mul_assoc, Nat.mul_comm den q]
      omega

/-- The number `significand * 2 ^ exponent`. -/
structure Dyadic where
  significand : Nat
  exponent : Int
  deriving DecidableEq, Repr

def Dyadic.ratio (d : Dyadic) : Nat × Nat :=
  (d.significand * Nat.pow 2 d.exponent.toNat, Nat.pow 2 (-d.exponent).toNat)

namespace Binary64

def infinityBits : Nat := 2047 * Nat.pow 2 52

def isInfinite (x : Binary64) : Bool := x.exponentField = 2047 && x.fractionField = 0

def isZero (x : Binary64) : Bool := x.exponentField = 0 && x.fractionField = 0

/-- The magnitude of a finite double. A normal one has a leading bit that is not stored. -/
def magnitude (x : Binary64) : Dyadic :=
  if x.exponentField = 0 then ⟨x.fractionField, -1074⟩
  else ⟨Nat.pow 2 52 + x.fractionField, (x.exponentField : Int) - 1075⟩

def negate (x : Binary64) : Binary64 := ⟨x.bits ^^^ 0x8000000000000000⟩

/-- The double nearest to `num / den`; halfway, the one with an even significand. A quotient beyond the
largest double gives infinity. -/
def nearest (num den : Nat) : Binary64 :=
  if num = 0 then ⟨0⟩
  else
    let scaled (exponent : Int) : Nat × Nat :=
      (num * Nat.pow 2 (-exponent).toNat, den * Nat.pow 2 exponent.toNat)
    let guess : Int := (num.log2 : Int) - (den.log2 : Int) - 52
    let full := (scaled guess).1 / (scaled guess).2
    let exponent := max (if full < Nat.pow 2 52 then guess - 1 else guess) (-1074)
    let significand := roundDiv (scaled exponent).1 (scaled exponent).2
    ⟨UInt64.ofNat (min infinityBits ((exponent + 1074).toNat * Nat.pow 2 52 + significand))⟩

/-- The double nearest to a product of two finite magnitudes. -/
def mul (x y : Binary64) : Binary64 :=
  let (a, b) := x.magnitude.ratio
  let (c, d) := y.magnitude.ratio
  nearest (a * c) (b * d)

/-- The double nearest to a quotient of two finite magnitudes, the second one not zero. -/
def div (x y : Binary64) : Binary64 :=
  let (a, b) := x.magnitude.ratio
  let (c, d) := y.magnitude.ratio
  nearest (a * d) (b * c)

end Binary64
end MessagePack
