import MessagePack.Binary.Nearest
/-
  Shortest decimals: the decimal with the fewest digits that a reader rounds back to a given double, and of
  those the nearest to it.

  All reals that round to a double form an interval around it, half a step wide on either side. A step down
  from a power of two is only half as long as a step up. The ends belong to the interval if the significand
  is even, because a tie goes to the even one.

  The multiples of a power of ten form a grid. If any point of a grid lies in the interval, then so does one
  of the two grid points next to the double. So the coarsest grid on which one of these two lies inside gives
  the answer. The search ends, because the double itself is a point of a fine enough grid.
-/
namespace MessagePack

/-- The number `digits * 10 ^ exponent`. -/
structure Decimal where
  digits : Nat
  exponent : Int
  deriving DecidableEq, Repr

/-- The reals that round to a double: from `low` to `high` around `mid`, all three times
`2 ^ exponent`. -/
structure RoundingInterval where
  low : Nat
  mid : Nat
  high : Nat
  exponent : Int
  /-- Whether the two ends round to the double too. -/
  closed : Bool
  deriving DecidableEq, Repr

namespace RoundingInterval

/-- The interval of a finite double, in quarters of a step. -/
def of (x : Binary64) : RoundingInterval :=
  let d := x.magnitude
  let below := if x.fractionField = 0 ∧ 1 < x.exponentField then 1 else 2
  { low := 4 * d.significand - below
    mid := 4 * d.significand
    high := 4 * d.significand + 2
    exponent := d.exponent - 2
    closed := d.significand % 2 = 0 }

/-- Numerator and denominator of the factor from interval units to multiples of `10 ^ k`. -/
def scale (i : RoundingInterval) (k : Int) : Nat × Nat :=
  (Nat.pow 2 i.exponent.toNat * Nat.pow 10 (-k).toNat,
    Nat.pow 2 (-i.exponent).toNat * Nat.pow 10 k.toNat)

/-- Whether the interval contains `c * 10 ^ k`. -/
def contains (i : RoundingInterval) (k : Int) (c : Nat) : Bool :=
  let (num, den) := i.scale k
  if i.closed then i.low * num ≤ c * den && c * den ≤ i.high * num
  else i.low * num < c * den && c * den < i.high * num

/-- The point of the grid of `10 ^ k` in the interval that is nearest to its middle, if one of the two
next to the middle is inside. Halfway between two, it is the upper one. -/
def nearestOnGrid (i : RoundingInterval) (k : Int) : Option Nat :=
  let (num, den) := i.scale k
  let c := i.mid * num / den
  match i.contains k c, i.contains k (c + 1) with
  | true, true => some (if 2 * (i.mid * num) < (2 * c + 1) * den then c else c + 1)
  | true, false => some c
  | false, true => some (c + 1)
  | false, false => none

/-- Goes from the grid of `10 ^ k` down through `finer` finer ones until a grid has a point in the
interval. -/
def search (i : RoundingInterval) : Nat → Int → Decimal
  | 0, k => ⟨(i.nearestOnGrid k).getD 0, k⟩
  | finer + 1, k =>
    match i.nearestOnGrid k with
    | some c => ⟨c, k⟩
    | none => i.search finer (k - 1)

end RoundingInterval

/-- The shortest decimal of the magnitude of a finite double. The search starts at a power of ten above the
double, estimated from its power of two with 30103 / 100000 for the logarithm of 2, and reaches a grid on
which the double itself is a point. -/
def Binary64.shortest (x : Binary64) : Decimal :=
  if x.isZero then ⟨0, 0⟩
  else
    let d := x.magnitude
    let first := ((d.significand.log2 : Int) + d.exponent + 2) * 30103 / 100000 + 1
    let last := min 0 d.exponent
    (RoundingInterval.of x).search (first - last).toNat first

end MessagePack
