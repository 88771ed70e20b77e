import MessagePack.Decimal.Shortest
/-
  Layouts: how a double is written out. The digits are always the shortest ones; a layout says when they are
  written in full and when with an exponent, and whether a whole number shows that it is a float.
-/
namespace MessagePack

/-- How doubles are written. -/
structure FloatLayout where
  /-- The number of digits before the point, zeros after the point counted negatively, for which the number
  is written in full; none if it always is. Elsewhere it is written with an exponent. -/
  inFull : Option (Int × Int)
  /-- Whether a whole number that is written in full ends in a point and a zero. -/
  markWhole : Bool
  deriving DecidableEq, Repr

namespace FloatLayout

/-- The digits with a point behind the first `point` of them; zeros fill the gap where there is one. -/
def positional (layout : FloatLayout) (digits : List Char) (point : Int) : List Char :=
  if point ≤ 0 then '0' :: '.' :: (List.replicate (-point).toNat '0' ++ digits)
  else if digits.length ≤ point.toNat then
    digits ++ List.replicate (point.toNat - digits.length) '0'
      ++ (if layout.markWhole then ['.', '0'] else [])
  else digits.take point.toNat ++ '.' :: digits.drop point.toNat

/-- The digits with a point behind the first one, and an exponent. -/
def scientific (digits : List Char) (point : Int) : List Char :=
  let mantissa := match digits with
    | first :: second :: rest => first :: '.' :: second :: rest
    | short => short
  mantissa ++ 'e' :: (toString (point - 1)).toList

/-- The text of a decimal. -/
def decimal (layout : FloatLayout) (d : Decimal) : List Char :=
  let digits := Nat.toDigits 10 d.digits
  let point := digits.length + d.exponent
  match layout.inFull with
  | none => layout.positional digits point
  | some (least, most) =>
    if least ≤ point ∧ point ≤ most then layout.positional digits point else scientific digits point

/-- The text of a double. A zero has a sign; a NaN has none. -/
def write (layout : FloatLayout) (x : Binary64) : String :=
  if x.isNaN then "NaN"
  else
    let magnitude := if x.isInfinite then "inf".toList else layout.decimal x.shortest
    String.ofList (if x.isNegative then '-' :: magnitude else magnitude)

end FloatLayout
end MessagePack
