import MessagePack.Width
/-
  Binary floating point as it is stored: a sign bit, an exponent field and a fraction field. Values are
  kept as their bits, so that a payload inside a NaN survives being written and read.

  A single widens to a double exactly: every finite single is a finite double, infinities go to
  infinities, and a NaN goes to a NaN.
-/
namespace MessagePack

/-- The bits of a single-precision number. -/
structure Binary32 where
  bits : UInt32
  deriving DecidableEq, Repr

/-- The bits of a double-precision number. -/
structure Binary64 where
  bits : UInt64
  deriving DecidableEq, Repr

namespace Binary32

def isNegative (x : Binary32) : Bool := Nat.pow 2 31 ≤ x.bits.toNat
def exponentField (x : Binary32) : Nat := x.bits.toNat / Nat.pow 2 23 % Nat.pow 2 8
def fractionField (x : Binary32) : Nat := x.bits.toNat % Nat.pow 2 23
def isNaN (x : Binary32) : Bool := x.exponentField = 255 && x.fractionField ≠ 0

end Binary32

namespace Binary64

def isNegative (x : Binary64) : Bool := Nat.pow 2 63 ≤ x.bits.toNat
def exponentField (x : Binary64) : Nat := x.bits.toNat / Nat.pow 2 52 % Nat.pow 2 11
def fractionField (x : Binary64) : Nat := x.bits.toNat % Nat.pow 2 52
def isNaN (x : Binary64) : Bool := x.exponentField = 2047 && x.fractionField ≠ 0

/-- A double from its three fields. -/
def ofFields (negative : Bool) (exponent fraction : Nat) : Binary64 :=
  ⟨UInt64.ofNat ((if negative then Nat.pow 2 63 else 0) + exponent * Nat.pow 2 52 + fraction)⟩

end Binary64

/-- The same number in double precision. A subnormal single is normal as a double: its fraction is
shifted until its top bit, which a double leaves out, is the leading one. -/
def Binary32.widen (x : Binary32) : Binary64 :=
  let e := x.exponentField
  let f := x.fractionField
  if e = 255 then
    .ofFields x.isNegative 2047 (f * Nat.pow 2 29)
  else if 0 < e then
    .ofFields x.isNegative (e + 896) (f * Nat.pow 2 29)
  else if f = 0 then
    .ofFields x.isNegative 0 0
  else
    .ofFields x.isNegative (874 + f.log2) ((f - Nat.pow 2 f.log2) * Nat.pow 2 (52 - f.log2))

/-- The double in the field at the front of `buffer`. -/
def Binary64.read (buffer : Bytes) : Except FormatError Binary64 :=
  (Width.w64.readUnsigned buffer).map fun n => ⟨UInt64.ofNat n⟩

/-- The single in the field at the front of `buffer`. -/
def Binary32.read (buffer : Bytes) : Except FormatError Binary32 :=
  (Width.w32.readUnsigned buffer).map fun n => ⟨UInt32.ofNat n⟩

end MessagePack
