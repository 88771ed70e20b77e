/-
  What can be wrong with a fixed-size piece of the format: a field that is cut short, a tag byte that
  starts no token, a number or a length that is too large for its reader.
-/
namespace MessagePack

/-- The largest number that a machine word holds. Lengths and offsets stay within it. -/
def wordMax : Nat := 0xffffffffffffffff

def int64Max : Nat := 0x7fffffffffffffff

/-- A refusal of a field or of a tag byte. -/
inductive FormatError where
  /-- The field needs more bytes than there are. -/
  | unexpectedEnd (needed available : Nat)
  /-- No token starts with this byte. -/
  | unknownMarker (byte : UInt8)
  /-- An unsigned value above the largest signed one. -/
  | uint64Overflow (value : Nat)
  /-- A length above `wordMax`. -/
  | lengthOverflow (length : Nat)
  deriving DecidableEq, Repr

def upperHexDigit (n : Nat) : Char :=
  Char.ofNat (if n < 10 then 48 + n else 55 + n)

/-- A tag byte as messages show it: `0x` and two uppercase digits. -/
def showTagByte (b : UInt8) : String :=
  String.ofList ['0', 'x', upperHexDigit (b.toNat / 16), upperHexDigit (b.toNat % 16)]

def FormatError.message : FormatError → String
  | .unexpectedEnd needed available =>
    s!"unexpected end of input: needed {needed} bytes, {available} available"
  | .unknownMarker byte => s!"unknown marker byte {showTagByte byte}"
  | .uint64Overflow value => s!"uint64 value {value} overflows i64"
  | .lengthOverflow length => s!"length {length} does not fit in usize"

/-- A format error with its fields by name, as transcripts quote it. -/
def FormatError.fields : FormatError → String
  | .unexpectedEnd needed available =>
    s!"UnexpectedEof \x7b needed: {needed}, available: {available} \x7d"
  | .unknownMarker byte => s!"UnknownMarker \x7b byte: {byte.toNat} \x7d"
  | .uint64Overflow value => s!"Uint64Overflow \x7b value: {value} \x7d"
  | .lengthOverflow length => s!"LengthOverflow \x7b length: {length} \x7d"

end MessagePack
