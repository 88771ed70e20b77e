import MessagePack.BigEndian
import MessagePack.FormatError
/-
  The four widths of a number field, and what a field of each width can hold. Fields are big-endian;
  a signed field is read in two's complement.
-/
namespace MessagePack

inductive Width where
  | w8
  | w16
  | w32
  | w64
  deriving DecidableEq, Repr

namespace Width

def bytes : Width → Nat
  | w8 => 1
  | w16 => 2
  | w32 => 4
  | w64 => 8

def bits (w : Width) : Nat := 8 * w.bytes

def max (w : Width) : Nat := Nat.pow 2 w.bits - 1

def minSigned (w : Width) : Int := -(Nat.pow 2 (w.bits - 1) : Nat)

def maxSigned (w : Width) : Int := (Nat.pow 2 (w.bits - 1) : Nat) - 1

/-- The value of a field in two's complement: the upper half of the range stands for the negatives. -/
def signed (w : Width) (field : Nat) : Int :=
  if field < Nat.pow 2 (w.bits - 1) then field else (field : Int) - (Nat.pow 2 w.bits : Nat)

/-- The field that stands for `v` in two's complement. -/
def ofSigned (w : Width) (v : Int) : Nat :=
  (v % (Nat.pow 2 w.bits : Nat)).toNat

/-- The field of `x`: its low bits, most significant byte first. -/
def write (w : Width) (x : Nat) : Bytes := bigEndian w.bytes x

/-- The unsigned number in the field at the front of `buffer`. -/
def readUnsigned (w : Width) (buffer : Bytes) : Except FormatError Nat :=
  if buffer.length < w.bytes then
    .error (.unexpectedEnd w.bytes buffer.length)
  else
    .ok (ofBigEndian (buffer.take w.bytes))

/-- The integer in the field at the front of `buffer`. An unsigned field above `int64Max` is refused. -/
def readInteger (w : Width) (isSigned : Bool) (buffer : Bytes) : Except FormatError Int :=
  match w.readUnsigned buffer with
  | .error e => .error e
  | .ok field =>
    if isSigned then .ok (w.signed field)
    else if int64Max < field then .error (.uint64Overflow field)
    else .ok field

/-- The length in the field at the front of `buffer`. A length above `wordMax` is refused. -/
def readLength (w : Width) (buffer : Bytes) : Except FormatError Nat :=
  match w.readUnsigned buffer with
  | .error e => .error e
  | .ok length => if wordMax < length then .error (.lengthOverflow length) else .ok length

theorem bytes_pos (w : Width) : 0 < w.bytes := by cases w <;> decide

theorem bytes_le (w : Width) : w.bytes ≤ 8 := by cases w <;> decide

@[simp] theorem length_write (w : Width) (x : Nat) : (w.write x).length = w.bytes :=
  length_bigEndian _ _

end Width
end MessagePack
