import MessagePack.Width
/-
  Markers: what the first byte of a token says. It names the kind of the token, and for the small integers
  the value too. Bytes that start an array, a map, a string or an extension are not part of this format.

  What is proved:
    1. `toByte_ofByte?`: the byte of a marker that was read from a byte is that byte again.
    2. `headerLength_pos`: every token is at least one byte long.
-/
namespace MessagePack

inductive Family where
  | nil
  | bool
  | int
  | float
  | bin
  deriving DecidableEq, Repr

def Family.name : Family → String
  | nil => "nil"
  | bool => "bool"
  | int => "int"
  | float => "float"
  | bin => "bin"

/-- What the first byte of a token says. A small integer carries its value; a hand-built marker may carry
one that the byte cannot hold. -/
inductive Marker where
  | fixint (value : UInt8)
  | negFixint (value : Int8)
  | nil
  | false
  | true
  | bin8
  | bin16
  | bin32
  | float32
  | float64
  | uint (width : Width)
  | sint (width : Width)
  deriving DecidableEq, Repr

namespace Marker

def ofByte? (b : UInt8) : Option Marker :=
  if b < 0x80 then some (fixint b)
  else if 0xE0 ≤ b then some (negFixint b.toInt8)
  else match b.toNat with
    | 0xC0 => some nil
    | 0xC2 => some false
    | 0xC3 => some true
    | 0xC4 => some bin8
    | 0xC5 => some bin16
    | 0xC6 => some bin32
    | 0xCA => some float32
    | 0xCB => some float64
    | 0xCC => some (uint .w8)
    | 0xCD => some (uint .w16)
    | 0xCE => some (uint .w32)
    | 0xCF => some (uint .w64)
    | 0xD0 => some (sint .w8)
    | 0xD1 => some (sint .w16)
    | 0xD2 => some (sint .w32)
    | 0xD3 => some (sint .w64)
    | _ => none

/-- The marker that a byte stands for, or the refusal of the byte. -/
def ofByte (b : UInt8) : Except FormatError Marker :=
  match ofByte? b with
  | some m => .ok m
  | none => .error (.unknownMarker b)

/-- The first byte of a token with this marker. A small integer outside its range is cut to the bits
that the byte has for it. -/
def toByte : Marker → UInt8
  | fixint v => v &&& 0x7F
  | negFixint v => v.toUInt8 ||| 0xE0
  | nil => 0xC0
  | false => 0xC2
  | true => 0xC3
  | bin8 => 0xC4
  | bin16 => 0xC5
  | bin32 => 0xC6
  | float32 => 0xCA
  | float64 => 0xCB
  | uint .w8 => 0xCC
  | uint .w16 => 0xCD
  | uint .w32 => 0xCE
  | uint .w64 => 0xCF
  | sint .w8 => 0xD0
  | sint .w16 => 0xD1
  | sint .w32 => 0xD2
  | sint .w64 => 0xD3

/-- The name that listings and messages use. -/
def name : Marker → String
  | fixint _ => "fixint"
  | negFixint _ => "negfixint"
  | nil => "nil"
  | false => "false"
  | true => "true"
  | bin8 => "bin8"
  | bin16 => "bin16"
  | bin32 => "bin32"
  | float32 => "float32"
  | float64 => "float64"
  | uint .w8 => "uint8"
  | uint .w16 => "uint16"
  | uint .w32 => "uint32"
  | uint .w64 => "uint64"
  | sint .w8 => "int8"
  | sint .w16 => "int16"
  | sint .w32 => "int32"
  | sint .w64 => "int64"

def family : Marker → Family
  | nil => .nil
  | false | true => .bool
  | fixint _ | negFixint _ | uint _ | sint _ => .int
  | float32 | float64 => .float
  | bin8 | bin16 | bin32 => .bin

/-- Width and signedness of the integer field behind the marker, if there is one. -/
def integerField : Marker → Option (Width × Bool)
  | uint w => some (w, .false)
  | sint w => some (w, .true)
  | _ => none

def lengthField : Marker → Option Width
  | bin8 => some .w8
  | bin16 => some .w16
  | bin32 => some .w32
  | _ => none

/-- The bytes of a token without its payload: the marker and the field behind it. -/
def headerLength : Marker → Nat
  | bin8 => 1 + Width.w8.bytes
  | bin16 => 1 + Width.w16.bytes
  | bin32 => 1 + Width.w32.bytes
  | float32 => 1 + Width.w32.bytes
  | float64 => 1 + Width.w64.bytes
  | uint w => 1 + w.bytes
  | sint w => 1 + w.bytes
  | _ => 1

theorem headerLength_pos (m : Marker) : 0 < m.headerLength := by
  unfold headerLength
  split <;> omega

theorem headerLength_le (m : Marker) : m.headerLength ≤ 9 := by
  cases m <;> simp only [headerLength, Width.bytes] <;> first | omega | (split <;> omega)

private theorem toByte_ofByte?_ofNat :
    ∀ n : Fin 256, (ofByte? (UInt8.ofNat n)).all (fun m => m.toByte = UInt8.ofNat n) = Bool.true := by
  decide +kernel

theorem toByte_ofByte? {b : UInt8} {m : Marker} (h : ofByte? b = some m) : m.toByte = b := by
  have := toByte_ofByte?_ofNat ⟨b.toNat, b.toNat_lt⟩
  simpa [h] using this

end Marker
end MessagePack
