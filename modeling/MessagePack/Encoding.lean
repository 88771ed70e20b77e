import MessagePack.Value
/-
  Encoding: the bytes of a token for a given value. The plain encoders choose the smallest form that holds
  the value; the forced ones use the marker that they are given and refuse a value it cannot carry.

  What is proved:
    1. `length_unsignedToken`, `length_signedToken`: an integer token is as long as the header that its
       marker announces.
-/
namespace MessagePack

inductive EncodeError where
  /-- The blob is longer than its length field can say. -/
  | blobTooLarge (length : Nat)
  /-- The marker cannot carry the value. -/
  | unrepresentable (value : Int) (marker : Marker)
  /-- The sink has no room for all the bytes. -/
  | sinkFull
  deriving DecidableEq, Repr

def EncodeError.message : EncodeError → String
  | blobTooLarge length => s!"blob of {length} bytes does not fit the bin length field"
  | unrepresentable value marker => s!"value {value} cannot be encoded as {marker.name}"
  | sinkFull => "failed to write whole buffer"

namespace Width

/-- The narrowest field that holds `n`; the widest one if none does. -/
def leastUnsigned (n : Nat) : Width :=
  if n ≤ w8.max then w8 else if n ≤ w16.max then w16 else if n ≤ w32.max then w32 else w64

/-- Whether a signed field of width `w` holds `v`. -/
def holdsSigned (w : Width) (v : Int) : Bool := w.minSigned ≤ v && v ≤ w.maxSigned

/-- The narrowest signed field that holds `v`; the widest one if none does. -/
def leastSigned (v : Int) : Width :=
  if w8.holdsSigned v then w8 else if w16.holdsSigned v then w16
  else if w32.holdsSigned v then w32 else w64

end Width

namespace Encoding

def unsignedToken (w : Width) (n : Nat) : Bytes := (Marker.uint w).toByte :: w.write n

def signedToken (w : Width) (v : Int) : Bytes := (Marker.sint w).toByte :: w.write (w.ofSigned v)

def nil : Bytes := [Marker.nil.toByte]

def bool (b : Bool) : Bytes := [(if b then Marker.true else Marker.false).toByte]

/-- An unsigned integer in its smallest form. -/
def unsigned (n : Nat) : Bytes :=
  if n ≤ 127 then [(Marker.fixint (UInt8.ofNat n)).toByte]
  else unsignedToken (Width.leastUnsigned n) n

/-- A signed integer in its smallest form: a nonnegative one is written without a sign. -/
def integer (v : Int) : Bytes :=
  if 0 ≤ v then unsigned v.toNat
  else if -32 ≤ v then [(Marker.negFixint (Int8.ofInt v)).toByte]
  else signedToken (Width.leastSigned v) v

def float32 (x : Binary32) : Bytes := Marker.float32.toByte :: Width.w32.write x.bits.toNat

def float64 (x : Binary64) : Bytes := Marker.float64.toByte :: Width.w64.write x.bits.toNat

/-- An integer under the marker `m`. The value inside a small-integer marker is ignored. -/
def integerAs (m : Marker) (v : Int) : Except EncodeError Bytes :=
  match m with
  | .fixint _ =>
    if 0 ≤ v ∧ v ≤ 127 then .ok [(Marker.fixint (UInt8.ofNat v.toNat)).toByte]
    else .error (.unrepresentable v m)
  | .negFixint _ =>
    if -32 ≤ v ∧ v < 0 then .ok [(Marker.negFixint (Int8.ofInt v)).toByte]
    else .error (.unrepresentable v m)
  | .uint w =>
    if 0 ≤ v ∧ v ≤ w.max then .ok (unsignedToken w v.toNat) else .error (.unrepresentable v m)
  | .sint w =>
    if w.holdsSigned v then .ok (signedToken w v) else .error (.unrepresentable v m)
  | _ => .error (.unrepresentable v m)

def blobAs (m : Marker) (data : Bytes) : Except EncodeError Bytes :=
  match m.lengthField with
  | none => .error (.unrepresentable data.length m)
  | some w =>
    if data.length ≤ w.max then .ok (m.toByte :: (w.write data.length ++ data))
    else .error (.blobTooLarge data.length)

/-- A blob with the smallest header that can say its length. -/
def blob (data : Bytes) : Except EncodeError Bytes :=
  if data.length ≤ Width.w8.max then blobAs .bin8 data
  else if data.length ≤ Width.w16.max then blobAs .bin16 data
  else if data.length ≤ Width.w32.max then blobAs .bin32 data
  else .error (.blobTooLarge data.length)

/-- A value in its smallest form. Floats are always doubles. -/
def value : Value Bytes → Except EncodeError Bytes
  | .nil => .ok nil
  | .bool b => .ok (bool b)
  | .int v => .ok (integer v)
  | .float x => .ok (float64 x)
  | .bin data => blob data

/-- The tokens of the values one after the other; the first value that is refused decides. -/
def values : List (Value Bytes) → Except EncodeError Bytes
  | [] => .ok []
  | v :: rest =>
    match value v with
    | .error e => .error e
    | .ok b =>
      match values rest with
      | .error e => .error e
      | .ok bs => .ok (b ++ bs)

theorem length_unsignedToken (w : Width) (n : Nat) :
    (unsignedToken w n).length = (Marker.uint w).headerLength := by
  simp [unsignedToken, Marker.headerLength, Nat.add_comm]

theorem length_signedToken (w : Width) (v : Int) :
    (signedToken w v).length = (Marker.sint w).headerLength := by
  simp [signedToken, Marker.headerLength, Nat.add_comm]

end Encoding
end MessagePack
