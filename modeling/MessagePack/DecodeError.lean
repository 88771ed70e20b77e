import MessagePack.FormatError
/-
  Why a decoding call is refused. The first three causes lie in the input and name the offset of the token
  at fault; the others lie with the buffer, with a view that outlived its bytes, or with a single field.
-/
namespace MessagePack

/-- The cause of a refused decoding call. -/
inductive DecodeError where
  /-- No token starts with this byte. -/
  | unknownTag (byte : UInt8) (offset : Nat)
  /-- An unsigned 64-bit value above the largest signed one. -/
  | uint64Overflow (value offset : Nat)
  /-- A blob that declares more bytes than the limit allows. -/
  | blobTooLarge (length limit offset : Nat)
  /-- The buffer could not be made this large. -/
  | allocationFailed (requested : Nat)
  /-- A view of an earlier generation of the buffer. -/
  | staleView (issued current : UInt64)
  /-- A field or a tag byte on its own. -/
  | format (cause : FormatError)
  deriving DecidableEq, Repr

namespace DecodeError

/-- The wording of a decoding error. -/
def message : DecodeError → String
  | unknownTag byte offset => s!"unrecognized tag byte {showTagByte byte} at offset {offset}"
  | uint64Overflow value offset =>
    s!"uint64 value {value} at offset {offset} does not fit in i64"
  | blobTooLarge length limit offset =>
    s!"blob of {length} bytes at offset {offset} exceeds limit of {limit} bytes"
  | allocationFailed requested => s!"scratch arena could not grow to {requested} bytes"
  | staleView issued current =>
    s!"blob view from generation {issued.toNat} used at generation {current.toNat}"
  | format cause => cause.message

/-- Whether the sender is to blame: everything but a refused allocation. -/
def isProtocol : DecodeError → Bool
  | allocationFailed _ => false
  | _ => true

/-- The error of a field or tag byte at a known offset. A cut-off field has no name of its own there. -/
def ofFormat (offset : Nat) : FormatError → DecodeError
  | .unknownMarker byte => unknownTag byte offset
  | .uint64Overflow value => uint64Overflow value offset
  | .lengthOverflow length => blobTooLarge length wordMax offset
  | .unexpectedEnd needed available => format (.unexpectedEnd needed available)

/-- The same error with its offset counted from a point `base` bytes earlier. -/
def shift (base : Nat) : DecodeError → DecodeError
  | unknownTag byte offset => unknownTag byte (base + offset)
  | uint64Overflow value offset => uint64Overflow value (base + offset)
  | blobTooLarge length limit offset => blobTooLarge length limit (base + offset)
  | e => e

/-- The error with its fields by name, as transcripts quote it. -/
def fields : DecodeError → String
  | unknownTag byte offset => s!"UnknownTag \x7b byte: {byte.toNat}, offset: {offset} \x7d"
  | uint64Overflow value offset => s!"Uint64Overflow \x7b value: {value}, offset: {offset} \x7d"
  | blobTooLarge length limit offset =>
    s!"BlobTooLarge \x7b len: {length}, limit: {limit}, offset: {offset} \x7d"
  | allocationFailed requested => s!"AllocationFailed \x7b requested: {requested} \x7d"
  | staleView issued current =>
    s!"StaleView \x7b issued: {issued.toNat}, current: {current.toNat} \x7d"
  | format cause => s!"Wire({cause.fields})"

@[simp] theorem shift_zero (e : DecodeError) : e.shift 0 = e := by
  cases e <;> simp [shift]

end DecodeError
end MessagePack
