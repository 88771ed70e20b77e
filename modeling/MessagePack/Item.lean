import MessagePack.Json.Document
import MessagePack.Text.Hex
import MessagePack.Writer
/-
  Items: the elements of a JSON array that stands for a message. Nulls, booleans and numbers stand for
  themselves; a blob is an object whose member named bin holds its bytes in hexadecimal.
-/
namespace MessagePack

inductive Item where
  | entry (e : Entry)
  | hexBlob (text : String)
  deriving DecidableEq, Repr

namespace Item

/-- The item of a number: an integer keeps its exact value, and the largest ones are unsigned. -/
def ofNumber : Json.Number → Item
  | .integer v => entry (if v ≤ int64Max then .integer v else .unsigned v.toNat)
  | .float x => entry (.float64 x)

/-- The item of a JSON value. Members with other names are ignored, but the one that counts must be there
exactly once. -/
def ofTree? : Json.Tree → Option Item
  | .scalar .null => some (entry .nil)
  | .scalar (.bool b) => some (entry (.bool b))
  | .scalar (.number n) => some (ofNumber n)
  | .object members =>
    match members.filter (fun m => m.1 = "bin") with
    | [(_, .text s)] => some (hexBlob s)
    | _ => none
  | .text _ => none
  | .array _ => none

/-- The items of a document, which must be an array of items. -/
def parseAll? (text : String) : Option (List Item) :=
  match Json.Tree.parse? text with
  | some (.array elements) => elements.mapM ofTree?
  | _ => none

/-- Why an item has no token. -/
inductive Cause where
  | invalidHex (e : Hex.Error)
  | refused (e : EncodeError)
  deriving DecidableEq, Repr

def Cause.message : Cause → String
  | invalidHex e => s!"invalid hex: {e.message}"
  | refused e => s!"cannot encode blob: {e.message}"

/-- The token of an item. The text of a blob is read by `hex`. -/
def encode (hex : Bytes → Except Hex.Error Bytes) : Item → Except Cause Bytes
  | entry e => e.encode.mapError .refused
  | hexBlob text =>
    match hex text.toUTF8.data.toList with
    | .error e => .error (.invalidHex e)
    | .ok data => (Encoding.blob data).mapError .refused

/-- An element that has no token, by its place in the array. -/
structure Rejection where
  index : Nat
  cause : Cause
  deriving DecidableEq, Repr

def Rejection.message (r : Rejection) : String := s!"element {r.index}: {r.cause.message}"

/-- Encodes items from `index` on. The tokens before come in reverse. -/
def encodeFrom (hex : Bytes → Except Hex.Error Bytes) (index : Nat) (before : List Bytes) :
    List Item → Except Rejection Bytes
  | [] => .ok before.reverse.flatten
  | item :: rest =>
    match item.encode hex with
    | .error cause => .error ⟨index, cause⟩
    | .ok token => encodeFrom hex (index + 1) (token :: before) rest

/-- The tokens of all items one after the other; the first item that has none decides. -/
def encodeAll (hex : Bytes → Except Hex.Error Bytes) (items : List Item) : Except Rejection Bytes :=
  encodeFrom hex 0 [] items

end Item
end MessagePack
