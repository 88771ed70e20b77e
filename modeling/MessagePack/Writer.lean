import MessagePack.Encoding
import MessagePack.Reply
/-
  Writers: a growing byte string to which tokens are appended. An entry is one call on a writer; an entry
  that is refused leaves the bytes as they were.
-/
namespace MessagePack

/-- What a writer can be asked to append. -/
inductive Entry where
  | nil
  | bool (b : Bool)
  /-- A signed integer in its smallest form. -/
  | integer (v : Int)
  /-- An unsigned integer in its smallest form. -/
  | unsigned (n : Nat)
  /-- An integer under a given marker. -/
  | integerAs (m : Marker) (v : Int)
  | float32 (x : Binary32)
  | float64 (x : Binary64)
  /-- A blob with the smallest header. -/
  | blob (data : Bytes)
  /-- A blob under a given marker. -/
  | blobAs (m : Marker) (data : Bytes)
  /-- Bytes as they are. -/
  | raw (data : Bytes)
  deriving DecidableEq, Repr

/-- The bytes that an entry appends. -/
def Entry.encode : Entry → Except EncodeError Bytes
  | nil => .ok Encoding.nil
  | bool b => .ok (Encoding.bool b)
  | integer v => .ok (Encoding.integer v)
  | unsigned n => .ok (Encoding.unsigned n)
  | integerAs m v => Encoding.integerAs m v
  | float32 x => .ok (Encoding.float32 x)
  | float64 x => .ok (Encoding.float64 x)
  | blob data => Encoding.blob data
  | blobAs m data => Encoding.blobAs m data
  | raw data => .ok data

/-- The value that a token entry stands for. A single stands for the double it widens to. -/
def Entry.value? : Entry → Option (Value Bytes)
  | nil => some .nil
  | bool b => some (.bool b)
  | integer v => some (.int v)
  | unsigned n => some (.int n)
  | integerAs _ v => some (.int v)
  | float32 x => some (.float x.widen)
  | float64 x => some (.float x)
  | blob data => some (.bin data)
  | blobAs _ data => some (.bin data)
  | raw _ => none

/-- The bytes written so far. -/
structure Writer where
  bytes : Bytes
  deriving DecidableEq, Repr

/-- Where the bytes of a writer can go: to a string that grows, or over the front of a fixed area. -/
inductive Sink where
  | growing (bytes : Bytes)
  | fixed (area : Bytes)
  deriving DecidableEq, Repr

def Sink.bytes : Sink → Bytes
  | growing bytes => bytes
  | fixed area => area

namespace Writer

def empty : Writer := ⟨[]⟩

/-- The greatest number of bytes that a string of bytes can be made for. -/
def capacityMax : Nat := 0x7fffffffffffffff

/-- A writer with room for a number of bytes from the start. The room is no limit, and none of it shows. -/
def withCapacity (capacity : Nat) : Except Violation Writer :=
  if capacityMax < capacity then .error .capacityOverflow else .ok empty

/-- The writer after an entry, and the refusal if there is one. -/
def put (w : Writer) (entry : Entry) : Option EncodeError × Writer :=
  match entry.encode with
  | .error e => (some e, w)
  | .ok b => (none, ⟨w.bytes ++ b⟩)

/-- Sends all bytes to a sink and says how many. An area that is too small is filled and then refused. -/
def sendTo (w : Writer) : Sink → Except EncodeError Nat × Sink
  | .growing bytes => (.ok w.bytes.length, .growing (bytes ++ w.bytes))
  | .fixed area =>
    let filled := Sink.fixed (w.bytes.take area.length ++ area.drop w.bytes.length)
    if w.bytes.length ≤ area.length then (.ok w.bytes.length, filled) else (.error .sinkFull, filled)

end Writer
end MessagePack
