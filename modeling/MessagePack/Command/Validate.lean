import MessagePack.Command.Arguments
import MessagePack.Command.Report
import MessagePack.Walk
/-
  Validation: how many tokens of each family a file holds, or the first thing that is wrong with it. Every
  token is a message of its own, so that the storage never holds more than one token and one chunk.
-/
namespace MessagePack
namespace Validate

/-- How many tokens of each family there are, and how many bytes their blobs have. -/
structure Tally where
  nil : Nat := 0
  bool : Nat := 0
  int : Nat := 0
  float : Nat := 0
  bin : Nat := 0
  payload : Nat := 0
  deriving DecidableEq, Repr

namespace Tally

def count (t : Tally) (token : Token) : Tally :=
  let t := match token.marker.family with
    | .nil => { t with nil := t.nil + 1 }
    | .bool => { t with bool := t.bool + 1 }
    | .int => { t with int := t.int + 1 }
    | .float => { t with float := t.float + 1 }
    | .bin => { t with bin := t.bin + 1 }
  match token.value with
  | .bin data => { t with payload := t.payload + data.length }
  | _ => t

def total (t : Tally) : Nat := t.nil + t.bool + t.int + t.float + t.bin

/-- The lines of a file of `bytes` bytes. -/
def lines (t : Tally) (bytes : Nat) : List String :=
  [ s!"✓ Tokens: {t.total} decoded from {bytes} bytes"
  , s!"✓ nil: {t.nil}"
  , s!"✓ bool: {t.bool}"
  , s!"✓ int: {t.int}"
  , s!"✓ float: {t.float}"
  , s!"✓ bin: {t.bin} ({t.payload} payload bytes)" ]

end Tally

/-- The report on a file with a fault. -/
def rejected (text : String) : Report := ⟨[s!"✗ Error: {text}"], some "validation failed"⟩

/-- The text of a token that the end of the file cuts off. -/
def cutOffText (offset buffered : Nat) : String :=
  s!"input ends inside the token at offset {offset} ({buffered} bytes buffered)"

/-- The walk that a validation goes through. The first storage is one chunk. -/
def walk (o : Arguments.ValidateOptions) (bytes : Bytes) : Reply Walk Unit :=
  Walk.create bytes o.chunkSize o.chunkSize_pos (some 1)
    { initialCapacity := o.chunkSize, maxBlobLength := o.maxBlobLength }

def report (o : Arguments.ValidateOptions) (bytes : Bytes) : Report :=
  match walk o bytes with
  | ⟨.error f, _, _⟩ => .failed f.message
  | ⟨.ok (), start, _⟩ =>
    let run := start.run
    match run.ending with
    | .error f => rejected f.message
    | .ok (.cutOff offset buffered) => rejected (cutOffText offset buffered)
    | .ok _ => ⟨(run.tokens.foldl Tally.count {}).lines bytes.length, none⟩

end Validate
end MessagePack
