import MessagePack.Command.Arguments
import MessagePack.Command.Report
import MessagePack.Decimal.Layout
import MessagePack.Text.HexDump
import MessagePack.Walk
/-
  Inspection: one line for each token of a file, with its offset, its marker and its value, and a summary at
  the end. The lines of the tokens before a fault are printed too.
-/
namespace MessagePack
namespace Inspect

/-- Floats are always written in full, and a whole number has no point. -/
def floats : FloatLayout := { inFull := none, markWhole := false }

def markerWidth : Nat := 9

def showOffset (offset : Nat) : String := String.ofList ('0' :: 'x' :: Hex.number 6 offset)

/-- The last column of a token; a nil has none. -/
def showValue : Value Bytes → Option String
  | .nil => none
  | .bool b => some (toString b)
  | .int v => some (toString v)
  | .float x => some (floats.write x)
  | .bin data => some s!"{data.length} bytes"

def tokenLine (t : Token) : String :=
  let offset := showOffset t.offset
  match showValue t.value with
  | none => s!"{offset}  {t.marker.name}"
  | some value =>
    let marker := String.ofList (t.marker.name.toList.rightpad markerWidth ' ')
    s!"{offset}  {marker}  {value}"

/-- The lines of a token, with the dump of a blob if dumps are asked for. -/
def tokenLines (showHex : Bool) (t : Token) : List String :=
  match t.value with
  | .bin data =>
    if showHex then tokenLine t :: (HexDump.rows data).map String.ofList else [tokenLine t]
  | _ => [tokenLine t]

/-- The lines at the end of a file that was walked through. -/
def summary (tokens messages bytes capacity : Nat) : List String :=
  let s := Report.plural tokens
  let es := Report.plural messages
  [ "---"
  , s!"{tokens} token{s} in {messages} message{es}, {bytes} bytes, arena capacity {capacity}" ]

/-- The text of a token that the end of the file cuts off. -/
def cutOffText (offset buffered : Nat) : String :=
  let place := showOffset offset
  s!"input ends inside the token at {place} ({buffered} bytes buffered)"

def walk (o : Arguments.InspectOptions) (bytes : Bytes) : Reply Walk Unit :=
  Walk.create bytes o.chunkSize o.chunkSize_pos o.valuesPerMessage {}

def report (o : Arguments.InspectOptions) (bytes : Bytes) : Report :=
  match walk o bytes with
  | ⟨.error f, _, _⟩ => .failed f.message
  | ⟨.ok (), start, _⟩ =>
    let run := start.run
    let lines := run.tokens.flatMap (tokenLines o.showHex)
    match run.ending with
    | .error f => ⟨lines, some s!"failed to decode {o.file}: {f.message}"⟩
    | .ok (.cutOff offset buffered) => ⟨lines, some (cutOffText offset buffered)⟩
    | .ok _ =>
      let capacity := run.walk.reader.arena.capacity
      ⟨lines ++ summary run.tokens.length run.walk.messages bytes.length capacity, none⟩

end Inspect
end MessagePack
