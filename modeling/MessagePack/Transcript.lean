import MessagePack.ChunkedDecoding
import MessagePack.Decimal.Layout
import MessagePack.Text.Hex
/-
  Transcripts: what a reader answers, call by call, while a byte string arrives in pieces. Before each token
  the marker is looked at, and then the token is read; a piece is fed when either of the two needs it.
-/
namespace MessagePack
namespace Transcript

inductive Line where
  /-- There was no byte to look at, and a piece was fed. -/
  | fedBetween (piece : Bytes)
  /-- There was no byte to look at, and no further piece. -/
  | endedBetween
  | took (m : Marker) (value : Value Bytes) (consumed cursor : Nat)
  /-- A token was not all there, and a piece was fed. -/
  | fedInside (m : Marker) (piece : Bytes)
  /-- A token was not all there, and there was no further piece. -/
  | endedInside (m : Marker) (buffered : Nat)
  deriving DecidableEq, Repr

/-- Floats always show that they are floats. Very large and very small ones have an exponent. -/
def floats : FloatLayout := { inFull := some (-3, 16), markWhole := true }

def showValue : Value Bytes → String
  | .nil => "Nil"
  | .bool b => s!"Bool({b})"
  | .int v => s!"Int({v})"
  | .float x =>
    let text := floats.write x
    s!"Float({text})"
  | .bin data =>
    let numbers := ", ".intercalate (data.map fun b => toString b.toNat)
    s!"Bin([{numbers}])"

def Line.text : Line → String
  | fedBetween piece =>
    let bytes := String.ofList (Hex.spaced piece)
    s!"next -> need more data; feed {bytes}"
  | endedBetween => "next -> need more data; input exhausted"
  | took m value consumed cursor =>
    let shown := showValue value
    s!"next -> {m.name}; read -> {shown} ({consumed} bytes, cursor {cursor})"
  | fedInside m piece =>
    let bytes := String.ofList (Hex.spaced piece)
    s!"next -> {m.name}; read -> need more data; feed {bytes}"
  | endedInside m buffered =>
    s!"next -> {m.name}; read -> need more data; input exhausted with {buffered} bytes buffered"

/-- Some lines as one text. A line feed ends each of them. -/
def text (lines : List Line) : String := String.join (lines.map fun line => line.text ++ "\n")

/-- Where a transcript broke off. -/
inductive Phase where
  | reading
  | feeding
  | viewing
  deriving DecidableEq, Repr

/-- What a phase takes for granted. -/
def Phase.premise : Phase → String
  | reading => "well-formed input"
  | feeding => "feed"
  | viewing => "fresh view"

inductive Breakdown where
  | fault (phase : Phase) (error : DecodeError)
  | violation (v : Violation)
  /-- The message ended, although nobody had ended it. -/
  | endedMessage
  deriving DecidableEq, Repr

def Breakdown.ofFailure (phase : Phase) : Failure → Breakdown
  | .fault e => .fault phase e
  | .violation v => .violation v

def Breakdown.message : Breakdown → String
  | fault phase error => s!"{phase.premise}: {error.fields}"
  | violation v => v.message
  | endedMessage => "internal error: entered unreachable code: trace never ends a message"

/-- Goes on with a reader and the pieces still to come. The lines so far come in reverse. -/
def continueFrom (r : Reader) (pieces : List Bytes) (lines : List Line) :
    Except Breakdown (List Line) :=
  match r.next.outcome with
  | .error f => .error (.ofFailure .reading f)
  | .ok .ended => .error .endedMessage
  | .ok .needMoreData =>
    match pieces with
    | [] => .ok (Line.endedBetween :: lines).reverse
    | piece :: pieces =>
      match r.feed piece with
      | ⟨.error f, _, _⟩ => .error (.ofFailure .feeding f)
      | ⟨.ok (), r, _⟩ => continueFrom r pieces (.fedBetween piece :: lines)
  | .ok (.token m) =>
    match h : r.readValue with
    | ⟨.error f, _, _⟩ => .error (.ofFailure .reading f)
    | ⟨.ok (.decoded v n), r', _⟩ =>
      match r'.resolve v with
      | .error e => .error (.fault .viewing e)
      | .ok value =>
        have := Reader.remaining_lt_of_readValue h
        continueFrom r' pieces (.took m value n r'.cursor :: lines)
    | ⟨.ok .needMoreData, r', _⟩ =>
      match pieces with
      | [] => .ok (Line.endedInside m r'.arena.remaining :: lines).reverse
      | piece :: pieces =>
        match r'.feed piece with
        | ⟨.error f, _, _⟩ => .error (.ofFailure .feeding f)
        | ⟨.ok (), r, _⟩ => continueFrom r pieces (.fedInside m piece :: lines)
termination_by (pieces.length, r.arena.remaining)

/-- The transcript of a byte string in pieces of one length. A length of zero counts as one. -/
def ofChunks (bytes : Bytes) (length : Nat) : Except Breakdown (List Line) :=
  continueFrom .small (chunksOf (max length 1) (by omega) bytes) []

/-- The same as a text. -/
def trace (bytes : Bytes) (length : Nat) : Except Breakdown String := (ofChunks bytes length).map text

end Transcript
end MessagePack
