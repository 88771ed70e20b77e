import MessagePack.Json.Lexeme
/-
  JSON documents: lexemes put together to one value.

  The reading goes through the lexemes once and keeps the arrays and objects that are still open, the
  innermost first. At most `maxDepth` of them may be open at a time.
-/
namespace MessagePack
namespace Json

/-- A JSON value. Members of an object keep their order, and a key may occur twice. -/
inductive Tree where
  | scalar (v : Scalar)
  | text (s : String)
  | array (items : List Tree)
  | object (members : List (String × Tree))

/-- How many arrays and objects may be open at a time. -/
def maxDepth : Nat := 127

/-- An array or object that is still open. What it holds so far comes in reverse. -/
inductive Frame where
  | array (items : List Tree)
  | object (members : List (String × Tree))
  /-- An object in the middle of a member: the key is read, its value is not. -/
  | member (members : List (String × Tree)) (key : String)

inductive Awaiting where
  /-- A value, or the end of the array that has just been opened. -/
  | value (orClose : Bool)
  /-- A key, or the end of the object that has just been opened. -/
  | key (orClose : Bool)
  | colon
  /-- A comma, or the end of the innermost array or object. -/
  | separator
  /-- Nothing: the document is complete. -/
  | nothing (document : Tree)

structure Reading where
  awaiting : Awaiting
  frames : List Frame

namespace Reading

def place (v : Tree) : List Frame → Option Reading
  | [] => some ⟨.nothing v, []⟩
  | .array items :: rest => some ⟨.separator, .array (v :: items) :: rest⟩
  | .member members key :: rest => some ⟨.separator, .object ((key, v) :: members) :: rest⟩
  | .object _ :: _ => none

def enter (frame : Frame) (awaiting : Awaiting) (frames : List Frame) : Option Reading :=
  if frames.length < maxDepth then some ⟨awaiting, frame :: frames⟩ else none

def step (r : Reading) (l : Lexeme) : Option Reading :=
  match r.awaiting, l, r.frames with
  | .value _, .scalar v, frames => place (.scalar v) frames
  | .value _, .text s, frames => place (.text s) frames
  | .value _, .openArray, frames => enter (.array []) (.value true) frames
  | .value _, .openObject, frames => enter (.object []) (.key true) frames
  | .value true, .closeArray, .array items :: rest => place (.array items.reverse) rest
  | .key _, .text key, .object members :: rest => some ⟨.colon, .member members key :: rest⟩
  | .key true, .closeObject, .object members :: rest => place (.object members.reverse) rest
  | .colon, .colon, frames => some ⟨.value false, frames⟩
  | .separator, .comma, .array items :: rest => some ⟨.value false, .array items :: rest⟩
  | .separator, .comma, .object members :: rest => some ⟨.key false, .object members :: rest⟩
  | .separator, .closeArray, .array items :: rest => place (.array items.reverse) rest
  | .separator, .closeObject, .object members :: rest => place (.object members.reverse) rest
  | _, _, _ => none

end Reading

/-- The value of a document; none if it is not well formed. -/
def Tree.parse? (text : String) : Option Tree :=
  match (lexemes? text.toList).bind (·.foldlM Reading.step ⟨.value false, []⟩) with
  | some ⟨.nothing document, []⟩ => some document
  | _ => none

end Json
end MessagePack
