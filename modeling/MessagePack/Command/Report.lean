import MessagePack.Command.Directory
/-
  Reports: what a command prints, and why it failed if it did.
-/
namespace MessagePack

/-- The lines of a command on standard output, and the text of its failure. -/
structure Report where
  lines : List String
  failure : Option String
  deriving DecidableEq, Repr

namespace Report

/-- A command that fails before it has printed anything. -/
def failed (text : String) : Report := ⟨[], some text⟩

/-- A line without the carriage return that may stand before its end. -/
def withoutReturn (line : String) : String :=
  if line.endsWith "\r" then String.ofList line.toList.dropLast else line

/-- Standard output as it reads: a text that was printed as one line is several where it holds line feeds,
and a carriage return before the end of a line belongs to the end. -/
def output (r : Report) : List String :=
  r.lines.flatMap fun printed => (printed.splitOn "\n").map withoutReturn

/-- The letter behind the name of a thing of which there are `n`. -/
def plural (n : Nat) : String := if n = 1 then "" else "s"

/-- The text of a file that could not be read. -/
def cannotRead (path reason : String) : String := s!"cannot read {path}: {reason}"

end Report
end MessagePack
