/-
  Paths: what a text says about the way to a file. A path starts at the root or at the working directory and
  goes on step by step, so that a place further up can be reached as well; which of the steps can be taken is
  for the files that are there to say. `Path.place` is where a path ends if all of them can.

  What is proved:
    1. `parent_child`: a thing lies in the directory that it was looked up in.
-/
namespace MessagePack

/-- Why a file cannot be read or created. -/
inductive FileError where
  | notFound
  | notADirectory
  | isADirectory
  | nameTooLong
  /-- A path with a character of code zero, which no system takes. -/
  | nulInName
  /-- A reason that only the system knows. -/
  | other (text : String)
  deriving DecidableEq, Repr

/-- The wording of a file error, with the number that the system gives it. -/
def FileError.message : FileError → String
  | notFound => "No such file or directory (os error 2)"
  | notADirectory => "Not a directory (os error 20)"
  | isADirectory => "Is a directory (os error 21)"
  | nameTooLong => "File name too long (os error 36)"
  | nulInName => "file name contained an unexpected NUL byte"
  | other text => text

/-- The directories that names can be counted from. -/
inductive Origin where
  | root
  /-- The directory that lies so many levels above the working directory. -/
  | above (levels : Nat)
  deriving DecidableEq, Repr

/-- A place for a file or a directory: the names that lead down to it. -/
structure Place where
  origin : Origin
  names : List String
  deriving DecidableEq, Repr

namespace Place

def root : Place := ⟨.root, []⟩

def working : Place := ⟨.above 0, []⟩

/-- The place of a thing in a directory. -/
def child (p : Place) (name : String) : Place := ⟨p.origin, p.names ++ [name]⟩

/-- The directory that a place lies in. The root lies in itself. -/
def parent (p : Place) : Place :=
  match p.origin, p.names with
  | .root, [] => p
  | .above levels, [] => ⟨.above (levels + 1), []⟩
  | origin, names => ⟨origin, names.dropLast⟩

/-- A thing lies in the directory that it was looked up in. -/
@[simp] theorem parent_child (p : Place) (name : String) : (p.child name).parent = p := by
  obtain ⟨origin, names⟩ := p
  simp only [child, parent]
  split
  · simp_all
  · simp_all
  · simp

end Place

/-- One step on the way. -/
inductive Path.Step where
  | stay
  | up
  | down (name : String)
  deriving DecidableEq, Repr

/-- A way to a file. -/
structure Path where
  start : Place
  steps : List Path.Step
  /-- Whether it ends in a slash, as the path of a directory may. -/
  trailingSlash : Bool
  deriving DecidableEq, Repr

/-- The place that a step leads to. -/
def Place.move (p : Place) : Path.Step → Place
  | .stay => p
  | .up => p.parent
  | .down name => p.child name

namespace Path

/-- The greatest length of a name in bytes. -/
def nameMax : Nat := 255

def lengthMax : Nat := 4095

/-- The step that stands between two slashes. Between slashes that follow each other there is none. -/
def Step.ofString? (text : String) : Option Step :=
  if text = "" then none
  else if text = "." then some .stay
  else if text = ".." then some .up
  else some (.down text)

/-- Reads a path. A text that is no path at all is refused before any file is looked at. -/
def ofString (text : String) : Except FileError Path :=
  let characters := text.toList
  if characters.contains (Char.ofNat 0) then .error .nulInName
  else if lengthMax < text.utf8ByteSize then .error .nameTooLong
  else if characters = [] then .error .notFound
  else .ok
    { start := if characters.head? = some '/' then .root else .working
      steps := (characters.splitOn '/').filterMap fun name => Step.ofString? (String.ofList name)
      trailingSlash := characters.getLast? = some '/' }

def place (path : Path) : Place := path.steps.foldl Place.move path.start

end Path
end MessagePack
