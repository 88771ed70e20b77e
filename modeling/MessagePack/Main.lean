import MessagePack.Command.Run
/-
  The command line on the files of the system.
-/
namespace MessagePack

/-- The reason of an error of the system. Opening a file gives the number of an error with a minus sign. -/
def FileError.ofSystem : IO.Error → FileError
  | .noFileOrDirectory _ _ _ => .notFound
  | .inappropriateType file code details =>
    if code = 20 ∨ code = -20 then .notADirectory
    else if code = 21 ∨ code = -21 then .isADirectory
    else .other (toString (IO.Error.inappropriateType file code details))
  | .invalidArgument file code details =>
    if code = 36 ∨ code = -36 then .nameTooLong
    else .other (toString (IO.Error.invalidArgument file code details))
  | e => .other (toString e)

/-- Does something with a file of the system. What is no path is not shown to the system. -/
def onSystem {α : Type} (path : String) (act : IO α) : IO (Except FileError α) := do
  match Path.ofString path with
  | .error e => return .error e
  | .ok _ =>
    try
      return .ok (← act)
    catch e => return .error (.ofSystem e)

def systemFiles : Files IO where
  read path := onSystem path do return (← IO.FS.readBinFile path).data.toList
  write path bytes := onSystem path (IO.FS.writeBinFile path bytes.toByteArray)

/-- One line for words that make no command. -/
def Arguments.UsageError.message : Arguments.UsageError → String
  | helpRequested | nothingRequested =>
    "usage: mpk [-v] inspect FILE | validate FILE | encode INPUT -o OUTPUT"
  | versionRequested => "mpk 0.1.0"
  | missingCommand => "a command is missing"
  | unknownCommand => "there is no such command"
  | unknownArgument => "there is no such argument"
  | repeated => "an argument is given twice"
  | unexpectedValue => "a switch takes no value"
  | missingValue => "a value is missing"
  | invalidNumber => "a value is not an admitted number"
  | missingArgument => "an argument is missing"

end MessagePack

def main (words : List String) : IO UInt32 := do
  match MessagePack.Arguments.parse words with
  | .error .versionRequested =>
    IO.println MessagePack.Arguments.UsageError.versionRequested.message
    return 0
  | .error .helpRequested =>
    IO.println MessagePack.Arguments.UsageError.helpRequested.message
    return 0
  | .error e =>
    IO.eprintln s!"error: {e.message}"
    return 2
  | .ok command =>
    let report ← command.runWith MessagePack.systemFiles .standard
    for line in report.lines do
      IO.println line
    match report.failure with
    | none => return 0
    | some text =>
      IO.eprintln s!"error: {text}"
      return 1
