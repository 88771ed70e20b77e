import MessagePack.FormatError
/-
  Arguments: from the words of a command line to a command.

  There are two levels. The words in front of the name of a command are read at the top level, those behind it
  at the level of the command. A word with one dash is a row of short options, a word with two dashes is a long
  one, and two dashes alone make all words behind them plain. An option that takes a value takes it from
  its own word, behind an equals sign or, for a short one, also directly, and else from the next word unless
  that looks like an option.

  A value that comes as a word of its own, or a plain word, is examined only when the next one has been
  recognised. So a fault in it gives way to an unknown option behind it.
-/
namespace MessagePack
namespace Arguments

/-- Why the words make no command. Asking for help or for the version is one of the reasons. -/
inductive UsageError where
  | helpRequested
  | versionRequested
  /-- There is nothing to do at all. -/
  | nothingRequested
  | missingCommand
  | unknownCommand
  | unknownArgument
  | repeated
  | unexpectedValue
  | missingValue
  /-- A value is no number, or a number that is not admitted. -/
  | invalidNumber
  | missingArgument
  deriving DecidableEq, Repr

inductive CommandName where
  | inspect
  | validate
  | encode
  deriving DecidableEq, Repr

def CommandName.ofString? : String → Option CommandName
  | "inspect" => some inspect
  | "validate" => some validate
  | "encode" => some encode
  | _ => none

/-- Where words are read. -/
inductive Level where
  | top
  | command (name : CommandName)
  deriving DecidableEq, Repr

inductive Switch where
  | help
  | version
  | verbose
  | showHex
  deriving DecidableEq, Repr

inductive Setting where
  | chunkSize
  | valuesPerMessage
  | maxBlobLength
  | output
  deriving DecidableEq, Repr

inductive Choice where
  | switch (s : Switch)
  | setting (s : Setting)
  deriving DecidableEq, Repr

def Level.long? : Level → String → Option Choice
  | _, "help" => some (.switch .help)
  | _, "verbose" => some (.switch .verbose)
  | top, "version" => some (.switch .version)
  | command .inspect, "chunk-size" => some (.setting .chunkSize)
  | command .inspect, "values-per-message" => some (.setting .valuesPerMessage)
  | command .inspect, "show-hex" => some (.switch .showHex)
  | command .validate, "chunk-size" => some (.setting .chunkSize)
  | command .validate, "max-blob-len" => some (.setting .maxBlobLength)
  | command .encode, "output" => some (.setting .output)
  | _, _ => none

def Level.short? : Level → Char → Option Choice
  | _, 'h' => some (.switch .help)
  | _, 'v' => some (.switch .verbose)
  | top, 'V' => some (.switch .version)
  | command .encode, 'o' => some (.setting .output)
  | _, _ => none

/-! ## Values -/

/-- A machine word in decimal digits, with or without a plus sign in front. -/
def parseWord? (text : String) : Option Nat :=
  let digits := match text.toList with
    | '+' :: rest => rest
    | all => all
  if digits.isEmpty || !digits.all Char.isDigit then none
  else
    let n := digits.foldl (fun n c => n * 10 + (c.toNat - 48)) 0
    if n ≤ wordMax then some n else none

structure Given where
  verbose : Bool := false
  showHex : Bool := false
  chunkSize : Option Nat := none
  valuesPerMessage : Option Nat := none
  maxBlobLength : Option Nat := none
  output : Option String := none
  file : Option String := none
  deriving DecidableEq, Repr

namespace Given

def switch (g : Given) : Switch → Except UsageError Given
  | .help => .error .helpRequested
  | .version => .error .versionRequested
  | .verbose => if g.verbose then .error .repeated else .ok { g with verbose := true }
  | .showHex => if g.showHex then .error .repeated else .ok { g with showHex := true }

/-- A number that may be given once and is at least `least`. -/
def number (before : Option Nat) (least : Nat) (text : String) : Except UsageError Nat :=
  if before.isSome then .error .repeated
  else match parseWord? text with
    | none => .error .invalidNumber
    | some n => if n < least then .error .invalidNumber else .ok n

/-- A path that may be given once and is not empty. -/
def path (before : Option String) (text : String) : Except UsageError String :=
  if before.isSome then .error .repeated
  else if text.isEmpty then .error .missingValue
  else .ok text

def set (g : Given) (s : Setting) (text : String) : Except UsageError Given :=
  match s with
  | .chunkSize => (number g.chunkSize 1 text).map fun n => { g with chunkSize := some n }
  | .valuesPerMessage =>
    (number g.valuesPerMessage 1 text).map fun n => { g with valuesPerMessage := some n }
  | .maxBlobLength => (number g.maxBlobLength 0 text).map fun n => { g with maxBlobLength := some n }
  | .output => (path g.output text).map fun p => { g with output := some p }

end Given

/-- What has been recognised and is not examined yet. -/
inductive Pending where
  | nothing
  | awaiting (s : Setting)
  | value (s : Setting) (text : String)
  | plain (text : String)
  deriving DecidableEq, Repr

/-- The reading of a command line so far. -/
structure Progress where
  given : Given := {}
  pending : Pending := .nothing
  /-- Whether the one plain word of a command has come. -/
  plainSeen : Bool := false
  deriving DecidableEq, Repr

namespace Progress

def settle (p : Progress) : Except UsageError Progress :=
  match p.pending with
  | .nothing => .ok p
  | .awaiting _ => .error .missingValue
  | .value s text => (p.given.set s text).map fun given => { p with given, pending := .nothing }
  | .plain text =>
    (Given.path none text).map fun file =>
      { p with given := { p.given with file := some file }, pending := .nothing }

/-- Takes a switch behind what is pending. -/
def switch (p : Progress) (s : Switch) : Except UsageError Progress :=
  p.settle.bind fun p => (p.given.switch s).map fun given => { p with given }

/-- Takes an option with a value behind what is pending; the value may be still to come. -/
def setting (p : Progress) (s : Setting) (value : Option String) : Except UsageError Progress :=
  p.settle.bind fun p =>
    match value with
    | none => .ok { p with pending := .awaiting s }
    | some text => (p.given.set s text).map fun given => { p with given }

/-- A word with two dashes, without them. -/
def long (p : Progress) (level : Level) (word : List Char) : Except UsageError Progress :=
  let name := String.ofList (word.takeWhile (· ≠ '='))
  let value := match word.dropWhile (· ≠ '=') with
    | [] => none
    | _ :: value => some (String.ofList value)
  match level.long? name, value with
  | none, _ => .error .unknownArgument
  | some (.setting s), value => p.setting s value
  | some (.switch _), some _ => .error .unexpectedValue
  | some (.switch s), none => p.switch s

/-- A row of short options. -/
def short (p : Progress) (level : Level) : List Char → Except UsageError Progress
  | [] => .ok p
  | c :: rest =>
    match level.short? c with
    | none => .error .unknownArgument
    | some (.switch s) => (p.switch s).bind fun p => p.short level rest
    | some (.setting s) =>
      match rest with
      | [] => p.setting s none
      | '=' :: value => p.setting s (some (String.ofList value))
      | value => p.setting s (some (String.ofList value))

/-- A plain word of a command. There is one of them. -/
def plain (p : Progress) (text : String) : Except UsageError Progress :=
  if p.plainSeen then .error .unknownArgument
  else p.settle.map fun p => { p with pending := .plain text, plainSeen := true }

def words (p : Progress) (level : Level) : List String → Except UsageError Progress
  | [] => p.settle
  | word :: rest =>
    match word.toList with
    | ['-', '-'] => (rest.foldlM plain p).bind settle
    | '-' :: '-' :: name => (p.long level name).bind fun p => p.words level rest
    | '-' :: c :: row => (p.short level (c :: row)).bind fun p => p.words level rest
    | _ =>
      match p.pending with
      | .awaiting s => words { p with pending := .value s word } level rest
      | _ => (p.plain word).bind fun p => p.words level rest

end Progress

/-! ## Commands -/

structure InspectOptions where
  file : String
  chunkSize : Nat := 4096
  chunkSize_pos : 0 < chunkSize := by decide
  valuesPerMessage : Option Nat := none
  showHex : Bool := false

structure ValidateOptions where
  file : String
  chunkSize : Nat := 4096
  chunkSize_pos : 0 < chunkSize := by decide
  maxBlobLength : Option Nat := none

/-- What is encoded, and where the result goes. -/
structure EncodeOptions where
  input : String
  output : String
  deriving DecidableEq, Repr

inductive Command where
  | inspect (o : InspectOptions)
  | validate (o : ValidateOptions)
  | encode (o : EncodeOptions)

/-- A number of bytes fed at once, 4096 if none is given. -/
def chunkSize (given : Option Nat) : { n : Nat // 0 < n } :=
  match given with
  | some (n + 1) => ⟨n + 1, Nat.succ_pos n⟩
  | _ => ⟨4096, by decide⟩

/-- The command for what was given, if nothing is missing. -/
def Given.command (g : Given) (name : CommandName) : Except UsageError Command :=
  let chunk := Arguments.chunkSize g.chunkSize
  match name, g.file, g.output with
  | .inspect, some file, _ =>
    .ok (.inspect
      { file
        chunkSize := chunk.val
        chunkSize_pos := chunk.property
        valuesPerMessage := g.valuesPerMessage
        showHex := g.showHex })
  | .validate, some file, _ =>
    .ok (.validate
      { file
        chunkSize := chunk.val
        chunkSize_pos := chunk.property
        maxBlobLength := g.maxBlobLength })
  | .encode, some input, some output => .ok (.encode { input, output })
  | _, _, _ => .error .missingArgument

/-- Asking for help on a command, or on help itself. -/
def help : List String → UsageError
  | [] => .helpRequested
  | [word] =>
    if word = "help" ∨ (CommandName.ofString? word).isSome then .helpRequested else .unknownCommand
  | _ => .unknownCommand

/-- Why there is no command if the words end at the top level. -/
def withoutCommand (g : Given) : UsageError :=
  if g.verbose then .missingCommand else .nothingRequested

/-- Reads words at the top level. Only switches may stand there in front of the command. -/
def parseFrom (p : Progress) : List String → Except UsageError Command
  | [] => .error (withoutCommand p.given)
  | word :: rest =>
    match CommandName.ofString? word with
    | some name =>
      ((Progress.words {} (.command name) rest).bind fun p => p.given.command name)
    | none =>
      if word = "help" then .error (help rest)
      else match word.toList with
        | ['-', '-'] =>
          match rest with
          | [] => .error (withoutCommand p.given)
          | next :: _ =>
            if next = "help" ∨ (CommandName.ofString? next).isSome then .error .unknownArgument
            else .error .unknownCommand
        | '-' :: '-' :: name => (p.long .top name).bind fun p => parseFrom p rest
        | '-' :: c :: row => (p.short .top (c :: row)).bind fun p => parseFrom p rest
        | _ => .error .unknownCommand

def parse (words : List String) : Except UsageError Command := parseFrom {} words

end Arguments
end MessagePack
