import MessagePack.Command.Inspect
import MessagePack.Command.Validate
import MessagePack.Command.Encode
/-
  Commands carried out. What a command does to files goes through two calls, so the same definition runs on
  the files of the system and on the files below a directory that is a value. What is said about commands holds
  of all files that keep a few laws; a directory keeps them.

  What is proved:
    1. `state_of_failure`: a command that fails leaves the files as they were.
    2. `encode_succeeds`: an encoding that succeeds has written what it reports, and no more.
    3. `run_encode`, `run_validate`: what these commands come to where their files can be had.
    4. `run_refused`: an encoding of an input that makes no plan fails with the reason.
    5. `FileSystem.lawful_below`: the files below a directory keep the laws.
-/
namespace MessagePack

/-- What a command can do with files, by their paths. -/
structure Files (m : Type → Type) where
  read : String → m (Except FileError Bytes)
  write : String → Bytes → m (Except FileError Unit)

/-- The files below a directory. -/
def Files.inDirectory : Files (StateM Directory) where
  read text d :=
    match Path.ofString text with
    | .error e => (.error e, d)
    | .ok path => (d.read path, d)
  write text bytes d :=
    match Path.ofString text with
    | .error e => (.error e, d)
    | .ok path =>
      match d.write path bytes with
      | .error e => (.error e, d)
      | .ok d' => (.ok (), d')

/-- Files with what each of them holds, and where a path leads. Several paths may lead to one file. -/
structure FileSystem (σ κ : Type) where
  files : Files (StateM σ)
  file? : σ → κ → Option Bytes
  place? : σ → String → Option κ

/-- What is relied on in files. -/
structure FileSystem.Lawful {σ κ : Type} (fs : FileSystem σ κ) : Prop where
  /-- Reading changes nothing. -/
  read_keeps : ∀ path s, (fs.files.read path s).2 = s
  /-- A write that is refused changes nothing. -/
  write_refused : ∀ {path bytes s e}, (fs.files.write path bytes s).1 = .error e →
    (fs.files.write path bytes s).2 = s
  /-- A write puts the bytes where the path leads, and changes no other file. -/
  write_granted : ∀ {path bytes s}, (fs.files.write path bytes s).1 = .ok () →
    ∃ k, fs.place? (fs.files.write path bytes s).2 path = some k ∧
      fs.file? (fs.files.write path bytes s).2 k = some bytes ∧
      ∀ other, other ≠ k → fs.file? (fs.files.write path bytes s).2 other = fs.file? s other
  /-- What was written is read. -/
  read_written : ∀ {path bytes s}, (fs.files.write path bytes s).1 = .ok () →
    (fs.files.read path (fs.files.write path bytes s).2).1 = .ok bytes

namespace Arguments.Command

/-- The file that a command reads. -/
def source : Command → String
  | inspect o => o.file
  | validate o => o.file
  | encode o => o.input

/-- Writes the output of an encoding. -/
def deliver {m : Type → Type} [Monad m] (files : Files m) (o : EncodeOptions) (p : Encode.Plan) :
    m Report := do
  match ← files.write o.output p.bytes with
  | .error e => return Encode.cannotCreate o e
  | .ok () => return Encode.written o p

/-- Carries out a command. -/
def runWith {m : Type → Type} [Monad m] (files : Files m) (decoders : Decoders) (c : Command) :
    m Report := do
  match ← files.read c.source with
  | .error e => return .failed (Report.cannotRead c.source e.message)
  | .ok bytes =>
    match c with
    | inspect o => return Inspect.report o bytes
    | validate o => return Validate.report o bytes
    | encode o =>
      match Encode.plan decoders bytes with
      | .error r => return .failed (r.message o.input)
      | .ok p => deliver files o p

/-- Carries out a command below a directory. -/
def run (d : Directory) (c : Command) : Report × Directory := runWith Files.inDirectory .standard c d

/-! ## Any files -/

section
variable {σ κ : Type} {fs : FileSystem σ κ} {decoders : Decoders} {s : σ}

theorem deliver_of_error {o : EncodeOptions} {p : Encode.Plan} {e : FileError} (hlawful : fs.Lawful)
    (h : (fs.files.write o.output p.bytes s).1 = .error e) :
    deliver fs.files o p s = (Encode.cannotCreate o e, s) := by
  have hwrite : fs.files.write o.output p.bytes s = (.error e, s) := Prod.ext h (hlawful.write_refused h)
  simp only [deliver, bind, StateT.bind, hwrite]
  rfl

theorem deliver_of_ok {o : EncodeOptions} {p : Encode.Plan}
    (h : (fs.files.write o.output p.bytes s).1 = .ok ()) :
    deliver fs.files o p s = (Encode.written o p, (fs.files.write o.output p.bytes s).2) := by
  have hwrite : fs.files.write o.output p.bytes s = (.ok (), (fs.files.write o.output p.bytes s).2) :=
    Prod.ext h rfl
  simp only [deliver, bind, StateT.bind]
  rw [hwrite]
  rfl

/-- A command whose file cannot be read fails and does nothing. -/
theorem run_unread {c : Command} {e : FileError} (hlawful : fs.Lawful)
    (hread : (fs.files.read c.source s).1 = .error e) :
    runWith fs.files decoders c s = (.failed (Report.cannotRead c.source e.message), s) := by
  have hfile : fs.files.read c.source s = (.error e, s) := Prod.ext hread (hlawful.read_keeps _ _)
  simp only [runWith, bind, StateT.bind, hfile]
  rfl

/-- An encoding of an input that makes no plan fails with the reason. -/
theorem run_refused {o : EncodeOptions} {input : Bytes} {r : Encode.Refusal} (hlawful : fs.Lawful)
    (hread : (fs.files.read o.input s).1 = .ok input) (hplan : Encode.plan decoders input = .error r) :
    runWith fs.files decoders (encode o) s = (.failed (r.message o.input), s) := by
  have hfile : fs.files.read o.input s = (.ok input, s) := Prod.ext hread (hlawful.read_keeps _ _)
  simp only [runWith, bind, StateT.bind, source, hfile, hplan]
  rfl

/-- An encoding of an input that makes a plan carries it out. -/
theorem run_planned {o : EncodeOptions} {input : Bytes} {p : Encode.Plan} (hlawful : fs.Lawful)
    (hread : (fs.files.read o.input s).1 = .ok input) (hplan : Encode.plan decoders input = .ok p) :
    runWith fs.files decoders (encode o) s = deliver fs.files o p s := by
  have hfile : fs.files.read o.input s = (.ok input, s) := Prod.ext hread (hlawful.read_keeps _ _)
  simp only [runWith, bind, StateT.bind, source, hfile, hplan]

/-- An encoding writes what its input makes. -/
theorem run_encode {o : EncodeOptions} {input : Bytes} {p : Encode.Plan} (hlawful : fs.Lawful)
    (hread : (fs.files.read o.input s).1 = .ok input) (hplan : Encode.plan decoders input = .ok p)
    (hwrite : (fs.files.write o.output p.bytes s).1 = .ok ()) :
    runWith fs.files decoders (encode o) s
      = (Encode.written o p, (fs.files.write o.output p.bytes s).2) := by
  rw [run_planned hlawful hread hplan]
  exact deliver_of_ok hwrite

/-- A validation reports on the bytes at its path. -/
theorem run_validate {v : ValidateOptions} {bytes : Bytes} (hlawful : fs.Lawful)
    (hread : (fs.files.read v.file s).1 = .ok bytes) :
    runWith fs.files decoders (validate v) s = (Validate.report v bytes, s) := by
  have hfile : fs.files.read v.file s = (.ok bytes, s) := Prod.ext hread (hlawful.read_keeps _ _)
  simp only [runWith, bind, StateT.bind, source, hfile]
  rfl

theorem run_inspect {i : InspectOptions} {bytes : Bytes} (hlawful : fs.Lawful)
    (hread : (fs.files.read i.file s).1 = .ok bytes) :
    runWith fs.files decoders (inspect i) s = (Inspect.report i bytes, s) := by
  have hfile : fs.files.read i.file s = (.ok bytes, s) := Prod.ext hread (hlawful.read_keeps _ _)
  simp only [runWith, bind, StateT.bind, source, hfile]
  rfl

/-- A command that fails leaves the files as they were. -/
theorem state_of_failure {c : Command} (hlawful : fs.Lawful)
    (h : (runWith fs.files decoders c s).1.failure ≠ none) : (runWith fs.files decoders c s).2 = s := by
  cases hread : (fs.files.read c.source s).1 with
  | error e => rw [run_unread hlawful hread]
  | ok bytes =>
    cases c with
    | inspect i => rw [run_inspect hlawful hread]
    | validate v => rw [run_validate hlawful hread]
    | encode o =>
      cases hplan : Encode.plan decoders bytes with
      | error r => rw [run_refused hlawful hread hplan]
      | ok p =>
        rw [run_planned hlawful hread hplan] at h ⊢
        cases hwrite : (fs.files.write o.output p.bytes s).1 with
        | error e => rw [deliver_of_error hlawful hwrite]
        | ok u =>
          rw [deliver_of_ok hwrite] at h
          exact absurd rfl h

/-- An encoding that succeeds has written what it reports, and no more. -/
theorem encode_succeeds {o : EncodeOptions} (hlawful : fs.Lawful)
    (h : (runWith fs.files decoders (encode o) s).1.failure = none) :
    ∃ input p, (fs.files.read o.input s).1 = .ok input ∧ Encode.plan decoders input = .ok p ∧
      (fs.files.write o.output p.bytes s).1 = .ok () ∧
      runWith fs.files decoders (encode o) s
        = (Encode.written o p, (fs.files.write o.output p.bytes s).2) := by
  cases hread : (fs.files.read o.input s).1 with
  | error e =>
    rw [run_unread (c := encode o) hlawful hread] at h
    cases h
  | ok input =>
    cases hplan : Encode.plan decoders input with
    | error r =>
      rw [run_refused hlawful hread hplan] at h
      cases h
    | ok p =>
      cases hwrite : (fs.files.write o.output p.bytes s).1 with
      | error e =>
        rw [run_planned hlawful hread hplan, deliver_of_error hlawful hwrite] at h
        cases h
      | ok u => exact ⟨input, p, rfl, hplan, hwrite, run_encode hlawful hread hplan hwrite⟩

end

end Arguments.Command

/-! ## The files below a directory -/

namespace FileSystem

/-- The files below a directory, where a path leads to its place. -/
def below : FileSystem Directory Place where
  files := Files.inDirectory
  file? := Directory.file?
  place? _ text := (Path.ofString text).toOption.map Path.place

theorem write_below_cases (text : String) (bytes : Bytes) (d : Directory) :
    (∃ e, below.files.write text bytes d = (.error e, d)) ∨
    ∃ path d', Path.ofString text = .ok path ∧ d.write path bytes = .ok d' ∧
      below.files.write text bytes d = (.ok (), d') := by
  simp only [below, Files.inDirectory]
  cases hpath : Path.ofString text with
  | error e => exact .inl ⟨e, rfl⟩
  | ok path =>
    simp only
    cases hwrite : d.write path bytes with
    | error e => exact .inl ⟨e, rfl⟩
    | ok d' => exact .inr ⟨path, d', rfl, hwrite, rfl⟩

theorem read_below {text : String} {path : Path} (hpath : Path.ofString text = .ok path) (d : Directory) :
    below.files.read text d = (d.read path, d) := by
  simp only [below, Files.inDirectory, hpath]

theorem lawful_below : below.Lawful where
  read_keeps text d := by
    simp only [below, Files.inDirectory]
    split <;> rfl
  write_refused := by
    intro text bytes d e h
    obtain ⟨_, hwrite⟩ | ⟨path, d', _, _, hwrite⟩ := write_below_cases text bytes d
    · rw [hwrite]
    · rw [hwrite] at h
      cases h
  write_granted := by
    intro text bytes d h
    obtain ⟨_, hwrite⟩ | ⟨path, d', hpath, hput, hwrite⟩ := write_below_cases text bytes d
    · rw [hwrite] at h
      cases h
    · rw [hwrite]
      refine ⟨path.place, ?_, Directory.file?_write hput, ?_⟩
      · simp only [below, hpath]
        rfl
      · intro other hother
        exact Directory.file?_write_of_ne hput hother
  read_written := by
    intro text bytes d h
    obtain ⟨_, hwrite⟩ | ⟨path, d', hpath, hput, hwrite⟩ := write_below_cases text bytes d
    · rw [hwrite] at h
      cases h
    · rw [hwrite, read_below hpath]
      exact Directory.read_of_write hput

end FileSystem
end MessagePack
