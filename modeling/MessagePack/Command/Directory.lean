import MessagePack.BigEndian
import MessagePack.Command.Path
/-
  Directories: the files that a working directory holds, and those in the directories around it, by their
  places; and what a program can do with them: read a whole file, and create one or replace what it holds.
  Directories themselves are neither made nor removed. A path is walked step by step, and the first step that
  cannot be taken decides why a file cannot be had.

  What is proved:
    1. `eq_place_of_walk`: a path that can be walked to its end leads to its place.
    2. `file?_write`: a file that was written holds the bytes that were written.
    3. `file?_write_of_ne`: writing changes no other file.
    4. `read_of_write`: a path that was written to is read as what was written.
-/
namespace MessagePack

/-- The files that are known, by their places. -/
structure Directory where
  files : List (Place × Bytes)
  deriving DecidableEq, Repr

namespace Directory

/-- The file at a place. -/
def file? (d : Directory) (p : Place) : Option Bytes := d.files.lookup p

/-- Whether a place is a directory: one to count names from, or one that holds a file. -/
def isDirectory (d : Directory) (p : Place) : Bool :=
  p.names.isEmpty || d.files.any fun f =>
    f.1.origin = p.origin && p.names.isPrefixOf f.1.names && p.names.length < f.1.names.length

/-- The place that a step leads to from another place, if it can be taken. -/
def step (d : Directory) (p : Place) (s : Path.Step) : Except FileError Place :=
  if d.isDirectory p then
    match s with
    | .down name =>
      if Path.nameMax < name.utf8ByteSize then .error .nameTooLong
      else if (d.file? (p.child name)).isSome || d.isDirectory (p.child name) then .ok (p.child name)
      else .error .notFound
    | .stay | .up => .ok (p.move s)
  else .error .notADirectory

/-- The place that some steps lead to, if they can be taken. -/
def walk (d : Directory) (p : Place) (steps : List Path.Step) : Except FileError Place :=
  steps.foldlM d.step p

/-- The bytes of the file at a path. -/
def read (d : Directory) (path : Path) : Except FileError Bytes :=
  match d.walk path.start path.steps with
  | .error e => .error e
  | .ok p =>
    if d.isDirectory p then .error .isADirectory
    else if path.trailingSlash then .error .notADirectory
    else
      match d.file? p with
      | some bytes => .ok bytes
      | none => .error .notFound

/-- The directory with a file put in or replaced. -/
def put (d : Directory) (p : Place) (bytes : Bytes) : Directory :=
  ⟨(p, bytes) :: d.files.filter (·.1 ≠ p)⟩

/-- Why no file can be created in a directory by a name, if none can. -/
def refusal? (d : Directory) (p : Place) (name : String) (trailingSlash : Bool) : Option FileError :=
  if !d.isDirectory p then some .notADirectory
  else if trailingSlash then some .isADirectory
  else if Path.nameMax < name.utf8ByteSize then some .nameTooLong
  else if d.isDirectory (p.child name) then some .isADirectory
  else none

/-- Creates the file at a path, or replaces what it holds. A path whose last step is not a name leads to a
directory or nowhere. -/
def write (d : Directory) (path : Path) (bytes : Bytes) : Except FileError Directory :=
  match path.steps.getLast? with
  | some (.down name) =>
    match d.walk path.start path.steps.dropLast with
    | .error e => .error e
    | .ok p =>
      match d.refusal? p name path.trailingSlash with
      | some e => .error e
      | none => .ok (d.put (p.child name) bytes)
  | _ =>
    match d.walk path.start path.steps with
    | .error e => .error e
    | .ok _ => .error .isADirectory

/-- A step that can be taken leads where it says. -/
theorem eq_move_of_step {d : Directory} {p q : Place} {s : Path.Step} (h : d.step p s = .ok q) :
    q = p.move s := by
  unfold step at h
  repeat' split at h
  all_goals simp_all [Place.move]

/-- Steps that can be taken lead where they say. -/
theorem eq_foldl_of_walk {d : Directory} {steps : List Path.Step} {p q : Place}
    (h : d.walk p steps = .ok q) : q = steps.foldl Place.move p := by
  induction steps generalizing p with
  | nil => exact (Except.ok.inj h).symm
  | cons s rest ih =>
    simp only [walk, List.foldlM_cons] at h
    cases hs : d.step p s with
    | error e => rw [hs] at h; cases h
    | ok next =>
      rw [hs] at h
      rw [List.foldl_cons, ← eq_move_of_step hs]
      exact ih h

/-- A path that can be walked to its end leads to its place. -/
theorem eq_place_of_walk {d : Directory} {path : Path} {q : Place}
    (h : d.walk path.start path.steps = .ok q) : q = path.place := eq_foldl_of_walk h

@[simp] theorem file?_put (d : Directory) (p : Place) (bytes : Bytes) :
    (d.put p bytes).file? p = some bytes := by
  simp [file?, put]

theorem file?_put_of_ne (d : Directory) {p other : Place} (h : other ≠ p) (bytes : Bytes) :
    (d.put p bytes).file? other = d.file? other := by
  have hne : (other == p) = false := by simpa using h
  simp only [file?, put, List.lookup_cons, hne]
  induction d.files with
  | nil => rfl
  | cons f rest ih =>
    obtain ⟨key, value⟩ := f
    by_cases hk : key = p
    · subst hk
      simpa [List.lookup_cons, hne] using ih
    · rw [List.filter_cons_of_pos (by simpa using hk), List.lookup_cons, List.lookup_cons, ih]

/-- The place of a path whose last step is a name. -/
theorem place_of_getLast? {path : Path} {name : String}
    (h : path.steps.getLast? = some (.down name)) :
    path.place = (path.steps.dropLast.foldl Place.move path.start).child name := by
  obtain ⟨front, hfront⟩ := List.getLast?_eq_some_iff.1 h
  rw [Path.place, hfront, List.foldl_append, List.dropLast_concat]
  rfl

/-- What a successful write is. -/
theorem eq_put_of_write {d d' : Directory} {path : Path} {bytes : Bytes}
    (h : d.write path bytes = .ok d') : d' = d.put path.place bytes := by
  unfold write at h
  split at h
  case h_1 name hlast =>
    split at h
    case h_1 => cases h
    case h_2 p hwalk =>
      split at h
      case h_1 => cases h
      case h_2 =>
        rw [place_of_getLast? hlast, ← eq_foldl_of_walk hwalk]
        exact (Except.ok.inj h).symm
  case h_2 => split at h <;> cases h

/-- A file that was written holds the bytes that were written. -/
theorem file?_write {d d' : Directory} {path : Path} {bytes : Bytes}
    (h : d.write path bytes = .ok d') : d'.file? path.place = some bytes := by
  rw [eq_put_of_write h, file?_put]

/-- Writing changes no other file. -/
theorem file?_write_of_ne {d d' : Directory} {path : Path} {bytes : Bytes} {other : Place}
    (h : d.write path bytes = .ok d') (hne : other ≠ path.place) : d'.file? other = d.file? other := by
  rw [eq_put_of_write h, file?_put_of_ne d hne]

/-- A file that is put in takes no directory away. -/
theorem isDirectory_put {d : Directory} {q : Place} (h : d.isDirectory q = true) (p : Place)
    (bytes : Bytes) : (d.put p bytes).isDirectory q = true := by
  unfold isDirectory at h ⊢
  rw [Bool.or_eq_true, List.any_eq_true] at h ⊢
  rcases h with hstart | ⟨f, hf, hbelow⟩
  · exact .inl hstart
  · refine .inr ?_
    by_cases hp : f.1 = p
    · subst hp
      exact ⟨(f.1, bytes), List.mem_cons_self, hbelow⟩
    · have hkept : f ∈ d.files.filter (·.1 ≠ p) := List.mem_filter.2 ⟨hf, by simpa using hp⟩
      exact ⟨f, List.mem_cons_of_mem _ hkept, hbelow⟩

theorem isSome_file?_put {d : Directory} {q : Place} (h : (d.file? q).isSome = true) (p : Place)
    (bytes : Bytes) : ((d.put p bytes).file? q).isSome = true := by
  by_cases hp : q = p
  · subst hp
    rw [file?_put]
    rfl
  · rwa [file?_put_of_ne d hp]

/-- The place of a file that is put in does not become a directory. -/
theorem not_isDirectory_put {d : Directory} {p : Place} {name : String}
    (h : d.isDirectory (p.child name) = false) (bytes : Bytes) :
    (d.put (p.child name) bytes).isDirectory (p.child name) = false := by
  unfold isDirectory at h ⊢
  rw [Bool.or_eq_false_iff, List.any_eq_false] at h ⊢
  refine ⟨h.1, ?_⟩
  intro f hf
  rcases List.mem_cons.1 hf with rfl | hold
  · simp
  · exact h.2 f (List.mem_filter.1 hold).1

/-- A step that can be taken can be taken with one more file. -/
theorem step_put {d : Directory} {q r : Place} {s : Path.Step} (h : d.step q s = .ok r) (p : Place)
    (bytes : Bytes) : (d.put p bytes).step q s = .ok r := by
  unfold step at h ⊢
  split at h
  case isFalse => cases h
  case isTrue hdirectory =>
    rw [if_pos (isDirectory_put hdirectory p bytes)]
    cases s with
    | stay | up => exact h
    | down name =>
      simp only at h ⊢
      split at h
      case isTrue => cases h
      case isFalse hname =>
        split at h
        case isFalse => cases h
        case isTrue hthere =>
          rw [if_neg hname, if_pos ?_]
          · exact h
          · rw [Bool.or_eq_true] at hthere ⊢
            exact hthere.imp (isSome_file?_put · p bytes) (isDirectory_put · p bytes)

theorem walk_put {d : Directory} {steps : List Path.Step} {q r : Place} (h : d.walk q steps = .ok r)
    (p : Place) (bytes : Bytes) : (d.put p bytes).walk q steps = .ok r := by
  induction steps generalizing q with
  | nil => exact h
  | cons s rest ih =>
    simp only [walk, List.foldlM_cons] at h ⊢
    cases hs : d.step q s with
    | error e =>
      rw [hs] at h
      cases h
    | ok next =>
      rw [hs] at h
      rw [step_put hs p bytes]
      exact ih h

theorem walk_append (d : Directory) (q : Place) (steps steps' : List Path.Step) :
    d.walk q (steps ++ steps') = (d.walk q steps).bind (d.walk · steps') := List.foldlM_append

/-- The step to a file of a directory can be taken. -/
theorem step_down {d : Directory} {p : Place} {name : String} {bytes : Bytes}
    (hdirectory : d.isDirectory p = true) (hname : ¬ Path.nameMax < name.utf8ByteSize)
    (hfile : d.file? (p.child name) = some bytes) : d.step p (.down name) = .ok (p.child name) := by
  unfold step
  rw [if_pos hdirectory]
  simp only [if_neg hname, hfile, Option.isSome_some, Bool.true_or, if_true]

/-- Where a file can be created there is a directory for it, and none in its place. -/
theorem of_refusal?_eq_none {d : Directory} {p : Place} {name : String} {trailingSlash : Bool}
    (h : d.refusal? p name trailingSlash = none) :
    d.isDirectory p = true ∧ trailingSlash = false ∧ ¬ Path.nameMax < name.utf8ByteSize ∧
      d.isDirectory (p.child name) = false := by
  unfold refusal? at h
  repeat' split at h
  all_goals simp_all

/-- A path that was written to is read as what was written. -/
theorem read_of_write {d d' : Directory} {path : Path} {bytes : Bytes}
    (h : d.write path bytes = .ok d') : d'.read path = .ok bytes := by
  unfold write at h
  split at h
  case h_2 => split at h <;> cases h
  case h_1 name hlast =>
    split at h
    case h_1 => cases h
    case h_2 p hwalk =>
      split at h
      case h_1 => cases h
      case h_2 hnone =>
        cases h
        obtain ⟨hdirectory, hslash, hname, hfree⟩ := of_refusal?_eq_none hnone
        -- The way to the file is still open, and its last step now leads to a file.
        have hfile : (d.put (p.child name) bytes).file? (p.child name) = some bytes := file?_put ..
        have hstep : (d.put (p.child name) bytes).step p (.down name) = .ok (p.child name) :=
          step_down (isDirectory_put hdirectory _ _) hname hfile
        have hsteps : path.steps = path.steps.dropLast ++ [.down name] := by
          obtain ⟨front, hfront⟩ := List.getLast?_eq_some_iff.1 hlast
          rw [hfront, List.dropLast_concat]
        have hwhole : (d.put (p.child name) bytes).walk path.start path.steps = .ok (p.child name) := by
          rw [hsteps, walk_append, walk_put hwalk]
          show (d.put (p.child name) bytes).walk p [.down name] = _
          rw [walk, List.foldlM_cons, hstep]
          rfl
        simp only [read, hwhole, not_isDirectory_put hfree, hslash, hfile]
        rfl

end Directory
end MessagePack
