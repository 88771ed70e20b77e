import MessagePack.Command.Inspect
/-
  The listing of an inspection, read back from its text. A line of a token has its offset, its marker and its
  value in columns with spaces between them. So the tokens of each family can be counted in the listing, and the
  sizes of the blobs summed up, by looking at the lines alone; the rows of a dump and the summary are told apart
  from the lines of tokens by their first column.

  What is proved:
    1. `lineFamily?_tokenLine`, `lineSize_tokenLine`: the line of a token gives its family back, and the size of
       its blob.
    2. `lineFamily?_of_dump`, `lineFamily?_of_summary`: no other line gives a family.
    3. `familyLines_listing`: the lines of a family in the whole listing are those of its tokens.
-/
namespace MessagePack
namespace Inspect

/-! ## Columns -/

/-- The text in front of the first space. -/
def firstColumn (line : List Char) : List Char := line.takeWhile (· ≠ ' ')

/-- The text behind the first column and the spaces that follow it. -/
def behindColumn (line : List Char) : List Char := (line.dropWhile (· ≠ ' ')).dropWhile (· = ' ')

variable {column rest : List Char}

/-- A column ends where the line ends, or at a space. -/
theorem firstColumn_append (h : ∀ c ∈ column, c ≠ ' ') (hrest : ∀ c, rest.head? = some c → c = ' ') :
    firstColumn (column ++ rest) = column := by
  have hall : ∀ c ∈ column, decide (c ≠ ' ') = true := fun c hc => decide_eq_true (h c hc)
  have hstop : rest.takeWhile (· ≠ ' ') = [] := by
    cases rest with
    | nil => rfl
    | cons c rest =>
      obtain rfl := hrest c rfl
      rfl
  rw [firstColumn, List.takeWhile_append_of_pos hall, hstop, List.append_nil]

theorem firstColumn_append_space (h : ∀ c ∈ column, c ≠ ' ') :
    firstColumn (column ++ ' ' :: rest) = column := by
  apply firstColumn_append h
  intro c hc
  exact (Option.some.inj hc).symm

theorem behindColumn_append (h : ∀ c ∈ column, c ≠ ' ') :
    behindColumn (column ++ ' ' :: rest) = rest.dropWhile (· = ' ') := by
  have hall : ∀ c ∈ column, decide (c ≠ ' ') = true := fun c hc => decide_eq_true (h c hc)
  rw [behindColumn, List.dropWhile_append_of_pos hall]
  rfl

theorem dropWhile_spaces (n : Nat) (line : List Char) :
    (List.replicate n ' ' ++ line).dropWhile (· = ' ') = line.dropWhile (· = ' ') := by
  apply List.dropWhile_append_of_pos
  intro c hc
  rw [List.eq_of_mem_replicate hc]
  rfl

theorem dropWhile_of_ne {c : Char} (h : c ≠ ' ') : (c :: rest).dropWhile (· = ' ') = c :: rest :=
  List.dropWhile_cons_of_neg (by simpa using h)

/-- The names of the markers, with their families. -/
def namedFamilies : List (String × Family) :=
  [("nil", .nil), ("false", .bool), ("true", .bool), ("fixint", .int), ("negfixint", .int),
    ("uint8", .int), ("uint16", .int), ("uint32", .int), ("uint64", .int), ("int8", .int),
    ("int16", .int), ("int32", .int), ("int64", .int), ("float32", .float), ("float64", .float),
    ("bin8", .bin), ("bin16", .bin), ("bin32", .bin)]

/-- The family of the marker in the line of a token; none for another line. -/
def lineFamily? (line : String) : Option Family :=
  if (firstColumn line.toList).take 2 = ['0', 'x'] then
    namedFamilies.lookup (String.ofList (firstColumn (behindColumn line.toList)))
  else none

/-- The number in the last column of the line of a token. -/
def lineSize (line : String) : Nat :=
  Nat.ofDigitChars 10 (firstColumn (behindColumn (behindColumn line.toList))) 0

/-! ## The line of a token -/

theorem ne_space_of_mem_toDigits {b n : Nat} (hb : 1 < b) {c : Char} (hc : c ∈ Nat.toDigits b n) :
    c ≠ ' ' := by
  induction n using Nat.base_induction b hb with
  | single d hd =>
    rw [Nat.toDigits_of_lt_base hd, List.mem_singleton] at hc
    rw [hc]
    exact Nat.digitChar_ne ' ' rfl
  | digit d m hd hm ih =>
    rw [← Nat.toDigits_append_toDigits hb hm hd, Nat.toDigits_of_lt_base hd, List.mem_append,
      List.mem_singleton] at hc
    obtain hc | hc := hc
    · exact ih hc
    · rw [hc]
      exact Nat.digitChar_ne ' ' rfl

theorem ne_space_of_mem_number {width n : Nat} {c : Char} (hc : c ∈ Hex.number width n) : c ≠ ' ' := by
  rw [Hex.number, List.leftpad, List.mem_append] at hc
  obtain hc | hc := hc
  · rw [List.eq_of_mem_replicate hc]
    decide
  · exact ne_space_of_mem_toDigits (by decide) hc

/-- The first column of the line of a token. -/
def offsetColumn (t : Token) : List Char := '0' :: 'x' :: Hex.number 6 t.offset

theorem ne_space_of_mem_offsetColumn {t : Token} {c : Char} (hc : c ∈ offsetColumn t) : c ≠ ' ' := by
  obtain rfl | hc := List.mem_cons.1 hc
  · decide
  · obtain rfl | hc := List.mem_cons.1 hc
    · decide
    · exact ne_space_of_mem_number hc

theorem mem_namedFamilies (m : Marker) : (m.name, m.family) ∈ namedFamilies := by
  cases m with
  | uint w | sint w => cases w <;> decide
  | fixint v =>
    show ("fixint", Family.int) ∈ namedFamilies
    decide
  | negFixint v =>
    show ("negfixint", Family.int) ∈ namedFamilies
    decide
  | nil | «false» | «true» | float32 | float64 | bin8 | bin16 | bin32 => decide

theorem ne_space_of_mem_name {m : Marker} {c : Char} (hc : c ∈ m.name.toList) : c ≠ ' ' := by
  have hall : namedFamilies.all (fun row => row.1.toList.all (· ≠ ' ')) = true := by decide
  have hname := List.all_eq_true.1 hall _ (mem_namedFamilies m)
  exact of_decide_eq_true (List.all_eq_true.1 hname c hc)

theorem lookup_name (m : Marker) : namedFamilies.lookup m.name = some m.family := by
  have hall : ∀ row ∈ namedFamilies, namedFamilies.lookup row.1 = some row.2 := by decide
  exact hall _ (mem_namedFamilies m)

theorem dropWhile_name (m : Marker) (rest : List Char) :
    (m.name.toList ++ rest).dropWhile (· = ' ') = m.name.toList ++ rest := by
  cases hname : m.name.toList with
  | nil =>
    have hall : ∀ row ∈ namedFamilies, row.1.toList ≠ [] := by decide
    exact absurd hname (hall _ (mem_namedFamilies m))
  | cons c cs =>
    have hc : c ≠ ' ' := ne_space_of_mem_name (m := m) (by rw [hname]; exact List.mem_cons_self)
    exact dropWhile_of_ne hc

theorem toList_showOffset (t : Token) : (showOffset t.offset).toList = offsetColumn t :=
  String.toList_ofList

theorem replicate_append_spaces (n : Nat) (text : List Char) :
    List.replicate n ' ' ++ ' ' :: ' ' :: text = ' ' :: (List.replicate (n + 1) ' ' ++ text) := by
  rw [List.replicate_succ', List.append_assoc, ← List.cons_append, ← List.replicate_succ,
    List.replicate_succ', List.append_assoc]
  rfl

theorem toList_tokenLine_of_some {t : Token} {v : String} (h : showValue t.value = some v) :
    ∃ n, (tokenLine t).toList = offsetColumn t ++ ' ' :: ' ' ::
      (t.marker.name.toList ++ ' ' :: (List.replicate n ' ' ++ v.toList)) := by
  refine ⟨markerWidth - t.marker.name.toList.length + 1, ?_⟩
  rw [← replicate_append_spaces]
  simp only [tokenLine, h, String.toList_append, ToString.toString, toList_showOffset]
  simp [List.rightpad]

/-- The first two columns of the line of a token. -/
theorem toList_tokenLine (t : Token) :
    ∃ rest, (tokenLine t).toList = offsetColumn t ++ ' ' :: ' ' :: (t.marker.name.toList ++ rest) ∧
      ∀ c, rest.head? = some c → c = ' ' := by
  cases h : showValue t.value with
  | none =>
    refine ⟨[], ?_, by simp⟩
    simp only [tokenLine, h, String.toList_append, ToString.toString, toList_showOffset]
    simp
  | some v =>
    obtain ⟨n, hline⟩ := toList_tokenLine_of_some h
    refine ⟨_, hline, ?_⟩
    intro c hc
    exact (Option.some.inj hc).symm

theorem behindColumn_tokenLine {t : Token} {rest : List Char}
    (h : (tokenLine t).toList = offsetColumn t ++ ' ' :: ' ' :: (t.marker.name.toList ++ rest)) :
    behindColumn (tokenLine t).toList = t.marker.name.toList ++ rest := by
  rw [h, behindColumn_append fun _ => ne_space_of_mem_offsetColumn]
  exact dropWhile_name t.marker rest

/-- The line of a token says of which family its marker is. -/
theorem lineFamily?_tokenLine (t : Token) : lineFamily? (tokenLine t) = some t.marker.family := by
  obtain ⟨rest, hline, hrest⟩ := toList_tokenLine t
  have hfirst : firstColumn (tokenLine t).toList = offsetColumn t := by
    rw [hline]
    exact firstColumn_append_space fun _ => ne_space_of_mem_offsetColumn
  have hsecond : firstColumn (behindColumn (tokenLine t).toList) = t.marker.name.toList := by
    rw [behindColumn_tokenLine hline]
    exact firstColumn_append (fun _ => ne_space_of_mem_name) hrest
  rw [lineFamily?, hfirst, hsecond, String.ofList_toList, lookup_name]
  rfl

/-- The line of a blob says how many bytes it has. -/
theorem lineSize_tokenLine {t : Token} {data : Bytes} (h : t.value = .bin data) :
    lineSize (tokenLine t) = data.length := by
  have hshown : showValue t.value = some s!"{data.length} bytes" := by rw [h]; rfl
  have hvalue : s!"{data.length} bytes".toList
      = Nat.toDigits 10 data.length ++ [' ', 'b', 'y', 't', 'e', 's'] := by
    simp [String.toList_append, ToString.toString]
  obtain ⟨n, hline⟩ := toList_tokenLine_of_some hshown
  have hdigits : ∀ c ∈ Nat.toDigits 10 data.length, c ≠ ' ' :=
    fun _ => ne_space_of_mem_toDigits (by decide)
  have hstart : (Nat.toDigits 10 data.length ++ [' ', 'b', 'y', 't', 'e', 's']).dropWhile (· = ' ')
      = Nat.toDigits 10 data.length ++ [' ', 'b', 'y', 't', 'e', 's'] := by
    cases hcons : Nat.toDigits 10 data.length with
    | nil => exact absurd hcons Nat.toDigits_ne_nil
    | cons c cs => exact dropWhile_of_ne (hdigits c (by rw [hcons]; exact List.mem_cons_self))
  rw [lineSize, behindColumn_tokenLine hline, behindColumn_append fun _ => ne_space_of_mem_name,
    dropWhile_spaces, hvalue, hstart, firstColumn_append_space hdigits]
  exact Nat.ofDigitChars_ten_toDigits

/-! ## Other lines -/

theorem lineFamily?_of_first {line : String}
    (h : (firstColumn line.toList).take 2 ≠ ['0', 'x']) : lineFamily? line = none := if_neg h

/-- A row of a dump starts with spaces. -/
theorem lineFamily?_of_dump {data : Bytes} {line : String}
    (h : line ∈ (HexDump.rows data).map String.ofList) : lineFamily? line = none := by
  obtain ⟨text, htext, rfl⟩ := List.mem_map.1 h
  obtain ⟨⟨bytes, i⟩, _, rfl⟩ := List.mem_map.1 htext
  apply lineFamily?_of_first
  rw [String.toList_ofList]
  exact List.cons_ne_nil _ _ ∘ Eq.symm

/-- The summary starts with dashes, and its last line with a number. -/
theorem lineFamily?_of_summary {tokens messages bytes capacity : Nat} {line : String}
    (h : line ∈ summary tokens messages bytes capacity) : lineFamily? line = none := by
  obtain rfl | hline := List.mem_cons.1 h
  · apply lineFamily?_of_first
    decide
  · rw [List.mem_singleton] at hline
    have hfirst : ∃ rest, line.toList = Nat.toDigits 10 tokens ++ ' ' :: rest := by
      rw [hline]
      simp [String.toList_append, ToString.toString]
    obtain ⟨rest, hrest⟩ := hfirst
    have hdigits : ∀ c ∈ Nat.toDigits 10 tokens, c ≠ ' ' :=
      fun _ => ne_space_of_mem_toDigits (by decide)
    apply lineFamily?_of_first
    rw [hrest, firstColumn_append_space hdigits]
    intro htake
    have hx : 'x' ∈ Nat.toDigits 10 tokens := by
      apply List.mem_of_mem_take (i := 2)
      rw [htake]
      decide
    exact absurd (Nat.isDigit_of_mem_toDigits (by decide) (by decide) hx) (by decide)

/-! ## The whole listing -/

/-- The lines of a listing that are the line of a token of this family. -/
def familyLines (f : Family) (lines : List String) : List String :=
  lines.filter fun line => lineFamily? line = some f

theorem familyLines_append (f : Family) (first second : List String) :
    familyLines f (first ++ second) = familyLines f first ++ familyLines f second := List.filter_append ..

theorem familyLines_eq_nil {f : Family} {lines : List String}
    (h : ∀ line ∈ lines, lineFamily? line = none) : familyLines f lines = [] := by
  apply List.filter_eq_nil_iff.2
  intro line hline
  simp [h line hline]

theorem familyLines_tokenLines (f : Family) (showHex : Bool) (t : Token) :
    familyLines f (tokenLines showHex t) = if t.marker.family = f then [tokenLine t] else [] := by
  have hone : familyLines f [tokenLine t] = if t.marker.family = f then [tokenLine t] else [] := by
    simp [familyLines, List.filter_cons, lineFamily?_tokenLine]
  unfold tokenLines
  split
  · next data _ =>
    split
    · rw [← List.singleton_append, familyLines_append, hone,
        familyLines_eq_nil fun _ => lineFamily?_of_dump, List.append_nil]
    · exact hone
  · exact hone

/-- The lines of a family are the lines of its tokens, in order, with or without dumps. -/
theorem familyLines_listing (f : Family) (showHex : Bool) (tokens : List Token) :
    familyLines f (tokens.flatMap (tokenLines showHex))
      = (tokens.filter fun t => t.marker.family = f).map tokenLine := by
  induction tokens with
  | nil => rfl
  | cons t tokens ih =>
    rw [List.flatMap_cons, familyLines_append, familyLines_tokenLines, ih, List.filter_cons]
    by_cases hf : t.marker.family = f
    · simp only [hf, if_true, decide_true]
      rfl
    · simp only [hf, if_false, decide_false]
      rfl

theorem familyLines_summary (f : Family) (tokens messages bytes capacity : Nat) :
    familyLines f (summary tokens messages bytes capacity) = [] :=
  familyLines_eq_nil fun _ => lineFamily?_of_summary

end Inspect
end MessagePack
