import MessagePack.Proofs.FloatText
import MessagePack.Proofs.Listing
import MessagePack.Transcript
/-
  The lines of a listing and of a transcript, read back by their wordings. A wording of a line has the name of the
  marker and the text of a float in it; all other numbers are read from their digits: offsets, integers, sizes,
  counts, cursors, and the bytes that were fed or are in a blob. No line has a line feed inside, so that the text
  of a transcript falls into its lines.

  What is proved:
    1. `Inspect.read?_tokenLine`: the line of a token says its offset and its value.
    2. `Transcript.Line.read?_text`: the line of a transcript says what was fed, or read, or left over.
    3. `Transcript.readAll?_trace`: the text of a transcript says what its lines say.
    4. `Transcript.Breakdown.read?_message`: where it breaks off, it says for which error.
-/
namespace MessagePack

/-! ## Lists of numbers -/

/-- A piece without a character in its text. -/
def Piece.Avoids (c : Char) : Piece → Prop
  | text s => c ∉ s.toList
  | number _ => True

instance (c : Char) (p : Piece) : Decidable (p.Avoids c) :=
  match p with
  | .text s => inferInstanceAs (Decidable (c ∉ s.toList))
  | .number _ => instDecidableTrue

namespace Wording

/-- As many numbers, with a text between one and the next. -/
def listed (base : Nat) (between : String) : Nat → Wording
  | 0 => []
  | 1 => [.number base]
  | count + 2 => .number base :: .text between :: listed base between (count + 1)

section
variable (base : Nat) (between : String) {pieces : Wording}

theorem separated_listed (hbetween : stops base [.text between]) (hstops : stops base pieces)
    (hpieces : separated pieces) (count : Nat) : separated (listed base between count ++ pieces) := by
  fun_induction listed base between count with
  | case1 => exact hpieces
  | case2 => exact Bool.and_eq_true_iff.2 ⟨hstops, hpieces⟩
  | case3 count ih => exact Bool.and_eq_true_iff.2 ⟨hbetween, ih⟩

theorem Shows.listed {α : Type} {digits : α → List Char} {number : α → Nat}
    (hspells : ∀ a, Spells base (digits a) (number a)) {line : String} {numbers : List Nat}
    (h : Shows pieces line numbers) (list : List α) :
    Shows (Wording.listed base between list.length ++ pieces)
      (String.ofList (between.toList.intercalate (list.map digits)) ++ line) (list.map number ++ numbers) := by
  induction list with
  | nil =>
    rw [List.map_nil, List.intercalate_nil]
    exact (String.empty_append).symm ▸ h
  | cons a list ih =>
    cases list with
    | nil =>
      rw [List.map_singleton, List.intercalate_singleton]
      exact .number (hspells a) h
    | cons b list =>
      have hline : String.ofList (between.toList.intercalate ((a :: b :: list).map digits)) ++ line
          = String.ofList (digits a) ++
            (between ++ (String.ofList (between.toList.intercalate ((b :: list).map digits)) ++ line)) := by
        rw [List.map_cons, List.map_cons, List.intercalate_cons_cons, ← List.map_cons, String.ofList_append,
          String.ofList_append, String.ofList_toList, String.append_assoc, String.append_assoc]
      rw [hline]
      exact .number (hspells a) (.text between ih)

end

/-- A character that is in no text of a wording and is no digit is not in the line. -/
theorem Shows.not_mem {c : Char} (hdigit : ∀ base, Digits.value? base c = none) {pieces : Wording} {line : String}
    {numbers : List Nat} (h : Shows pieces line numbers) (havoids : ∀ p ∈ pieces, p.Avoids c) : c ∉ line.toList := by
  induction h with
  | nil => simp
  | text s h ih =>
    obtain ⟨htext, hpieces⟩ := List.forall_mem_cons.1 havoids
    rw [String.toList_append, List.mem_append, not_or]
    exact ⟨htext, ih hpieces⟩
  | @number base digits n hn pieces line numbers h ih =>
    obtain ⟨_, hpieces⟩ := List.forall_mem_cons.1 havoids
    rw [String.toList_append, String.toList_ofList, List.mem_append, not_or]
    refine ⟨?_, ih hpieces⟩
    intro hc
    have hsome := hn.digits c hc
    rw [hdigit] at hsome
    cases hsome

theorem avoids_listed (base : Nat) {between : String} {c : Char} (h : c ∉ between.toList) (count : Nat) :
    ∀ p ∈ listed base between count, p.Avoids c := by
  fun_induction listed base between count with
  | case1 => exact List.forall_mem_nil _
  | case2 => exact List.forall_mem_singleton.2 trivial
  | case3 count ih => exact List.forall_mem_cons.2 ⟨trivial, List.forall_mem_cons.2 ⟨h, ih⟩⟩

end Wording

theorem intercalate_map {α : Type} (between : String) (shown : α → String) (list : List α) :
    between.intercalate (list.map shown)
      = String.ofList (between.toList.intercalate (list.map fun a => (shown a).toList)) := by
  rw [← String.toList_inj, String.toList_intercalate, List.map_map]
  exact String.toList_ofList.symm

theorem spells_toNat (b : UInt8) : Spells 10 (toString b.toNat).toList b.toNat := by
  have htext : (toString b.toNat).toList = Nat.toDigits 10 b.toNat := String.toList_ofList
  rw [htext]
  exact spells_decimal b.toNat

/-- The sign of an integer. -/
def Piece.sign (v : Int) : Piece := .text (if v < 0 then "-" else "")

theorem Wording.Shows.int (v : Int) {pieces : Wording} {line : String} {numbers : List Nat}
    (h : Shows pieces line numbers) :
    Shows (Piece.sign v :: .number 10 :: pieces) (toString v ++ line) (v.natAbs :: numbers) := by
  have htext : toString v = (if v < 0 then "-" else "") ++ v.natAbs.repr := by
    cases v with
    | ofNat n =>
      have hpos : ¬ Int.ofNat n < 0 := Int.not_lt.2 (Int.natCast_nonneg n)
      rw [if_neg hpos, String.empty_append]
      rfl
    | negSucc n =>
      rw [if_pos (Int.negSucc_lt_zero n)]
      rfl
  rw [htext, String.append_assoc]
  exact .text _ (.decimal _ h)

/-! ## The line of a token -/

namespace Inspect

/-- What a listing has in its last column. -/
def valueWording : Value Bytes → Wording
  | .nil => []
  | .bool b => [.text (if b then "true" else "false")]
  | .int v => [.sign v, .number 10]
  | .float x => [.text (floats.write x)]
  | .bin _ => [.number 10, .text " bytes"]

def valueNumbers : Value Bytes → List Nat
  | .int v => [v.natAbs]
  | .bin data => [data.length]
  | .nil | .bool _ | .float _ => []

/-- The rest of the column of a marker, behind its name. -/
def fill (m : Marker) : String := String.ofList (List.replicate (markerWidth - m.name.toList.length) ' ')

/-- What is behind the name of a marker: nothing, or the rest of its column and a value. -/
def columnWording (m : Marker) : Value Bytes → Wording
  | .nil => []
  | v => .text (fill m) :: .text "  " :: valueWording v

def tokenWording (t : Token) : Wording :=
  .text "0x" :: .number 16 :: .text "  " :: .text t.marker.name :: columnWording t.marker t.value

theorem shows_value {v : Value Bytes} {text : String} (h : showValue v = some text) :
    (valueWording v).Shows text (valueNumbers v) := by
  cases v with
  | nil => cases h
  | bool b =>
    cases h
    cases b with
    | true => exact .last _
    | false => exact .last _
  | int v =>
    cases h
    have hshows := Wording.Shows.int v .nil
    rwa [String.append_empty] at hshows
  | float x =>
    cases h
    exact .last _
  | bin data =>
    cases h
    simp only [ToString.toString]
    exact .decimal _ (.last _)

theorem shows_column (m : Marker) {v : Value Bytes} {text : String} (h : showValue v = some text) :
    (columnWording m v).Shows (fill m ++ ("  " ++ text)) (valueNumbers v) := by
  have hshows := Wording.Shows.text (fill m) (Wording.Shows.text "  " (shows_value h))
  cases v with
  | nil => cases h
  | bool _ | int _ | float _ | bin _ => exact hshows

theorem separated_tokenWording (t : Token) : (tokenWording t).separated := by
  unfold tokenWording
  cases t.value with
  | nil | bool _ | int _ | float _ | bin _ => rfl

theorem tokenLine_of_none {t : Token} (h : showValue t.value = none) :
    tokenLine t = showOffset t.offset ++ ("  " ++ t.marker.name) := by
  rw [tokenLine, h]
  simp only [ToString.toString, String.append_assoc]

theorem tokenLine_of_some {t : Token} {text : String} (h : showValue t.value = some text) :
    tokenLine t = showOffset t.offset ++ ("  " ++ (t.marker.name ++ (fill t.marker ++ ("  " ++ text)))) := by
  rw [tokenLine, h, fill]
  simp only [ToString.toString, List.rightpad, String.ofList_append, String.ofList_toList, String.append_assoc]

theorem shows_tokenLine (t : Token) : (tokenWording t).Shows (tokenLine t) (t.offset :: valueNumbers t.value) := by
  have hoffset {pieces : Wording} {line : String} {numbers : List Nat} (h : pieces.Shows line numbers) :
      Wording.Shows (.text "0x" :: .number 16 :: pieces) (showOffset t.offset ++ line) (t.offset :: numbers) := by
    rw [showOffset_eq, String.append_assoc]
    exact .text _ (.number (spells_number 6 t.offset) h)
  unfold tokenWording
  cases hvalue : showValue t.value with
  | none =>
    rw [tokenLine_of_none hvalue]
    have hnil : t.value = .nil := by
      cases hv : t.value with
      | nil => rfl
      | bool _ | int _ | float _ | bin _ =>
        rw [hv] at hvalue
        cases hvalue
    rw [hnil]
    exact hoffset (.text _ (.last _))
  | some text =>
    rw [tokenLine_of_some hvalue]
    exact hoffset (.text _ (.text _ (shows_column t.marker hvalue)))

/-- The line of a token says its offset and its value. -/
theorem read?_tokenLine (t : Token) :
    (tokenWording t).read? (tokenLine t) = some (t.offset :: valueNumbers t.value) :=
  Wording.read?_of_shows (separated_tokenWording t) (shows_tokenLine t)

end Inspect

/-! ## The lines of a transcript -/

namespace Transcript

def valueWording : Value Bytes → Wording
  | .nil => [.text "Nil"]
  | .bool b => [.text (if b then "Bool(true)" else "Bool(false)")]
  | .int v => [.text "Int(", .sign v, .number 10, .text ")"]
  | .float x => [.text "Float(", .text (floats.write x), .text ")"]
  | .bin data => .text "Bin([" :: (Wording.listed 10 ", " data.length ++ [.text "])"])

def valueNumbers : Value Bytes → List Nat
  | .int v => [v.natAbs]
  | .bin data => data.map UInt8.toNat
  | .nil | .bool _ | .float _ => []

section
variable {pieces : Wording} {line : String} {rest : List Nat}

theorem separated_value (v : Value Bytes) (h : pieces.separated) : (valueWording v ++ pieces).separated := by
  cases v with
  | bin data =>
    rw [valueWording, List.cons_append, List.append_assoc]
    have hstops : Wording.stops 10 (.text "])" :: pieces) := rfl
    exact Wording.separated_listed 10 ", " rfl hstops h data.length
  | nil | bool _ | int _ | float _ => exact h

theorem shows_value (v : Value Bytes) (h : pieces.Shows line rest) :
    (valueWording v ++ pieces).Shows (showValue v ++ line) (valueNumbers v ++ rest) := by
  cases v with
  | nil => exact .text _ h
  | bool b =>
    cases b with
    | true => exact .text _ h
    | false => exact .text _ h
  | int v =>
    have hshows := Wording.Shows.text "Int(" (.int v (.text ")" h))
    have htext : showValue (.int v) ++ line = "Int(" ++ (toString v ++ (")" ++ line)) := by
      simp only [showValue, String.append_assoc]
      rfl
    rw [htext]
    exact hshows
  | float x =>
    have hshows := Wording.Shows.text "Float(" (.text (floats.write x) (.text ")" h))
    have htext : showValue (.float x) ++ line = "Float(" ++ (floats.write x ++ (")" ++ line)) := by
      simp only [showValue, ToString.toString, String.append_assoc]
    rw [htext]
    exact hshows
  | bin data =>
    have hshows := Wording.Shows.text "Bin([" (.listed 10 ", " spells_toNat (.text "])" h) data)
    rw [← intercalate_map] at hshows
    have htext : showValue (.bin data) ++ line
        = "Bin([" ++ (", ".intercalate (data.map fun b => toString b.toNat) ++ ("])" ++ line)) := by
      simp only [showValue, String.append_assoc]
      rfl
    rw [htext, valueWording, List.cons_append, List.append_assoc]
    exact hshows

end

/-- The bytes that were fed, behind everything else. -/
theorem shows_spaced (piece : Bytes) : (Wording.listed 16 " " piece.length).Shows
    (String.ofList (Hex.spaced piece)) (piece.map UInt8.toNat) := by
  have hshows := Wording.Shows.listed 16 " " spells_pair .nil piece
  rwa [List.append_nil, List.append_nil, String.append_empty] at hshows

theorem separated_spaced (piece : Bytes) : (Wording.listed 16 " " piece.length).separated := by
  have hseparated := Wording.separated_listed 16 " " rfl (rfl : Wording.stops 16 [] = true) rfl piece.length
  rwa [List.append_nil] at hseparated

namespace Line

/-- What a line says: that there was nothing to look at or which marker there was, and what became of it. -/
def wording : Line → Wording
  | fedBetween piece => .text "next -> need more data; feed " :: Wording.listed 16 " " piece.length
  | endedBetween => [.text "next -> need more data; input exhausted"]
  | took m v _ _ =>
    .text "next -> " :: .text m.name :: .text "; read -> " :: (valueWording v ++
      [.text " (", .number 10, .text " bytes, cursor ", .number 10, .text ")"])
  | fedInside m piece =>
    .text "next -> " :: .text m.name :: .text "; read -> need more data; feed " ::
      Wording.listed 16 " " piece.length
  | endedInside m _ =>
    [.text "next -> ", .text m.name, .text "; read -> need more data; input exhausted with ", .number 10,
      .text " bytes buffered"]

def numbers : Line → List Nat
  | fedBetween piece => piece.map UInt8.toNat
  | endedBetween => []
  | took _ v consumed cursor => valueNumbers v ++ [consumed, cursor]
  | fedInside _ piece => piece.map UInt8.toNat
  | endedInside _ buffered => [buffered]

theorem separated_wording (line : Line) : line.wording.separated := by
  cases line with
  | fedBetween piece | fedInside m piece => exact separated_spaced piece
  | endedBetween | endedInside => rfl
  | took m v consumed cursor => exact separated_value v rfl

theorem shows_text (line : Line) : line.wording.Shows line.text line.numbers := by
  delta text
  cases line with
  | fedBetween piece =>
    simp only [ToString.toString]
    exact .text _ (shows_spaced piece)
  | endedBetween => exact .last _
  | took m v consumed cursor =>
    simp only [ToString.toString, String.append_assoc]
    exact .text _ (.text _ (.text _ (shows_value v (.text _ (.decimal _ (.text _ (.decimal _ (.last _))))))))
  | fedInside m piece =>
    simp only [ToString.toString, String.append_assoc]
    exact .text _ (.text _ (.text _ (shows_spaced piece)))
  | endedInside m buffered =>
    simp only [ToString.toString, String.append_assoc]
    exact .text _ (.text _ (.text _ (.decimal _ (.last _))))

/-- A line says what was fed, or read, or left over. -/
theorem read?_text (line : Line) : line.wording.read? line.text = some line.numbers :=
  Wording.read?_of_shows line.separated_wording line.shows_text

/-! ## The text of a transcript -/

theorem newline_not_mem_name (m : Marker) : '\n' ∉ m.name.toList := by
  have hall : Inspect.namedFamilies.all (fun row => '\n' ∉ row.1.toList) = true := by decide
  exact of_decide_eq_true (List.all_eq_true.1 hall _ (Inspect.mem_namedFamilies m))

theorem newline_not_mem_write (layout : FloatLayout) (x : Binary64) : '\n' ∉ (layout.write x).toList :=
  fun h => absurd (layout.written_write x _ h) (by decide)

theorem avoids_value (v : Value Bytes) : ∀ p ∈ valueWording v, p.Avoids '\n' := by
  cases v with
  | nil => decide
  | bool b => cases b <;> decide
  | int v =>
    have hsign : (Piece.sign v).Avoids '\n' := by
      unfold Piece.sign
      split <;> decide
    exact List.forall_mem_cons.2 ⟨by decide, List.forall_mem_cons.2 ⟨hsign, by decide⟩⟩
  | float x =>
    have htext := newline_not_mem_write floats x
    exact List.forall_mem_cons.2 ⟨by decide, List.forall_mem_cons.2 ⟨htext, by decide⟩⟩
  | bin data =>
    have hlisted := Wording.avoids_listed 10 (by decide : '\n' ∉ ", ".toList) data.length
    exact List.forall_mem_cons.2 ⟨by decide, List.forall_mem_append.2 ⟨hlisted, by decide⟩⟩

theorem avoids_wording (line : Line) : ∀ p ∈ line.wording, p.Avoids '\n' := by
  have hnamed (m : Marker) {pieces : Wording} (h : ∀ p ∈ pieces, p.Avoids '\n') :
      ∀ p ∈ (.text "next -> " :: .text m.name :: pieces : List Piece), p.Avoids '\n' :=
    List.forall_mem_cons.2 ⟨by decide, List.forall_mem_cons.2 ⟨newline_not_mem_name m, h⟩⟩
  have hspaced (piece : Bytes) := Wording.avoids_listed 16 (by decide : '\n' ∉ " ".toList) piece.length
  cases line with
  | fedBetween piece => exact List.forall_mem_cons.2 ⟨by decide, hspaced piece⟩
  | endedBetween => decide
  | took m v _ _ =>
    exact hnamed m (List.forall_mem_cons.2 ⟨by decide, List.forall_mem_append.2 ⟨avoids_value v, by decide⟩⟩)
  | fedInside m piece => exact hnamed m (List.forall_mem_cons.2 ⟨by decide, hspaced piece⟩)
  | endedInside m _ => exact hnamed m (by decide)

/-- No line has a line feed inside. -/
theorem newline_not_mem_text (line : Line) : '\n' ∉ line.text.toList :=
  line.shows_text.not_mem (fun _ => rfl) line.avoids_wording

end Line

/-- The lines of a text that a line feed ends each. -/
def linesOf (text : String) : List String := (text.toList.splitOn '\n').dropLast.map String.ofList

theorem linesOf_cons {line : String} (h : '\n' ∉ line.toList) (rest : String) :
    linesOf (line ++ "\n" ++ rest) = line :: linesOf rest := by
  have hchars : (line ++ "\n" ++ rest).toList = line.toList ++ '\n' :: rest.toList := by
    rw [String.toList_append, String.toList_append, List.append_assoc]
    rfl
  rw [linesOf, hchars, List.splitOn_append_cons_self_of_not_mem h,
    List.dropLast_cons_of_ne_nil (List.splitOn_ne_nil _ _), List.map_cons, String.ofList_toList]
  rfl

theorem linesOf_text (lines : List Line) : linesOf (text lines) = lines.map Line.text := by
  induction lines with
  | nil => rfl
  | cons line lines ih =>
    have htext : text (line :: lines) = line.text ++ "\n" ++ text lines := by
      simp [text]
    rw [htext, linesOf_cons line.newline_not_mem_text, ih]
    rfl

/-- The text of a transcript says what its lines say. -/
theorem readAll?_text (lines : List Line) :
    Wording.readAll? (lines.map Line.wording) (linesOf (text lines)) = some (lines.map Line.numbers) := by
  rw [linesOf_text]
  induction lines with
  | nil => rfl
  | cons line lines ih => exact Wording.readAll?_cons line.separated_wording line.shows_text ih

/-- A transcript that does not break off has a text, which says what its lines say. -/
theorem readAll?_trace {bytes : Bytes} {length : Nat} {lines : List Line} (h : ofChunks bytes length = .ok lines) :
    ∃ told, trace bytes length = .ok told ∧
      Wording.readAll? (lines.map Line.wording) (linesOf told) = some (lines.map Line.numbers) :=
  ⟨text lines, by rw [trace, h]; rfl, readAll?_text lines⟩

/-- An integer, and what was left of a blob. -/
example : text [.took (.sint .w16) (.int (-200)) 3 3, .endedInside .bin8 2]
    = "next -> int16; read -> Int(-200) (3 bytes, cursor 3)\n"
      ++ "next -> bin8; read -> need more data; input exhausted with 2 bytes buffered\n" := by decide +kernel

end Transcript

/-! ## The end of a transcript that breaks off -/

namespace FormatError

def fieldsWording : FormatError → Wording
  | unexpectedEnd _ _ => [.text "UnexpectedEof \x7b needed: ", .number 10, .text ", available: ", .number 10,
      .text " \x7d"]
  | unknownMarker _ => [.text "UnknownMarker \x7b byte: ", .number 10, .text " \x7d"]
  | uint64Overflow _ => [.text "Uint64Overflow \x7b value: ", .number 10, .text " \x7d"]
  | lengthOverflow _ => [.text "LengthOverflow \x7b length: ", .number 10, .text " \x7d"]

theorem shows_fields (e : FormatError) {pieces : Wording} {line : String} {numbers : List Nat}
    (h : pieces.Shows line numbers) :
    (e.fieldsWording ++ pieces).Shows (e.fields ++ line) (e.numbers ++ numbers) := by
  delta fields
  cases e with
  | unexpectedEnd needed available =>
    simp only [ToString.toString, String.append_assoc]
    exact .text _ (.decimal _ (.text _ (.decimal _ (.text _ h))))
  | unknownMarker byte =>
    simp only [ToString.toString, String.append_assoc]
    exact .text _ (.decimal _ (.text _ h))
  | uint64Overflow value =>
    simp only [ToString.toString, String.append_assoc]
    exact .text _ (.decimal _ (.text _ h))
  | lengthOverflow length =>
    simp only [ToString.toString, String.append_assoc]
    exact .text _ (.decimal _ (.text _ h))

end FormatError

namespace DecodeError

def fieldsWording : DecodeError → Wording
  | unknownTag _ _ => [.text "UnknownTag \x7b byte: ", .number 10, .text ", offset: ", .number 10, .text " \x7d"]
  | uint64Overflow _ _ =>
    [.text "Uint64Overflow \x7b value: ", .number 10, .text ", offset: ", .number 10, .text " \x7d"]
  | blobTooLarge _ _ _ =>
    [.text "BlobTooLarge \x7b len: ", .number 10, .text ", limit: ", .number 10, .text ", offset: ", .number 10,
      .text " \x7d"]
  | allocationFailed _ => [.text "AllocationFailed \x7b requested: ", .number 10, .text " \x7d"]
  | staleView _ _ => [.text "StaleView \x7b issued: ", .number 10, .text ", current: ", .number 10, .text " \x7d"]
  | format cause => .text "Wire(" :: (cause.fieldsWording ++ [.text ")"])

/-- The fields of an error, in the order in which transcripts quote them. -/
def fieldNumbers : DecodeError → List Nat
  | blobTooLarge length limit offset => [length, limit, offset]
  | e => e.numbers

theorem separated_fieldsWording (e : DecodeError) : e.fieldsWording.separated := by
  cases e with
  | format cause => cases cause <;> rfl
  | unknownTag | uint64Overflow | blobTooLarge | allocationFailed | staleView => rfl

theorem shows_fields (e : DecodeError) : e.fieldsWording.Shows e.fields e.fieldNumbers := by
  delta fields
  cases e with
  | format cause =>
    have hshows := Wording.Shows.text "Wire(" (cause.shows_fields (.last ")"))
    rw [List.append_nil] at hshows
    simp only [ToString.toString, String.append_assoc]
    exact hshows
  | unknownTag | uint64Overflow | staleView =>
    simp only [ToString.toString, String.append_assoc]
    exact .text _ (.decimal _ (.text _ (.decimal _ (.last _))))
  | blobTooLarge length limit offset =>
    simp only [ToString.toString, String.append_assoc]
    exact .text _ (.decimal _ (.text _ (.decimal _ (.text _ (.decimal _ (.last _))))))
  | allocationFailed requested =>
    simp only [ToString.toString, String.append_assoc]
    exact .text _ (.decimal _ (.last _))

end DecodeError

/-- A transcript that breaks off for a fault says what it took for granted, and the fields of the error. -/
theorem Transcript.Breakdown.read?_message (phase : Phase) (e : DecodeError) :
    Wording.read? (.text phase.premise :: .text ": " :: e.fieldsWording) (fault phase e).message
      = some e.fieldNumbers := by
  refine Wording.read?_of_shows e.separated_fieldsWording ?_
  delta message
  simp only [ToString.toString, String.append_assoc]
  exact .text _ (.text _ e.shows_fields)

end MessagePack
