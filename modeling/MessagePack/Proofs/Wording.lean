import Mathlib.Algebra.Group.Nat.Defs
import Mathlib.Data.List.Basic
import MessagePack.Command.Encode
import MessagePack.Command.Inspect
import MessagePack.Command.Validate
/-
  Wordings: what a printed line says, read back from its text. A wording is the line with its numbers left out.
  Reading a line by it takes every text as it stands there and every number as far as its digits go; a line that
  is worded otherwise cannot be read. So a line that is read by a wording shows just those numbers, whatever
  printed it.

  What is proved:
    1. `number?_toDigits`: written numbers are read back from their digits.
    2. `read?_of_shows`: a line that is put together by its wording is read by it.
    3. `DecodeError.read?_message`: an error says its kind, and what its fields hold.
    4. `Validate.readAll?_lines`, `Inspect.readAll?_summary`, `Encode.readAll?_written`: reports say their counts.
-/
namespace MessagePack

/-! ## Digits -/

namespace Digits

/-- The value of a digit in a base up to sixteen. The letters may be small or capital. -/
def value? (base : Nat) (c : Char) : Option Nat := (Hex.digitValue? c.toNat).filter (· < base)

/-- One more digit behind a number. -/
def append? (base n : Nat) (c : Char) : Option Nat := (value? base c).map (base * n + ·)

/-- The number that digits spell, if all of them are digits. -/
def number? (base : Nat) (text : List Char) : Option Nat := text.foldlM (append? base) 0

variable {base : Nat}

theorem value?_digitChar {d : Nat} (hbase : base ≤ 16) (h : d < base) : value? base d.digitChar = some d := by
  have hall : ∀ k : Fin 16, Hex.digitValue? k.val.digitChar.toNat = some k.val := by decide
  rw [value?, hall ⟨d, Nat.lt_of_lt_of_le h hbase⟩]
  simp [h]

theorem append?_digitChar {d : Nat} (hbase : base ≤ 16) (h : d < base) (n : Nat) :
    append? base n d.digitChar = some (base * n + d) := by
  rw [append?, value?_digitChar hbase h]
  rfl

theorem number?_toDigits (hbase : 1 < base) (hbase' : base ≤ 16) (n : Nat) :
    number? base (Nat.toDigits base n) = some n := by
  induction n using Nat.base_induction base hbase with
  | single d hd =>
    rw [Nat.toDigits_of_lt_base hd, number?, List.foldlM_cons, append?_digitChar hbase' hd, Nat.mul_zero,
      Nat.zero_add]
    rfl
  | digit m d hd hm ih =>
    rw [← Nat.toDigits_append_toDigits hbase hm hd, Nat.toDigits_of_lt_base hd, number?, List.foldlM_append,
      ← number?, ih, Option.bind_eq_bind, Option.bind_some, List.foldlM_cons, append?_digitChar hbase' hd]
    rfl

theorem value?_zero (hbase : 0 < base) : value? base '0' = some 0 := by
  simp [value?, Hex.digitValue?, hbase]

/-- Zeros in front of a number do not count. -/
theorem number?_zeros (hbase : 0 < base) (count : Nat) (text : List Char) :
    number? base (List.replicate count '0' ++ text) = number? base text := by
  have hzero : append? base 0 '0' = some 0 := by rw [append?, value?_zero hbase]; rfl
  induction count with
  | zero => rfl
  | succ count ih =>
    rw [List.replicate_succ, List.cons_append, number?, List.foldlM_cons, hzero]
    exact ih

theorem isSome_value?_of_mem (hbase : 1 < base) (hbase' : base ≤ 16) {n : Nat} {c : Char}
    (hc : c ∈ Nat.toDigits base n) : (value? base c).isSome := by
  induction n using Nat.base_induction base hbase with
  | single d hd =>
    rw [Nat.toDigits_of_lt_base hd, List.mem_singleton] at hc
    rw [hc, value?_digitChar hbase' hd]
    rfl
  | digit m d hd hm ih =>
    rw [← Nat.toDigits_append_toDigits hbase hm hd, Nat.toDigits_of_lt_base hd, List.mem_append,
      List.mem_singleton] at hc
    obtain hc | rfl := hc
    · exact ih hc
    · rw [value?_digitChar hbase' hd]
      rfl

/-- Zeros behind a number are powers of the base. -/
theorem number?_append_zeros (hbase : 0 < base) {text : List Char} {n : Nat} (h : number? base text = some n)
    (count : Nat) : number? base (text ++ List.replicate count '0') = some (n * base ^ count) := by
  have hzero (m : Nat) : append? base m '0' = some (base * m) := by rw [append?, value?_zero hbase]; rfl
  have hzeros (m : Nat) : (List.replicate count '0').foldlM (append? base) m = some (m * base ^ count) := by
    induction count generalizing m with
    | zero => exact congrArg some (Nat.mul_one m).symm
    | succ count ih =>
      rw [List.replicate_succ, List.foldlM_cons, hzero, Option.bind_eq_bind, Option.bind_some, ih, Nat.pow_succ,
        Nat.mul_comm base m, Nat.mul_assoc, Nat.mul_comm base]
  rw [number?, List.foldlM_append, ← number?, h]
  exact hzeros n

/-- Digits end where a text goes on with something else. -/
theorem takeWhile_digits {text rest : List Char} (hdigits : ∀ c ∈ text, (value? base c).isSome)
    (hstop : ∀ c, rest.head? = some c → value? base c = none) :
    (text ++ rest).takeWhile (fun c => (value? base c).isSome) = text := by
  have hend : rest.takeWhile (fun c => (value? base c).isSome) = [] := by
    cases rest with
    | nil => rfl
    | cons c cs => simp [hstop c rfl]
  rw [List.takeWhile_append_of_pos hdigits, hend, List.append_nil]

end Digits

/-- A text of digits that spells a number. -/
structure Spells (base : Nat) (text : List Char) (n : Nat) : Prop where
  nonempty : text ≠ []
  digits : ∀ c ∈ text, (Digits.value? base c).isSome
  number : Digits.number? base text = some n

theorem spells_toDigits {base : Nat} (hbase : 1 < base) (hbase' : base ≤ 16) (n : Nat) :
    Spells base (Nat.toDigits base n) n :=
  ⟨Nat.toDigits_ne_nil, fun _ => Digits.isSome_value?_of_mem hbase hbase', Digits.number?_toDigits hbase hbase' n⟩

theorem spells_decimal (n : Nat) : Spells 10 (Nat.toDigits 10 n) n := spells_toDigits (by decide) (by decide) n

theorem Spells.zeros {base : Nat} (hbase : 0 < base) {text : List Char} {n : Nat} (h : Spells base text n)
    (count : Nat) : Spells base (List.replicate count '0' ++ text) n := by
  refine ⟨List.append_ne_nil_of_right_ne_nil _ h.nonempty, ?_, ?_⟩
  · intro c hc
    rcases List.mem_append.1 hc with hzero | htext
    · rw [List.eq_of_mem_replicate hzero, Digits.value?_zero hbase]
      rfl
    · exact h.digits c htext
  · rw [Digits.number?_zeros hbase]
    exact h.number

theorem Spells.append_zeros {base : Nat} (hbase : 0 < base) {text : List Char} {n : Nat} (h : Spells base text n)
    (count : Nat) : Spells base (text ++ List.replicate count '0') (n * base ^ count) := by
  refine ⟨List.append_ne_nil_of_left_ne_nil h.nonempty _, ?_, Digits.number?_append_zeros hbase h.number count⟩
  intro c hc
  rcases List.mem_append.1 hc with htext | hzero
  · exact h.digits c htext
  · rw [List.eq_of_mem_replicate hzero, Digits.value?_zero hbase]
    rfl

theorem spells_number (width n : Nat) : Spells 16 (Hex.number width n) n :=
  (spells_toDigits (by decide) (by decide) n).zeros (by decide) _

/-- The two digits of a byte. -/
theorem spells_byte {digit : Nat → Char} (hdigit : ∀ k : Fin 16, Digits.value? 16 (digit k.val) = some k.val)
    (b : UInt8) : Spells 16 [digit (b.toNat / 16), digit (b.toNat % 16)] b.toNat := by
  have hhigh := hdigit ⟨b.toNat / 16, by have := b.toNat_lt; omega⟩
  have hlow := hdigit ⟨b.toNat % 16, Nat.mod_lt _ (by decide)⟩
  simp only at hhigh hlow
  refine ⟨List.cons_ne_nil _ _, ?_, ?_⟩
  · simp [hhigh, hlow]
  · have hall : 16 * (b.toNat / 16) + b.toNat % 16 = b.toNat := Nat.div_add_mod _ _
    simp [Digits.number?, Digits.append?, hhigh, hlow, hall]

/-- The two digits behind the `0x` of a tag byte. -/
theorem spells_tagByte (b : UInt8) :
    Spells 16 [upperHexDigit (b.toNat / 16), upperHexDigit (b.toNat % 16)] b.toNat :=
  spells_byte (by decide) b

theorem spells_pair (b : UInt8) : Spells 16 (Hex.pair b) b.toNat := spells_byte (by decide) b

theorem showTagByte_eq (b : UInt8) :
    showTagByte b = "0x" ++ String.ofList [upperHexDigit (b.toNat / 16), upperHexDigit (b.toNat % 16)] :=
  String.toList_inj.1 (by simp [showTagByte])

/-! ## Wordings -/

/-- A part of a printed line: a text that it always has, or a number in digits of a base. -/
inductive Piece where
  | text (s : String)
  | number (base : Nat)
  deriving DecidableEq, Repr

abbrev Wording := List Piece

namespace Wording

/-- The numbers in a line of characters, if it is worded so. -/
def readChars? : Wording → List Char → Option (List Nat)
  | [], [] => some []
  | [], _ :: _ => none
  | .text s :: pieces, line => (s.toList.isPrefixOf? line).bind (readChars? pieces)
  | .number base :: pieces, line =>
    let digits := line.takeWhile fun c => (Digits.value? base c).isSome
    if digits = [] then none
    else (Digits.number? base digits).bind fun n => (readChars? pieces (line.drop digits.length)).map (n :: ·)

/-- The numbers in a line, if it is worded so. -/
def read? (pieces : Wording) (line : String) : Option (List Nat) := readChars? pieces line.toList

/-- The numbers in some lines, if there are as many as wordings and each is worded so. -/
def readAll? : List Wording → List String → Option (List (List Nat))
  | [], [] => some []
  | pieces :: wordings, line :: lines =>
    match read? pieces line, readAll? wordings lines with
    | some numbers, some rest => some (numbers :: rest)
    | _, _ => none
  | _, _ => none

/-- Whether digits end where this follows. -/
def stops (base : Nat) : Wording → Bool
  | [] => true
  | .text s :: _ => s.toList.head?.any fun c => (Digits.value? base c).isNone
  | .number _ :: _ => false

/-- Whether each number ends where its digits end. -/
def separated : Wording → Bool
  | [] => true
  | .text _ :: pieces => separated pieces
  | .number base :: pieces => stops base pieces && separated pieces

/-- A line that is put together by its wording. -/
inductive Shows : Wording → String → List Nat → Prop where
  | nil : Shows [] "" []
  | text (s : String) {pieces : Wording} {line : String} {numbers : List Nat}
      (h : Shows pieces line numbers) : Shows (.text s :: pieces) (s ++ line) numbers
  | number {base : Nat} {digits : List Char} {n : Nat} (hn : Spells base digits n) {pieces : Wording}
      {line : String} {numbers : List Nat} (h : Shows pieces line numbers) :
      Shows (.number base :: pieces) (String.ofList digits ++ line) (n :: numbers)

theorem Shows.last (s : String) : Shows [.text s] s [] := by
  have h := Shows.text s .nil
  rwa [String.append_empty] at h

theorem Shows.lastNumber {base : Nat} {digits : List Char} {n : Nat} (hn : Spells base digits n) :
    Shows [.number base] (String.ofList digits) [n] := by
  have h := Shows.number hn .nil
  rwa [String.append_empty] at h

theorem Shows.decimal (n : Nat) {pieces : Wording} {line : String} {numbers : List Nat}
    (h : Shows pieces line numbers) : Shows (.number 10 :: pieces) (n.repr ++ line) (n :: numbers) :=
  .number (spells_decimal n) h

theorem Shows.lastDecimal (n : Nat) : Shows [.number 10] n.repr [n] := .lastNumber (spells_decimal n)

/-- Where digits end by the wording, they end in the line. -/
theorem Shows.head_of_stops {base : Nat} {pieces : Wording} {line : String} {numbers : List Nat}
    (h : Shows pieces line numbers) (hstops : stops base pieces) {c : Char}
    (hc : line.toList.head? = some c) : Digits.value? base c = none := by
  cases h with
  | nil => cases hc
  | text s h =>
    rw [stops, Option.any_eq_true] at hstops
    obtain ⟨c', hc', hnone⟩ := hstops
    rw [String.toList_append, List.head?_append, hc'] at hc
    cases hc
    exact Option.isNone_iff_eq_none.1 hnone
  | number => cases hstops

/-- A line that is put together by its wording is read by it. -/
theorem read?_of_shows {pieces : Wording} {line : String} {numbers : List Nat} (hseparated : separated pieces)
    (h : Shows pieces line numbers) : read? pieces line = some numbers := by
  induction h with
  | nil => rfl
  | text s h ih =>
    have hprefix (rest : List Char) : s.toList.isPrefixOf? (s.toList ++ rest) = some rest :=
      List.isPrefixOf?_eq_some_iff_append_eq.2 rfl
    rw [read?, String.toList_append, readChars?, hprefix]
    exact ih hseparated
  | @number base digits n hn pieces line numbers h ih =>
    obtain ⟨hstops, hseparated⟩ := Bool.and_eq_true_iff.1 hseparated
    have hrest := ih hseparated
    have htake := Digits.takeWhile_digits hn.digits fun c => h.head_of_stops hstops
    rw [read?] at hrest ⊢
    rw [String.toList_append, String.toList_ofList, readChars?]
    simp only [htake, if_neg hn.nonempty, hn.number, List.drop_left, hrest]
    rfl

/-- Where the first line is worded so and the others are, all of them are. -/
theorem readAll?_cons {pieces : Wording} {line : String} {numbers : List Nat} (hseparated : separated pieces)
    (h : Shows pieces line numbers) {wordings : List Wording} {lines : List String} {rest : List (List Nat)}
    (hrest : readAll? wordings lines = some rest) :
    readAll? (pieces :: wordings) (line :: lines) = some (numbers :: rest) := by
  rw [readAll?, read?_of_shows hseparated h, hrest]

end Wording

/-! ## Errors -/

namespace FormatError

def wording : FormatError → Wording
  | unexpectedEnd _ _ =>
    [.text "unexpected end of input: needed ", .number 10, .text " bytes, ", .number 10, .text " available"]
  | unknownMarker _ => [.text "unknown marker byte ", .text "0x", .number 16]
  | uint64Overflow _ => [.text "uint64 value ", .number 10, .text " overflows i64"]
  | lengthOverflow _ => [.text "length ", .number 10, .text " does not fit in usize"]

def numbers : FormatError → List Nat
  | unexpectedEnd needed available => [needed, available]
  | unknownMarker byte => [byte.toNat]
  | uint64Overflow value => [value]
  | lengthOverflow length => [length]

theorem separated_wording (e : FormatError) : e.wording.separated := by
  cases e <;> rfl

theorem shows_message (e : FormatError) : e.wording.Shows e.message e.numbers := by
  delta message
  cases e with
  | unexpectedEnd needed available =>
    simp only [ToString.toString, String.append_assoc]
    exact .text _ (.decimal _ (.text _ (.decimal _ (.last _))))
  | unknownMarker byte =>
    simp only [ToString.toString, showTagByte_eq]
    exact .text _ (.text _ (.lastNumber (spells_tagByte byte)))
  | uint64Overflow value =>
    simp only [ToString.toString, String.append_assoc]
    exact .text _ (.decimal _ (.last _))
  | lengthOverflow length =>
    simp only [ToString.toString, String.append_assoc]
    exact .text _ (.decimal _ (.last _))

end FormatError

namespace DecodeError

def wording : DecodeError → Wording
  | unknownTag _ _ => [.text "unrecognized tag byte ", .text "0x", .number 16, .text " at offset ", .number 10]
  | uint64Overflow _ _ =>
    [.text "uint64 value ", .number 10, .text " at offset ", .number 10, .text " does not fit in i64"]
  | blobTooLarge _ _ _ =>
    [.text "blob of ", .number 10, .text " bytes at offset ", .number 10, .text " exceeds limit of ",
      .number 10, .text " bytes"]
  | allocationFailed _ => [.text "scratch arena could not grow to ", .number 10, .text " bytes"]
  | staleView _ _ =>
    [.text "blob view from generation ", .number 10, .text " used at generation ", .number 10]
  | format cause => cause.wording

def numbers : DecodeError → List Nat
  | unknownTag byte offset => [byte.toNat, offset]
  | uint64Overflow value offset => [value, offset]
  | blobTooLarge length limit offset => [length, offset, limit]
  | allocationFailed requested => [requested]
  | staleView issued current => [issued.toNat, current.toNat]
  | format cause => cause.numbers

theorem separated_wording (e : DecodeError) : e.wording.separated := by
  cases e with
  | format cause => exact cause.separated_wording
  | unknownTag | uint64Overflow | blobTooLarge | allocationFailed | staleView => rfl

theorem shows_message (e : DecodeError) : e.wording.Shows e.message e.numbers := by
  delta message
  cases e with
  | format cause => exact cause.shows_message
  | unknownTag byte offset =>
    simp only [ToString.toString, showTagByte_eq, String.append_assoc]
    exact .text _ (.text _ (.number (spells_tagByte byte) (.text _ (.lastDecimal _))))
  | uint64Overflow value offset =>
    simp only [ToString.toString, String.append_assoc]
    exact .text _ (.decimal _ (.text _ (.decimal _ (.last _))))
  | blobTooLarge length limit offset =>
    simp only [ToString.toString, String.append_assoc]
    exact .text _ (.decimal _ (.text _ (.decimal _ (.text _ (.decimal _ (.last _))))))
  | allocationFailed requested =>
    simp only [ToString.toString, String.append_assoc]
    exact .text _ (.decimal _ (.last _))
  | staleView issued current =>
    simp only [ToString.toString, String.append_assoc]
    exact .text _ (.decimal _ (.text _ (.lastDecimal _)))

/-- An error says its kind, and what its fields hold. -/
theorem read?_message (e : DecodeError) : e.wording.read? e.message = some e.numbers :=
  Wording.read?_of_shows e.separated_wording e.shows_message

end DecodeError

/-! ## Reports -/

/-- The letter behind the name of a thing of which there are `n`. -/
def Piece.plural (n : Nat) : Piece := .text (if n = 1 then "" else "s")

theorem Wording.Shows.plural (n : Nat) {pieces : Wording} {line : String} {numbers : List Nat}
    (h : Shows pieces line numbers) : Shows (Piece.plural n :: pieces) (Report.plural n ++ line) numbers :=
  .text _ h

namespace Validate

/-- The lines on a file without a fault. -/
def wordings : List Wording :=
  [ [.text "✓ Tokens: ", .number 10, .text " decoded from ", .number 10, .text " bytes"]
  , [.text "✓ nil: ", .number 10]
  , [.text "✓ bool: ", .number 10]
  , [.text "✓ int: ", .number 10]
  , [.text "✓ float: ", .number 10]
  , [.text "✓ bin: ", .number 10, .text " (", .number 10, .text " payload bytes)"] ]

/-- The counts of a file of `size` bytes, line by line. -/
def Tally.numbers (t : Tally) (size : Nat) : List (List Nat) :=
  [[t.total, size], [t.nil], [t.bool], [t.int], [t.float], [t.bin, t.payload]]

/-- The lines on a file without a fault say all that was counted. -/
theorem Tally.readAll?_lines (t : Tally) (size : Nat) :
    Wording.readAll? wordings (t.lines size) = some (t.numbers size) := by
  simp only [Tally.lines, ToString.toString, String.append_assoc]
  refine Wording.readAll?_cons rfl (.text _ (.decimal _ (.text _ (.decimal _ (.last _))))) ?_
  refine Wording.readAll?_cons rfl (.text _ (.lastDecimal _)) ?_
  refine Wording.readAll?_cons rfl (.text _ (.lastDecimal _)) ?_
  refine Wording.readAll?_cons rfl (.text _ (.lastDecimal _)) ?_
  refine Wording.readAll?_cons rfl (.text _ (.lastDecimal _)) ?_
  exact Wording.readAll?_cons rfl (.text _ (.decimal _ (.text _ (.decimal _ (.last _))))) rfl

def cutOffWording : Wording :=
  [.text "input ends inside the token at offset ", .number 10, .text " (", .number 10, .text " bytes buffered)"]

theorem shows_cutOffText (offset buffered : Nat) :
    cutOffWording.Shows (cutOffText offset buffered) [offset, buffered] := by
  delta cutOffText
  simp only [ToString.toString, String.append_assoc]
  exact .text _ (.decimal _ (.text _ (.decimal _ (.last _))))

/-- The line on a file with a fault that is worded so. -/
def rejectedWording (fault : Wording) : Wording := .text "✗ Error: " :: fault

/-- The only line on a file with a fault says what is wrong. -/
theorem readAll?_rejected {fault : Wording} (hseparated : fault.separated) {text : String} {numbers : List Nat}
    (h : fault.Shows text numbers) :
    Wording.readAll? [rejectedWording fault] (rejected text).lines = some [numbers] := by
  simp only [rejected, ToString.toString]
  have hwording : (rejectedWording fault).separated := hseparated
  exact Wording.readAll?_cons hwording (.text _ h) rfl

end Validate

namespace Inspect

/-- The lines behind the tokens of a file without a fault. -/
def summaryWordings (tokens messages : Nat) : List Wording :=
  [ [.text "---"]
  , [.number 10, .text " token", .plural tokens, .text " in ", .number 10, .text " message", .plural messages,
      .text ", ", .number 10, .text " bytes, arena capacity ", .number 10] ]

theorem readAll?_summary (tokens messages bytes capacity : Nat) :
    Wording.readAll? (summaryWordings tokens messages) (summary tokens messages bytes capacity)
      = some [[], [tokens, messages, bytes, capacity]] := by
  simp only [summary, ToString.toString, String.append_assoc]
  refine Wording.readAll?_cons rfl (.last _) (Wording.readAll?_cons rfl ?_ rfl)
  exact .decimal _ (.text _ (.plural _ (.text _ (.decimal _ (.text _ (.plural _ (.text _
    (.decimal _ (.text _ (.lastDecimal _))))))))))

/-- The place of a token is told as in the listing. -/
def cutOffWording : Wording :=
  [.text "input ends inside the token at ", .text "0x", .number 16, .text " (", .number 10,
    .text " bytes buffered)"]

theorem showOffset_eq (offset : Nat) : showOffset offset = "0x" ++ String.ofList (Hex.number 6 offset) :=
  String.toList_inj.1 (by simp [showOffset])

theorem shows_cutOffText (offset buffered : Nat) :
    cutOffWording.Shows (cutOffText offset buffered) [offset, buffered] := by
  delta cutOffText
  simp only [ToString.toString, showOffset_eq, String.append_assoc]
  exact .text _ (.text _ (.number (spells_number 6 offset) (.text _ (.decimal _ (.last _)))))

/-- The failure on a file with a fault that is worded so. -/
def failedWording (file : String) (fault : Wording) : Wording :=
  .text "failed to decode " :: .text file :: .text ": " :: fault

theorem shows_failed (file : String) {fault : Wording} {text : String} {numbers : List Nat}
    (h : fault.Shows text numbers) :
    (failedWording file fault).Shows s!"failed to decode {file}: {text}" numbers := by
  simp only [ToString.toString, String.append_assoc]
  exact .text _ (.text _ (.text _ h))

end Inspect

namespace Encode

def writtenWording (values : Nat) (output : String) : Wording :=
  [.text "Wrote ", .number 10, .text " bytes (", .number 10, .text " value", .plural values, .text ") to ",
    .text output]

/-- The only line of an encoding says how much was written, and for how many values. -/
theorem readAll?_written (o : Arguments.EncodeOptions) (p : Plan) :
    Wording.readAll? [writtenWording p.values o.output] (written o p).lines
      = some [[p.bytes.length, p.values]] := by
  simp only [written, ToString.toString, String.append_assoc]
  refine Wording.readAll?_cons rfl ?_ rfl
  exact .text _ (.decimal _ (.text _ (.decimal _ (.text _ (.plural _ (.text _ (.last _)))))))

end Encode
end MessagePack
