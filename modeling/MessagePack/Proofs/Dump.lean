import MessagePack.Proofs.Agreement
import MessagePack.Proofs.Cutting
/-
  Dumps, read back from their text. The columns of a row are found by the spaces between them, so what is said
  about a row is said about the printed line: the number in its first column, the digits in its second and the
  characters in its third.

  What is proved:
    1. `value?_number`, `decode_encode`: written numbers and bytes are read back from their digits.
    2. `rightpad_spaced`: the digits of the j-th byte of a row are at positions 3j and 3j + 1 of the second column.
    3. `rowOf`: what a row says about its bytes.
    4. `dump_lossless`: the dump of a blob has a row for every sixteen bytes and spells the blob.
-/
namespace MessagePack

/-! ## Digits -/

namespace Hex

/-- The digits that are written. -/
def digits : List Char := "0123456789abcdef".toList

theorem getElem?_digits {n : Nat} (h : n < 16) : digits[n]? = some (digit n) := by
  have hall : ∀ k : Fin 16, digits[k.val]? = some (digit k) := by decide
  exact hall ⟨n, h⟩

theorem digit_mem_digits {n : Nat} (h : n < 16) : digit n ∈ digits :=
  List.mem_of_getElem? (getElem?_digits h)

theorem digit_ne_space {n : Nat} (h : n < 16) : digit n ≠ ' ' := by
  intro hspace
  have hmem := digit_mem_digits h
  rw [hspace] at hmem
  exact absurd hmem (by decide)

theorem digitChar_eq {n : Nat} (h : n < 16) : n.digitChar = digit n := by
  have hall : ∀ k : Fin 16, k.val.digitChar = digit k := by decide
  exact hall ⟨n, h⟩

/-- One more digit behind a number. -/
def append? (n : Nat) (c : Char) : Option Nat := (digitValue? c.toNat).map (16 * n + ·)

/-- The number that digits spell, if all of them are digits. -/
def value? (text : List Char) : Option Nat := text.foldlM append? 0

theorem digitValue?_lt {code d : Nat} (h : digitValue? code = some d) : d < 16 := by
  unfold digitValue? at h
  split at h
  · cases h
    omega
  · split at h
    · cases h
      omega
    · split at h
      · cases h
        omega
      · cases h

/-- No digit is too great for the base, so these are the digits that every line is read by. -/
theorem value?_eq (text : List Char) : value? text = Digits.number? 16 text := by
  have happend : append? = Digits.append? 16 := by
    funext n c
    rw [append?, Digits.append?, Digits.value?]
    cases hc : digitValue? c.toNat with
    | none => rfl
    | some d => rw [Option.filter_some, if_pos (decide_eq_true (digitValue?_lt hc))]
  rw [value?, Digits.number?, happend]

theorem value?_number (width n : Nat) : value? (number width n) = some n := by
  rw [value?_eq]
  exact (spells_number width n).number

theorem mem_digits_of_mem_toDigits {n : Nat} {c : Char} (hc : c ∈ Nat.toDigits 16 n) : c ∈ digits := by
  induction n using Nat.base_induction 16 (by decide) with
  | single d hd =>
    rw [Nat.toDigits_of_lt_base hd, List.mem_singleton, digitChar_eq hd] at hc
    rw [hc]
    exact digit_mem_digits hd
  | digit m d hd hm ih =>
    rw [← Nat.toDigits_append_toDigits (by decide) hm hd, Nat.toDigits_of_lt_base hd, digitChar_eq hd,
      List.mem_append, List.mem_singleton] at hc
    obtain hc | rfl := hc
    · exact ih hc
    · exact digit_mem_digits hd

theorem mem_digits_of_mem_number {width n : Nat} {c : Char} (hc : c ∈ number width n) : c ∈ digits := by
  rw [number, List.leftpad, List.mem_append] at hc
  obtain hc | hc := hc
  · rw [List.eq_of_mem_replicate hc]
    decide
  · exact mem_digits_of_mem_toDigits hc

/-- A number with no more digits than its least width is just as wide. -/
theorem length_number_of_lt {width n : Nat} (hwidth : 0 < width) (h : n < 16 ^ width) :
    (number width n).length = width := by
  have hle : (Nat.toDigits 16 n).length ≤ width := (Nat.length_toDigits_le_iff (by decide) hwidth).2 h
  rw [number, List.length_leftpad, Nat.max_eq_left hle]

/-- The bytes of a text of digits. -/
def codes (text : List Char) : Bytes := text.map fun c => UInt8.ofNat c.toNat

theorem toNat_digit {n : Nat} (h : n < 16) : (UInt8.ofNat (digit n).toNat).toNat = (digit n).toNat := by
  have hall : ∀ k : Fin 16, (UInt8.ofNat (digit k).toNat).toNat = (digit k).toNat := by decide
  exact hall ⟨n, h⟩

theorem high_lt (b : UInt8) : b.toNat / 16 < 16 := by
  have hb := b.toNat_lt
  omega

theorem low_lt (b : UInt8) : b.toNat % 16 < 16 := Nat.mod_lt _ (by decide)

theorem decodePairs_encode (position : Nat) (before data : Bytes) :
    decodePairs position before (codes (encode data)) = .ok (before.reverse ++ data) := by
  induction data generalizing position before with
  | nil => rw [List.append_nil]; rfl
  | cons b data ih =>
    have hcodes : codes (encode (b :: data)) = UInt8.ofNat (digit (b.toNat / 16)).toNat
        :: UInt8.ofNat (digit (b.toNat % 16)).toNat :: codes (encode data) := rfl
    have hbyte : UInt8.ofNat (16 * (b.toNat / 16) + b.toNat % 16) = b := by
      rw [Nat.div_add_mod]
      exact UInt8.ofNat_toNat
    simp only [hcodes, decodePairs, toNat_digit (high_lt b), toNat_digit (low_lt b),
      digitValue?_digit (high_lt b), digitValue?_digit (low_lt b), hbyte]
    rw [ih, List.reverse_cons, List.append_assoc]
    rfl

theorem length_encode (data : Bytes) : (encode data).length = 2 * data.length := by
  induction data with
  | nil => rfl
  | cons b data ih =>
    rw [encode, List.flatMap_cons, List.length_append, ← encode, ih, List.length_cons, Nat.mul_succ, Nat.add_comm]
    rfl

/-- The digits of bytes spell them. -/
theorem decode_encode (data : Bytes) : decode (codes (encode data)) = .ok data := by
  have heven : (codes (encode data)).length % 2 ≠ 1 := by
    rw [codes, List.length_map, length_encode]
    omega
  rw [decode, if_neg heven]
  exact decodePairs_encode 0 [] data

/-! ## The second column -/

/-- The digits of a byte, and a space. -/
def cell (b : UInt8) : List Char := pair b ++ [' ']

def cells (bytes : Bytes) : List Char := bytes.flatMap cell

theorem cells_cons (b : UInt8) (bytes : Bytes) : cells (b :: bytes) = cell b ++ cells bytes := rfl

theorem length_cells (bytes : Bytes) : (cells bytes).length = 3 * bytes.length := by
  induction bytes with
  | nil => rfl
  | cons b bytes ih =>
    rw [cells_cons, List.length_append, ih, List.length_cons, Nat.mul_succ, Nat.add_comm]
    rfl

theorem spaced_append_space {bytes : Bytes} (h : bytes ≠ []) : spaced bytes ++ [' '] = cells bytes := by
  induction bytes with
  | nil => exact absurd rfl h
  | cons b bytes ih =>
    cases bytes with
    | nil => rfl
    | cons next bytes =>
      rw [cells_cons, ← ih (List.cons_ne_nil next bytes)]
      rfl

/-- The digits of some bytes and spaces up to the width of the column, given that they fit into it. -/
theorem rightpad_spaced {bytes : Bytes} {width : Nat} (h : 3 * bytes.length ≤ width) :
    (spaced bytes).rightpad width ' ' = cells bytes ++ List.replicate (width - 3 * bytes.length) ' ' := by
  cases bytes with
  | nil => rfl
  | cons b bytes =>
    have hcells := spaced_append_space (List.cons_ne_nil b bytes)
    have hlength : (spaced (b :: bytes)).length + 1 = 3 * (b :: bytes).length := by
      rw [← length_cells, ← hcells, List.length_append]
      rfl
    have hpad : width - (spaced (b :: bytes)).length = width - 3 * (b :: bytes).length + 1 := by omega
    rw [List.rightpad, hpad, List.replicate_succ, ← hcells, List.append_assoc]
    rfl

/-- What stands at a position of the cells: a digit of the byte there, or the space behind it. -/
theorem getElem?_cells {bytes : Bytes} {j : Nat} {b : UInt8} (h : bytes[j]? = some b) :
    (cells bytes)[3 * j]? = digits[b.toNat / 16]? ∧ (cells bytes)[3 * j + 1]? = digits[b.toNat % 16]? ∧
      (cells bytes)[3 * j + 2]? = some ' ' := by
  induction bytes generalizing j with
  | nil => cases h
  | cons first bytes ih =>
    cases j with
    | zero =>
      obtain rfl : first = b := Option.some.inj h
      rw [getElem?_digits (high_lt first), getElem?_digits (low_lt first)]
      exact ⟨rfl, rfl, rfl⟩
    | succ j =>
      obtain ⟨hhigh, hlow, hspace⟩ := ih (j := j) h
      have hbehind : ∀ k, (cells (first :: bytes))[3 * (j + 1) + k]? = (cells bytes)[3 * j + k]? := by
        intro k
        have hposition : 3 * (j + 1) + k = 3 * j + k + 3 := by omega
        have hlength : (cell first).length = 3 := rfl
        have hbefore : (cell first).length ≤ 3 * j + k + 3 := Nat.le_add_left _ _
        rw [hposition, cells_cons, List.getElem?_append_right hbefore, hlength, Nat.add_sub_cancel]
      exact ⟨(hbehind 0).trans hhigh, (hbehind 1).trans hlow, (hbehind 2).trans hspace⟩

/-- Without the spaces, the digits are left. -/
theorem filter_cells (bytes : Bytes) : (cells bytes).filter (· ≠ ' ') = encode bytes := by
  induction bytes with
  | nil => rfl
  | cons b bytes ih =>
    have hcell : (cell b).filter (· ≠ ' ') = pair b := by
      simp [cell, pair, digit_ne_space (high_lt b), digit_ne_space (low_lt b)]
    rw [cells_cons, List.filter_append, hcell, ih]
    rfl

section Column
variable {bytes : Bytes} {width : Nat}

theorem length_column (h : 3 * bytes.length ≤ width) : ((spaced bytes).rightpad width ' ').length = width := by
  rw [rightpad_spaced h, List.length_append, length_cells, List.length_replicate, Nat.add_sub_cancel' h]

theorem filter_column (h : 3 * bytes.length ≤ width) :
    ((spaced bytes).rightpad width ' ').filter (· ≠ ' ') = encode bytes := by
  rw [rightpad_spaced h, List.filter_append, filter_cells, List.filter_replicate]
  exact List.append_nil _

theorem column_digits (h : 3 * bytes.length ≤ width) {j : Nat} {b : UInt8} (hb : bytes[j]? = some b) :
    ((spaced bytes).rightpad width ' ')[3 * j]? = digits[b.toNat / 16]? ∧
      ((spaced bytes).rightpad width ' ')[3 * j + 1]? = digits[b.toNat % 16]? := by
  obtain ⟨hj, _⟩ := List.getElem?_eq_some_iff.1 hb
  obtain ⟨hhigh, hlow, _⟩ := getElem?_cells hb
  have hlength := length_cells bytes
  rw [rightpad_spaced h, List.getElem?_append_left (by omega), List.getElem?_append_left (by omega)]
  exact ⟨hhigh, hlow⟩

theorem column_space (h : 3 * bytes.length ≤ width) {k : Nat} (hk : k < width)
    (hspace : bytes.length ≤ k / 3 ∨ k % 3 = 2) : ((spaced bytes).rightpad width ' ')[k]? = some ' ' := by
  have hlength := length_cells bytes
  rw [rightpad_spaced h]
  rcases Nat.lt_or_ge (k / 3) bytes.length with hj | hpast
  · have hposition : k = 3 * (k / 3) + 2 := by omega
    obtain ⟨_, _, hbehind⟩ := getElem?_cells (List.getElem?_eq_getElem hj)
    rw [← hposition] at hbehind
    rw [List.getElem?_append_left (by omega), hbehind]
  · rw [List.getElem?_append_right (by omega), List.getElem?_replicate_of_lt (by omega)]

end Column

end Hex

/-! ## Rows -/

namespace HexDump

open Inspect (firstColumn behindColumn)

/-- The column of a row with the offset. -/
def offsetColumn (line : String) : List Char := firstColumn (behindColumn line.toList)

/-- The column with the digits of the bytes, as wide as it is printed. -/
def bytesColumn (line : String) : List Char := (behindColumn (behindColumn line.toList)).take columnWidth

/-- The column with the bytes as characters. -/
def visibleColumn (line : String) : List Char := (behindColumn (behindColumn line.toList)).drop (columnWidth + 2)

/-- The bytes that the rows of a dump spell. -/
def read (lines : List String) : Except Hex.Error Bytes :=
  Hex.decode (Hex.codes (lines.flatMap fun line => (bytesColumn line).filter (· ≠ ' ')))

/-- How a byte may be shown: by the character it is the code of, if that can be seen, else by a point. -/
def Shows (b : UInt8) (c : Char) : Prop :=
  if 0x21 ≤ b.toNat ∧ b.toNat ≤ 0x7E then c.toNat = b.toNat else c = '.'

theorem shows_visible (b : UInt8) : Shows b (visible b) := by
  have hgraphic : isGraphic b = true ↔ 0x21 ≤ b.toNat ∧ b.toNat ≤ 0x7E := by
    rw [isGraphic, Bool.and_eq_true, decide_eq_true_iff, decide_eq_true_iff, UInt8.le_iff_toNat_le,
      UInt8.le_iff_toNat_le]
    rfl
  unfold Shows visible
  split
  case isTrue h =>
    have hvalid : b.toNat.isValidChar := Or.inl (by omega)
    rw [if_pos (hgraphic.2 h), Char.ofNat, dif_pos hvalid]
    rfl
  case isFalse h => exact if_neg fun hvisible => h (hgraphic.1 hvisible)

/-- What the row at an index says about the bytes of a blob. -/
structure RowOf (data : Bytes) (i : Nat) (line : String) : Prop where
  layout : line.toList = List.replicate 12 ' ' ++ offsetColumn line ++ ' ' :: ' ' :: bytesColumn line
    ++ ' ' :: ' ' :: visibleColumn line
  offset_eq : Hex.value? (offsetColumn line) = some (16 * i)
  offset_digits : ∀ c ∈ offsetColumn line, c ∈ Hex.digits
  bytes_width : (bytesColumn line).length = 48
  /-- The two digits of a byte of the row. -/
  bytes_digits : ∀ j < 16, ∀ b, data[16 * i + j]? = some b →
    (bytesColumn line)[3 * j]? = Hex.digits[b.toNat / 16]? ∧
    (bytesColumn line)[3 * j + 1]? = Hex.digits[b.toNat % 16]?
  /-- Behind the digits of a byte, and where there is no byte, are spaces. -/
  bytes_spaces : ∀ k < 48, (data.length ≤ 16 * i + k / 3 ∨ k % 3 = 2) → (bytesColumn line)[k]? = some ' '
  /-- There is one character for each byte of the row. -/
  visible_length : (visibleColumn line).length = min (16 * i + 16) data.length - 16 * i
  visible_shows : ∀ j < 16, ∀ b, data[16 * i + j]? = some b →
    ∃ c, (visibleColumn line)[j]? = some c ∧ Shows b c
  /-- In a dump that is not too long, the last column of each row starts at one position. -/
  visible_start : data.length ≤ 65536 →
    (offsetColumn line).length = 4 ∧ line.toList.drop 68 = visibleColumn line

theorem digits_fit {bytes : Bytes} (hrow : bytes.length ≤ rowLength) : 3 * bytes.length ≤ columnWidth := by
  simp only [rowLength, columnWidth] at hrow ⊢
  omega

section Row
variable {bytes : Bytes} (h : bytes ≠ []) (hrow : bytes.length ≤ rowLength)
include h hrow

/-- The columns of a row, found by the spaces between them. -/
theorem columns_row (offset : Nat) :
    let line := String.ofList (row offset bytes)
    offsetColumn line = Hex.number 4 offset ∧
      bytesColumn line = (Hex.spaced bytes).rightpad columnWidth ' ' ∧
      visibleColumn line = bytes.map visible := by
  intro line
  have hfit := digits_fit hrow
  have hlength := Hex.length_column hfit
  have hoffset : ∀ c ∈ Hex.number 4 offset, c ≠ ' ' := fun _ => Inspect.ne_space_of_mem_number
  -- Both columns begin with a digit, so all the spaces in front of them are skipped.
  have hnumber : ∃ c rest, Hex.number 4 offset = c :: rest ∧ c ≠ ' ' := by
    cases hdigits : Hex.number 4 offset with
    | nil => exact absurd (hdigits ▸ Hex.length_number 4 offset) (by decide)
    | cons c rest => exact ⟨c, rest, rfl, hoffset c (hdigits ▸ List.mem_cons_self)⟩
  have hpair : ∃ c rest, (Hex.spaced bytes).rightpad columnWidth ' ' = c :: rest ∧ c ≠ ' ' := by
    rw [Hex.rightpad_spaced hfit]
    cases bytes with
    | nil => exact absurd rfl h
    | cons b bytes => exact ⟨_, _, rfl, Hex.digit_ne_space (Hex.high_lt b)⟩
  have hline : line.toList = [] ++ ' ' :: (List.replicate 11 ' ' ++ (Hex.number 4 offset ++ ' ' :: ' ' ::
      ((Hex.spaced bytes).rightpad columnWidth ' ' ++ ' ' :: ' ' :: bytes.map visible))) := by
    rw [String.toList_ofList, row]
    simp [List.replicate_succ]
  have hindented : behindColumn line.toList = Hex.number 4 offset ++ ' ' :: ' ' ::
      ((Hex.spaced bytes).rightpad columnWidth ' ' ++ ' ' :: ' ' :: bytes.map visible) := by
    obtain ⟨c, rest, hdigits, hne⟩ := hnumber
    rw [hline, Inspect.behindColumn_append fun _ hc => absurd hc List.not_mem_nil, Inspect.dropWhile_spaces,
      hdigits, List.cons_append, Inspect.dropWhile_of_ne hne]
  have hbytes : behindColumn (behindColumn line.toList)
      = (Hex.spaced bytes).rightpad columnWidth ' ' ++ ' ' :: ' ' :: bytes.map visible := by
    obtain ⟨c, rest, hdigits, hne⟩ := hpair
    rw [hindented, Inspect.behindColumn_append hoffset, hdigits]
    exact Inspect.dropWhile_of_ne hne
  refine ⟨?_, ?_, ?_⟩
  · rw [offsetColumn, hindented]
    exact Inspect.firstColumn_append_space hoffset
  · rw [bytesColumn, hbytes, List.take_left' hlength]
  · rw [visibleColumn, hbytes, ← List.drop_drop, List.drop_left' hlength]
    rfl

theorem filter_bytesColumn (offset : Nat) :
    (bytesColumn (String.ofList (row offset bytes))).filter (· ≠ ' ') = Hex.encode bytes := by
  obtain ⟨_, hcolumn, _⟩ := columns_row h hrow offset
  rw [hcolumn]
  exact Hex.filter_column (digits_fit hrow)

end Row

/-! ## All rows -/

section Rows
variable {data bytes : Bytes} {i : Nat}

/-- The bytes of a row are those from its offset on, up to sixteen. -/
theorem row_bytes (h : (chunksOf rowLength (by decide) data)[i]? = some bytes) :
    bytes ≠ [] ∧ bytes.length ≤ rowLength ∧ bytes.length = min (16 * i + 16) data.length - 16 * i ∧
      ∀ j < 16, bytes[j]? = data[16 * i + j]? := by
  obtain ⟨hstart, hbytes⟩ := getElem?_chunksOf (by decide) h
  simp only [rowLength] at hstart hbytes ⊢
  have hlength : bytes.length = min (16 * i + 16) data.length - 16 * i := by
    rw [hbytes, List.length_take, List.length_drop]
    omega
  refine ⟨List.length_pos_iff.1 (by omega), by omega, hlength, ?_⟩
  intro j hj
  rw [hbytes, List.getElem?_take_of_lt hj, List.getElem?_drop]

theorem rowOf (h : (chunksOf rowLength (by decide) data)[i]? = some bytes) :
    RowOf data i (String.ofList (row (rowLength * i) bytes)) := by
  obtain ⟨hsome, hrow, hlength, hat⟩ := row_bytes h
  have hfit := digits_fit hrow
  obtain ⟨hoffset, hcolumn, hvisible⟩ := columns_row hsome hrow (rowLength * i)
  have hline : (String.ofList (row (rowLength * i) bytes)).toList = row (rowLength * i) bytes :=
    String.toList_ofList
  generalize String.ofList (row (rowLength * i) bytes) = line at hoffset hcolumn hvisible hline ⊢
  have hwidth : (bytesColumn line).length = 48 := by
    rw [hcolumn]
    exact Hex.length_column hfit
  have hlayout : line.toList = List.replicate 12 ' ' ++ offsetColumn line ++ ' ' :: ' ' :: bytesColumn line
      ++ ' ' :: ' ' :: visibleColumn line := by
    rw [hline, row, hoffset, hcolumn, hvisible]
  refine ⟨hlayout, ?offset_eq, ?offset_digits, hwidth, ?bytes_digits, ?bytes_spaces, ?visible_length,
    ?visible_shows, ?visible_start⟩
  case offset_eq =>
    rw [hoffset]
    exact Hex.value?_number 4 _
  case offset_digits =>
    rw [hoffset]
    exact fun _ => Hex.mem_digits_of_mem_number
  case bytes_digits =>
    intro j hj b hb
    rw [← hat j hj] at hb
    rw [hcolumn]
    exact Hex.column_digits hfit hb
  case bytes_spaces =>
    intro k hk hspace
    rw [hcolumn]
    exact Hex.column_space hfit hk (by omega)
  case visible_length => rw [hvisible, List.length_map, hlength]
  case visible_shows =>
    intro j hj b hb
    rw [← hat j hj] at hb
    refine ⟨visible b, ?_, shows_visible b⟩
    rw [hvisible, List.getElem?_map, hb]
    rfl
  case visible_start =>
    intro hdata
    have hpos := List.length_pos_iff.2 hsome
    have hnarrow : (offsetColumn line).length = 4 := by
      rw [hoffset, rowLength]
      exact Hex.length_number_of_lt (by decide) (by omega)
    have hbefore : (List.replicate 12 ' ' ++ offsetColumn line ++ ' ' :: ' ' :: bytesColumn line).length + 2
        = 68 := by
      simp only [List.length_append, List.length_replicate, List.length_cons, hnarrow, hwidth]
    refine ⟨hnarrow, ?_⟩
    rw [hlayout, ← hbefore, ← List.drop_drop, List.drop_left]
    rfl

end Rows

/-- The lines of a dump. -/
def lines (data : Bytes) : List String := (rows data).map String.ofList

theorem lines_eq (data : Bytes) : lines data = (chunksOf rowLength (by decide) data).zipIdx.map
    fun (bytes, i) => String.ofList (row (rowLength * i) bytes) := by
  rw [lines, rows, List.map_map]
  rfl

theorem length_lines (data : Bytes) : (lines data).length = (data.length + 15) / 16 := by
  rw [lines_eq, List.length_map, List.length_zipIdx, length_chunksOf]
  rfl

theorem rowOf_of_getElem? {data : Bytes} {i : Nat} {line : String} (h : (lines data)[i]? = some line) :
    RowOf data i line := by
  rw [lines_eq, List.getElem?_map, List.getElem?_zipIdx, Nat.zero_add] at h
  cases hbytes : (chunksOf rowLength (by decide) data)[i]? with
  | none =>
    rw [hbytes] at h
    cases h
  | some bytes =>
    rw [hbytes] at h
    obtain rfl := Option.some.inj h
    exact rowOf hbytes

theorem encode_flatten (pieces : List Bytes) : Hex.encode pieces.flatten = pieces.flatMap Hex.encode := by
  induction pieces with
  | nil => rfl
  | cons piece pieces ih =>
    rw [List.flatten_cons, List.flatMap_cons, ← ih]
    exact List.flatMap_append

theorem map_fst_zipIdx {β : Type} (f : Bytes → β) (pieces : List Bytes) :
    pieces.zipIdx.map (fun p => f p.1) = pieces.map f := by
  calc pieces.zipIdx.map (f ∘ Prod.fst)
      = (pieces.zipIdx.map Prod.fst).map f := List.map_map.symm
    _ = pieces.map f := by rw [List.zipIdx_map_fst]

/-- Without the spaces, the second columns are the digits of the blob. -/
theorem digits_lines (data : Bytes) :
    ((lines data).flatMap fun line => (bytesColumn line).filter (· ≠ ' ')) = Hex.encode data := by
  have hrows : ∀ p ∈ (chunksOf rowLength (by decide) data).zipIdx,
      (bytesColumn (String.ofList (row (rowLength * p.2) p.1))).filter (· ≠ ' ') = Hex.encode p.1 := by
    rintro ⟨bytes, i⟩ hp
    obtain ⟨hsome, hrow, _⟩ := row_bytes (List.mk_mem_zipIdx_iff_getElem?.1 hp)
    exact filter_bytesColumn hsome hrow _
  calc ((lines data).flatMap fun line => (bytesColumn line).filter (· ≠ ' '))
      = ((chunksOf rowLength (by decide) data).zipIdx.map fun p =>
          (bytesColumn (String.ofList (row (rowLength * p.2) p.1))).filter (· ≠ ' ')).flatten := by
        rw [lines_eq, List.flatMap_map, List.flatMap_def]
    _ = ((chunksOf rowLength (by decide) data).zipIdx.map fun p => Hex.encode p.1).flatten := by
        rw [List.map_congr_left hrows]
    _ = ((chunksOf rowLength (by decide) data).map Hex.encode).flatten := by
        rw [map_fst_zipIdx]
    _ = Hex.encode data := by
        rw [← List.flatMap_def, ← encode_flatten, flatten_chunksOf]

/-- What the dump of a blob is: a row for every sixteen bytes, and the second columns spell the blob. -/
structure Dumps (data : Bytes) (dump : List String) : Prop where
  length_eq : dump.length = (data.length + 15) / 16
  rows : ∀ i line, dump[i]? = some line → RowOf data i line
  read_eq : read dump = .ok data

theorem dumps_lines (data : Bytes) : Dumps data (lines data) := by
  refine ⟨length_lines data, fun _ _ => rowOf_of_getElem?, ?_⟩
  rw [read, digits_lines]
  exact Hex.decode_encode data

end HexDump

/-! ## Nothing is lost -/

/-- The lines of an inspection are those of its tokens, and the summary if it comes to one. -/
theorem Inspect.lines_report (o : Arguments.InspectOptions) (bytes : Bytes) :
    ∃ closing, (report o bytes).lines = (runOver o bytes).tokens.flatMap (tokenLines o.showHex) ++ closing ∧
      (closing = [] ∨ ∃ capacity, closing = summary (runOver o bytes).tokens.length
        (runOver o bytes).walk.messages bytes.length capacity) := by
  rw [report_eq]
  split
  · exact ⟨[], (List.append_nil _).symm, .inl rfl⟩
  · exact ⟨[], (List.append_nil _).symm, .inl rfl⟩
  · exact ⟨_, rfl, .inr ⟨_, rfl⟩⟩

/-- A dump loses nothing. Under the line of a blob stands a row for every sixteen bytes: it begins with the offset
of its first byte, its digits spell its bytes, and its characters are the bytes that can be seen. So the digits of
all rows spell the blob. The lines of an inspection are made of such blocks, token after token. -/
theorem dump_lossless :
    (∀ (t : Token) (data : Bytes), t.value = .bin data → ∃ dump,
      Inspect.tokenLines true t = Inspect.tokenLine t :: dump ∧ HexDump.Dumps data dump) ∧
    ∀ (o : Arguments.InspectOptions) (bytes : Bytes), o.showHex = true → ∃ closing,
      (Inspect.report o bytes).lines
        = (Inspect.runOver o bytes).tokens.flatMap (Inspect.tokenLines true) ++ closing ∧
      (closing = [] ∨ ∃ capacity, closing = Inspect.summary (Inspect.runOver o bytes).tokens.length
        (Inspect.runOver o bytes).walk.messages bytes.length capacity) := by
  refine ⟨?_, ?_⟩
  · intro t data hdata
    refine ⟨HexDump.lines data, ?_, HexDump.dumps_lines data⟩
    rw [Inspect.tokenLines, hdata]
    rfl
  · intro o bytes hhex
    rw [← hhex]
    exact Inspect.lines_report o bytes

/-- A file of one blob, whose bytes are the codes of a digit and of a space. -/
def digitAndSpace : Bytes := [0xc4, 2, 0x39, 0x20]

/-- The digit stands in the last column as itself, the space as a point. -/
theorem dump_lossless_digitAndSpace :
    ∃ line, Inspect.tokenLines true ⟨0, .bin8, .bin [0x39, 0x20]⟩
        = [Inspect.tokenLine ⟨0, .bin8, .bin [0x39, 0x20]⟩, line] ∧
      HexDump.read [line] = .ok [0x39, 0x20] ∧
      (HexDump.visibleColumn line)[0]? = some '9' ∧ (HexDump.visibleColumn line)[1]? = some '.' ∧
      ∃ closing, (Inspect.report { file := "blob", showHex := true } digitAndSpace).lines
        = (Inspect.runOver { file := "blob", showHex := true } digitAndSpace).tokens.flatMap
          (Inspect.tokenLines true) ++ closing := by
  obtain ⟨dump, hlines, hdump⟩ := dump_lossless.1 ⟨0, .bin8, .bin [0x39, 0x20]⟩ [0x39, 0x20] rfl
  obtain ⟨closing, hreport, _⟩ := dump_lossless.2 { file := "blob", showHex := true } digitAndSpace rfl
  obtain ⟨line, rfl⟩ := List.length_eq_one_iff.1 hdump.length_eq
  have hrow := hdump.rows 0 line rfl
  obtain ⟨first, hfirst, hdigit⟩ := hrow.visible_shows 0 (by decide) 0x39 rfl
  obtain ⟨second, hsecond, hpoint⟩ := hrow.visible_shows 1 (by decide) 0x20 rfl
  obtain rfl : first = '9' := Char.toNat_inj.1 hdigit
  obtain rfl : second = '.' := hpoint
  exact ⟨line, hlines, hdump.read_eq, hfirst, hsecond, closing, hreport⟩

end MessagePack
