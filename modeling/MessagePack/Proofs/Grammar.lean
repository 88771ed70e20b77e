import Mathlib.Algebra.Group.Int.Defs
import Mathlib.Algebra.Group.Nat.Defs
import MessagePack.Proofs.Scan
import MessagePack.Proofs.Widening
/-
  The grammar of tokens: the table of the format as a relation between byte strings and values, written down
  without regard to how a scan goes about it. The relation knows no limit and no largest integer; what a
  reader refuses although it is in the table is said beside it.

  What is proved:
    1. `Denotes.length_eq`, `Denotes.family_eq`: a token is as long as its marker announces, and its payload,
       and of the family of its marker.
    2. `exists_stands`: at the front of every string stands exactly what the grammar can say about it: a tag
       that is not in the table, a token that is refused, a token, or the beginning of one.
    3. `stands_iff`: the scan finds what the grammar says, and nothing else.
-/
namespace MessagePack

/-! ## The table -/

/-- The tags with an unsigned number behind them, and the width of its field. -/
def unsignedRows : List (UInt8 × Width) := [(0xcc, .w8), (0xcd, .w16), (0xce, .w32), (0xcf, .w64)]

/-- The tags with a number in two's complement behind them. -/
def signedRows : List (UInt8 × Width) := [(0xd0, .w8), (0xd1, .w16), (0xd2, .w32), (0xd3, .w64)]

/-- The tags of blobs, and the width of the length behind them. -/
def blobRows : List (UInt8 × Width) := [(0xc4, .w8), (0xc5, .w16), (0xc6, .w32)]

/-- All tags with a field behind them, the floats with theirs. -/
def fieldRows : List (UInt8 × Width) :=
  unsignedRows ++ signedRows ++ blobRows ++ [(0xca, .w32), (0xcb, .w64)]

/-- A string is exactly one token of the table, and denotes a value. -/
inductive Denotes : Bytes → Value Bytes → Prop where
  | fixint (b : UInt8) (h : b ≤ 0x7f) : Denotes [b] (.int b.toNat)
  | negFixint (b : UInt8) (h : 0xe0 ≤ b) : Denotes [b] (.int ((b.toNat : Int) - 256))
  | nil : Denotes [0xc0] .nil
  | no : Denotes [0xc2] (.bool false)
  | yes : Denotes [0xc3] (.bool true)
  | unsigned (tag : UInt8) (w : Width) (field : Bytes) (hrow : (tag, w) ∈ unsignedRows)
      (hfield : field.length = w.bytes) : Denotes (tag :: field) (.int (ofBigEndian field))
  | signed (tag : UInt8) (w : Width) (field : Bytes) (v : Int) (hrow : (tag, w) ∈ signedRows)
      (hfield : field.length = w.bytes) (hlow : -(2 : Int) ^ (w.bits - 1) ≤ v)
      (hhigh : v < (2 : Int) ^ (w.bits - 1)) (hmod : v % (2 : Int) ^ w.bits = ofBigEndian field) :
      Denotes (tag :: field) (.int v)
  | single (field : Bytes) (x : Binary64) (hfield : field.length = 4)
      (hx : Binary32.Widens ⟨UInt32.ofNat (ofBigEndian field)⟩ x) : Denotes (0xca :: field) (.float x)
  | double (field : Bytes) (hfield : field.length = 8) :
      Denotes (0xcb :: field) (.float ⟨UInt64.ofNat (ofBigEndian field)⟩)
  | blob (tag : UInt8) (w : Width) (field data : Bytes) (hrow : (tag, w) ∈ blobRows)
      (hfield : field.length = w.bytes) (hdata : ofBigEndian field = data.length) :
      Denotes (tag :: (field ++ data)) (.bin data)

/-- The bytes that no token starts with: those of arrays, maps, strings and extensions, and the one that has
no meaning at all. -/
def Unsupported (b : UInt8) : Prop :=
  (0x80 ≤ b ∧ b ≤ 0xbf) ∨ b = 0xc1 ∨ (0xc7 ≤ b ∧ b ≤ 0xc9) ∨ (0xd4 ≤ b ∧ b ≤ 0xdf)

instance (b : UInt8) : Decidable (Unsupported b) :=
  inferInstanceAs (Decidable (_ ∨ _))

/-- The number of bytes behind the header of a value's token. -/
def Value.payloadLength : Value Bytes → Nat
  | .bin data => data.length
  | _ => 0

/-! ## What is refused of it -/

/-- A limit that a length keeps to. -/
def Allows (limit : Option Nat) (length : Nat) : Prop := ∀ most, limit = some most → length ≤ most

/-- A value of the table that a reader with this limit takes. -/
def Acceptable (limit : Option Nat) : Value Bytes → Prop
  | .int v => v ≤ int64Max
  | .bin data => Allows limit data.length
  | _ => True

/-- A string starts with a whole token of an unsigned 64-bit number. -/
def StartsUint64 (u : Bytes) (value : Nat) : Prop :=
  ∃ field rest, u = 0xcf :: (field ++ rest) ∧ field.length = 8 ∧ ofBigEndian field = value

/-- A string starts with the whole header of a blob, which declares this length. -/
def DeclaresBlob (u : Bytes) (length : Nat) : Prop :=
  ∃ tag w field rest, u = tag :: (field ++ rest) ∧ (tag, w) ∈ blobRows ∧ field.length = w.bytes ∧
    ofBigEndian field = length

/-- A string is a proper beginning of a token of the table. -/
def BeginsToken (u : Bytes) : Prop := ∃ more value, more ≠ [] ∧ Denotes (u ++ more) value

/-- Where the payload lies in a token of `n` bytes: at its end. -/
def payloadExtent (n : Nat) (data : Bytes) : Extent := ⟨n - data.length, data.length⟩

/-- What stands at the front of a string, in the words of the grammar, and what a scan that starts at `offset`
has to make of it. -/
inductive Stands (limit : Option Nat) (offset : Nat) (u : Bytes) :
    Except DecodeError (Scan (Value Extent)) → Prop where
  | unsupported (b : UInt8) (h : u.head? = some b) (hb : Unsupported b) :
      Stands limit offset u (.error (.unknownTag b offset))
  | overflow (value : Nat) (h : StartsUint64 u value) (hvalue : int64Max < value) :
      Stands limit offset u (.error (.uint64Overflow value offset))
  | tooLarge (length most : Nat) (h : DeclaresBlob u length) (hlimit : limit = some most)
      (hlength : most < length) : Stands limit offset u (.error (.blobTooLarge length most offset))
  | nothing (h : u = []) : Stands limit offset u (.ok .incomplete)
  | cutOff (h : BeginsToken u) (hallowed : ∀ length, DeclaresBlob u length → Allows limit length) :
      Stands limit offset u (.ok .incomplete)
  | token (n : Nat) (v : Value Bytes) (hn : n ≤ u.length) (h : Denotes (u.take n) v)
      (hv : Acceptable limit v) : Stands limit offset u (.ok (.complete (v.map (payloadExtent n)) n))

/-! ## Rows and markers -/

private theorem unsupported_iff_ofNat :
    ∀ n : Fin 256, Unsupported (UInt8.ofNat n) ↔ Marker.ofByte? (UInt8.ofNat n) = none := by
  decide +kernel

theorem unsupported_iff (b : UInt8) : Unsupported b ↔ Marker.ofByte? b = none := by
  have h := unsupported_iff_ofNat ⟨b.toNat, b.toNat_lt⟩
  simpa using h

theorem ofByte?_of_unsignedRow {tag : UInt8} {w : Width} (h : (tag, w) ∈ unsignedRows) :
    Marker.ofByte? tag = some (.uint w) := by
  simp only [unsignedRows, List.mem_cons, Prod.mk.injEq, List.not_mem_nil, or_false] at h
  obtain ⟨rfl, rfl⟩ | ⟨rfl, rfl⟩ | ⟨rfl, rfl⟩ | ⟨rfl, rfl⟩ := h <;> rfl

theorem ofByte?_of_signedRow {tag : UInt8} {w : Width} (h : (tag, w) ∈ signedRows) :
    Marker.ofByte? tag = some (.sint w) := by
  simp only [signedRows, List.mem_cons, Prod.mk.injEq, List.not_mem_nil, or_false] at h
  obtain ⟨rfl, rfl⟩ | ⟨rfl, rfl⟩ | ⟨rfl, rfl⟩ | ⟨rfl, rfl⟩ := h <;> rfl

/-- The marker of a blob's tag, with all that the grammar says about it. -/
theorem ofByte?_of_blobRow {tag : UInt8} {w : Width} (h : (tag, w) ∈ blobRows) :
    ∃ m : Marker, Marker.ofByte? tag = some m ∧ m.headerLength = 1 + w.bytes ∧
      ∀ limit offset win, m.scan limit offset win = Marker.scanBlob w limit offset win .bin := by
  simp only [blobRows, List.mem_cons, Prod.mk.injEq, List.not_mem_nil, or_false] at h
  obtain ⟨rfl, rfl⟩ | ⟨rfl, rfl⟩ | ⟨rfl, rfl⟩ := h
  · exact ⟨.bin8, rfl, rfl, fun _ _ _ => rfl⟩
  · exact ⟨.bin16, rfl, rfl, fun _ _ _ => rfl⟩
  · exact ⟨.bin32, rfl, rfl, fun _ _ _ => rfl⟩

theorem ofByte?_of_fixint {b : UInt8} (h : b ≤ 0x7f) : Marker.ofByte? b = some (.fixint b) := by
  have hb : b < 0x80 := by
    rw [UInt8.le_iff_toNat_le] at h
    rw [UInt8.lt_iff_toNat_lt]
    exact Nat.lt_succ_of_le h
  exact if_pos hb

theorem ofByte?_of_negFixint {b : UInt8} (h : 0xe0 ≤ b) :
    Marker.ofByte? b = some (.negFixint b.toInt8) := by
  have hb : ¬ b < 0x80 := by
    rw [UInt8.le_iff_toNat_le] at h
    rw [UInt8.lt_iff_toNat_lt, Nat.not_lt]
    exact Nat.le_trans (by decide) h
  rw [Marker.ofByte?, if_neg hb, if_pos h]

theorem toInt_of_negFixint {b : UInt8} (h : 0xe0 ≤ b) :
    b.toInt8.toInt = (b.toNat : Int) - 256 := by
  have hlow : 224 ≤ b.toNat := UInt8.le_iff_toNat_le.1 h
  have hupper : ¬ 2 * b.toBitVec.toNat < 2 ^ 8 := by
    show ¬ 2 * b.toNat < 256
    omega
  show b.toBitVec.toInt = _
  rw [BitVec.toInt_eq_toNat_cond, if_neg hupper]
  rfl

/-- A token is as long as its marker announces, and its payload. -/
theorem Denotes.length_eq {s : Bytes} {v : Value Bytes} (h : Denotes s v) :
    ∃ b m, s.head? = some b ∧ Marker.ofByte? b = some m ∧
      s.length = m.headerLength + v.payloadLength := by
  cases h with
  | fixint b h => exact ⟨b, _, rfl, ofByte?_of_fixint h, rfl⟩
  | negFixint b h => exact ⟨b, _, rfl, ofByte?_of_negFixint h, rfl⟩
  | nil => exact ⟨_, _, rfl, rfl, rfl⟩
  | no => exact ⟨_, _, rfl, rfl, rfl⟩
  | yes => exact ⟨_, _, rfl, rfl, rfl⟩
  | single field _ hfield => exact ⟨_, _, rfl, rfl, congrArg Nat.succ hfield⟩
  | double field hfield => exact ⟨_, _, rfl, rfl, congrArg Nat.succ hfield⟩
  | unsigned tag w field hrow hfield =>
    refine ⟨tag, _, rfl, ofByte?_of_unsignedRow hrow, ?_⟩
    simp only [List.length_cons, hfield, Marker.headerLength, Value.payloadLength]
    omega
  | signed tag w field v hrow hfield hlow hhigh hmod =>
    refine ⟨tag, _, rfl, ofByte?_of_signedRow hrow, ?_⟩
    simp only [List.length_cons, hfield, Marker.headerLength, Value.payloadLength]
    omega
  | blob tag w field data hrow hfield hdata =>
    obtain ⟨m, hm, hheader, _⟩ := ofByte?_of_blobRow hrow
    refine ⟨tag, m, rfl, hm, ?_⟩
    simp only [List.length_cons, List.length_append, hfield, hheader, Value.payloadLength]
    omega

/-- The marker of a token is of the family of its value. -/
theorem Denotes.family_eq {s : Bytes} {v : Value Bytes} (h : Denotes s v) {m : Marker}
    (hm : s.head?.bind Marker.ofByte? = some m) : m.family = v.family := by
  have hmarker {m' : Marker} (h' : s.head?.bind Marker.ofByte? = some m') : m = m' :=
    Option.some.inj (hm.symm.trans h')
  cases h with
  | fixint b h => rw [hmarker (ofByte?_of_fixint h)]; rfl
  | negFixint b h => rw [hmarker (ofByte?_of_negFixint h)]; rfl
  | nil | no | yes | single | double => rw [hmarker rfl]; rfl
  | unsigned tag w field hrow hfield => rw [hmarker (ofByte?_of_unsignedRow hrow)]; rfl
  | signed tag w field v hrow => rw [hmarker (ofByte?_of_signedRow hrow)]; rfl
  | blob tag w field data hrow hfield hdata =>
    simp only [blobRows, List.mem_cons, Prod.mk.injEq, List.not_mem_nil, or_false] at hrow
    obtain ⟨rfl, rfl⟩ | ⟨rfl, rfl⟩ | ⟨rfl, rfl⟩ := hrow <;> rw [hmarker rfl] <;> rfl

/-- The payload of a token is what its value says, and it lies at the end. -/
theorem Denotes.within_payload {s : Bytes} {v : Value Bytes} (h : Denotes s v) (rest : Bytes) :
    (v.map (payloadExtent s.length)).map (·.within (s ++ rest)) = v := by
  cases h with
  | blob tag w field data hrow hfield hdata =>
    have hsplit : tag :: (field ++ data) ++ rest = (tag :: field) ++ (data ++ rest) := by
      simp only [List.cons_append, List.append_assoc]
    have hoffset : (tag :: (field ++ data)).length - data.length = (tag :: field).length := by
      simp only [List.length_cons, List.length_append]
      omega
    show Value.bin (Extent.within ⟨_, _⟩ _) = _
    rw [Extent.within, hsplit, hoffset, List.drop_left, List.take_left]
  | _ => rfl

/-! ## Fields -/

/-- A field that is all there is what the scan sees of it. -/
theorem field_eq {tag : UInt8} {w : Width} {field : Bytes} (hfield : field.length = w.bytes)
    (rest : Bytes) : (Window.ofBytes (tag :: (field ++ rest))).field w = ofBigEndian field := by
  rw [Window.field_ofBytes, List.drop_one, List.tail_cons, List.take_left' hfield]

theorem scanField_of_field {α : Type} {tag : UInt8} {w : Width} {field : Bytes}
    (hfield : field.length = w.bytes) (rest : Bytes) (value : Nat → Except DecodeError α) :
    Marker.scanField w (.ofBytes (tag :: (field ++ rest))) value
      = (value (ofBigEndian field)).map fun v => .complete v (1 + w.bytes) := by
  have hthere : ¬ (Window.ofBytes (tag :: (field ++ rest))).count < 1 + w.bytes := by
    apply Window.not_count_lt
    simp only [List.length_cons, List.length_append]
    omega
  rw [Marker.scanField, if_neg hthere, field_eq hfield]
  cases value (ofBigEndian field) <;> rfl

theorem scanBlob_of_header {tag : UInt8} {w : Width} {field : Bytes}
    (hfield : field.length = w.bytes) (rest : Bytes) (limit : Option Nat) (offset : Nat) :
    Marker.scanBlob w limit offset (.ofBytes (tag :: (field ++ rest))) Value.bin
      = match limit.filter (· < ofBigEndian field) with
        | some most => .error (.blobTooLarge (ofBigEndian field) most offset)
        | none =>
          if rest.length < ofBigEndian field then .ok .incomplete
          else .ok (.complete (.bin ⟨1 + w.bytes, ofBigEndian field⟩)
            (1 + w.bytes + ofBigEndian field)) := by
  have hcount : (Window.ofBytes (tag :: (field ++ rest))).count = 1 + w.bytes + rest.length := by
    show (tag :: (field ++ rest)).length = _
    simp only [List.length_cons, List.length_append]
    omega
  have hthere : ¬ (Window.ofBytes (tag :: (field ++ rest))).count < 1 + w.bytes := by omega
  rw [Marker.scanBlob, if_neg hthere, field_eq hfield, hcount]
  cases hlimit : limit.filter (· < ofBigEndian field) with
  | some most => simp only [hlimit]
  | none => simp only [hlimit, Nat.add_lt_add_iff_left]

/-- The lower half of the fields stands for the numbers from zero up, the upper half for the negatives. -/
theorem signed_cases (w : Width) (field : Nat) :
    (field < 2 ^ (w.bits - 1) ∧ w.signed field = field) ∨
    (2 ^ (w.bits - 1) ≤ field ∧ w.signed field = (field : Int) - (2 : Int) ^ w.bits) := by
  unfold Width.signed
  simp only [Nat.pow_eq]
  by_cases h : field < 2 ^ (w.bits - 1)
  · exact .inl ⟨h, if_pos h⟩
  · refine .inr ⟨Nat.le_of_not_lt h, ?_⟩
    rw [if_neg h, Int.natCast_pow]
    rfl

/-- A number is told from its field by its range. -/
theorem signed_eq {w : Width} {v : Int} {field : Nat} (hlow : -(2 : Int) ^ (w.bits - 1) ≤ v)
    (hhigh : v < (2 : Int) ^ (w.bits - 1)) (hmod : v % (2 : Int) ^ w.bits = field) :
    w.signed field = v := by
  obtain ⟨h, hs⟩ | ⟨h, hs⟩ := signed_cases w field
  all_goals
    rw [hs]
    cases w <;> simp only [Width.bits, Width.bytes] at * <;> omega

theorem signed_bounds {w : Width} {field : Nat} (hfield : field < 2 ^ w.bits) :
    -(2 : Int) ^ (w.bits - 1) ≤ w.signed field ∧ w.signed field < (2 : Int) ^ (w.bits - 1) ∧
      w.signed field % (2 : Int) ^ w.bits = field := by
  obtain ⟨h, hs⟩ | ⟨h, hs⟩ := signed_cases w field
  all_goals
    rw [hs]
    cases w <;> simp only [Width.bits, Width.bytes] at * <;> omega

theorem ofBigEndian_lt_of_field {w : Width} {field : Bytes} (hfield : field.length = w.bytes) :
    ofBigEndian field < 2 ^ w.bits := by
  have h := ofBigEndian_lt field
  rw [hfield] at h
  rw [Width.bits, Nat.pow_mul]
  exact h

/-! ## The scan of what the grammar knows -/

section
variable (limit : Option Nat) (offset : Nat) (rest : Bytes)

theorem scanBytes_of_marker {b : UInt8} {m : Marker} (h : Marker.ofByte? b = some m) :
    scanBytes limit offset (b :: rest) = m.scan limit offset (.ofBytes (b :: rest)) := by
  simp only [scanBytes, h]

theorem scanBytes_of_unsigned {tag : UInt8} {w : Width} {field : Bytes}
    (hrow : (tag, w) ∈ unsignedRows) (hfield : field.length = w.bytes) :
    scanBytes limit offset (tag :: (field ++ rest))
      = if int64Max < ofBigEndian field then .error (.uint64Overflow (ofBigEndian field) offset)
        else .ok (.complete (.int (ofBigEndian field)) (1 + w.bytes)) := by
  rw [scanBytes_of_marker _ _ _ (ofByte?_of_unsignedRow hrow), Marker.scan, scanField_of_field hfield]
  split <;> rfl

theorem scanBytes_of_signed {tag : UInt8} {w : Width} {field : Bytes}
    (hrow : (tag, w) ∈ signedRows) (hfield : field.length = w.bytes) :
    scanBytes limit offset (tag :: (field ++ rest))
      = .ok (.complete (.int (w.signed (ofBigEndian field))) (1 + w.bytes)) := by
  rw [scanBytes_of_marker _ _ _ (ofByte?_of_signedRow hrow), Marker.scan, scanField_of_field hfield]
  rfl

theorem scanBytes_of_single {field : Bytes} (hfield : field.length = 4) :
    scanBytes limit offset (0xca :: (field ++ rest))
      = .ok (.complete (.float (Binary32.widen ⟨UInt32.ofNat (ofBigEndian field)⟩)) 5) := by
  have hwidth : field.length = Width.w32.bytes := hfield
  have hmarker : Marker.ofByte? 0xca = some .float32 := rfl
  rw [scanBytes_of_marker _ _ _ hmarker, Marker.scan, scanField_of_field hwidth]
  rfl

theorem scanBytes_of_double {field : Bytes} (hfield : field.length = 8) :
    scanBytes limit offset (0xcb :: (field ++ rest))
      = .ok (.complete (.float ⟨UInt64.ofNat (ofBigEndian field)⟩) 9) := by
  have hwidth : field.length = Width.w64.bytes := hfield
  have hmarker : Marker.ofByte? 0xcb = some .float64 := rfl
  rw [scanBytes_of_marker _ _ _ hmarker, Marker.scan, scanField_of_field hwidth]
  rfl

theorem scanBytes_of_header {tag : UInt8} {w : Width} {field : Bytes}
    (hrow : (tag, w) ∈ blobRows) (hfield : field.length = w.bytes) :
    scanBytes limit offset (tag :: (field ++ rest))
      = match limit.filter (· < ofBigEndian field) with
        | some most => .error (.blobTooLarge (ofBigEndian field) most offset)
        | none =>
          if rest.length < ofBigEndian field then .ok .incomplete
          else .ok (.complete (.bin ⟨1 + w.bytes, ofBigEndian field⟩)
            (1 + w.bytes + ofBigEndian field)) := by
  obtain ⟨m, hm, _, hscan⟩ := ofByte?_of_blobRow hrow
  rw [scanBytes_of_marker _ _ _ hm, hscan]
  exact scanBlob_of_header hfield rest limit offset

end

theorem filter_of_allows {limit : Option Nat} {length : Nat} (h : Allows limit length) :
    limit.filter (· < length) = none := by
  cases limit with
  | none => rfl
  | some most =>
    have hle : length ≤ most := h most rfl
    simp only [Option.filter, decide_eq_true_eq, Nat.not_lt_of_le hle, if_false]

theorem filter_of_lt {most length : Nat} (h : most < length) :
    (some most).filter (· < length) = some most := by
  simp only [Option.filter, decide_eq_true_eq, h, if_true]

/-- A token of the table is found as such, whatever comes behind it, if it is not refused. -/
theorem scanBytes_of_token {s : Bytes} {v : Value Bytes} (h : Denotes s v) {limit : Option Nat}
    (hv : Acceptable limit v) (offset : Nat) (rest : Bytes) :
    scanBytes limit offset (s ++ rest)
      = .ok (.complete (v.map (payloadExtent s.length)) s.length) := by
  cases h with
  | fixint b h =>
    rw [List.cons_append, scanBytes_of_marker _ _ _ (ofByte?_of_fixint h)]
    rfl
  | negFixint b h =>
    rw [List.cons_append, scanBytes_of_marker _ _ _ (ofByte?_of_negFixint h), Marker.scan,
      toInt_of_negFixint h]
    rfl
  | nil => rfl
  | no => rfl
  | yes => rfl
  | single field x hfield hx =>
    rw [List.cons_append, scanBytes_of_single _ _ _ hfield, ← Binary32.widens_iff.1 hx, List.length_cons, hfield]
    rfl
  | double field hfield =>
    rw [List.cons_append, scanBytes_of_double _ _ _ hfield, List.length_cons, hfield]
    rfl
  | unsigned tag w field hrow hfield =>
    have hfits : ¬ int64Max < ofBigEndian field := by
      have hle : (ofBigEndian field : Int) ≤ int64Max := hv
      omega
    rw [List.cons_append, scanBytes_of_unsigned _ _ _ hrow hfield, if_neg hfits, List.length_cons,
      hfield, Nat.add_comm]
    rfl
  | signed tag w field v hrow hfield hlow hhigh hmod =>
    rw [List.cons_append, scanBytes_of_signed _ _ _ hrow hfield, signed_eq hlow hhigh hmod,
      List.length_cons, hfield, Nat.add_comm]
    rfl
  | blob tag w field data hrow hfield hdata =>
    have hall : ¬ (data ++ rest).length < data.length := by
      rw [List.length_append]
      omega
    have hlength : (tag :: (field ++ data)).length = 1 + w.bytes + data.length := by
      rw [List.length_cons, List.length_append, hfield]
      omega
    have hextent : payloadExtent (1 + w.bytes + data.length) data = ⟨1 + w.bytes, data.length⟩ := by
      rw [payloadExtent, Nat.add_sub_cancel]
    rw [List.cons_append, List.append_assoc, scanBytes_of_header _ _ _ hrow hfield, hdata,
      filter_of_allows hv, hlength, Value.map, hextent]
    exact if_neg hall

/-! ## Beginnings of tokens -/

theorem fieldRow_cases {tag : UInt8} {w : Width} (h : (tag, w) ∈ fieldRows) :
    (tag, w) ∈ unsignedRows ∨ (tag, w) ∈ signedRows ∨ (tag, w) ∈ blobRows ∨
      (tag = 0xca ∧ w = .w32) ∨ (tag = 0xcb ∧ w = .w64) := by
  simpa [fieldRows, or_assoc] using h

theorem fieldRow_of_blobRow {tag : UInt8} {w : Width} (h : (tag, w) ∈ blobRows) :
    (tag, w) ∈ fieldRows :=
  List.mem_append_left _ (List.mem_append_right _ h)

/-- A tag has one width. -/
theorem fieldRow_unique {tag : UInt8} {w w' : Width} (h : (tag, w) ∈ fieldRows)
    (h' : (tag, w') ∈ fieldRows) : w = w' := by
  have hall : ∀ p ∈ fieldRows, ∀ p' ∈ fieldRows, p.1 = p'.1 → p.2 = p'.2 := by decide
  exact hall _ h _ h' rfl

theorem scanBytes_of_cutField {tag : UInt8} {w : Width} {u : Bytes} (hrow : (tag, w) ∈ fieldRows)
    (hcut : u.length < w.bytes) (limit : Option Nat) (offset : Nat) :
    scanBytes limit offset (tag :: u) = .ok .incomplete := by
  have hcount : (Window.ofBytes (tag :: u)).count < 1 + w.bytes := by
    show (tag :: u).length < 1 + w.bytes
    rw [List.length_cons]
    omega
  obtain hrow | hrow | hrow | ⟨rfl, rfl⟩ | ⟨rfl, rfl⟩ := fieldRow_cases hrow
  · rw [scanBytes_of_marker _ _ _ (ofByte?_of_unsignedRow hrow), Marker.scan]
    exact Marker.scanField_of_lt hcount _
  · rw [scanBytes_of_marker _ _ _ (ofByte?_of_signedRow hrow), Marker.scan]
    exact Marker.scanField_of_lt hcount _
  · obtain ⟨m, hm, _, hscan⟩ := ofByte?_of_blobRow hrow
    rw [scanBytes_of_marker _ _ _ hm, hscan]
    exact Marker.scanBlob_of_lt hcount _ _ _
  · have hmarker : Marker.ofByte? 0xca = some .float32 := rfl
    rw [scanBytes_of_marker _ _ _ hmarker, Marker.scan]
    exact Marker.scanField_of_lt hcount _
  · have hmarker : Marker.ofByte? 0xcb = some .float64 := rfl
    rw [scanBytes_of_marker _ _ _ hmarker, Marker.scan]
    exact Marker.scanField_of_lt hcount _

/-- The beginning of a token lacks bytes, unless the token is refused already. -/
theorem scanBytes_of_beginsToken {limit : Option Nat} {u : Bytes} (h : BeginsToken u)
    (hallowed : ∀ length, DeclaresBlob u length → Allows limit length) (offset : Nat) :
    scanBytes limit offset u = .ok .incomplete := by
  obtain ⟨more, value, hmore, h⟩ := h
  cases u with
  | nil => rfl
  | cons b u =>
    rw [List.cons_append] at h
    generalize hs : b :: (u ++ more) = s at h
    have hshort {front field : Bytes} {n : Nat} (heq : front ++ more = field)
        (hfield : field.length = n) : front.length < n := by
      have hpos : 0 < more.length := List.length_pos_iff.2 hmore
      rw [← hfield, ← heq, List.length_append]
      omega
    cases h with
    | fixint _ _ | negFixint _ _ | nil | no | yes =>
      injection hs with _ hs
      exact absurd (List.append_eq_nil_iff.1 hs).2 hmore
    | single field _ hfield =>
      injection hs with hb hs
      subst hb
      exact scanBytes_of_cutField (w := .w32) (by decide) (hshort hs hfield) limit offset
    | double field hfield =>
      injection hs with hb hs
      subst hb
      exact scanBytes_of_cutField (w := .w64) (by decide) (hshort hs hfield) limit offset
    | unsigned tag w field hrow hfield =>
      injection hs with hb hs
      subst hb
      have hfieldRow : (b, w) ∈ fieldRows := by simp [fieldRows, hrow]
      exact scanBytes_of_cutField hfieldRow (hshort hs hfield) limit offset
    | signed tag w field v hrow hfield _ _ _ =>
      injection hs with hb hs
      subst hb
      have hfieldRow : (b, w) ∈ fieldRows := by simp [fieldRows, hrow]
      exact scanBytes_of_cutField hfieldRow (hshort hs hfield) limit offset
    | blob tag w field data hrow hfield hdata =>
      injection hs with hb hs
      subst hb
      by_cases hheader : u.length < w.bytes
      · exact scanBytes_of_cutField (fieldRow_of_blobRow hrow) hheader limit offset
      · -- The header is all there, so it is the payload that is cut off.
        have hle : field.length ≤ u.length := by omega
        obtain ⟨cut, rfl⟩ : field <+: u :=
          List.prefix_of_prefix_length_le ⟨data, hs.symm⟩ ⟨more, rfl⟩ hle
        rw [List.append_assoc, List.append_cancel_left_eq] at hs
        have hdeclared : Allows limit data.length :=
          hallowed _ ⟨b, w, field, cut, rfl, hrow, hfield, hdata⟩
        rw [scanBytes_of_header _ _ _ hrow hfield, hdata, filter_of_allows hdeclared]
        exact if_pos (hshort hs rfl)

/-! ## Every string -/

theorem scanBytes_of_stands {limit : Option Nat} {offset : Nat} {u : Bytes}
    {answer : Except DecodeError (Scan (Value Extent))} (h : Stands limit offset u answer) :
    scanBytes limit offset u = answer := by
  cases h with
  | unsupported b h hb =>
    obtain ⟨rest, rfl⟩ := List.head?_eq_some_iff.1 h
    simp only [scanBytes, (unsupported_iff b).1 hb]
  | overflow value h hvalue =>
    obtain ⟨field, rest, rfl, hfield, rfl⟩ := h
    have hrow : (0xcf, Width.w64) ∈ unsignedRows := by decide
    rw [scanBytes_of_unsigned _ _ _ hrow hfield, if_pos hvalue]
  | tooLarge length most h hlimit hlength =>
    obtain ⟨tag, w, field, rest, rfl, hrow, hfield, rfl⟩ := h
    rw [scanBytes_of_header _ _ _ hrow hfield, hlimit, filter_of_lt hlength]
  | nothing h =>
    rw [h]
    rfl
  | cutOff h hallowed => exact scanBytes_of_beginsToken h hallowed offset
  | token n v hn h hv =>
    have htoken := scanBytes_of_token h hv offset (u.drop n)
    rwa [List.take_append_drop, List.length_take_of_le hn] at htoken

private theorem tag_cases_ofNat : ∀ n : Fin 256,
    Unsupported (UInt8.ofNat n) ∨ UInt8.ofNat n ≤ 0x7f ∨ 0xe0 ≤ UInt8.ofNat n ∨
      UInt8.ofNat n ∈ [0xc0, 0xc2, 0xc3] ∨ UInt8.ofNat n ∈ fieldRows.map Prod.fst := by
  decide +kernel

/-- A byte is no tag, or a token that no reader refuses, or a tag with a field behind it. -/
theorem tag_cases (limit : Option Nat) (b : UInt8) :
    Unsupported b ∨ (∃ v, Denotes [b] v ∧ Acceptable limit v) ∨ ∃ w, (b, w) ∈ fieldRows := by
  have h := tag_cases_ofNat ⟨b.toNat, b.toNat_lt⟩
  have hb : UInt8.ofNat b.toNat = b := UInt8.ofNat_toNat
  have hlt := b.toNat_lt
  simp only [hb] at h
  obtain h | h | h | h | h := h
  · exact .inl h
  · refine .inr (.inl ⟨_, .fixint b h, ?_⟩)
    show (b.toNat : Int) ≤ (int64Max : Nat)
    unfold int64Max
    omega
  · refine .inr (.inl ⟨_, .negFixint b h, ?_⟩)
    show (b.toNat : Int) - 256 ≤ (int64Max : Nat)
    unfold int64Max
    omega
  · simp only [List.mem_cons, List.not_mem_nil, or_false] at h
    obtain rfl | rfl | rfl := h
    · exact .inr (.inl ⟨_, .nil, trivial⟩)
    · exact .inr (.inl ⟨_, .no, trivial⟩)
    · exact .inr (.inl ⟨_, .yes, trivial⟩)
  · obtain ⟨⟨tag, w⟩, hrow, rfl⟩ := List.mem_map.1 h
    exact .inr (.inr ⟨w, hrow⟩)

/-- Every field is the field of some token. -/
theorem exists_denotes_of_field {tag : UInt8} {w : Width} {field : Bytes}
    (hrow : (tag, w) ∈ fieldRows) (hfield : field.length = w.bytes) :
    ∃ data value, Denotes (tag :: (field ++ data)) value := by
  obtain hrow | hrow | hrow | ⟨rfl, rfl⟩ | ⟨rfl, rfl⟩ := fieldRow_cases hrow
  · exact ⟨[], _, by simpa using .unsigned tag w field hrow hfield⟩
  · obtain ⟨hlow, hhigh, hmod⟩ := signed_bounds (ofBigEndian_lt_of_field hfield)
    exact ⟨[], _, by simpa using .signed tag w field _ hrow hfield hlow hhigh hmod⟩
  · refine ⟨List.replicate (ofBigEndian field) 0, _, .blob tag w field _ hrow hfield ?_⟩
    rw [List.length_replicate]
  · exact ⟨[], _, by simpa using .single field _ hfield (Binary32.widens_widen _)⟩
  · exact ⟨[], _, by simpa using .double field hfield⟩

/-- A field that is cut off begins a token. -/
theorem beginsToken_of_cutField {tag : UInt8} {w : Width} {u : Bytes} (hrow : (tag, w) ∈ fieldRows)
    (hcut : u.length < w.bytes) : BeginsToken (tag :: u) := by
  have hfield : (u ++ List.replicate (w.bytes - u.length) 0).length = w.bytes := by
    rw [List.length_append, List.length_replicate]
    omega
  obtain ⟨data, value, h⟩ := exists_denotes_of_field hrow hfield
  refine ⟨List.replicate (w.bytes - u.length) 0 ++ data, value, ?_, ?_⟩
  · intro hnil
    have hzero := congrArg List.length (List.append_eq_nil_iff.1 hnil).1
    rw [List.length_replicate, List.length_nil] at hzero
    omega
  · rwa [List.cons_append, ← List.append_assoc]

/-- A header that is cut off declares nothing yet. -/
theorem not_declaresBlob_of_cutField {tag : UInt8} {w : Width} {u : Bytes}
    (hrow : (tag, w) ∈ fieldRows) (hcut : u.length < w.bytes) (length : Nat) :
    ¬ DeclaresBlob (tag :: u) length := by
  rintro ⟨tag', w', field, rest, hu, hrow', hfield, _⟩
  injection hu with htag hu
  subst htag hu
  have hw := fieldRow_unique hrow (fieldRow_of_blobRow hrow')
  rw [List.length_append, hfield, hw] at hcut
  omega

/-- Only a 64-bit field holds a number above the largest signed one. -/
theorem uint64_of_lt {tag : UInt8} {w : Width} {field : Bytes} (hrow : (tag, w) ∈ unsignedRows)
    (hfield : field.length = w.bytes) (hlt : int64Max < ofBigEndian field) :
    tag = 0xcf ∧ w = .w64 := by
  have hbound := ofBigEndian_lt_of_field hfield
  simp only [unsignedRows, List.mem_cons, Prod.mk.injEq, List.not_mem_nil, or_false] at hrow
  unfold int64Max at hlt
  obtain ⟨rfl, rfl⟩ | ⟨rfl, rfl⟩ | ⟨rfl, rfl⟩ | ⟨rfl, rfl⟩ := hrow
  · simp only [Width.bits, Width.bytes] at hbound
    omega
  · simp only [Width.bits, Width.bytes] at hbound
    omega
  · simp only [Width.bits, Width.bytes] at hbound
    omega
  · exact ⟨rfl, rfl⟩

/-- A token stands at the front, and no reader with this limit refuses it. -/
theorem exists_stands_of_token {s : Bytes} {v : Value Bytes} (h : Denotes s v)
    {limit : Option Nat} (hv : Acceptable limit v) (offset : Nat) (rest : Bytes) :
    ∃ answer, Stands limit offset (s ++ rest) answer := by
  refine ⟨_, .token s.length v ?_ ?_ hv⟩
  · rw [List.length_append]
    exact Nat.le_add_right _ _
  · rwa [List.take_left]

/-- A header that is all there declares one length. -/
theorem eq_of_declaresBlob {tag : UInt8} {w : Width} {field rest : Bytes}
    (hrow : (tag, w) ∈ blobRows) (hfield : field.length = w.bytes) {length : Nat}
    (h : DeclaresBlob (tag :: (field ++ rest)) length) : length = ofBigEndian field := by
  obtain ⟨tag', w', field', rest', hu, hrow', hfield', rfl⟩ := h
  injection hu with htag hu
  subst htag
  have hw := fieldRow_unique (fieldRow_of_blobRow hrow) (fieldRow_of_blobRow hrow')
  have hsame : field = field' := (List.append_inj hu (by rw [hfield, hfield', hw])).1
  rw [hsame]

/-- Behind the whole header of a blob the blob is too large, or cut off, or there. -/
theorem exists_stands_of_header {tag : UInt8} {w : Width} {field : Bytes}
    (hrow : (tag, w) ∈ blobRows) (hfield : field.length = w.bytes) (limit : Option Nat)
    (offset : Nat) (rest : Bytes) :
    ∃ answer, Stands limit offset (tag :: (field ++ rest)) answer := by
  have hdeclares : DeclaresBlob (tag :: (field ++ rest)) (ofBigEndian field) :=
    ⟨tag, w, field, rest, rfl, hrow, hfield, rfl⟩
  by_cases hallowed : Allows limit (ofBigEndian field)
  · by_cases hcut : rest.length < ofBigEndian field
    · refine ⟨_, .cutOff ⟨List.replicate (ofBigEndian field - rest.length) 0,
        .bin (rest ++ List.replicate (ofBigEndian field - rest.length) 0), ?_, ?_⟩ ?_⟩
      · intro hnil
        have hzero := congrArg List.length hnil
        rw [List.length_replicate, List.length_nil] at hzero
        omega
      · rw [List.cons_append, List.append_assoc]
        refine .blob tag w field _ hrow hfield ?_
        rw [List.length_append, List.length_replicate]
        omega
      · intro length h
        rwa [eq_of_declaresBlob hrow hfield h]
    · have hdata : (rest.take (ofBigEndian field)).length = ofBigEndian field :=
        List.length_take_of_le (by omega)
      have hv : Acceptable limit (.bin (rest.take (ofBigEndian field))) := by
        show Allows limit (rest.take (ofBigEndian field)).length
        rwa [hdata]
      have hstands := exists_stands_of_token (.blob tag w field _ hrow hfield hdata.symm) hv
        offset (rest.drop (ofBigEndian field))
      rwa [List.cons_append, List.append_assoc, List.take_append_drop] at hstands
  · obtain ⟨most, hmost⟩ := Classical.not_forall.1 hallowed
    obtain ⟨hlimit, hlt⟩ := Classical.not_imp.1 hmost
    exact ⟨_, .tooLarge _ most hdeclares hlimit (by omega)⟩

/-- Behind a whole field the grammar knows what stands there. -/
theorem exists_stands_of_field {tag : UInt8} {w : Width} {field : Bytes}
    (hrow : (tag, w) ∈ fieldRows) (hfield : field.length = w.bytes) (limit : Option Nat)
    (offset : Nat) (rest : Bytes) :
    ∃ answer, Stands limit offset (tag :: (field ++ rest)) answer := by
  obtain hrow | hrow | hrow | ⟨rfl, rfl⟩ | ⟨rfl, rfl⟩ := fieldRow_cases hrow
  · by_cases hlt : int64Max < ofBigEndian field
    · obtain ⟨rfl, rfl⟩ := uint64_of_lt hrow hfield hlt
      exact ⟨_, .overflow _ ⟨field, rest, rfl, hfield, rfl⟩ hlt⟩
    · have hv : Acceptable limit (.int (ofBigEndian field)) := by
        show (ofBigEndian field : Int) ≤ (int64Max : Nat)
        omega
      exact exists_stands_of_token (.unsigned tag w field hrow hfield) hv offset rest
  · obtain ⟨hlow, hhigh, hmod⟩ := signed_bounds (ofBigEndian_lt_of_field hfield)
    have hv : Acceptable limit (.int (w.signed (ofBigEndian field))) := by
      show w.signed (ofBigEndian field) ≤ (int64Max : Nat)
      unfold int64Max
      cases w <;> simp only [Width.bits, Width.bytes] at hhigh <;> omega
    exact exists_stands_of_token (.signed tag w field _ hrow hfield hlow hhigh hmod) hv offset rest
  · exact exists_stands_of_header hrow hfield limit offset rest
  · exact exists_stands_of_token (.single field _ hfield (Binary32.widens_widen _)) trivial offset rest
  · exact exists_stands_of_token (.double field hfield) trivial offset rest

/-- The grammar has something to say about every string. -/
theorem exists_stands (limit : Option Nat) (offset : Nat) (u : Bytes) :
    ∃ answer, Stands limit offset u answer := by
  cases u with
  | nil => exact ⟨_, .nothing rfl⟩
  | cons b u =>
    obtain hb | ⟨v, hdenotes, hv⟩ | ⟨w, hrow⟩ := tag_cases limit b
    · exact ⟨_, .unsupported b rfl hb⟩
    · exact exists_stands_of_token hdenotes hv offset u
    · by_cases hcut : u.length < w.bytes
      · refine ⟨_, .cutOff (beginsToken_of_cutField hrow hcut) ?_⟩
        intro length hdeclares
        exact absurd hdeclares (not_declaresBlob_of_cutField hrow hcut length)
      · have hfield : (u.take w.bytes).length = w.bytes := List.length_take_of_le (by omega)
        have hstands := exists_stands_of_field hrow hfield limit offset (u.drop w.bytes)
        rwa [List.take_append_drop] at hstands

/-- A scan answers what the grammar says, and the grammar says one thing only. -/
theorem stands_iff {limit : Option Nat} {offset : Nat} {u : Bytes}
    {answer : Except DecodeError (Scan (Value Extent))} :
    Stands limit offset u answer ↔ scanBytes limit offset u = answer := by
  refine ⟨scanBytes_of_stands, ?_⟩
  intro h
  obtain ⟨found, hfound⟩ := exists_stands limit offset u
  rwa [← h, scanBytes_of_stands hfound]

end MessagePack
