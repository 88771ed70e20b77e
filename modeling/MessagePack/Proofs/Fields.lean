import MessagePack.Proofs.RoundTrip
/-
  Fields of a fixed width. A field is read and written here once more with the arithmetic of a 64-bit machine:
  bytes are shifted in from the right, a sign is spread by a shift to the left and an arithmetic shift back, and of
  the eight bytes of a word the last ones are written. All of this gives the numbers that the fields stand for.

  What is proved:
    1. `Word.toNat_ofField`, `Word.append_eq`: a field read and written by shifts.
    2. `Word.toInt_signExtend`: the two shifts give the number of a field in two's complement.
    3. `bigEndian_ofBigEndian`: writing what was read gives the field again.
    4. `fields_exact`: what fields of each width hold, for integers, lengths and floats.
-/
namespace MessagePack

/-! ## Words -/

namespace Word

/-- The bytes of a field, shifted into a word one after the other. -/
def ofField (field : Bytes) : UInt64 := field.foldl (fun acc b => acc <<< 8 ||| b.toUInt64) 0

/-- The last `n` bytes of a word, most significant byte first. -/
def toBytes : Nat → UInt64 → Bytes
  | 0, _ => []
  | n + 1, x => (x >>> UInt64.ofNat (8 * n)).toUInt8 :: toBytes n x

/-- The number of a field in two's complement: its sign is shifted into the top bit, and back again. -/
def signExtend (w : Width) (raw : UInt64) : Int64 :=
  (raw <<< UInt64.ofNat (64 - w.bits)).toInt64 >>> Int64.ofNat (64 - w.bits)

def readUnsigned (w : Width) (buffer : Bytes) : Except FormatError UInt64 :=
  if buffer.length < w.bytes then
    .error (.unexpectedEnd w.bytes buffer.length)
  else
    .ok (ofField (buffer.take w.bytes))

def readInteger (w : Width) (isSigned : Bool) (buffer : Bytes) : Except FormatError Int64 :=
  match readUnsigned w buffer with
  | .error e => .error e
  | .ok raw =>
    if isSigned then .ok (signExtend w raw)
    else if Int64.maxValue.toUInt64 < raw then .error (.uint64Overflow raw.toNat)
    else .ok raw.toInt64

/-- What was there before, and the last bytes of the word. -/
def append (w : Width) (out : Bytes) (x : UInt64) : Bytes := out ++ (toBytes 8 x).drop (8 - w.bytes)

/-! ## Reading by shifts -/

/-- A byte that is shifted into a word with room for it drops nothing. -/
theorem toNat_shift_or {acc : UInt64} (b : UInt8) (h : acc.toNat * 256 < 2 ^ 64) :
    (acc <<< 8 ||| b.toUInt64).toNat = acc.toNat * 256 + b.toNat := by
  have hshift : (acc <<< 8).toNat = acc.toNat <<< 8 := by
    have height : acc.toNat <<< 8 = acc.toNat * 256 := Nat.shiftLeft_eq _ _
    rw [UInt64.toNat_shiftLeft]
    show acc.toNat <<< 8 % 2 ^ 64 = acc.toNat <<< 8
    rw [height, Nat.mod_eq_of_lt h]
  have hb : b.toNat < 2 ^ 8 := b.toNat_lt
  rw [UInt64.toNat_or, UInt8.toNat_toUInt64, hshift, ← Nat.shiftLeft_add_eq_or_of_lt hb, Nat.shiftLeft_eq]

theorem toNat_foldl (field : Bytes) (acc : UInt64) (h : (acc.toNat + 1) * Nat.pow 256 field.length ≤ 2 ^ 64) :
    (field.foldl (fun (acc : UInt64) b => acc <<< 8 ||| b.toUInt64) acc).toNat
      = acc.toNat * Nat.pow 256 field.length + ofBigEndian field := by
  induction field generalizing acc with
  | nil => exact (Nat.mul_one _).symm
  | cons b field ih =>
    have hpos : 0 < Nat.pow 256 field.length := Nat.pow_pos (by decide)
    rw [pow_succ_length] at h
    have hfirst : (acc.toNat + 1) * 256 ≤ 2 ^ 64 := by
      calc (acc.toNat + 1) * 256
          ≤ (acc.toNat + 1) * (Nat.pow 256 field.length * 256) :=
            Nat.mul_le_mul_left _ (Nat.le_mul_of_pos_left 256 hpos)
        _ ≤ 2 ^ 64 := h
    have hroom : acc.toNat * 256 < 2 ^ 64 := by omega
    have hstep := toNat_shift_or b hroom
    have hb : b.toNat < 256 := b.toNat_lt
    have hrest : (acc.toNat * 256 + b.toNat + 1) * Nat.pow 256 field.length ≤ 2 ^ 64 := by
      calc (acc.toNat * 256 + b.toNat + 1) * Nat.pow 256 field.length
          ≤ ((acc.toNat + 1) * 256) * Nat.pow 256 field.length := Nat.mul_le_mul_right _ (by omega)
        _ = (acc.toNat + 1) * (Nat.pow 256 field.length * 256) := by
            rw [Nat.mul_assoc, Nat.mul_comm 256]
        _ ≤ 2 ^ 64 := h
    rw [List.foldl_cons, ih _ (by rw [hstep]; exact hrest), hstep, ofBigEndian_cons, pow_succ_length, Nat.add_mul,
      Nat.mul_assoc, Nat.mul_comm 256, Nat.add_assoc]

/-- Up to eight bytes, nothing is shifted out of the word. -/
theorem toNat_ofField {field : Bytes} (h : field.length ≤ 8) : (ofField field).toNat = ofBigEndian field := by
  have hfit : Nat.pow 256 field.length ≤ 2 ^ 64 := Nat.pow_le_pow_right (show 0 < 256 by decide) h
  have hfold := toNat_foldl field 0 (by rw [UInt64.toNat_zero, Nat.zero_add, Nat.one_mul]; exact hfit)
  rw [ofField, hfold, UInt64.toNat_zero, Nat.zero_mul, Nat.zero_add]

/-! ## Writing the last bytes -/

theorem toUInt8_shiftRight (x : UInt64) {n : Nat} (h : n < 8) :
    (x >>> UInt64.ofNat (8 * n)).toUInt8 = UInt8.ofNat (x.toNat / Nat.pow 256 n) := by
  have hshift : (UInt64.ofNat (8 * n)).toNat % 64 = 8 * n := by
    rw [UInt64.toNat_ofNat']
    omega
  apply UInt8.toNat_inj.1
  rw [UInt64.toNat_toUInt8, UInt64.toNat_shiftRight, hshift, Nat.shiftRight_eq_div_pow, Nat.pow_mul]
  rfl

theorem toBytes_eq (x : UInt64) {n : Nat} (h : n ≤ 8) : toBytes n x = bigEndian n x.toNat := by
  induction n with
  | zero => rfl
  | succ n ih => rw [toBytes, bigEndian, toUInt8_shiftRight x h, ih (Nat.le_of_succ_le h)]

theorem drop_toBytes (x : UInt64) (m n : Nat) : (toBytes (m + n) x).drop m = toBytes n x := by
  induction m with
  | zero => rw [Nat.zero_add, List.drop_zero]
  | succ m ih =>
    rw [Nat.add_right_comm, toBytes, List.drop_succ_cons]
    exact ih

/-- Of the eight bytes of a word, those of the field are written. -/
theorem append_eq (w : Width) (out : Bytes) (x : UInt64) : append w out x = out ++ w.write x.toNat := by
  have hsplit : 8 = 8 - w.bytes + w.bytes := (Nat.sub_add_cancel w.bytes_le).symm
  have hlast : (toBytes 8 x).drop (8 - w.bytes) = toBytes w.bytes x := by
    conv => lhs; rw [hsplit]
    rw [Nat.add_sub_cancel]
    exact drop_toBytes x _ _
  rw [append, hlast, toBytes_eq x w.bytes_le]
  rfl

/-! ## Spreading the sign -/

theorem toInt_shiftRight (x : Int64) {s : Nat} (h : s < 64) :
    (x >>> Int64.ofNat s).toInt = x.toInt / (2 : Int) ^ s := by
  have hshift : ∀ k : Fin 64, ((Int64.ofNat k.val).toBitVec.smod 64).toNat = k.val := by decide
  rw [← Int64.toInt_toBitVec, Int64.toBitVec_shiftRight, BitVec.sshiftRight', hshift ⟨s, h⟩,
    BitVec.toInt_sshiftRight, Int64.toInt_toBitVec, Int.shiftRight_eq_div_pow, Int.natCast_pow]
  rfl

/-- The top bit of a word is the sign of its number. -/
theorem toInt64_cases (x : UInt64) :
    (x.toNat < 2 ^ 63 ∧ x.toInt64.toInt = x.toNat) ∨
    (2 ^ 63 ≤ x.toNat ∧ x.toInt64.toInt = (x.toNat : Int) - 2 ^ 64) := by
  have hcond : x.toInt64.toInt
      = if 2 * x.toNat < 2 ^ 64 then (x.toNat : Int) else (x.toNat : Int) - ((2 ^ 64 : Nat) : Int) :=
    BitVec.toInt_eq_toNat_cond x.toBitVec
  rcases Nat.lt_or_ge x.toNat (2 ^ 63) with hless | hle
  · rw [if_pos (by omega)] at hcond
    exact .inl ⟨hless, hcond⟩
  · rw [if_neg (by omega)] at hcond
    exact .inr ⟨hle, hcond⟩

/-- A number and the word of its two's complement are the same, up to whole words. -/
theorem dvd_toInt (v : Int64) : (2 : Int) ^ 64 ∣ v.toInt - v.toUInt64.toNat := by
  have hv : v.toUInt64.toInt64 = v := Int64.toInt64_toUInt64 v
  obtain ⟨_, hword⟩ | ⟨_, hword⟩ := toInt64_cases v.toUInt64
  all_goals
    rw [hv] at hword
    rw [hword]
    omega

theorem toNat_shiftLeft (x : UInt64) {s : Nat} (h : s < 64) :
    (x <<< UInt64.ofNat s).toNat = x.toNat * 2 ^ s % 2 ^ 64 := by
  have hshift : (UInt64.ofNat s).toNat % 64 = s := by
    rw [UInt64.toNat_ofNat']
    omega
  rw [UInt64.toNat_shiftLeft, hshift, Nat.shiftLeft_eq]

/-- The shift to the left drops what is above the field, the arithmetic shift back fills up with the sign. -/
theorem toInt_signExtend (w : Width) {raw : UInt64} (h : raw.toNat < 2 ^ w.bits) :
    (signExtend w raw).toInt = w.signed raw.toNat := by
  have hs : 64 - w.bits < 64 := by cases w <;> decide
  have hshifted := toNat_shiftLeft raw hs
  rw [signExtend, toInt_shiftRight _ hs]
  obtain ⟨htop, hword⟩ | ⟨htop, hword⟩ := toInt64_cases (raw <<< UInt64.ofNat (64 - w.bits))
  all_goals
    rw [hword]
    rw [hshifted] at htop ⊢
    obtain ⟨hhalf, hsigned⟩ | ⟨hhalf, hsigned⟩ := signed_cases w raw.toNat
    all_goals
      rw [hsigned]
      cases w <;>
        simp only [Width.bits, Width.bytes, Nat.reduceMul, Nat.reduceSub] at h hhalf htop ⊢ <;> omega

/-- The bits of a negative number in a field of sixteen. -/
example : signExtend .w16 0xfffe = -2 := by decide

theorem readUnsigned_eq (w : Width) (buffer : Bytes) :
    w.readUnsigned buffer = (readUnsigned w buffer).map UInt64.toNat := by
  unfold Width.readUnsigned readUnsigned
  split
  · rfl
  · have hfield : (buffer.take w.bytes).length ≤ 8 := Nat.le_trans (List.length_take_le _ _) w.bytes_le
    rw [Except.map, toNat_ofField hfield]

/-- A word that was read from a field is no greater than the field can say. -/
theorem lt_of_readUnsigned {w : Width} {buffer : Bytes} {raw : UInt64} (h : readUnsigned w buffer = .ok raw) :
    raw.toNat < 2 ^ w.bits := by
  unfold readUnsigned at h
  split at h
  · cases h
  case isFalse hlength =>
    cases h
    have hfield : (buffer.take w.bytes).length = w.bytes := List.length_take_of_le (Nat.le_of_not_lt hlength)
    rw [toNat_ofField (Nat.le_trans (Nat.le_of_eq hfield) w.bytes_le)]
    exact ofBigEndian_lt_of_field hfield

theorem readInteger_eq (w : Width) (isSigned : Bool) (buffer : Bytes) :
    w.readInteger isSigned buffer = (readInteger w isSigned buffer).map Int64.toInt := by
  rw [Width.readInteger, readUnsigned_eq, readInteger]
  cases hread : readUnsigned w buffer with
  | error e => rfl
  | ok raw =>
    simp only [Except.map]
    cases isSigned with
    | true =>
      simp only [if_true]
      rw [toInt_signExtend w (lt_of_readUnsigned hread)]
    | false =>
      have hmax : Int64.maxValue.toUInt64 < raw ↔ int64Max < raw.toNat := UInt64.lt_iff_toNat_lt
      simp only [hmax, Bool.false_eq_true, if_false]
      split
      · rfl
      · next hle =>
        obtain ⟨_, hword⟩ | ⟨htop, _⟩ := toInt64_cases raw
        · exact congrArg Except.ok hword.symm
        · simp only [int64Max] at hle
          omega

end Word

/-! ## Fields of each width -/

/-- What is above the field is dropped. -/
theorem bigEndian_add (n k x : Nat) : bigEndian n (k * Nat.pow 256 n + x) = bigEndian n x := by
  induction n generalizing k with
  | zero => rfl
  | succ n ih =>
    have hpos : 0 < Nat.pow 256 n := Nat.pow_pos (by decide)
    have hsplit : k * Nat.pow 256 (n + 1) + x = (k * 256) * Nat.pow 256 n + x := by
      rw [Nat.mul_assoc, Nat.mul_comm 256]
      rfl
    have hdigit : UInt8.ofNat (k * 256 + x / Nat.pow 256 n) = UInt8.ofNat (x / Nat.pow 256 n) := by
      apply UInt8.toNat_inj.1
      rw [UInt8.toNat_ofNat', UInt8.toNat_ofNat', Nat.mul_comm k]
      exact Nat.mul_add_mod _ _ _
    rw [hsplit, bigEndian, bigEndian, ih, Nat.add_comm, Nat.add_mul_div_right _ _ hpos,
      Nat.add_comm (x / Nat.pow 256 n), hdigit]

/-- Writing what a field spells gives the field again. -/
theorem bigEndian_ofBigEndian (field : Bytes) : bigEndian field.length (ofBigEndian field) = field := by
  induction field with
  | nil => rfl
  | cons b field ih =>
    have hless := ofBigEndian_lt field
    have hpos : 0 < Nat.pow 256 field.length := Nat.pow_pos (by decide)
    have hdigit : (b.toNat * Nat.pow 256 field.length + ofBigEndian field) / Nat.pow 256 field.length
        = b.toNat := by
      rw [Nat.mul_comm, Nat.mul_add_div hpos, Nat.div_eq_of_lt hless, Nat.add_zero]
    rw [List.length_cons, ofBigEndian_cons, bigEndian, hdigit, bigEndian_add, ih, UInt8.ofNat_toNat]

namespace Width
variable (w : Width)

theorem readUnsigned_of_field {field : Bytes} (h : field.length = w.bytes) (rest : Bytes) :
    w.readUnsigned (field ++ rest) = .ok (ofBigEndian field) := by
  have hthere : ¬ (field ++ rest).length < w.bytes := by
    rw [List.length_append]
    omega
  rw [readUnsigned, if_neg hthere, List.take_left' h]

theorem readUnsigned_of_short {buffer : Bytes} (h : buffer.length < w.bytes) :
    w.readUnsigned buffer = .error (.unexpectedEnd w.bytes buffer.length) := if_pos h

theorem readUnsigned_write (x : Nat) (rest : Bytes) :
    w.readUnsigned (w.write x ++ rest) = .ok (x % 2 ^ w.bits) := by
  rw [w.readUnsigned_of_field (w.length_write x) rest, write, ofBigEndian_bigEndian, bits, Nat.pow_mul]
  rfl

/-- The numbers that a signed field holds. -/
def InRange (v : Int) : Prop := w.minSigned ≤ v ∧ v ≤ w.maxSigned

theorem inRange_iff {v : Int} :
    w.InRange v ↔ -(2 : Int) ^ (w.bits - 1) ≤ v ∧ v < (2 : Int) ^ (w.bits - 1) := by
  rw [← holdsSigned_iff, holdsSigned, Bool.and_eq_true, decide_eq_true_iff, decide_eq_true_iff]
  rfl

/-- In the range of a signed field there is one number for each field. -/
theorem signed_unique {v : Int} {field : Nat} (hv : w.InRange v) (hfield : field < 2 ^ w.bits)
    (h : (2 : Int) ^ w.bits ∣ v - field) : w.signed field = v := by
  obtain ⟨hlow, hhigh⟩ := w.inRange_iff.1 hv
  apply signed_eq hlow hhigh
  have hsame : v % (2 : Int) ^ w.bits = (field : Int) % (2 : Int) ^ w.bits :=
    Int.emod_eq_emod_iff_emod_sub_eq_zero.2 (Int.emod_eq_zero_of_dvd h)
  rw [hsame]
  apply Int.emod_eq_of_lt (Int.natCast_nonneg _)
  exact_mod_cast hfield

/-- A number in the range of a field is read back from the low bits of its two's complement. -/
theorem signed_toUInt64 {v : Int64} (hv : w.InRange v.toInt) :
    w.signed (v.toUInt64.toNat % 2 ^ w.bits) = v.toInt := by
  have hpos : 0 < 2 ^ w.bits := Nat.pow_pos (by decide)
  apply w.signed_unique hv (Nat.mod_lt _ hpos)
  have hbits : (2 : Int) ^ w.bits ∣ 2 ^ 64 := by cases w <;> decide
  have hlow : (2 : Int) ^ w.bits ∣ (v.toUInt64.toNat : Int) - (v.toUInt64.toNat % 2 ^ w.bits : Nat) := by
    rw [Int.natCast_emod, Int.natCast_pow]
    exact Int.dvd_self_sub_emod
  have hsplit : v.toInt - (v.toUInt64.toNat % 2 ^ w.bits : Nat) = (v.toInt - v.toUInt64.toNat)
      + ((v.toUInt64.toNat : Int) - (v.toUInt64.toNat % 2 ^ w.bits : Nat)) := by omega
  rw [hsplit]
  exact Int.dvd_add (Int.dvd_trans hbits (Word.dvd_toInt v)) hlow

theorem readInteger_of_field (isSigned : Bool) {field : Bytes} (h : field.length = w.bytes) (rest : Bytes) :
    w.readInteger isSigned (field ++ rest)
      = if isSigned then .ok (w.signed (ofBigEndian field))
        else if int64Max < ofBigEndian field then .error (.uint64Overflow (ofBigEndian field))
        else .ok (ofBigEndian field) := by
  rw [readInteger, w.readUnsigned_of_field h rest]

end Width

/-- How numbers are written into fields of a width and read from them, whatever stands in front of the field and
behind it. -/
structure ExactFields (w : Width) : Prop where
  /-- The shifts of a machine word give the same bytes and the same numbers. -/
  word_append : ∀ out x, Word.append w out x = out ++ w.write x.toNat
  word_unsigned : ∀ buffer, w.readUnsigned buffer = (Word.readUnsigned w buffer).map UInt64.toNat
  word_integer : ∀ isSigned buffer,
    w.readInteger isSigned buffer = (Word.readInteger w isSigned buffer).map Int64.toInt
  append_length : ∀ (out : Bytes) (x : UInt64),
    (Word.append w out x).take out.length = out ∧ (Word.append w out x).length = out.length + w.bytes
  append_read : ∀ (out rest : Bytes) (x : UInt64),
    w.readUnsigned ((Word.append w out x).drop out.length ++ rest) = .ok (x.toNat % 2 ^ w.bits)
  read_append : ∀ out field rest : Bytes, field.length = w.bytes → ∃ x : UInt64,
    w.readUnsigned (field ++ rest) = .ok x.toNat ∧ Word.append w out x = out ++ field
  signed : ∀ field rest : Bytes, field.length = w.bytes → ∃ v,
    w.readInteger true (field ++ rest) = .ok v ∧
    ∀ v', v' = v ↔ w.InRange v' ∧ (2 : Int) ^ w.bits ∣ v' - ofBigEndian field
  append_signed : ∀ (out rest : Bytes) (v : Int64), w.InRange v.toInt →
    w.readInteger true ((Word.append w out v.toUInt64).drop out.length ++ rest) = .ok v.toInt
  unsigned : ∀ field rest : Bytes, field.length = w.bytes → ∃ n,
    w.readUnsigned (field ++ rest) = .ok n ∧
    (n ≤ int64Max → w.readInteger false (field ++ rest) = .ok n) ∧
    ∀ e, w.readInteger false (field ++ rest) = .error e ↔ int64Max < n ∧ e = .uint64Overflow n
  short : ∀ buffer : Bytes, buffer.length < w.bytes →
    w.readUnsigned buffer = .error (.unexpectedEnd w.bytes buffer.length) ∧
    (∀ isSigned, w.readInteger isSigned buffer = .error (.unexpectedEnd w.bytes buffer.length)) ∧
    w.readLength buffer = .error (.unexpectedEnd w.bytes buffer.length)

theorem exactFields (w : Width) : ExactFields w := by
  refine ⟨Word.append_eq w, Word.readUnsigned_eq w, Word.readInteger_eq w, ?append_length, ?append_read,
    ?read_append, ?signed, ?append_signed, ?unsigned, ?short⟩
  case append_length =>
    intro out x
    rw [Word.append_eq, List.take_left, List.length_append, w.length_write]
    exact ⟨rfl, rfl⟩
  case append_read =>
    intro out rest x
    rw [Word.append_eq, List.drop_left]
    exact w.readUnsigned_write x.toNat rest
  case read_append =>
    intro out field rest hfield
    have hword := Word.toNat_ofField (Nat.le_trans (Nat.le_of_eq hfield) w.bytes_le)
    refine ⟨Word.ofField field, ?_, ?_⟩
    · rw [w.readUnsigned_of_field hfield, hword]
    · rw [Word.append_eq, hword, Width.write, ← hfield, bigEndian_ofBigEndian]
  case signed =>
    intro field rest hfield
    have hless := ofBigEndian_lt_of_field hfield
    refine ⟨w.signed (ofBigEndian field), w.readInteger_of_field true hfield rest, ?_⟩
    intro v
    refine ⟨?_, fun hv => (w.signed_unique hv.1 hless hv.2).symm⟩
    rintro rfl
    obtain ⟨hlow, hhigh, hmod⟩ := signed_bounds hless
    exact ⟨w.inRange_iff.2 ⟨hlow, hhigh⟩, Int.dvd_self_sub_of_emod_eq hmod⟩
  case append_signed =>
    intro out rest v hv
    rw [Word.append_eq, List.drop_left, Width.readInteger, w.readUnsigned_write]
    exact congrArg Except.ok (w.signed_toUInt64 hv)
  case unsigned =>
    intro field rest hfield
    refine ⟨ofBigEndian field, w.readUnsigned_of_field hfield rest, ?_⟩
    rw [w.readInteger_of_field false hfield rest]
    simp only [Bool.false_eq_true, if_false]
    split
    · next hover =>
      refine ⟨fun hle => absurd hover (Nat.not_lt_of_le hle), fun e => ⟨?_, ?_⟩⟩
      · intro he
        exact ⟨hover, (Except.error.inj he).symm⟩
      · rintro ⟨_, rfl⟩
        rfl
    · next hover =>
      refine ⟨fun _ => rfl, fun e => ⟨?_, fun he => absurd he.1 hover⟩⟩
      intro he
      cases he
  case short =>
    intro buffer hshort
    have hread := w.readUnsigned_of_short hshort
    refine ⟨hread, ?_, ?_⟩
    · intro isSigned
      rw [Width.readInteger, hread]
    · rw [Width.readLength, hread]

/-- What the readers of floats give back. A float is known by its bits, a payload of a NaN with them. -/
structure ExactFloats : Prop where
  single : ∀ (w : Writer) (x : Binary32) (rest : Bytes), ∃ field,
    w.put (.float32 x) = (none, ⟨w.bytes ++ Marker.float32.toByte :: field⟩) ∧ field.length = 4 ∧
    Binary32.read (field ++ rest) = .ok x
  double : ∀ (w : Writer) (x : Binary64) (rest : Bytes), ∃ field,
    w.put (.float64 x) = (none, ⟨w.bytes ++ Marker.float64.toByte :: field⟩) ∧ field.length = 8 ∧
    Binary64.read (field ++ rest) = .ok x
  short_single : ∀ buffer : Bytes, buffer.length < 4 →
    Binary32.read buffer = .error (.unexpectedEnd 4 buffer.length)
  short_double : ∀ buffer : Bytes, buffer.length < 8 →
    Binary64.read buffer = .error (.unexpectedEnd 8 buffer.length)

theorem exactFloats : ExactFloats := by
  refine ⟨?single, ?double, ?short_single, ?short_double⟩
  case single =>
    intro w x rest
    refine ⟨Width.w32.write x.bits.toNat, rfl, Width.w32.length_write _, ?_⟩
    have hbits : x.bits.toNat % 2 ^ Width.w32.bits = x.bits.toNat := Nat.mod_eq_of_lt x.bits.toNat_lt
    rw [Binary32.read, Width.w32.readUnsigned_write, hbits, Except.map, UInt32.ofNat_toNat]
  case double =>
    intro w x rest
    refine ⟨Width.w64.write x.bits.toNat, rfl, Width.w64.length_write _, ?_⟩
    have hbits : x.bits.toNat % 2 ^ Width.w64.bits = x.bits.toNat := Nat.mod_eq_of_lt x.bits.toNat_lt
    rw [Binary64.read, Width.w64.readUnsigned_write, hbits, Except.map, UInt64.ofNat_toNat]
  case short_single =>
    intro buffer hshort
    rw [Binary32.read, Width.w32.readUnsigned_of_short hshort]
    rfl
  case short_double =>
    intro buffer hshort
    rw [Binary64.read, Width.w64.readUnsigned_of_short hshort]
    rfl

/-- Fields are exact at every width: what is read is what was written, up to the bits that a field has no room for;
the signed numbers and the unsigned ones are each the only ones that fit; floats keep their bits; and a buffer that is
too short is refused with both lengths. -/
theorem fields_exact : (∀ w : Width, ExactFields w) ∧ ExactFloats := ⟨exactFields, exactFloats⟩

end MessagePack
