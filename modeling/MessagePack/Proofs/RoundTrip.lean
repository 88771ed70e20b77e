import MessagePack.Proofs.Grammar
import MessagePack.Proofs.Room
import MessagePack.Specimen
/-
  Round trips: what a writer has written, read back by a reader without a limit, also when the stream breaks
  off somewhere.

  The encoders are compared with the grammar alone, and the grammar is what the scan goes by. So no width or
  range of an encoder is ever held against one of the reader.

  What is proved:
    1. `denotes_token`: what a call appends is a token of the table and denotes the value of the call.
    2. `take_written`: the beginning of a stream is made of whole tokens and a part of the next.
    3. `tokenise_written`: such a stream is read as the values of the calls, up to the first that is too
       large.
    4. `Writer.reads_back`: so does every reader find it, however the stream comes.
-/
namespace MessagePack

/-! ## What a call appends -/

namespace Entry

/-- A call that appends a token, with an argument of the type that the call takes. -/
def IsCall : Entry → Prop
  | integer v => -(2 : Int) ^ 63 ≤ v ∧ v < (2 : Int) ^ 63
  | unsigned n => n ≤ wordMax
  | raw _ => False
  | _ => True

/-- The bytes that an entry appends; none if it is refused. -/
def token (e : Entry) : Bytes := e.encode.toOption.getD []

/-- A call that is not refused. -/
structure Succeeds (e : Entry) : Prop where
  isCall : e.IsCall
  encode_eq : e.encode = .ok e.token

/-- What a call means, whatever its token looks like. A single means the double that stands for the same. -/
inductive Means : Entry → Value Bytes → Prop where
  | nil : Means .nil .nil
  | bool (b : Bool) : Means (.bool b) (.bool b)
  | integer (v : Int) : Means (.integer v) (.int v)
  | unsigned (n : Nat) : Means (.unsigned n) (.int n)
  | integerAs (m : Marker) (v : Int) : Means (.integerAs m v) (.int v)
  | float32 (x : Binary32) (y : Binary64) (h : x.Widens y) : Means (.float32 x) (.float y)
  | float64 (x : Binary64) : Means (.float64 x) (.float x)
  | blob (data : Bytes) : Means (.blob data) (.bin data)
  | blobAs (m : Marker) (data : Bytes) : Means (.blobAs m data) (.bin data)

theorem means_iff {e : Entry} {v : Value Bytes} : e.Means v ↔ e.value? = some v := by
  refine ⟨?_, ?_⟩
  · intro h
    cases h with
    | float32 x y h => rw [Binary32.widens_iff.1 h, value?]
    | nil | bool | integer | unsigned | integerAs | float64 | blob | blobAs => rfl
  · intro h
    cases e with
    | raw data => cases h
    | float32 x =>
      cases h
      exact .float32 x _ x.widens_widen
    | nil | bool | integer | unsigned | integerAs | float64 | blob | blobAs =>
      cases h
      constructor

/-- The number in the entry if no signed field can hold it. -/
def overflow? (e : Entry) : Option Nat :=
  match e.value? with
  | some (.int v) => if int64Max < v then some v.toNat else none
  | _ => none

/-- What has to be read of the entry. -/
def reading? (e : Entry) : Option (Reading (Value Bytes)) :=
  e.value?.map fun v => ⟨v, e.token.length⟩

end Entry

/-! ## Encoders and the grammar -/

namespace Width

/-- A field spells the number in it, if that fits. -/
theorem ofBigEndian_write {w : Width} {x : Nat} (h : x ≤ w.max) : ofBigEndian (w.write x) = x := by
  rw [write, ofBigEndian_bigEndian]
  apply Nat.mod_eq_of_lt
  cases w <;> simp only [max, bits, bytes, Nat.pow_eq] at h ⊢ <;> omega

theorem le_leastUnsigned {n : Nat} (h : n ≤ wordMax) : n ≤ (leastUnsigned n).max := by
  unfold leastUnsigned
  repeat' split
  all_goals assumption

theorem holdsSigned_iff {w : Width} {v : Int} :
    w.holdsSigned v = true ↔ -(2 : Int) ^ (w.bits - 1) ≤ v ∧ v < (2 : Int) ^ (w.bits - 1) := by
  have hcast : ((Nat.pow 2 (w.bits - 1) : Nat) : Int) = (2 : Int) ^ (w.bits - 1) :=
    Int.natCast_pow 2 _
  unfold holdsSigned minSigned maxSigned
  rw [Bool.and_eq_true, decide_eq_true_iff, decide_eq_true_iff, hcast, Int.le_sub_one_iff]

theorem holdsSigned_leastSigned {v : Int} (hlow : -(2 : Int) ^ 63 ≤ v) (hhigh : v < (2 : Int) ^ 63) :
    (leastSigned v).holdsSigned v = true := by
  unfold leastSigned
  repeat' split
  · assumption
  · assumption
  · assumption
  · exact holdsSigned_iff.2 ⟨hlow, hhigh⟩

end Width

namespace Encoding

private theorem fixint_byte : ∀ n : Fin 128,
    (Marker.fixint (UInt8.ofNat n)).toByte ≤ 0x7f ∧ (Marker.fixint (UInt8.ofNat n)).toByte.toNat = n := by
  decide +kernel

private theorem negFixint_byte : ∀ n : Fin 32,
    0xe0 ≤ (Marker.negFixint (Int8.ofInt (-1 - n))).toByte ∧
      ((Marker.negFixint (Int8.ofInt (-1 - n))).toByte.toNat : Int) - 256 = -1 - n := by
  decide +kernel

theorem denotes_fixint {n : Nat} (h : n ≤ 127) :
    Denotes [(Marker.fixint (UInt8.ofNat n)).toByte] (.int n) := by
  obtain ⟨hrange, hvalue⟩ := fixint_byte ⟨n, by omega⟩
  have htoken := Denotes.fixint _ hrange
  rw [hvalue] at htoken
  exact htoken

theorem denotes_negFixint {v : Int} (hlow : -32 ≤ v) (hneg : v < 0) :
    Denotes [(Marker.negFixint (Int8.ofInt v)).toByte] (.int v) := by
  have hv : -1 - ((-1 - v).toNat : Int) = v := by omega
  obtain ⟨hrange, hvalue⟩ := negFixint_byte ⟨(-1 - v).toNat, by omega⟩
  simp only [hv] at hrange hvalue
  have htoken := Denotes.negFixint _ hrange
  rw [hvalue] at htoken
  exact htoken

theorem denotes_unsignedToken {w : Width} {n : Nat} (h : n ≤ w.max) :
    Denotes (unsignedToken w n) (.int n) := by
  have hrow : ((Marker.uint w).toByte, w) ∈ unsignedRows := by cases w <;> decide
  have htoken := Denotes.unsigned _ w (w.write n) hrow (w.length_write n)
  rw [Width.ofBigEndian_write h] at htoken
  exact htoken

theorem denotes_signedToken {w : Width} {v : Int} (h : w.holdsSigned v = true) :
    Denotes (signedToken w v) (.int v) := by
  have hrow : ((Marker.sint w).toByte, w) ∈ signedRows := by cases w <;> decide
  obtain ⟨hlow, hhigh⟩ := Width.holdsSigned_iff.1 h
  have hfield : (w.ofSigned v : Int) = v % (2 : Int) ^ w.bits := by
    have hcast : ((Nat.pow 2 w.bits : Nat) : Int) = (2 : Int) ^ w.bits := Int.natCast_pow 2 w.bits
    have hnonneg : 0 ≤ v % (2 : Int) ^ w.bits := by
      apply Int.emod_nonneg
      exact Int.ne_of_gt (Int.pow_pos (by decide))
    rw [Width.ofSigned, hcast, Int.toNat_of_nonneg hnonneg]
  have hmax : w.ofSigned v ≤ w.max := by
    have hlt : v % (2 : Int) ^ w.bits < (2 : Int) ^ w.bits :=
      Int.emod_lt_of_pos _ (Int.pow_pos (by decide))
    rw [← hfield] at hlt
    cases w <;> simp only [Width.max, Width.bits, Width.bytes, Nat.pow_eq] at hlt ⊢ <;> omega
  refine .signed _ w (w.write (w.ofSigned v)) v hrow (w.length_write _) hlow hhigh ?_
  rw [Width.ofBigEndian_write hmax, hfield]

theorem denotes_unsigned {n : Nat} (h : n ≤ wordMax) : Denotes (unsigned n) (.int n) := by
  unfold unsigned
  split
  · exact denotes_fixint ‹_›
  · exact denotes_unsignedToken (Width.le_leastUnsigned h)

theorem denotes_integer {v : Int} (hlow : -(2 : Int) ^ 63 ≤ v) (hhigh : v < (2 : Int) ^ 63) :
    Denotes (integer v) (.int v) := by
  unfold integer
  split
  · next hnonneg =>
    have hword : v.toNat ≤ wordMax := by
      unfold wordMax
      omega
    have htoken := denotes_unsigned hword
    rwa [Int.toNat_of_nonneg hnonneg] at htoken
  · split
    · exact denotes_negFixint ‹_› (by omega)
    · exact denotes_signedToken (Width.holdsSigned_leastSigned hlow hhigh)

/-- A marker that was forced on a number carries it, or is refused. -/
theorem denotes_integerAs {m : Marker} {v : Int} {t : Bytes} (h : integerAs m v = .ok t) :
    Denotes t (.int v) := by
  unfold integerAs at h
  split at h
  · split at h
    · next hrange =>
      obtain ⟨hnonneg, hle⟩ := hrange
      injection h with h
      rw [← h]
      have htoken := denotes_fixint (n := v.toNat) (by omega)
      rwa [Int.toNat_of_nonneg hnonneg] at htoken
    · cases h
  · split at h
    · next hrange =>
      injection h with h
      rw [← h]
      exact denotes_negFixint hrange.1 hrange.2
    · cases h
  · next w =>
    split at h
    · next hrange =>
      obtain ⟨hnonneg, hle⟩ := hrange
      injection h with h
      rw [← h]
      have htoken := denotes_unsignedToken (w := w) (n := v.toNat) (by omega)
      rwa [Int.toNat_of_nonneg hnonneg] at htoken
    · cases h
  · split at h
    · next hholds =>
      injection h with h
      rw [← h]
      exact denotes_signedToken hholds
    · cases h
  · cases h

theorem denotes_float32 (x : Binary32) : Denotes (float32 x) (.float x.widen) := by
  have hmax : x.bits.toNat ≤ Width.w32.max := Nat.le_sub_one_of_lt x.bits.toNat_lt
  refine .single _ _ (Width.w32.length_write x.bits.toNat) ?_
  rw [Width.ofBigEndian_write hmax, UInt32.ofNat_toNat]
  exact x.widens_widen

theorem denotes_float64 (x : Binary64) : Denotes (float64 x) (.float x) := by
  have htoken := Denotes.double _ (Width.w64.length_write x.bits.toNat)
  have hmax : x.bits.toNat ≤ Width.w64.max := Nat.le_sub_one_of_lt x.bits.toNat_lt
  rw [Width.ofBigEndian_write hmax, UInt64.ofNat_toNat] at htoken
  exact htoken

theorem denotes_blobAs {m : Marker} {data t : Bytes} (h : blobAs m data = .ok t) :
    Denotes t (.bin data) := by
  unfold blobAs at h
  split at h
  · cases h
  · next w hm =>
    have hrow : (m.toByte, w) ∈ blobRows := by
      cases m <;> simp only [Marker.lengthField, reduceCtorEq, Option.some.injEq] at hm
      all_goals
        subst hm
        decide
    split at h
    · next hmax =>
      injection h with h
      rw [← h]
      exact .blob _ w _ data hrow (w.length_write _) (Width.ofBigEndian_write hmax)
    · cases h

theorem denotes_blob {data t : Bytes} (h : blob data = .ok t) : Denotes t (.bin data) := by
  unfold blob at h
  repeat' split at h
  all_goals first
    | exact denotes_blobAs h
    | cases h

end Encoding

/-- What a call appends is a token of the table, and denotes the value of the call. -/
theorem Entry.denotes_token {e : Entry} (h : e.Succeeds) :
    ∃ v, e.value? = some v ∧ Denotes e.token v := by
  obtain ⟨hcall, hencode⟩ := h
  cases e with
  | nil => exact ⟨_, rfl, .nil⟩
  | bool b =>
    cases b with
    | false => exact ⟨_, rfl, .no⟩
    | true => exact ⟨_, rfl, .yes⟩
  | integer v => exact ⟨_, rfl, Encoding.denotes_integer hcall.1 hcall.2⟩
  | unsigned n => exact ⟨_, rfl, Encoding.denotes_unsigned hcall⟩
  | integerAs m v => exact ⟨_, rfl, Encoding.denotes_integerAs hencode⟩
  | float32 x => exact ⟨_, rfl, Encoding.denotes_float32 x⟩
  | float64 x => exact ⟨_, rfl, Encoding.denotes_float64 x⟩
  | blob data => exact ⟨_, rfl, Encoding.denotes_blob hencode⟩
  | blobAs m data => exact ⟨_, rfl, Encoding.denotes_blobAs hencode⟩
  | raw data => exact absurd hcall id

/-! ## Streams -/

/-- The bytes that some calls append. -/
def written (entries : List Entry) : Bytes := entries.flatMap Entry.token

/-- The calls whose tokens lie entirely within the first `n` bytes. -/
def wholeWithin (n : Nat) : List Entry → List Entry
  | [] => []
  | e :: entries =>
    if e.token.length ≤ n then e :: wholeWithin (n - e.token.length) entries else []

/-- The calls before the first number that no signed field can hold. -/
def readable (entries : List Entry) : List Entry :=
  entries.takeWhile fun e => e.overflow?.isNone

theorem readable_cons_of_some {e : Entry} {value : Nat} (h : e.overflow? = some value)
    (entries : List Entry) : readable (e :: entries) = [] := by
  simp [readable, h]

theorem readable_cons_of_none {e : Entry} (h : e.overflow? = none) (entries : List Entry) :
    readable (e :: entries) = e :: readable entries := by
  simp [readable, h]

/-- What a reader without a limit has to find in the first `n` bytes of a stream: the values of the calls
whose tokens are there, up to the first number that is too large, which is refused at the offset of its
token. -/
def streamOf (n : Nat) (entries : List Entry) : Tokenisation :=
  let read := readable (wholeWithin n entries)
  { tokens := read.filterMap Entry.reading?
    rest := ((written entries).take n).drop (written read).length
    refusal := ((wholeWithin n entries).findSome? Entry.overflow?).map fun value =>
      .uint64Overflow value (written read).length }

theorem bytes_foldl_put (entries : List Entry) (w : Writer) :
    (entries.foldl (fun w entry => (w.put entry).2) w).bytes = w.bytes ++ written entries := by
  induction entries generalizing w with
  | nil => exact (List.append_nil _).symm
  | cons e entries ih =>
    have hput : (w.put e).2.bytes = w.bytes ++ e.token := by
      unfold Writer.put Entry.token
      cases e.encode with
      | error refusal => exact (List.append_nil _).symm
      | ok t => rfl
    rw [List.foldl_cons, ih, hput, List.append_assoc]
    rfl

/-- What a writer holds is what the calls have appended. -/
theorem bytes_ofEntries (entries : List Entry) : (Writer.ofEntries entries).bytes = written entries :=
  bytes_foldl_put entries .empty

theorem mem_of_mem_wholeWithin {n : Nat} {entries : List Entry} {e : Entry}
    (h : e ∈ wholeWithin n entries) : e ∈ entries := by
  induction entries generalizing n with
  | nil => exact h
  | cons first entries ih =>
    unfold wholeWithin at h
    split at h
    · obtain rfl | hrest := List.mem_cons.1 h
      · exact List.mem_cons_self
      · exact List.mem_cons_of_mem _ (ih hrest)
    · cases h

/-- Where all bytes are there, all tokens are whole. -/
theorem wholeWithin_of_le {n : Nat} {entries : List Entry} (h : (written entries).length ≤ n) :
    wholeWithin n entries = entries := by
  induction entries generalizing n with
  | nil => rfl
  | cons e entries ih =>
    have hlength : (written (e :: entries)).length = e.token.length + (written entries).length :=
      List.length_append
    have hfirst : e.token.length ≤ n := by omega
    rw [wholeWithin, if_pos hfirst, ih (by omega)]

/-- The end of a stream that breaks off: nothing, or the beginning of a token. -/
def BrokenOff (part : Bytes) : Prop := part = [] ∨ BeginsToken part

/-- The beginning of a stream is made of whole tokens and a part of the next. -/
theorem take_written {entries : List Entry} (h : ∀ e ∈ entries, e.Succeeds) (n : Nat) :
    ∃ part, BrokenOff part ∧
      (written entries).take n = written (wholeWithin n entries) ++ part := by
  induction entries generalizing n with
  | nil => exact ⟨[], .inl rfl, List.take_nil⟩
  | cons e entries ih =>
    obtain ⟨he, hrest⟩ := List.forall_mem_cons.1 h
    have hsplit : written (e :: entries) = e.token ++ written entries := rfl
    unfold wholeWithin
    split
    · next hwhole =>
      obtain ⟨part, hpart, htake⟩ := ih hrest (n - e.token.length)
      refine ⟨part, hpart, ?_⟩
      rw [hsplit, List.take_append, List.take_of_length_le hwhole, htake, ← List.append_assoc]
      rfl
    · next hcut =>
      obtain ⟨v, _, hdenotes⟩ := e.denotes_token he
      refine ⟨e.token.take n, .inr ⟨e.token.drop n, v, ?_, ?_⟩, ?_⟩
      · intro hnil
        have hle := List.drop_eq_nil_iff.1 hnil
        omega
      · rwa [List.take_append_drop]
      · rw [hsplit, List.take_append_of_le_length (by omega)]
        rfl

/-! ## Reading a stream -/

/-- A number that no signed field can hold stands in a 64-bit field. -/
theorem Denotes.startsUint64 {s : Bytes} {v : Int} (h : Denotes s (.int v)) (hlt : int64Max < v)
    (rest : Bytes) : StartsUint64 (s ++ rest) v.toNat := by
  cases h with
  | fixint b h =>
    have hb := b.toNat_lt
    unfold int64Max at hlt
    omega
  | negFixint b h =>
    have hb := b.toNat_lt
    unfold int64Max at hlt
    omega
  | unsigned tag w field hrow hfield =>
    obtain ⟨rfl, rfl⟩ := uint64_of_lt hrow hfield (by omega)
    exact ⟨field, rest, rfl, hfield, rfl⟩
  | signed tag w field v hrow hfield hlow hhigh hmod =>
    unfold int64Max at hlt
    cases w <;> simp only [Width.bits, Width.bytes] at hhigh <;> omega

/-- A value that fits is acceptable to a reader without a limit. -/
theorem acceptable_of_overflow? {e : Entry} {v : Value Bytes} (hv : e.value? = some v)
    (h : e.overflow? = none) : Acceptable none v := by
  unfold Entry.overflow? at h
  rw [hv] at h
  cases v with
  | int v =>
    simp only [ite_eq_right_iff, reduceCtorEq, imp_false] at h
    exact Int.le_of_not_gt h
  | bin data =>
    intro most hmost
    cases hmost
  | _ => trivial

theorem overflow?_eq_some {e : Entry} {value : Nat} (h : e.overflow? = some value) :
    ∃ v : Int, e.value? = some (.int v) ∧ int64Max < v ∧ v.toNat = value := by
  unfold Entry.overflow? at h
  split at h
  · next v hv =>
    split at h
    · next hlt =>
      injection h with h
      exact ⟨v, hv, hlt, h⟩
    · cases h
  · cases h

/-- Whole tokens, and behind them a part of another, are read as the values of the calls. -/
theorem tokenise_written {entries : List Entry} (h : ∀ e ∈ entries, e.Succeeds) {part : Bytes}
    (hpart : BrokenOff part) (offset : Nat) :
    tokenise none offset (written entries ++ part) =
      { tokens := (readable entries).filterMap Entry.reading?
        rest := (written entries ++ part).drop (written (readable entries)).length
        refusal := (entries.findSome? Entry.overflow?).map fun value =>
          .uint64Overflow value (offset + (written (readable entries)).length) } := by
  induction entries generalizing offset with
  | nil =>
    have hscan : scanBytes none offset part = .ok .incomplete := by
      obtain rfl | hbegins := hpart
      · rfl
      · refine scanBytes_of_beginsToken hbegins ?_ offset
        intro length _ most hmost
        cases hmost
    exact tokenise_of_incomplete hscan
  | cons e entries ih =>
    obtain ⟨he, hrest⟩ := List.forall_mem_cons.1 h
    obtain ⟨v, hv, hdenotes⟩ := e.denotes_token he
    have hsplit : written (e :: entries) ++ part = e.token ++ (written entries ++ part) :=
      List.append_assoc _ _ _
    cases hover : e.overflow? with
    | some value =>
      -- The number is refused where it stands, so nothing is read of it or behind it.
      obtain ⟨v', hv', hlt, rfl⟩ := overflow?_eq_some hover
      rw [hv] at hv'
      injection hv' with hv'
      subst hv'
      have hvalue : int64Max < v'.toNat := by omega
      have hstands : Stands none offset (e.token ++ (written entries ++ part))
          (.error (.uint64Overflow v'.toNat offset)) :=
        .overflow _ (hdenotes.startsUint64 hlt _) hvalue
      rw [hsplit, tokenise_of_error (scanBytes_of_stands hstands),
        readable_cons_of_some hover, List.findSome?_cons, hover]
      rfl
    | none =>
      have hscan := scanBytes_of_token hdenotes (acceptable_of_overflow? hv hover) offset
        (written entries ++ part)
      have hsize : (written (e :: readable entries)).length
          = e.token.length + (written (readable entries)).length := List.length_append
      have hreading : e.reading? = some ⟨v, e.token.length⟩ := by simp [Entry.reading?, hv]
      rw [hsplit, tokenise_of_complete hscan, List.drop_left, hdenotes.within_payload, ih hrest,
        readable_cons_of_none hover, List.filterMap_cons_some hreading, List.findSome?_cons, hover, hsize,
        ← List.drop_drop, List.drop_left]
      simp only [Nat.add_assoc]
      rfl

/-- The beginning of a stream is read as what it should be. -/
theorem tokenise_take {entries : List Entry} (h : ∀ e ∈ entries, e.Succeeds) (n : Nat) :
    tokenise none 0 ((written entries).take n) = streamOf n entries := by
  obtain ⟨part, hpart, htake⟩ := take_written h n
  have hwhole : ∀ e ∈ wholeWithin n entries, e.Succeeds := fun e he => h e (mem_of_mem_wholeWithin he)
  have htokens := tokenise_written hwhole hpart 0
  rw [← htake] at htokens
  rw [htokens]
  simp only [Nat.zero_add]
  rfl

/-! ## Any reader -/

/-- How decoding the first `n` bytes of a stream has to end. -/
def decodedOf (n : Nat) (entries : List Entry) : Except Failure Decoded :=
  match (wholeWithin n entries).findSome? Entry.overflow? with
  | some value =>
    .error (.fault (.uint64Overflow value (written (readable (wholeWithin n entries))).length))
  | none =>
    .ok ⟨(wholeWithin n entries).filterMap Entry.value?, n - (written (wholeWithin n entries)).length⟩

/-- Without a number that is too large all calls are read. -/
theorem readable_of_none {entries : List Entry} (h : entries.findSome? Entry.overflow? = none) :
    readable entries = entries := by
  induction entries with
  | nil => rfl
  | cons e entries ih =>
    have hall := List.findSome?_eq_none_iff.1 h
    have hlater : entries.findSome? Entry.overflow? = none :=
      List.findSome?_eq_none_iff.2 fun e' he' => hall e' (List.mem_cons_of_mem _ he')
    rw [readable_cons_of_none (hall e List.mem_cons_self), ih hlater]

theorem map_value_reading? (entries : List Entry) :
    (entries.filterMap Entry.reading?).map Reading.value = entries.filterMap Entry.value? := by
  rw [List.map_filterMap]
  congr 1
  funext e
  unfold Entry.reading?
  cases e.value? <;> rfl

theorem length_rest_streamOf {n : Nat} {entries : List Entry} (hn : n ≤ (written entries).length) :
    (streamOf n entries).rest.length = n - (written (readable (wholeWithin n entries))).length := by
  show (((written entries).take n).drop _).length = _
  rw [List.length_drop, List.length_take_of_le hn]

theorem decoded_streamOf {n : Nat} {entries : List Entry} (hn : n ≤ (written entries).length) :
    (streamOf n entries).decoded = decodedOf n entries := by
  have hrest := length_rest_streamOf hn
  have hvalues := map_value_reading? (readable (wholeWithin n entries))
  unfold Tokenisation.decoded decodedOf
  rw [hrest]
  simp only [streamOf, hvalues]
  cases hover : (wholeWithin n entries).findSome? Entry.overflow? with
  | some value => rfl
  | none =>
    rw [readable_of_none hover]
    rfl

theorem Reader.Finds.remaining_eq {limit : Option Nat} {s : Bytes} {taken : List (Reading (Value Bytes))}
    {d : Drained} (h : Finds limit s taken d) :
    d.reader.arena.remaining = (tokenise limit 0 s).rest.length := by
  rw [(tokenises limit 0 s).rest_eq, List.length_drop, ← h.cursor_eq, ← h.usedEnd_eq]
  rfl

theorem fedBy_map_feed (pieces : List Bytes) :
    Reader.fedBy (pieces.map Reader.Call.feed) = pieces.flatten := by
  induction pieces with
  | nil => rfl
  | cons piece pieces ih => exact congrArg (piece ++ ·) ih

/-- A decoding of pieces that are granted one by one goes by the tokens of the whole. -/
theorem outcome_withCuts_of_granted {bytes : Bytes} {cuts : List Nat}
    (h : Reader.small.Granted ((split bytes cuts).map .feed)) :
    (Decoding.withCuts bytes cuts).outcome = (tokenise none 0 bytes).decoded := by
  have hwf := (Reader.streaming_create { initialCapacity := 16 }).wellFormed
  have hdelivers : ∀ c ∈ (split bytes cuts).map Reader.Call.feed, c.delivers = true := by
    intro c hc
    obtain ⟨piece, _, rfl⟩ := List.mem_map.1 hc
    rfl
  have hfits := Reader.fits_of_granted hwf hdelivers h
  rw [fedBy_map_feed, flatten_split] at hfits
  exact Reader.outcome_withCuts hfits cuts

/-- What a writer has written is read back, by every reader without a limit whose growth is not refused. Of
the first `n` bytes, whatever pieces they come in, it reads the values of the calls whose tokens are there, up
to the first number that no signed field can hold. That number is refused at the offset of its token; without
one, all that is left over is the part of the token that was cut off. The value of a call is what it means. -/
theorem Writer.reads_back {entries : List Entry} (h : ∀ e ∈ entries, e.Succeeds) {n : Nat}
    (hn : n ≤ (Writer.ofEntries entries).bytes.length) :
    (∀ (config : Config) (history : List Reader.Call), config.maxBlobLength = none →
      (∀ c ∈ history, c.delivers = true) →
      Reader.fedBy history = (Writer.ofEntries entries).bytes.take n →
      (Reader.create config).state.Granted history →
      (Reader.create config).state.readings history
          ++ ((Reader.create config).state.after history).drain.readings
        = ((readable (wholeWithin n entries)).filterMap Entry.reading?).map Reading.resolved ∧
      ((Reader.create config).state.after history).drain.ending = (streamOf n entries).ending ∧
      ((Reader.create config).state.after history).drain.reader.arena.remaining
        = n - (written (readable (wholeWithin n entries))).length) ∧
    (∀ cuts : List Nat,
      Reader.small.Granted ((split ((Writer.ofEntries entries).bytes.take n) cuts).map .feed) →
      (Decoding.withCuts ((Writer.ofEntries entries).bytes.take n) cuts).outcome = decodedOf n entries) ∧
    (n = (Writer.ofEntries entries).bytes.length → entries.findSome? Entry.overflow? = none →
      decodedOf n entries = .ok ⟨entries.filterMap Entry.value?, 0⟩) ∧
    ∀ e ∈ entries, ∃ v, e.value? = some v ∧ ∀ v', e.Means v' ↔ v' = v := by
  rw [bytes_ofEntries] at hn ⊢
  have htokens := tokenise_take h n
  refine ⟨?_, ?_, ?_, ?_⟩
  · intro config history hlimit hdelivers hs hgranted
    have hwf := (Reader.streaming_create config).wellFormed
    obtain ⟨taken, hreadings, hfinds⟩ :=
      Reader.finds_after hdelivers (Reader.fits_of_granted hwf hdelivers hgranted)
    rw [hlimit, hs] at hfinds
    have hall := hfinds.readings_eq
    have hending := hfinds.ending_eq
    have hremaining := hfinds.remaining_eq
    rw [htokens] at hall hending hremaining
    rw [hreadings]
    exact ⟨hall, hending, hremaining.trans (length_rest_streamOf hn)⟩
  · intro cuts hgranted
    rw [outcome_withCuts_of_granted hgranted, htokens, decoded_streamOf hn]
  · intro hall hover
    have hwhole : wholeWithin n entries = entries := wholeWithin_of_le (Nat.le_of_eq hall.symm)
    rw [decodedOf, hwhole, hover, hall, Nat.sub_self]
  · intro e he
    obtain ⟨v, hv, _⟩ := Entry.denotes_token (h e he)
    refine ⟨v, hv, ?_⟩
    intro v'
    rw [Entry.means_iff, hv, Option.some_inj]
    exact eq_comm

/-- A null, a blob and a number that no signed field can hold. -/
def tooLargeLast : List Entry := [.nil, .blob [7, 8], .unsigned 0x8000000000000000]

/-- All of it is refused at the offset of the number, wherever it is cut; one byte less, and the rest is
read. -/
theorem Writer.reads_back_tooLargeLast :
    (Decoding.withCuts ((Writer.ofEntries tooLargeLast).bytes.take 14) [3, 6]).outcome
      = .error (.fault (.uint64Overflow 0x8000000000000000 5)) ∧
    (Decoding.withCuts ((Writer.ofEntries tooLargeLast).bytes.take 13) [3, 6]).outcome
      = .ok ⟨[.nil, .bin [7, 8]], 8⟩ := by
  have hcalls : ∀ e ∈ tooLargeLast, e.Succeeds := by
    intro e he
    simp only [tooLargeLast, List.mem_cons, List.not_mem_nil, or_false] at he
    obtain rfl | rfl | rfl := he
    · exact ⟨trivial, rfl⟩
    · exact ⟨trivial, rfl⟩
    · exact ⟨Nat.le_of_ble_eq_true rfl, rfl⟩
  have hall : 14 ≤ (Writer.ofEntries tooLargeLast).bytes.length := by decide
  have hgranted (n : Nat) (hn : n = 14 ∨ n = 13) : Reader.small.Granted
      ((split ((Writer.ofEntries tooLargeLast).bytes.take n) [3, 6]).map .feed) := by
    obtain rfl | rfl := hn
    all_goals
      refine ⟨?_, ?_, ?_, trivial⟩
      all_goals
        intro bytes hbytes
        cases hbytes
        rfl
  exact ⟨(reads_back hcalls hall).2.1 _ (hgranted 14 (.inl rfl)),
    (reads_back hcalls (by decide)).2.1 _ (hgranted 13 (.inr rfl))⟩

end MessagePack
