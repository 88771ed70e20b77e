import Mathlib.Algebra.BigOperators.Ring.List
import Mathlib.Algebra.Ring.Nat
import MessagePack.Command.Run
import MessagePack.Proofs.Agreement
import MessagePack.Proofs.Parsing
/-
  Encoding and validation one after the other. The encoder takes every integer that a document can say, the
  validation only those that a signed field holds; on everything else the two are at one. So the validation of
  what was encoded counts just the items and finds their values, or stops at the first integer that is too large,
  at the place where the encoding of the items before it ends.

  The readers of documents and of hexadecimal texts are not looked into. What is relied on in them is that a reader
  of documents gives numbers of 64 bits, and that the other one reads just the texts of digits, even in number.

  What is proved:
    1. `contents_written`, `contents_overflow`: the contents of what some calls have appended.
    2. `Item.encodeAll_iff`: an encoding of items is a stream of calls.
    3. `Item.contents_of_encodeAll`, `Item.contents_of_large`: the contents of an encoding, by its items.
    4. `encoded_validates`: the report of the validation, and that it is what the two commands come to.
-/
namespace MessagePack

/-! ## Streams of calls -/

/-- Without a number that is too large a stream is a concatenation of the tokens of its calls. -/
theorem contents_written {entries : List Entry} (h : ∀ e ∈ entries, e.Succeeds)
    (hsmall : ∀ e ∈ entries, e.overflow? = none) (p : Nat) :
    ∃ tokens, Contents p (written entries) tokens .finished ∧
      tokens.map (fun t => some t.value) = entries.map Entry.value? := by
  induction entries generalizing p with
  | nil => exact ⟨[], .finished p, rfl⟩
  | cons e entries ih =>
    obtain ⟨he, hrest⟩ := List.forall_mem_cons.1 h
    obtain ⟨hsmall, hsmallRest⟩ := List.forall_mem_cons.1 hsmall
    obtain ⟨v, hv, hdenotes⟩ := e.denotes_token he
    obtain ⟨b, m, hb, hm, _⟩ := hdenotes.length_eq
    have hmarker : e.token.head?.bind Marker.ofByte? = some m := by
      rw [hb]
      exact hm
    obtain ⟨tokens, hcontents, hvalues⟩ := ih hrest hsmallRest (p + e.token.length)
    refine ⟨⟨p, m, v⟩ :: tokens, ?_, ?_⟩
    · exact .token p _ _ m v hdenotes (acceptable_of_overflow? hv hsmall) hmarker _ _ hcontents
    · rw [List.map_cons, List.map_cons, hvalues, hv]

/-- A number that is too large is refused where it stands. -/
theorem contents_overflow {e : Entry} (he : e.Succeeds) {value : Nat} (h : e.overflow? = some value)
    (p : Nat) (rest : Bytes) :
    Contents p (e.token ++ rest) [] (.refused (.uint64Overflow value p)) := by
  obtain ⟨v, hv, hlt, rfl⟩ := overflow?_eq_some h
  obtain ⟨v', hv', hdenotes⟩ := e.denotes_token he
  rw [hv] at hv'
  cases hv'
  have hvalue : int64Max < v.toNat := by omega
  exact .overflow p _ _ (hdenotes.startsUint64 hlt rest) hvalue

/-! ## Decoders -/

namespace Decoders

/-- What is relied on in the readers of an input. -/
structure Lawful (decoders : Decoders) : Prop where
  /-- What a document says are entries that JSON has a word for, with numbers of 64 bits, and blobs. -/
  parsed : ∀ {text items}, decoders.items? text = some items → ∀ item ∈ items, item.Parsed
  /-- The texts that spell bytes are those of digits, even in number. -/
  exists_hex_iff : ∀ {text}, (∃ data, decoders.hex text = .ok data) ↔ Hex.Valid text
  /-- A text that spells bytes has two digits for each. -/
  length_hex : ∀ {text data}, decoders.hex text = .ok data → 2 * data.length = text.length

theorem lawful_standard : standard.Lawful where
  parsed := Item.parsed_of_parseAll?
  exists_hex_iff := Hex.exists_decode_iff
  length_hex := Hex.length_decode

end Decoders

/-! ## Items -/

namespace Item

/-- The call on a writer that an item comes to. -/
def call (hex : Bytes → Except Hex.Error Bytes) : Item → Entry
  | entry e => e
  | hexBlob text => .blob ((hex text.toUTF8.data.toList).toOption.getD [])

/-- The value that an item says, if it says one. -/
def value? (hex : Bytes → Except Hex.Error Bytes) : Item → Option (Value Bytes)
  | entry e => e.value?
  | hexBlob text => (hex text.toUTF8.data.toList).toOption.map .bin

/-- The family of an item, by the way it is said. -/
def family? : Item → Option Family
  | entry .nil => some .nil
  | entry (.bool _) => some .bool
  | entry (.integer _) => some .int
  | entry (.unsigned _) => some .int
  | entry (.float64 _) => some .float
  | entry _ => none
  | hexBlob _ => some .bin

/-- The integer in an item, if it is above the greatest signed one. -/
def large? : Item → Option Nat
  | entry (.unsigned n) => if int64Max < n then some n else none
  | _ => none

/-- How many hexadecimal digits an item has. -/
def digits : Item → Nat
  | entry _ => 0
  | hexBlob text => text.utf8ByteSize

variable {hex : Bytes → Except Hex.Error Bytes} {item : Item}

theorem isCall_call (h : item.Parsed) : (item.call hex).IsCall := by
  cases item with
  | hexBlob text => trivial
  | entry e => cases e <;> first | exact h | exact absurd h id

theorem ok_of_mapError {x : Except EncodeError Bytes} {t : Bytes} (h : x.mapError Cause.refused = .ok t) :
    x = .ok t := by
  cases x with
  | error refusal => cases h
  | ok token =>
    cases h
    rfl

theorem encode_call {t : Bytes} (h : item.encode hex = .ok t) : (item.call hex).encode = .ok t := by
  cases item with
  | entry e => exact ok_of_mapError h
  | hexBlob text =>
    simp only [encode] at h
    split at h
    · cases h
    next data hdata =>
      simp only [call, hdata]
      exact ok_of_mapError h

theorem encode_eq_token {t : Bytes} (h : item.encode hex = .ok t) : t = (item.call hex).token := by
  rw [Entry.token, encode_call h]
  rfl

theorem succeeds_call (hparsed : item.Parsed) (h : item.encode hex = .ok (item.call hex).token) :
    (item.call hex).Succeeds := ⟨isCall_call hparsed, encode_call h⟩

theorem value?_call {t : Bytes} (h : item.encode hex = .ok t) : (item.call hex).value? = item.value? hex := by
  cases item with
  | entry e => rfl
  | hexBlob text =>
    simp only [encode] at h
    split at h
    · cases h
    next data hdata =>
      simp only [call, value?, hdata]
      rfl

/-- Only an unsigned integer can be above the greatest signed one. -/
theorem overflow?_call (h : item.Parsed) : (item.call hex).overflow? = item.large? := by
  cases item with
  | hexBlob text => rfl
  | entry e =>
    cases e with
    | nil | bool b | float64 x => rfl
    | integer v =>
      have hsigned : ¬ (int64Max : Int) < v := by
        obtain ⟨_, hhigh⟩ := h
        unfold int64Max
        omega
      exact if_neg hsigned
    | unsigned n =>
      simp only [call, Entry.overflow?, Entry.value?, large?, Int.ofNat_lt, Int.toNat_natCast]
    | integerAs | float32 | blob | blobAs | raw => exact absurd h id

theorem family?_eq (hparsed : item.Parsed) {v : Value Bytes} (hv : item.value? hex = some v) :
    item.family? = some v.family := by
  cases item with
  | hexBlob text =>
    obtain ⟨data, _, rfl⟩ := Option.map_eq_some_iff.1 hv
    rfl
  | entry e =>
    cases e <;> first
      | exact absurd hparsed id
      | (cases hv; rfl)

/-- A blob has two digits for each byte. -/
theorem digits_eq (hlength : ∀ {text data}, hex text = .ok data → 2 * data.length = text.length)
    (hparsed : item.Parsed) {v : Value Bytes} (hv : item.value? hex = some v) :
    item.digits = 2 * v.payloadLength := by
  cases item with
  | hexBlob text =>
    obtain ⟨data, hdata, rfl⟩ := Option.map_eq_some_iff.1 hv
    cases hdecode : hex text.toUTF8.data.toList with
    | error e =>
      rw [hdecode] at hdata
      cases hdata
    | ok spelled =>
      rw [hdecode] at hdata
      cases hdata
      exact (hlength hdecode).symm
  | entry e =>
    cases e <;> first
      | exact absurd hparsed id
      | (cases hv; rfl)

/-! ## Encodings -/

theorem encodeFrom_iff {items : List Item} {index : Nat} {before : List Bytes} {bytes : Bytes} :
    encodeFrom hex index before items = .ok bytes ↔
      (∀ item ∈ items, item.encode hex = .ok (item.call hex).token) ∧
        bytes = before.reverse.flatten ++ written (items.map (call hex)) := by
  induction items generalizing index before with
  | nil =>
    simp [encodeFrom, written, eq_comm]
  | cons item items ih =>
    rw [encodeFrom, List.forall_mem_cons]
    cases hitem : item.encode hex with
    | error cause => simp
    | ok token =>
      have htoken := encode_eq_token hitem
      subst htoken
      simp only [ih, true_and]
      simp [written]

/-- An encoding of items is a stream of calls. -/
theorem encodeAll_iff {items : List Item} {bytes : Bytes} :
    encodeAll hex items = .ok bytes ↔
      (∀ item ∈ items, item.encode hex = .ok (item.call hex).token) ∧ bytes = written (items.map (call hex)) :=
  encodeFrom_iff

variable {items : List Item} {bytes : Bytes}

theorem succeed_of_encodeAll (hparsed : ∀ item ∈ items, item.Parsed)
    (h : ∀ item ∈ items, item.encode hex = .ok (item.call hex).token) : ∀ e ∈ items.map (call hex), e.Succeeds := by
  intro e he
  obtain ⟨item, hitem, rfl⟩ := List.mem_map.1 he
  exact succeeds_call (hparsed item hitem) (h item hitem)

/-- Without an integer that is too large an encoding is made of tokens with the values of the items. -/
theorem contents_of_encodeAll (hparsed : ∀ item ∈ items, item.Parsed) (h : encodeAll hex items = .ok bytes)
    (hsmall : ∀ item ∈ items, item.large? = none) :
    ∃ tokens, Contents 0 bytes tokens .finished ∧
      tokens.map (fun t => some t.value) = items.map (value? hex) := by
  obtain ⟨hencode, rfl⟩ := encodeAll_iff.1 h
  have hover : ∀ e ∈ items.map (call hex), e.overflow? = none := by
    intro e he
    obtain ⟨item, hitem, rfl⟩ := List.mem_map.1 he
    rw [overflow?_call (hparsed item hitem), hsmall item hitem]
  obtain ⟨tokens, hcontents, hvalues⟩ :=
    contents_written (succeed_of_encodeAll hparsed hencode) hover 0
  refine ⟨tokens, hcontents, ?_⟩
  rw [hvalues, List.map_map]
  exact List.map_congr_left fun item hitem => value?_call (hencode item hitem)

/-- The first integer that is too large is refused behind the encoding of the items before it. -/
theorem contents_of_large {before after : List Item} {n : Nat}
    (hparsed : ∀ i ∈ before ++ item :: after, i.Parsed)
    (h : encodeAll hex (before ++ item :: after) = .ok bytes) (hsmall : ∀ i ∈ before, i.large? = none)
    (hlarge : item.large? = some n) :
    ∃ b tokens, encodeAll hex before = .ok b ∧
      Contents 0 bytes tokens (.refused (.uint64Overflow n b.length)) ∧
      tokens.map (fun t => some t.value) = before.map (value? hex) := by
  obtain ⟨hencode, rfl⟩ := encodeAll_iff.1 h
  obtain ⟨hparsedBefore, hparsedRest⟩ := List.forall_mem_append.1 hparsed
  obtain ⟨hencodeBefore, hencodeRest⟩ := List.forall_mem_append.1 hencode
  have hparsedItem := hparsedRest item List.mem_cons_self
  have hb : encodeAll hex before = .ok (written (before.map (call hex))) := encodeAll_iff.2 ⟨hencodeBefore, rfl⟩
  obtain ⟨tokens, hcontents, hvalues⟩ := contents_of_encodeAll hparsedBefore hb hsmall
  -- It stands behind whole tokens, so its place is their length and none of what follows it matters.
  have hitem : (item.call hex).Succeeds := succeeds_call hparsedItem (hencodeRest item List.mem_cons_self)
  have hoverflow : (item.call hex).overflow? = some n := by rw [overflow?_call hparsedItem, hlarge]
  have hrefused := contents_overflow hitem hoverflow (0 + (written (before.map (call hex))).length)
    (written (after.map (call hex)))
  have hall := hcontents.append hrefused
  have hwritten : written ((before ++ item :: after).map (call hex))
      = written (before.map (call hex)) ++ ((item.call hex).token ++ written (after.map (call hex))) := by
    simp [written]
  rw [← hwritten, List.append_nil, Nat.zero_add] at hall
  exact ⟨_, tokens, hb, hall, hvalues⟩

/-- Where some item is too large an integer, there is a first one. -/
theorem exists_first_large (h : ∃ item ∈ items, item.large? ≠ none) :
    ∃ before item after n, items = before ++ item :: after ∧ (∀ i ∈ before, i.large? = none) ∧
      item.large? = some n := by
  induction items with
  | nil => simp at h
  | cons first items ih =>
    cases hfirst : first.large? with
    | some n => exact ⟨[], first, items, n, rfl, by simp, hfirst⟩
    | none =>
      have hlater : ∃ item ∈ items, item.large? ≠ none := by
        obtain ⟨item, hitem, hlarge⟩ := h
        rcases List.mem_cons.1 hitem with rfl | hitem
        · exact absurd hfirst hlarge
        · exact ⟨item, hitem, hlarge⟩
      obtain ⟨before, item, after, n, hsplit, hsmall, hlarge⟩ := ih hlater
      refine ⟨first :: before, item, after, n, by rw [hsplit]; rfl, ?_, hlarge⟩
      exact List.forall_mem_cons.2 ⟨hfirst, hsmall⟩

end Item

/-! ## Counting what was encoded -/

section
variable {decoders : Decoders}

/-- Tokens that have the values of some items, one by one. -/
structure Says (decoders : Decoders) (items : List Item) (tokens : List Token) : Prop where
  parsed : ∀ item ∈ items, item.Parsed
  values : tokens.map (fun t => some t.value) = items.map (Item.value? decoders.hex)

namespace Says

variable {items : List Item} {tokens : List Token}

theorem exists_value (h : Says decoders items tokens) {item : Item} (hitem : item ∈ items) :
    ∃ v, item.value? decoders.hex = some v := by
  have hmem : item.value? decoders.hex ∈ tokens.map (fun t => some t.value) :=
    h.values ▸ List.mem_map_of_mem hitem
  obtain ⟨t, _, ht⟩ := List.mem_map.1 hmem
  exact ⟨t.value, ht.symm⟩

theorem length_eq (h : Says decoders items tokens) : tokens.length = items.length := by
  have hlength := congrArg List.length h.values
  rwa [List.length_map, List.length_map] at hlength

/-- There are as many tokens of a family as items. -/
theorem length_family (h : Says decoders items tokens)
    (htokens : ∀ t ∈ tokens, t.marker.family = t.value.family) (f : Family) :
    (tokens.filter fun t => t.marker.family = f).length
      = items.countP fun item => item.family? = some f := by
  have hitems : items.map Item.family?
      = (items.map (Item.value? decoders.hex)).map (·.map Value.family) := by
    rw [List.map_map]
    apply List.map_congr_left
    intro item hitem
    obtain ⟨v, hv⟩ := h.exists_value hitem
    rw [Item.family?_eq (h.parsed item hitem) hv, Function.comp_apply, hv]
    rfl
  have hfamilies : tokens.map (fun t => some t.marker.family) = items.map Item.family? := by
    rw [hitems, ← h.values, List.map_map]
    apply List.map_congr_left
    intro t ht
    exact congrArg some (htokens t ht)
  calc (tokens.filter fun t => t.marker.family = f).length
    _ = (tokens.map fun t => some t.marker.family).countP (· = some f) := by
      rw [← List.countP_eq_length_filter, List.countP_map]
      simp only [Function.comp_def, Option.some.injEq]
    _ = items.countP fun item => item.family? = some f := by
      rw [hfamilies, List.countP_map]
      rfl

/-- The payloads are half as long as the digits. -/
theorem sum_digits (h : Says decoders items tokens) (hdecoders : decoders.Lawful) :
    (items.map Item.digits).sum = 2 * (tokens.map fun t => t.value.payloadLength).sum := by
  have hitems : items.map Item.digits
      = (items.map (Item.value? decoders.hex)).map fun v => v.elim 0 fun v => 2 * v.payloadLength := by
    rw [List.map_map]
    apply List.map_congr_left
    intro item hitem
    obtain ⟨v, hv⟩ := h.exists_value hitem
    rw [Item.digits_eq hdecoders.length_hex (h.parsed item hitem) hv, Function.comp_apply, hv]
    rfl
  rw [hitems, ← h.values, List.map_map]
  exact List.sum_map_mul_left tokens (fun t => t.value.payloadLength) 2

end Says

/-! ## The two commands -/

/-- The validation of an encoding without an integer that is too large: it succeeds, shows as many tokens as there
are items, in all and by families, and finds their values in order. -/
structure Confirmed (decoders : Decoders) (v : Arguments.ValidateOptions) (items : List Item) (bytes : Bytes)
    (tally : Validate.Tally) : Prop where
  report_eq : Validate.report v bytes = ⟨tally.lines bytes.length, none⟩
  counts_shown : Wording.readAll? Validate.wordings (Validate.report v bytes).lines
    = some [[items.length, bytes.length], [tally.ofFamily .nil], [tally.ofFamily .bool], [tally.ofFamily .int],
        [tally.ofFamily .float], [tally.ofFamily .bin, tally.payload]]
  total_eq : tally.total = items.length
  family_eq : ∀ f, tally.ofFamily f = items.countP fun item => item.family? = some f
  payload_eq : 2 * tally.payload = (items.map Item.digits).sum
  values_eq : (Validate.walk v bytes).state.run.tokens.map (fun t => some t.value)
    = items.map (Item.value? decoders.hex)

/-- The validation of an encoding with an integer that is too large: it finds the values of the items before the
first of them, and fails there with a line that shows the integer and its place. -/
structure Stopped (decoders : Decoders) (v : Arguments.ValidateOptions) (items : List Item) (bytes : Bytes)
    (before : List Item) (n : Nat) (b : Bytes) : Prop where
  first : ∃ item after, items = before ++ item :: after ∧ item.large? = some n
  small : ∀ item ∈ before, item.large? = none
  before_eq : Item.encodeAll decoders.hex before = .ok b
  ending_eq : (Validate.walk v bytes).state.run.ending = .error (.fault (.uint64Overflow n b.length))
  report_eq : Validate.report v bytes
    = Validate.rejected (Failure.fault (.uint64Overflow n b.length)).message
  fault_shown : (Validate.report v bytes).failure = some "validation failed" ∧
    Wording.readAll? [Validate.rejectedWording (DecodeError.uint64Overflow n b.length).wording]
      (Validate.report v bytes).lines = some [[n, b.length]]
  values_eq : (Validate.walk v bytes).state.run.tokens.map (fun t => some t.value)
    = before.map (Item.value? decoders.hex)

variable {v : Arguments.ValidateOptions} {items : List Item} {bytes : Bytes}

theorem Validate.run_walk (hlimit : v.maxBlobLength = none) (bytes : Bytes) :
    (Validate.walk v bytes).state.run
      = Walk.runOver bytes v.chunkSize v.chunkSize_pos (some 1) v.chunkSize none := by
  unfold Validate.walk Walk.runOver
  rw [hlimit]

theorem exists_confirmed (hdecoders : decoders.Lawful) (hparsed : ∀ item ∈ items, item.Parsed)
    (h : Item.encodeAll decoders.hex items = .ok bytes) (hlimit : v.maxBlobLength = none)
    (hfed : Validate.Fed v bytes) (hsmall : ∀ item ∈ items, item.large? = none) :
    ∃ tally, Confirmed decoders v items bytes tally := by
  -- The walk finds the contents whatever its chunks are, so from here on only the tokens count.
  obtain ⟨tokens, hcontents, hvalues⟩ := Item.contents_of_encodeAll hparsed h hsmall
  have hsays : Says decoders items tokens := ⟨hparsed, hvalues⟩
  obtain ⟨htokens, _⟩ := Walk.runOver_of_contents hcontents hfed.fed
  have hreport : Validate.report v bytes
      = ⟨(tokens.foldl Validate.Tally.count {}).lines bytes.length, none⟩ := by
    rw [Validate.report_of_contents hlimit hfed hcontents]
    rfl
  have htotal : (tokens.foldl Validate.Tally.count {}).total = items.length := by
    rw [Validate.Tally.total_foldl, hsays.length_eq]
    exact Nat.zero_add _
  refine ⟨tokens.foldl Validate.Tally.count {}, hreport, ?_, htotal, ?_, ?_, ?_⟩
  · rw [hreport, Validate.Tally.readAll?_lines, Validate.Tally.numbers, htotal]
    rfl
  · intro f
    rw [Validate.Tally.ofFamily_foldl, hsays.length_family hcontents.family_eq]
    cases f <;> exact Nat.zero_add _
  · rw [Validate.Tally.payload_foldl, hsays.sum_digits hdecoders]
    exact congrArg (2 * ·) (Nat.zero_add _)
  · rw [Validate.run_walk hlimit, htokens, hvalues]

theorem exists_stopped (hparsed : ∀ item ∈ items, item.Parsed)
    (h : Item.encodeAll decoders.hex items = .ok bytes) (hlimit : v.maxBlobLength = none)
    (hfed : Validate.Fed v bytes) (hlarge : ∃ item ∈ items, item.large? ≠ none) :
    ∃ before n b, Stopped decoders v items bytes before n b := by
  obtain ⟨before, item, after, n, rfl, hsmall, hitem⟩ := Item.exists_first_large hlarge
  obtain ⟨b, tokens, hb, hcontents, hvalues⟩ := Item.contents_of_large hparsed h hsmall hitem
  obtain ⟨htokens, hending⟩ := Walk.runOver_of_contents hcontents hfed.fed
  have hreport : Validate.report v bytes
      = Validate.rejected (DecodeError.uint64Overflow n b.length).message := by
    rw [Validate.report_of_contents hlimit hfed hcontents]
    rfl
  refine ⟨before, n, b, ⟨item, after, rfl, hitem⟩, hsmall, hb, ?_, hreport, ?_, ?_⟩
  · rw [Validate.run_walk hlimit, hending]
    rfl
  · rw [hreport]
    exact ⟨rfl, Validate.readAll?_rejected rfl (DecodeError.shows_message _)⟩
  · rw [Validate.run_walk hlimit, htokens, hvalues]

/-- An encoding that succeeded in some files: it has read items and written their encoding, its only line shows how
much that is and for how many values, and a validation of its output reports on that. -/
structure Encoded {σ κ : Type} (fs : FileSystem σ κ) (decoders : Decoders) (o : Arguments.EncodeOptions) (s : σ)
    (items : List Item) (bytes : Bytes) : Prop where
  spelled : ∃ input text, (fs.files.read o.input s).1 = .ok input ∧
    String.fromUTF8? input.toByteArray = some text ∧ decoders.items? text = some items
  parsed : ∀ item ∈ items, item.Parsed
  bytes_eq : Item.encodeAll decoders.hex items = .ok bytes
  report_eq : ((Arguments.Command.encode o).runWith fs.files decoders s).1
    = Encode.written o ⟨bytes, items.length⟩
  written_shown : Wording.readAll? [Encode.writtenWording items.length o.output]
    ((Arguments.Command.encode o).runWith fs.files decoders s).1.lines = some [[bytes.length, items.length]]
  validated : ∀ v : Arguments.ValidateOptions, v.file = o.output →
    (Arguments.Command.validate v).runWith fs.files decoders
        ((Arguments.Command.encode o).runWith fs.files decoders s).2
      = (Validate.report v bytes, ((Arguments.Command.encode o).runWith fs.files decoders s).2)

theorem exists_encoded {σ κ : Type} {fs : FileSystem σ κ} {o : Arguments.EncodeOptions} {s : σ}
    (hfiles : fs.Lawful) (hdecoders : decoders.Lawful)
    (h : ((Arguments.Command.encode o).runWith fs.files decoders s).1.failure = none) :
    ∃ items bytes, Encoded fs decoders o s items bytes := by
  obtain ⟨input, ⟨bytes, values⟩, hread, hplan, hwrite, hrun⟩ := Arguments.Command.encode_succeeds hfiles h
  obtain ⟨text, items, htext, hitems, hbytes, rfl⟩ := Encode.items_of_plan hplan
  refine ⟨items, bytes, ⟨input, text, hread, htext, hitems⟩, hdecoders.parsed hitems, hbytes, ?_, ?_, ?_⟩
  · rw [hrun]
  · rw [hrun]
    exact Encode.readAll?_written o ⟨bytes, items.length⟩
  · intro v hfile
    rw [hrun]
    apply Arguments.Command.run_validate hfiles
    rw [hfile]
    exact hfiles.read_written hwrite

end

/-- What was encoded can be validated, but for the integers above the greatest signed one. The validation of an
encoding of items without any, in chunks of any size, succeeds and shows just the items, by their families and
with the bytes that their digits spell, and its walk finds their values in order. If there is one, the validation
fails at the first, with its value and the length of the encoding of the items before it as the offset. And an
encoding that succeeds, in any files, has written the encoding of the items of its input, so a validation of its
output reports on that. -/
theorem encoded_validates :
    (∀ (decoders : Decoders) (items : List Item) (bytes : Bytes) (v : Arguments.ValidateOptions),
      decoders.Lawful → (∀ item ∈ items, item.Parsed) → Item.encodeAll decoders.hex items = .ok bytes →
      v.maxBlobLength = none → Validate.Fed v bytes →
      ((∀ item ∈ items, item.large? = none) → ∃ tally, Confirmed decoders v items bytes tally) ∧
      ((∃ item ∈ items, item.large? ≠ none) → ∃ before n b, Stopped decoders v items bytes before n b)) ∧
    (∀ (σ κ : Type) (fs : FileSystem σ κ) (decoders : Decoders) (s : σ) (o : Arguments.EncodeOptions),
      fs.Lawful → decoders.Lawful →
      ((Arguments.Command.encode o).runWith fs.files decoders s).1.failure = none →
      ∃ items bytes, Encoded fs decoders o s items bytes) := by
  refine ⟨?reports, ?commands⟩
  case reports =>
    intro decoders items bytes v hdecoders hparsed h hlimit hfed
    exact ⟨exists_confirmed hdecoders hparsed h hlimit hfed, exists_stopped hparsed h hlimit hfed⟩
  case commands =>
    intro σ κ fs decoders s o hfiles hdecoders h
    exact exists_encoded hfiles hdecoders h

/-- A null and a blob of two bytes. -/
def nullAndBlob : List Item := [.entry .nil, .hexBlob "0708"]

/-- A document with a null and an integer above the greatest signed one. -/
def nullAndLarge : Bytes := "[null,9223372036854775808]".toUTF8.data.toList

def encodeList : Arguments.EncodeOptions := ⟨"in", "out"⟩

/-- The output is validated two bytes at a time. -/
def validateByTwo : Arguments.ValidateOptions :=
  { file := "out", chunkSize := 2, chunkSize_pos := Nat.two_pos }

/-- The document alone in the working directory. -/
def listed : Directory := ⟨[(Place.working.child "in", nullAndLarge)]⟩

theorem path_in : Path.ofString "in" = .ok ⟨.working, [.down "in"], false⟩ := by decide

theorem path_out : Path.ofString "out" = .ok ⟨.working, [.down "out"], false⟩ := by decide

theorem read_listed : FileSystem.below.files.read "in" listed = (.ok nullAndLarge, listed) := by
  rw [FileSystem.read_below path_in]
  rfl

theorem succeeds_encodeList : ((Arguments.Command.encode encodeList).run listed).1.failure = none := by
  have hread : (FileSystem.below.files.read "in" listed).1 = .ok nullAndLarge := by rw [read_listed]
  have hplan : Encode.plan .standard nullAndLarge = .ok ⟨[0xc0, 0xcf, 0x80, 0, 0, 0, 0, 0, 0, 0], 2⟩ := by
    decide +kernel
  have hwrite : (FileSystem.below.files.write "out" [0xc0, 0xcf, 0x80, 0, 0, 0, 0, 0, 0, 0] listed).1
      = .ok () := by
    simp only [FileSystem.below, Files.inDirectory, path_out]
    rfl
  exact congrArg (fun r => r.1.failure)
    (Arguments.Command.run_encode (o := encodeList) FileSystem.lawful_below hread hplan hwrite)

/-- The items of a file that says a null and a large integer, and what they are encoded to. -/
theorem items_listed {items : List Item} {bytes : Bytes}
    (h : Encoded FileSystem.below .standard encodeList listed items bytes) :
    items = [.entry .nil, .entry (.unsigned 0x8000000000000000)] ∧
      bytes = [0xc0, 0xcf, 0x80, 0, 0, 0, 0, 0, 0, 0] := by
  obtain ⟨input, text, hread, htext, hitems⟩ := h.spelled
  have hinput : (FileSystem.below.files.read "in" listed).1 = .ok nullAndLarge := by rw [read_listed]
  cases hread.symm.trans hinput
  have hspelled : String.fromUTF8? nullAndLarge.toByteArray = some "[null,9223372036854775808]" := by
    decide +kernel
  cases htext.symm.trans hspelled
  have hparsed : Item.parseAll? "[null,9223372036854775808]"
      = some [.entry .nil, .entry (.unsigned 0x8000000000000000)] := by decide +kernel
  cases hitems.symm.trans hparsed
  have hbytes := h.bytes_eq
  exact ⟨rfl, Except.ok.inj (hbytes.symm.trans (by decide +kernel))⟩

/-- The blob is counted with its two bytes; the integer is refused behind the byte of the null, by the commands
one after the other, and they say so. -/
theorem encoded_validates_nullFirst :
    (∃ counts, Wording.readAll? Validate.wordings (Validate.report validateByTwo [0xc0, 0xc4, 2, 7, 8]).lines
      = some ([2, 5] :: counts)) ∧
    Wording.readAll? [Encode.writtenWording 2 "out"]
      ((Arguments.Command.encode encodeList).run listed).1.lines = some [[10, 2]] ∧
    Wording.readAll? [Validate.rejectedWording (DecodeError.uint64Overflow 0x8000000000000000 1).wording]
      ((Arguments.Command.validate validateByTwo).run ((Arguments.Command.encode encodeList).run listed).2).1.lines
      = some [[0x8000000000000000, 1]] := by
  refine ⟨?counted, ?refused⟩
  case counted =>
    have hparsed : ∀ item ∈ nullAndBlob, item.Parsed := by simp [nullAndBlob, Item.Parsed]
    have hsmall : ∀ item ∈ nullAndBlob, item.large? = none := by simp [nullAndBlob, Item.large?]
    obtain ⟨tally, h⟩ := (encoded_validates.1 .standard nullAndBlob [0xc0, 0xc4, 2, 7, 8] validateByTwo
      Decoders.lawful_standard hparsed (by decide +kernel) rfl
      (Validate.fed_of_room (by decide) (by decide) (by decide))).1 hsmall
    exact ⟨_, h.counts_shown⟩
  case refused =>
    obtain ⟨items, bytes, h⟩ := encoded_validates.2 Directory Place FileSystem.below .standard listed encodeList
      FileSystem.lawful_below Decoders.lawful_standard succeeds_encodeList
    obtain ⟨rfl, rfl⟩ := items_listed h
    refine ⟨h.written_shown, ?_⟩
    have hvalidated : (Arguments.Command.validate validateByTwo).run
        ((Arguments.Command.encode encodeList).run listed).2 = _ := h.validated validateByTwo rfl
    rw [hvalidated]
    have hlarge : ∃ item ∈ [Item.entry .nil, .entry (.unsigned 0x8000000000000000)], item.large? ≠ none :=
      ⟨.entry (.unsigned 0x8000000000000000), by decide, by decide⟩
    obtain ⟨before, n, b, hstopped⟩ := (encoded_validates.1 .standard _ _ validateByTwo
      Decoders.lawful_standard h.parsed h.bytes_eq rfl
      (Validate.fed_of_room (by decide) (by decide) (by decide))).2 hlarge
    obtain ⟨item, after, hsplit, hitem⟩ := hstopped.first
    -- Only the second item is large, so the null is all that there is before the first such item.
    rcases before with _ | ⟨first, _ | ⟨second, before⟩⟩
    · cases hsplit
      cases hitem
    · cases hsplit
      cases hitem
      cases hstopped.before_eq
      exact hstopped.fault_shown.2
    · simp only [List.cons_append, List.cons.injEq] at hsplit
      obtain ⟨_, rfl, _⟩ := hsplit
      have hnone := hstopped.small (.entry (.unsigned 0x8000000000000000)) (by simp)
      exact absurd hnone (by decide)

end MessagePack
