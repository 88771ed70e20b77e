import MessagePack.Proofs.Canonical
import MessagePack.Proofs.Encoded
/-
  An encoding happens whole or not at all. The items are all encoded before the output is touched, so the first
  item without a token stops the command while every file still is as it was; an item has no token just where its
  text is not hexadecimal or spells more bytes than a blob can hold.

  What is proved:
    1. `Item.exists_encode_iff`: which items of a document have a token.
    2. `Item.encodeAll_eq_error_iff`: an encoding of items is refused for the first one that is refused.
    3. `Item.firstBadHex_of_error`, `Item.error_of_firstBadHex`: what a refusal for its digits names.
    4. `Item.exists_tokens`: an encoding of items is put together from the encodings of each on its own.
    5. `Arguments.Command.encode_all_or_nothing`: what an encoding does to the files, in every directory.
-/
namespace MessagePack

theorem Encoding.blob_of_gt {data : Bytes} (h : Width.w32.max < data.length) :
    blob data = .error (.blobTooLarge data.length) := by
  have h8 : ¬ data.length ≤ Width.w8.max := by
    have hmax : Width.w8.max ≤ Width.w32.max := by decide
    omega
  have h16 : ¬ data.length ≤ Width.w16.max := by
    have hmax : Width.w16.max ≤ Width.w32.max := by decide
    omega
  rw [blob, if_neg h8, if_neg h16, if_neg (by omega)]

namespace Item

/-! ## Items without a token -/

/-- A blob whose text is not hexadecimal. -/
def BadHex : Item → Prop
  | entry _ => False
  | hexBlob text => ¬ Hex.Valid text.toUTF8.data.toList

/-- A blob whose text spells more bytes than the widest length field can say. -/
def TooLong : Item → Prop
  | entry _ => False
  | hexBlob text => Hex.Valid text.toUTF8.data.toList ∧ Width.w32.max < text.utf8ByteSize / 2

variable {decoders : Decoders} {item : Item}

/-- A refused call is not a refused text. -/
theorem mapError_refused_ne {x : Except EncodeError Bytes} {e : Hex.Error} :
    x.mapError Cause.refused ≠ .error (.invalidHex e) := by
  intro h
  cases x <;> cases h

theorem encode_of_badHex (hdecoders : decoders.Lawful) (h : item.BadHex) :
    ∃ e, item.encode decoders.hex = .error (.invalidHex e) := by
  cases item with
  | entry e => exact absurd h id
  | hexBlob text =>
    cases hdecode : decoders.hex text.toUTF8.data.toList with
    | error e => exact ⟨e, by simp only [encode, hdecode]⟩
    | ok data => exact absurd (hdecoders.exists_hex_iff.1 ⟨data, hdecode⟩) h

theorem badHex_of_encode (hdecoders : decoders.Lawful) {e : Hex.Error}
    (h : item.encode decoders.hex = .error (.invalidHex e)) : item.BadHex := by
  cases item with
  | entry e => exact absurd h mapError_refused_ne
  | hexBlob text =>
    intro hvalid
    obtain ⟨data, hdecode⟩ := hdecoders.exists_hex_iff.2 hvalid
    simp only [encode, hdecode] at h
    exact mapError_refused_ne h

/-- What a text in hexadecimal spells, and how long it is. -/
theorem exists_spelled (hdecoders : decoders.Lawful) {text : String}
    (h : Hex.Valid text.toUTF8.data.toList) :
    ∃ data, decoders.hex text.toUTF8.data.toList = .ok data ∧ data.length = text.utf8ByteSize / 2 := by
  obtain ⟨data, hdecode⟩ := hdecoders.exists_hex_iff.2 h
  have hlength : 2 * data.length = text.utf8ByteSize := hdecoders.length_hex hdecode
  exact ⟨data, hdecode, by omega⟩

theorem encode_of_tooLong (hdecoders : decoders.Lawful) (h : item.TooLong) :
    ∃ e, item.encode decoders.hex = .error (.refused e) := by
  cases item with
  | entry e => exact absurd h id
  | hexBlob text =>
    obtain ⟨hvalid, hlong⟩ := h
    obtain ⟨data, hdecode, hlength⟩ := exists_spelled hdecoders hvalid
    have hblob := Encoding.blob_of_gt (hlength ▸ hlong)
    exact ⟨.blobTooLarge data.length, by simp only [encode, hdecode, hblob, Except.mapError]⟩

theorem encode_of_sound (hdecoders : decoders.Lawful) (hparsed : item.Parsed) (hhex : ¬ item.BadHex)
    (hshort : ¬ item.TooLong) : ∃ t, item.encode decoders.hex = .ok t := by
  cases item with
  | entry e => cases e <;> first | exact absurd hparsed id | exact ⟨_, rfl⟩
  | hexBlob text =>
    have hvalid : Hex.Valid text.toUTF8.data.toList := Decidable.not_not.1 hhex
    obtain ⟨data, hdecode, hlength⟩ := exists_spelled hdecoders hvalid
    have hle : data.length ≤ Width.w32.max := by
      rw [hlength]
      exact Nat.le_of_not_lt fun hlong => hshort ⟨hvalid, hlong⟩
    obtain ⟨t, hblob, _⟩ := Encoding.blob_of_le (Nat.le_refl _) hle
    exact ⟨t, by simp only [encode, hdecode, hblob, Except.mapError]⟩

/-- The items of a document that have a token are those that are neither spoilt nor too long. -/
theorem exists_encode_iff (hdecoders : decoders.Lawful) (hparsed : item.Parsed) :
    (∃ t, item.encode decoders.hex = .ok t) ↔ ¬ item.BadHex ∧ ¬ item.TooLong := by
  constructor
  · rintro ⟨t, ht⟩
    constructor
    · intro hbad
      obtain ⟨e, he⟩ := encode_of_badHex hdecoders hbad
      cases ht.symm.trans he
    · intro hlong
      obtain ⟨e, he⟩ := encode_of_tooLong hdecoders hlong
      cases ht.symm.trans he
  · rintro ⟨hhex, hshort⟩
    exact encode_of_sound hdecoders hparsed hhex hshort

theorem message_invalidHex (index : Nat) (e : Hex.Error) :
    Rejection.message ⟨index, .invalidHex e⟩ = s!"element {index}: invalid hex: {e.message}" := by
  have hjoin : toString ": invalid hex: " = toString ": " ++ toString "invalid hex: " := by decide +kernel
  dsimp only [Rejection.message, Cause.message]
  rw [hjoin]
  simp only [String.append_assoc]
  rfl

/-! ## Lists of items -/

variable {hex : Bytes → Except Hex.Error Bytes} {items : List Item}

/-- An encoding of items is refused for the first one that is refused, and counts those before it. -/
theorem encodeFrom_eq_error_iff {index : Nat} {tokens : List Bytes} {r : Rejection} :
    encodeFrom hex index tokens items = .error r ↔
      ∃ before item after, items = before ++ item :: after ∧ r.index = index + before.length ∧
        item.encode hex = .error r.cause ∧ ∀ i ∈ before, ∃ t, i.encode hex = .ok t := by
  -- Along the list: the index counts the items before, and the first item either decides or has a token.
  induction items generalizing index tokens with
  | nil => simp [encodeFrom]
  | cons first items ih =>
    rw [encodeFrom]
    cases hfirst : first.encode hex with
    | error cause =>
      constructor
      · intro h
        cases h
        exact ⟨[], first, items, rfl, rfl, hfirst, by simp⟩
      · rintro ⟨_ | ⟨b, before⟩, item, after, hsplit, hindex, hitem, hbefore⟩
        · cases hsplit
          cases hfirst.symm.trans hitem
          obtain ⟨i, cause⟩ := r
          cases hindex
          rfl
        · cases hsplit
          obtain ⟨t, ht⟩ := hbefore first List.mem_cons_self
          cases hfirst.symm.trans ht
    | ok token =>
      simp only [ih]
      constructor
      · rintro ⟨before, item, after, rfl, hindex, hitem, hbefore⟩
        refine ⟨first :: before, item, after, rfl, ?_, hitem, ?_⟩
        · rw [List.length_cons]
          omega
        · exact List.forall_mem_cons.2 ⟨⟨token, hfirst⟩, hbefore⟩
      · rintro ⟨_ | ⟨b, before⟩, item, after, hsplit, hindex, hitem, hbefore⟩
        · cases hsplit
          cases hfirst.symm.trans hitem
        · cases hsplit
          rw [List.length_cons] at hindex
          exact ⟨before, item, after, rfl, by omega, hitem, (List.forall_mem_cons.1 hbefore).2⟩

theorem encodeAll_eq_error_iff {r : Rejection} :
    encodeAll hex items = .error r ↔
      ∃ before item after, items = before ++ item :: after ∧ r.index = before.length ∧
        item.encode hex = .error r.cause ∧ ∀ i ∈ before, ∃ t, i.encode hex = .ok t := by
  rw [encodeAll, encodeFrom_eq_error_iff]
  simp only [Nat.zero_add]

/-- The first of the items whose text is not hexadecimal stands at `index`. -/
def FirstBadHex (items : List Item) (index : Nat) : Prop :=
  ∃ before item after, items = before ++ item :: after ∧ index = before.length ∧ item.BadHex ∧
    ∀ i ∈ before, ¬ i.BadHex

/-- A refusal for its digits names the first item of which it can be said. -/
theorem firstBadHex_of_error (hdecoders : decoders.Lawful) {index : Nat} {e : Hex.Error}
    (h : encodeAll decoders.hex items = .error ⟨index, .invalidHex e⟩) : FirstBadHex items index := by
  obtain ⟨before, item, after, hsplit, hindex, hitem, hbefore⟩ := encodeAll_eq_error_iff.1 h
  refine ⟨before, item, after, hsplit, hindex, badHex_of_encode hdecoders hitem, ?_⟩
  intro i hi hbad
  obtain ⟨t, ht⟩ := hbefore i hi
  obtain ⟨e, he⟩ := encode_of_badHex hdecoders hbad
  cases ht.symm.trans he

/-- The first text that is not hexadecimal is what is refused, if no blob before it is too long. -/
theorem error_of_firstBadHex (hdecoders : decoders.Lawful) (hparsed : ∀ item ∈ items, item.Parsed) {index : Nat}
    (h : FirstBadHex items index) (hshort : ∀ item ∈ items.take index, ¬ item.TooLong) :
    ∃ e, encodeAll decoders.hex items = .error ⟨index, .invalidHex e⟩ := by
  obtain ⟨before, item, after, rfl, rfl, hbad, hbefore⟩ := h
  obtain ⟨e, hitem⟩ := encode_of_badHex hdecoders hbad
  rw [List.take_left] at hshort
  refine ⟨e, encodeAll_eq_error_iff.2 ⟨before, item, after, rfl, rfl, hitem, ?_⟩⟩
  intro i hi
  exact encode_of_sound hdecoders (hparsed i (List.mem_append_left _ hi)) (hbefore i hi) (hshort i hi)

/-- An encoding of items is put together from the encodings of each on its own. -/
theorem exists_tokens {bytes : Bytes} (h : encodeAll hex items = .ok bytes) :
    ∃ tokens, List.Forall₂ (fun item token => encodeAll hex [item] = .ok token) items tokens ∧
      bytes = tokens.flatten := by
  obtain ⟨hencode, rfl⟩ := encodeAll_iff.1 h
  refine ⟨items.map fun item => (item.call hex).token, ?_, ?_⟩
  · rw [List.forall₂_map_right_iff, List.forall₂_same]
    intro item hitem
    refine encodeAll_iff.2 ⟨by simpa using hencode item hitem, ?_⟩
    simp [written]
  · rw [written, List.flatMap_map, List.flatMap_def]

theorem exists_encodeAll_iff (hdecoders : decoders.Lawful) (hparsed : ∀ item ∈ items, item.Parsed) :
    (∃ bytes, encodeAll decoders.hex items = .ok bytes) ↔ ∀ item ∈ items, ¬ item.BadHex ∧ ¬ item.TooLong := by
  constructor
  · rintro ⟨bytes, h⟩ item hitem
    exact (exists_encode_iff hdecoders (hparsed item hitem)).1 ⟨_, (encodeAll_iff.1 h).1 item hitem⟩
  · intro h
    refine ⟨_, encodeAll_iff.2 ⟨?_, rfl⟩⟩
    intro item hitem
    obtain ⟨t, ht⟩ := (exists_encode_iff hdecoders (hparsed item hitem)).2 (h item hitem)
    rw [ht, encode_eq_token ht]

end Item

/-! ## Runs of the command -/

namespace Arguments

section
variable {σ κ : Type} {fs : FileSystem σ κ} {decoders : Decoders} {o : EncodeOptions} {s : σ}
  {items : List Item}

/-- The items that an encoding finds at its input. -/
def EncodeOptions.Spells (fs : FileSystem σ κ) (decoders : Decoders) (o : EncodeOptions) (s : σ)
    (items : List Item) : Prop :=
  ∃ input text, (fs.files.read o.input s).1 = .ok input ∧
    String.fromUTF8? input.toByteArray = some text ∧ decoders.items? text = some items

theorem EncodeOptions.Spells.unique {items' : List Item} (h : o.Spells fs decoders s items)
    (h' : o.Spells fs decoders s items') : items = items' := by
  obtain ⟨input, text, hread, htext, hitems⟩ := h
  obtain ⟨input', text', hread', htext', hitems'⟩ := h'
  cases hread.symm.trans hread'
  cases htext.symm.trans htext'
  exact Option.some.inj (hitems.symm.trans hitems')

theorem EncodeOptions.Spells.parsed (hdecoders : decoders.Lawful) (h : o.Spells fs decoders s items) :
    ∀ item ∈ items, item.Parsed := by
  obtain ⟨input, text, _, _, hitems⟩ := h
  exact hdecoders.parsed hitems

namespace Command

/-- Where an item is refused, the command fails with its place and the reason. -/
theorem run_rejected {r : Item.Rejection} (hfiles : fs.Lawful) (h : o.Spells fs decoders s items)
    (hr : Item.encodeAll decoders.hex items = .error r) :
    (encode o).runWith fs.files decoders s = (.failed r.message, s) := by
  obtain ⟨input, text, hread, htext, hitems⟩ := h
  have hplan : Encode.plan decoders input = .error (.rejected r) := by
    simp only [Encode.plan, htext, hitems, hr]
  exact run_refused hfiles hread hplan

/-- Where the items have their tokens and the output can be written, the command succeeds. -/
theorem run_written {bytes : Bytes} (hfiles : fs.Lawful) (h : o.Spells fs decoders s items)
    (hbytes : Item.encodeAll decoders.hex items = .ok bytes)
    (hwrite : (fs.files.write o.output bytes s).1 = .ok ()) :
    ((encode o).runWith fs.files decoders s).1 = Encode.written o ⟨bytes, items.length⟩ := by
  obtain ⟨input, text, hread, htext, hitems⟩ := h
  have hplan : Encode.plan decoders input = .ok ⟨bytes, items.length⟩ := by
    simp only [Encode.plan, htext, hitems, hbytes]
  rw [run_encode hfiles hread hplan hwrite]

/-- What a run that succeeds has done, by the items of its input, their tokens and the file that its output is. -/
structure Wrote (fs : FileSystem σ κ) (decoders : Decoders) (o : EncodeOptions) (s : σ) (items : List Item)
    (tokens : List Bytes) (k : κ) : Prop where
  spelled : o.Spells fs decoders s items
  tokens_eq : List.Forall₂ (fun item token => Item.encodeAll decoders.hex [item] = .ok token) items tokens
  place_eq : fs.place? ((encode o).runWith fs.files decoders s).2 o.output = some k
  content_eq : fs.file? ((encode o).runWith fs.files decoders s).2 k = some tokens.flatten
  others_eq : ∀ other, other ≠ k →
    fs.file? ((encode o).runWith fs.files decoders s).2 other = fs.file? s other
  lines_eq : ((encode o).runWith fs.files decoders s).1.lines =
    [s!"Wrote {tokens.flatten.length} bytes ({items.length} value{Report.plural items.length}) to {o.output}"]
  written_shown : Wording.readAll? [Encode.writtenWording items.length o.output]
    ((encode o).runWith fs.files decoders s).1.lines = some [[tokens.flatten.length, items.length]]

theorem exists_wrote (hfiles : fs.Lawful)
    (h : ((encode o).runWith fs.files decoders s).1.failure = none) :
    ∃ items tokens k, Wrote fs decoders o s items tokens k := by
  obtain ⟨input, ⟨bytes, values⟩, hread, hplan, hwrite, hrun⟩ := encode_succeeds hfiles h
  obtain ⟨text, items, htext, hitems, hbytes, rfl⟩ := Encode.items_of_plan hplan
  obtain ⟨tokens, htokens, rfl⟩ := Item.exists_tokens hbytes
  obtain ⟨k, hplace, hcontent, hothers⟩ := hfiles.write_granted hwrite
  refine ⟨items, tokens, k, ⟨input, text, hread, htext, hitems⟩, htokens, ?_, ?_, ?_, ?_, ?_⟩
  · rw [hrun]
    exact hplace
  · rw [hrun]
    exact hcontent
  · rw [hrun]
    exact hothers
  · rw [hrun]
    rfl
  · rw [hrun]
    exact Encode.readAll?_written o ⟨tokens.flatten, items.length⟩

/-- What an encoding comes to among some files: on a failure every file is as it was, and otherwise the output alone
has changed and holds what the items are encoded to. -/
structure AllOrNothing (fs : FileSystem σ κ) (decoders : Decoders) (o : EncodeOptions) (s : σ) : Prop where
  /-- A run that fails leaves every file as it was. -/
  unchanged : ((encode o).runWith fs.files decoders s).1.failure ≠ none →
    ((encode o).runWith fs.files decoders s).2 = s
  /-- An input that cannot be read, is no text or says no items makes it fail. -/
  unspelled : (∀ items, ¬ o.Spells fs decoders s items) →
    ((encode o).runWith fs.files decoders s).1.failure ≠ none
  /-- One item without a token, wherever it stands, makes it fail. -/
  spoilt : ∀ items, o.Spells fs decoders s items → (∃ item ∈ items, item.BadHex ∨ item.TooLong) →
    ((encode o).runWith fs.files decoders s).1.failure ≠ none
  /-- A failure for a text that is not hexadecimal names the first such text. -/
  named : ∀ items index e, o.Spells fs decoders s items →
    Item.encodeAll decoders.hex items = .error ⟨index, .invalidHex e⟩ →
    Item.FirstBadHex items index ∧
      ((encode o).runWith fs.files decoders s).1.failure = some s!"element {index}: invalid hex: {e.message}"
  /-- And the first such text is what it fails for, if no blob before it is too long. -/
  first : ∀ items index, o.Spells fs decoders s items → Item.FirstBadHex items index →
    (∀ item ∈ items.take index, ¬ item.TooLong) →
    ∃ e : Hex.Error,
      ((encode o).runWith fs.files decoders s).1.failure = some s!"element {index}: invalid hex: {e.message}"
  /-- Nothing else but the output itself makes it fail. -/
  completes : ∀ items, o.Spells fs decoders s items → (∀ item ∈ items, ¬ item.BadHex ∧ ¬ item.TooLong) →
    (∀ bytes, (fs.files.write o.output bytes s).1 = .ok ()) →
    ((encode o).runWith fs.files decoders s).1.failure = none
  /-- A run that succeeds has put the tokens of the items into the output and changed no other file. -/
  wrote : ((encode o).runWith fs.files decoders s).1.failure = none →
    ∃ items tokens k, Wrote fs decoders o s items tokens k

theorem named_of_error {index : Nat} {e : Hex.Error} (hfiles : fs.Lawful) (h : o.Spells fs decoders s items)
    (hr : Item.encodeAll decoders.hex items = .error ⟨index, .invalidHex e⟩) :
    ((encode o).runWith fs.files decoders s).1.failure
      = some s!"element {index}: invalid hex: {e.message}" := by
  rw [run_rejected hfiles h hr, Item.message_invalidHex]
  rfl

/-- A run that succeeds has found items that all have a token. -/
theorem sound_of_success (hfiles : fs.Lawful) (hdecoders : decoders.Lawful)
    (h : ((encode o).runWith fs.files decoders s).1.failure = none) (hitems : o.Spells fs decoders s items) :
    ∀ item ∈ items, ¬ item.BadHex ∧ ¬ item.TooLong := by
  -- Whatever the output does, a refused item has stopped the run before it.
  cases hall : Item.encodeAll decoders.hex items with
  | ok bytes => exact (Item.exists_encodeAll_iff hdecoders (hitems.parsed hdecoders)).1 ⟨bytes, hall⟩
  | error r =>
    rw [run_rejected hfiles hitems hall] at h
    cases h

theorem all_or_nothing (hfiles : fs.Lawful) (hdecoders : decoders.Lawful) (o : EncodeOptions) (s : σ) :
    AllOrNothing fs decoders o s where
  unchanged := state_of_failure hfiles
  unspelled := by
    intro hnone h
    obtain ⟨items, _, _, hwrote⟩ := exists_wrote hfiles h
    exact hnone items hwrote.spelled
  spoilt := by
    rintro items hitems ⟨item, hitem, hspoilt⟩ h
    obtain ⟨hhex, hshort⟩ := sound_of_success hfiles hdecoders h hitems item hitem
    exact hspoilt.elim hhex hshort
  named := by
    intro items index e hitems hr
    exact ⟨Item.firstBadHex_of_error hdecoders hr, named_of_error hfiles hitems hr⟩
  first := by
    intro items index hitems hfirst hshort
    obtain ⟨e, hr⟩ := Item.error_of_firstBadHex hdecoders (hitems.parsed hdecoders) hfirst hshort
    exact ⟨e, named_of_error hfiles hitems hr⟩
  completes := by
    intro items hitems hsound hwrite
    obtain ⟨bytes, hbytes⟩ := (Item.exists_encodeAll_iff hdecoders (hitems.parsed hdecoders)).2 hsound
    rw [run_written hfiles hitems hbytes (hwrite bytes)]
    rfl
  wrote := exists_wrote hfiles

/-- An encoding touches its output only when nothing can be refused any more. Whatever there is among the files,
and whether or not the output is there already or is the input itself: if the input cannot be read or says no
items, or if some item has no token, wherever it stands, the command fails and every file is as it was; a failure
for a text that is not hexadecimal names the first such item. If the command succeeds, the output alone has changed
and holds the tokens of the items in their order, as each item is encoded on its own, and the report counts those
bytes and those items. This holds of all files and of all readers of the input that keep their laws, and of the
files below every directory and the readers that commands run with. -/
theorem encode_all_or_nothing :
    (∀ (σ κ : Type) (fs : FileSystem σ κ) (decoders : Decoders), fs.Lawful → decoders.Lawful →
      ∀ (o : EncodeOptions) (s : σ), AllOrNothing fs decoders o s) ∧
    ∀ (o : EncodeOptions) (d : Directory), AllOrNothing FileSystem.below .standard o d := by
  refine ⟨?_, ?_⟩
  · intro σ κ fs decoders hfiles hdecoders o s
    exact all_or_nothing hfiles hdecoders o s
  · intro o d
    exact all_or_nothing FileSystem.lawful_below Decoders.lawful_standard o d

/-- A directory with a document and with a file where an output may go. -/
def withDocument (text : String) : Directory :=
  ⟨[(Place.working.child "in", text.toUTF8.data.toList), (Place.working.child "out", [1, 2, 3])]⟩

theorem spells_withDocument {text output : String} {items : List Item}
    (htext : String.fromUTF8? text.toUTF8.data.toList.toByteArray = some text)
    (hitems : Item.parseAll? text = some items) :
    EncodeOptions.Spells FileSystem.below .standard ⟨"in", output⟩ (withDocument text) items := by
  refine ⟨text.toUTF8.data.toList, text, ?_, htext, hitems⟩
  rw [FileSystem.read_below path_in]
  rfl

/-- A null and a blob with a letter that is no digit. -/
def nullAndJunk : String := "[null,\x7b\"bin\":\"0g\"\x7d]"

/-- The blob is named by its place behind the null, and the file at the output stays; a document that is its own
output is replaced by the byte of its null, and the other file stays. -/
theorem encode_all_or_nothing_overItself :
    (((encode ⟨"in", "out"⟩).run (withDocument nullAndJunk)).1.failure
        = some "element 1: invalid hex: Invalid character 'g' at position 1" ∧
      ((encode ⟨"in", "out"⟩).run (withDocument nullAndJunk)).2 = withDocument nullAndJunk) ∧
    (((encode ⟨"in", "in"⟩).run (withDocument "[null]")).1.lines = ["Wrote 1 bytes (1 value) to in"] ∧
      ((encode ⟨"in", "in"⟩).run (withDocument "[null]")).2.file? (Place.working.child "in") = some [0xc0] ∧
      ((encode ⟨"in", "in"⟩).run (withDocument "[null]")).2.file? (Place.working.child "out")
        = some [1, 2, 3]) := by
  constructor
  · have hspelled : EncodeOptions.Spells FileSystem.below .standard ⟨"in", "out"⟩ (withDocument nullAndJunk)
        [.entry .nil, .hexBlob "0g"] := spells_withDocument (by decide +kernel) (by decide +kernel)
    have hrefused : Item.encodeAll Hex.decode [.entry .nil, .hexBlob "0g"]
        = .error ⟨1, .invalidHex (.invalidCharacter 103 1)⟩ := by decide +kernel
    have hall := encode_all_or_nothing.1 Directory Place FileSystem.below .standard FileSystem.lawful_below
      Decoders.lawful_standard ⟨"in", "out"⟩ (withDocument nullAndJunk)
    obtain ⟨_, hfailure⟩ := hall.named _ 1 _ hspelled hrefused
    refine ⟨hfailure.trans (by decide +kernel), hall.unchanged ?_⟩
    rw [hfailure]
    exact Option.some_ne_none _
  · have hspelled : EncodeOptions.Spells FileSystem.below .standard ⟨"in", "in"⟩ (withDocument "[null]")
        [.entry .nil] := spells_withDocument (by decide +kernel) (by decide +kernel)
    have hsound : ∀ item ∈ [Item.entry .nil], ¬ item.BadHex ∧ ¬ item.TooLong := by
      simp [Item.BadHex, Item.TooLong]
    have hwrite (bytes : Bytes) :
        (FileSystem.below.files.write "in" bytes (withDocument "[null]")).1 = .ok () := by
      simp only [FileSystem.below, Files.inDirectory, path_in]
      rfl
    have hall := encode_all_or_nothing.2 ⟨"in", "in"⟩ (withDocument "[null]")
    obtain ⟨items, tokens, k, hwrote⟩ := hall.wrote (hall.completes _ hspelled hsound hwrite)
    cases hwrote.spelled.unique hspelled
    have hplace : FileSystem.below.place? (withDocument "[null]") "in" = some (Place.working.child "in") := by
      simp only [FileSystem.below, path_in]
      rfl
    obtain rfl : Place.working.child "in" = k := Option.some.inj (hplace.symm.trans hwrote.place_eq)
    -- There is one item, so there is one token, which is that of the null.
    obtain ⟨token, _, htoken, hrest, rfl⟩ := List.forall₂_cons_left_iff.1 hwrote.tokens_eq
    cases hrest
    cases htoken
    refine ⟨hwrote.lines_eq.trans (by decide +kernel), hwrote.content_eq, ?_⟩
    exact hwrote.others_eq (Place.working.child "out") (by decide)

end Command

end

end Arguments
end MessagePack
