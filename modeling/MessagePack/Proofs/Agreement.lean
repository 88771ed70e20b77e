import Mathlib.Algebra.Ring.Nat
import MessagePack.Proofs.Contents
import MessagePack.Proofs.Listing
import MessagePack.Proofs.Wording
/-
  Inspection and validation of the same file. One walks through it in messages of any length from a large storage
  and prints each token as it comes; the other makes a message of each token, starts from a storage of one chunk
  and prints at the end. Both find the contents of the file, so they agree in all that they say about it.

  What is proved:
    1. `Inspect.report_of_contents`, `Validate.report_of_contents`: each report, by the contents of the file.
    2. `Inspect.fed_of_room`, `Validate.fed_of_room`: a file that fits into the storage lets no walk starve.
    3. `Ending.shows_inspected`, `Ending.shows_validated`: both texts of a fault show what it is and where.
    4. `reports_agree`: the two reports beside each other, and the inspection beside another one.
-/
namespace MessagePack

theorem Arena.outcome_create {capacity : Nat} {allocator : Allocator} (h : allocator.provides capacity) :
    (create capacity allocator).outcome = .ok () := by
  unfold create
  split
  · rfl
  · obtain ⟨hrefused, _⟩ | ⟨_, hgrow⟩ := (empty allocator).growTo_cases capacity
    · exact absurd h hrefused
    · rw [hgrow]

/-! ## Inspection -/

namespace Inspect

/-- The walk of an inspection to its end. -/
def runOver (o : Arguments.InspectOptions) (bytes : Bytes) : Walk.Run :=
  Walk.runOver bytes o.chunkSize o.chunkSize_pos o.valuesPerMessage ({} : Config).initialCapacity none

/-- No feeding of the inspection lacks room, or a word for the place where the chunk ends. -/
def Fed (o : Arguments.InspectOptions) (bytes : Bytes) : Prop :=
  ∀ f, (runOver o bytes).ending = .error f → ¬ Walk.Starved f

/-- The lines of some tokens. -/
def listing (o : Arguments.InspectOptions) (tokens : List Token) : List String :=
  tokens.flatMap (tokenLines o.showHex)

/-- What an inspection says in the end about a file whose tokens end so. -/
def failure? (o : Arguments.InspectOptions) : Ending → Option String
  | .finished => none
  | .cutOff offset buffered => some (cutOffText offset buffered)
  | .refused e => some s!"failed to decode {o.file}: {e.message}"

/-- What an inspection prints behind the tokens of a file of `size` bytes. -/
def closing (o : Arguments.InspectOptions) (tokens size capacity : Nat) : Ending → List String
  | .finished => summary tokens (Walk.messageCount o.valuesPerMessage tokens) size capacity
  | _ => []

theorem report_eq (o : Arguments.InspectOptions) (bytes : Bytes) :
    report o bytes = match (runOver o bytes).ending with
      | .error f => ⟨listing o (runOver o bytes).tokens, some s!"failed to decode {o.file}: {f.message}"⟩
      | .ok (.cutOff offset buffered) =>
        ⟨listing o (runOver o bytes).tokens, some (cutOffText offset buffered)⟩
      | .ok _ => ⟨listing o (runOver o bytes).tokens ++ summary (runOver o bytes).tokens.length
          (runOver o bytes).walk.messages bytes.length (runOver o bytes).walk.reader.arena.capacity, none⟩ := by
  have hcreate : (Arena.create ({} : Config).initialCapacity).outcome = .ok () :=
    Arena.outcome_create (by decide)
  unfold report walk runOver Walk.runOver Walk.create Reader.create
  generalize Arena.create ({} : Config).initialCapacity = reply at hcreate
  obtain ⟨outcome, a, es⟩ := reply
  simp only at hcreate
  subst hcreate
  rfl

variable {o : Arguments.InspectOptions} {bytes : Bytes}

/-- An inspection prints the tokens of the file, and says how they end. -/
theorem report_of_contents (hfed : Fed o bytes) {tokens : List Token} {ending : Ending}
    (h : Contents 0 bytes tokens ending) :
    ∃ capacity, report o bytes
      = ⟨listing o tokens ++ closing o tokens.length bytes.length capacity ending, failure? o ending⟩ := by
  obtain ⟨htokens, hanswer⟩ := Walk.runOver_of_contents h hfed
  have hmessages := Walk.messages_runOver bytes o.chunkSize o.chunkSize_pos o.valuesPerMessage
    ({} : Config).initialCapacity .standard
  refine ⟨(runOver o bytes).walk.reader.arena.capacity, ?_⟩
  rw [report_eq]
  unfold runOver
  rw [hmessages, hanswer, htokens]
  cases ending with
  | finished => rfl
  | cutOff | refused =>
    simp only [closing, List.append_nil]
    rfl

theorem fed_of_room (hchunk : bytes.length + o.chunkSize ≤ wordMax)
    (hroom : Allocator.standard.provides (leastPowerOfTwo bytes.length)) : Fed o bytes :=
  fun _ hf => Walk.not_starved_of_room hchunk hroom hf

end Inspect

/-! ## Validation -/

namespace Validate

/-- No feeding of the validation lacks room, or a word for the place where the chunk ends, and its first storage
is granted. -/
structure Fed (o : Arguments.ValidateOptions) (bytes : Bytes) : Prop where
  created : (Arena.create o.chunkSize).outcome = .ok ()
  fed : ∀ f, (Walk.runOver bytes o.chunkSize o.chunkSize_pos (some 1) o.chunkSize none).ending = .error f →
    ¬ Walk.Starved f

/-- What a validation says is wrong with a file whose tokens end so. -/
def failure? : Ending → Option String
  | .finished => none
  | .cutOff offset buffered => some (cutOffText offset buffered)
  | .refused e => some e.message

/-- The report of a validation on a file of `size` bytes with some tokens. -/
def verdict (tokens : List Token) (size : Nat) (ending : Ending) : Report :=
  match failure? ending with
  | none => ⟨(tokens.foldl Tally.count {}).lines size, none⟩
  | some text => rejected text

variable {o : Arguments.ValidateOptions} {bytes : Bytes}

/-- A validation without a limit tells of the contents of the file. -/
theorem report_of_contents (hlimit : o.maxBlobLength = none) (hfed : Fed o bytes) {tokens : List Token}
    {ending : Ending} (h : Contents 0 bytes tokens ending) :
    report o bytes = verdict tokens bytes.length ending := by
  obtain ⟨htokens, hanswer⟩ := Walk.runOver_of_contents h hfed.fed
  rw [report_eq, hfed.created, hlimit]
  simp only [conclude, hanswer, htokens]
  cases ending <;> rfl

theorem fed_of_room (hcreated : Allocator.standard.provides o.chunkSize)
    (hchunk : bytes.length + o.chunkSize ≤ wordMax)
    (hroom : Allocator.standard.provides (leastPowerOfTwo bytes.length)) : Fed o bytes :=
  ⟨Arena.outcome_create hcreated, fun _ hf => Walk.not_starved_of_room hchunk hroom hf⟩

/-! ## Counting -/

namespace Tally

/-- The number of tokens of a family. -/
def ofFamily (t : Tally) : Family → Nat
  | .nil => t.nil
  | .bool => t.bool
  | .int => t.int
  | .float => t.float
  | .bin => t.bin

theorem ofFamily_count (t : Tally) (token : Token) (f : Family) :
    (t.count token).ofFamily f = t.ofFamily f + if token.marker.family = f then 1 else 0 := by
  unfold count
  cases token.marker.family <;> cases token.value <;> cases f <;> rfl

theorem payload_count (t : Tally) (token : Token) :
    (t.count token).payload = t.payload + token.value.payloadLength := by
  unfold count
  cases token.marker.family <;> cases token.value <;> rfl

theorem ofFamily_foldl (f : Family) (tokens : List Token) (t : Tally) :
    (tokens.foldl count t).ofFamily f
      = t.ofFamily f + (tokens.filter fun token => token.marker.family = f).length := by
  induction tokens generalizing t with
  | nil => rfl
  | cons token tokens ih =>
    rw [List.foldl_cons, ih, ofFamily_count, List.filter_cons]
    by_cases hf : token.marker.family = f
    · simp only [hf, if_true, decide_true, List.length_cons]
      omega
    · simp only [hf, if_false, decide_false]
      rfl

theorem payload_foldl (tokens : List Token) (t : Tally) :
    (tokens.foldl count t).payload
      = t.payload + (tokens.map fun token => token.value.payloadLength).sum := by
  induction tokens generalizing t with
  | nil => rfl
  | cons token tokens ih =>
    rw [List.foldl_cons, ih, payload_count, List.map_cons, List.sum_cons, Nat.add_assoc]

theorem total_count (t : Tally) (token : Token) : (t.count token).total = t.total + 1 := by
  unfold count total
  cases token.marker.family <;> cases token.value <;> simp only <;> omega

theorem total_foldl (tokens : List Token) (t : Tally) :
    (tokens.foldl count t).total = t.total + tokens.length := by
  induction tokens generalizing t with
  | nil => rfl
  | cons token tokens ih =>
    rw [List.foldl_cons, ih, total_count, List.length_cons]
    omega

end Tally

end Validate

/-! ## Faults in words -/

namespace Ending

/-- What the text of a fault shows besides its kind: its place, and what is there. -/
def numbers : Ending → List Nat
  | finished => []
  | cutOff offset buffered => [offset, buffered]
  | refused e => e.numbers

/-- How an inspection words a fault. -/
def inspectedWording (file : String) : Ending → Wording
  | finished => []
  | cutOff _ _ => Inspect.cutOffWording
  | refused e => Inspect.failedWording file e.wording

/-- How a validation words a fault. -/
def validatedWording : Ending → Wording
  | finished => []
  | cutOff _ _ => Validate.cutOffWording
  | refused e => e.wording

theorem separated_inspectedWording (file : String) (ending : Ending) :
    (ending.inspectedWording file).separated := by
  cases ending with
  | finished | cutOff => rfl
  | refused e => exact e.separated_wording

theorem separated_validatedWording (ending : Ending) : ending.validatedWording.separated := by
  cases ending with
  | finished | cutOff => rfl
  | refused e => exact e.separated_wording

theorem shows_inspected {i : Arguments.InspectOptions} {ending : Ending} {text : String}
    (h : Inspect.failure? i ending = some text) :
    (ending.inspectedWording i.file).Shows text ending.numbers := by
  cases ending with
  | finished => cases h
  | cutOff offset buffered =>
    cases h
    exact Inspect.shows_cutOffText offset buffered
  | refused e =>
    cases h
    exact Inspect.shows_failed i.file e.shows_message

theorem shows_validated {ending : Ending} {text : String} (h : Validate.failure? ending = some text) :
    ending.validatedWording.Shows text ending.numbers := by
  cases ending with
  | finished => cases h
  | cutOff offset buffered =>
    cases h
    exact Validate.shows_cutOffText offset buffered
  | refused e =>
    cases h
    exact e.shows_message

end Ending

/-! ## Side by side -/

/-- The reports on a file of whole tokens: both show the number of tokens and of bytes, the counts that the one
shows are those of the lines of the other, and its payload is the sum of the sizes there. -/
structure Accepted (i : Arguments.InspectOptions) (s : Bytes) (inspected validated : Report)
    (tokens : List Token) (tally : Validate.Tally) : Prop where
  contents : Contents 0 s tokens .finished
  inspected_eq : ∃ capacity, inspected.lines = Inspect.listing i tokens ++
    Inspect.summary tokens.length (Walk.messageCount i.valuesPerMessage tokens.length) s.length capacity
  summary_shown : ∃ capacity rows, inspected.lines = Inspect.listing i tokens ++ rows ∧
    Wording.readAll? (Inspect.summaryWordings tokens.length (Walk.messageCount i.valuesPerMessage tokens.length)) rows
      = some [[], [tokens.length, Walk.messageCount i.valuesPerMessage tokens.length, s.length, capacity]]
  validated_eq : validated.lines = tally.lines s.length
  counts_shown : Wording.readAll? Validate.wordings validated.lines
    = some [[tokens.length, s.length], [tally.ofFamily .nil], [tally.ofFamily .bool], [tally.ofFamily .int],
        [tally.ofFamily .float], [tally.ofFamily .bin, tally.payload]]
  total_eq : tally.total = tokens.length
  sum_eq : tally.ofFamily .nil + tally.ofFamily .bool + tally.ofFamily .int + tally.ofFamily .float
    + tally.ofFamily .bin = tokens.length
  family_eq : ∀ f, tally.ofFamily f = (Inspect.familyLines f inspected.lines).length
  payload_eq : tally.payload = ((Inspect.familyLines .bin inspected.lines).map Inspect.lineSize).sum

/-- The reports on a file that breaks off or goes wrong behind `before`: the one lists the tokens up to there and no
more, the other shows one line, and both name the same fault, at the same place. -/
structure Refused (i : Arguments.InspectOptions) (s : Bytes) (inspected validated : Report)
    (tokens : List Token) (before rest : Bytes) (ending : Ending) : Prop where
  split : s = before ++ rest
  contents : Contents 0 before tokens .finished
  fault : Contents before.length rest [] ending
  inspected_eq : inspected = ⟨Inspect.listing i tokens, Inspect.failure? i ending⟩
  inspected_shown : ∃ text, inspected.failure = some text ∧
    (ending.inspectedWording i.file).read? text = some ending.numbers
  validated_eq : ∃ text, Validate.failure? ending = some text ∧ validated = Validate.rejected text
  validated_shown : validated.failure = some "validation failed" ∧
    Wording.readAll? [Validate.rejectedWording ending.validatedWording] validated.lines = some [ending.numbers]

theorem Inspect.failure?_eq_none {i : Arguments.InspectOptions} {ending : Ending} :
    Inspect.failure? i ending = none ↔ ending = .finished := by
  cases ending <;> simp [Inspect.failure?]

theorem Validate.failure_verdict {tokens : List Token} {size : Nat} {ending : Ending} :
    (verdict tokens size ending).failure = none ↔ ending = .finished := by
  cases ending <;> simp [verdict, Validate.failure?, rejected]

/-- The lines of a family in what an inspection prints are those of the tokens. -/
theorem Inspect.familyLines_report (f : Family) (i : Arguments.InspectOptions) (tokens : List Token)
    (messages size capacity : Nat) :
    familyLines f (listing i tokens ++ summary tokens.length messages size capacity)
      = (tokens.filter fun t => t.marker.family = f).map tokenLine := by
  rw [familyLines_append, familyLines_summary, List.append_nil]
  exact familyLines_listing f i.showHex tokens

/-- Only blobs have a payload, so the sizes in their lines are all there is of it. -/
theorem Inspect.sum_lineSize {tokens : List Token}
    (h : ∀ t ∈ tokens, t.marker.family = t.value.family) :
    (((tokens.filter fun t => t.marker.family = .bin).map tokenLine).map lineSize).sum
      = (tokens.map fun t => t.value.payloadLength).sum := by
  induction tokens with
  | nil => rfl
  | cons t tokens ih =>
    obtain ⟨hfamily, hrest⟩ := List.forall_mem_cons.1 h
    rw [List.filter_cons, hfamily, List.map_cons, List.sum_cons, ← ih hrest]
    cases hvalue : t.value with
    | bin data =>
      have hsize : lineSize (tokenLine t) = data.length := lineSize_tokenLine hvalue
      simp only [Value.family, decide_true, if_true, List.map_cons, List.sum_cons, hsize,
        Value.payloadLength]
    | nil | bool _ | int _ | float _ =>
      simp [Value.family, Value.payloadLength]

theorem accepted_of_contents {s : Bytes} {i : Arguments.InspectOptions} {v : Arguments.ValidateOptions}
    (hlimit : v.maxBlobLength = none) (hi : Inspect.Fed i s) (hv : Validate.Fed v s) {tokens : List Token}
    (h : Contents 0 s tokens .finished) :
    Accepted i s (Inspect.report i s) (Validate.report v s) tokens (tokens.foldl Validate.Tally.count {}) := by
  obtain ⟨capacity, hinspected⟩ := Inspect.report_of_contents hi h
  have hvalidated := Validate.report_of_contents hlimit hv h
  have hlines : (Inspect.report i s).lines = Inspect.listing i tokens ++ Inspect.summary tokens.length
      (Walk.messageCount i.valuesPerMessage tokens.length) s.length capacity := by
    rw [hinspected]
    rfl
  have htally : (Validate.report v s).lines = (tokens.foldl Validate.Tally.count {}).lines s.length := by
    rw [hvalidated]
    rfl
  have htotal : (tokens.foldl Validate.Tally.count {}).total = tokens.length := by
    rw [Validate.Tally.total_foldl]
    exact Nat.zero_add _
  have hsummary := Inspect.readAll?_summary tokens.length
    (Walk.messageCount i.valuesPerMessage tokens.length) s.length capacity
  refine ⟨h, ⟨capacity, hlines⟩, ⟨capacity, _, hlines, hsummary⟩, htally, ?_, htotal, ?_, ?_, ?_⟩
  · rw [htally, Validate.Tally.readAll?_lines, Validate.Tally.numbers, htotal]
    rfl
  · rw [← htotal]
    rfl
  · intro f
    rw [hlines, Inspect.familyLines_report, List.length_map, Validate.Tally.ofFamily_foldl]
    cases f <;> exact Nat.zero_add _
  · rw [hlines, Inspect.familyLines_report, Inspect.sum_lineSize h.family_eq,
      Validate.Tally.payload_foldl]
    exact Nat.zero_add _

theorem refused_of_contents {s : Bytes} {i : Arguments.InspectOptions} {v : Arguments.ValidateOptions}
    (hlimit : v.maxBlobLength = none) (hi : Inspect.Fed i s) (hv : Validate.Fed v s) {tokens : List Token}
    {ending : Ending} (h : Contents 0 s tokens ending) (hlast : ending ≠ .finished) :
    ∃ before rest,
      Refused i s (Inspect.report i s) (Validate.report v s) tokens before rest ending := by
  obtain ⟨capacity, hinspected⟩ := Inspect.report_of_contents hi h
  have hvalidated := Validate.report_of_contents hlimit hv h
  obtain ⟨before, rest, hsplit, hbefore, hrest⟩ := h.split
  rw [Nat.zero_add] at hrest
  have hfailed : ∃ text, Inspect.failure? i ending = some text :=
    Option.ne_none_iff_exists'.1 fun hnone => hlast (Inspect.failure?_eq_none.1 hnone)
  have hrejected : ∃ text, Validate.failure? ending = some text ∧
      Validate.report v s = Validate.rejected text := by
    cases ending with
    | finished => exact absurd rfl hlast
    | cutOff | refused => exact ⟨_, rfl, hvalidated⟩
  have hlisted : Inspect.report i s = ⟨Inspect.listing i tokens, Inspect.failure? i ending⟩ := by
    rw [hinspected]
    cases ending with
    | finished => exact absurd rfl hlast
    | cutOff | refused => simp only [Inspect.closing, List.append_nil]
  refine ⟨before, rest, hsplit, hbefore, hrest, hlisted, ?_, hrejected, ?_⟩
  · obtain ⟨text, htext⟩ := hfailed
    refine ⟨text, by rw [hlisted, htext], ?_⟩
    exact Wording.read?_of_shows (ending.separated_inspectedWording i.file) (Ending.shows_inspected htext)
  · obtain ⟨text, htext, hreport⟩ := hrejected
    rw [hreport]
    exact ⟨rfl, Validate.readAll?_rejected ending.separated_validatedWording (Ending.shows_validated htext)⟩

/-- Inspection and validation agree about every file. Both accept it just if it is a concatenation of tokens that
a reader takes; then their counts are the same, in all and by families. Else both name the same fault at the same
place, and the one lists the tokens up to there. Another inspection prints the same lines, but for the capacity
and the number of messages in the summary. -/
theorem reports_agree {s : Bytes} {i : Arguments.InspectOptions} {v : Arguments.ValidateOptions}
    (hlimit : v.maxBlobLength = none) (hi : Inspect.Fed i s) (hv : Validate.Fed v s) :
    ((Inspect.report i s).failure = none ↔ Whole s) ∧
    ((Validate.report v s).failure = none ↔ Whole s) ∧
    (Whole s → ∃ tokens tally,
      Accepted i s (Inspect.report i s) (Validate.report v s) tokens tally) ∧
    (¬ Whole s → ∃ tokens before rest ending,
      Refused i s (Inspect.report i s) (Validate.report v s) tokens before rest ending) ∧
    ∀ i' : Arguments.InspectOptions, i'.showHex = i.showHex → Inspect.Fed i' s →
      ∃ tokens ending capacity capacity',
        (Inspect.report i s).lines
          = Inspect.listing i tokens ++ Inspect.closing i tokens.length s.length capacity ending ∧
        (Inspect.report i' s).lines
          = Inspect.listing i tokens ++ Inspect.closing i' tokens.length s.length capacity' ending := by
  obtain ⟨tokens, ending, hcontents⟩ := exists_contents 0 s
  obtain ⟨capacity, hinspected⟩ := Inspect.report_of_contents hi hcontents
  have hvalidated := Validate.report_of_contents hlimit hv hcontents
  have hwhole := hcontents.finished_iff
  refine ⟨?inspects, ?validates, ?accepted, ?refused, ?other⟩
  case inspects =>
    rw [hinspected, ← hwhole]
    exact Inspect.failure?_eq_none
  case validates =>
    rw [hvalidated, ← hwhole]
    exact Validate.failure_verdict
  case accepted =>
    intro h
    obtain rfl := hwhole.2 h
    exact ⟨tokens, _, accepted_of_contents hlimit hi hv hcontents⟩
  case refused =>
    intro h
    have hlast : ending ≠ .finished := fun hending => h (hwhole.1 hending)
    obtain ⟨before, rest, hrefused⟩ := refused_of_contents hlimit hi hv hcontents hlast
    exact ⟨tokens, before, rest, ending, hrefused⟩
  case other =>
    intro i' hhex hi'
    obtain ⟨capacity', hinspected'⟩ := Inspect.report_of_contents hi' hcontents
    refine ⟨tokens, ending, capacity, capacity', by rw [hinspected], ?_⟩
    rw [hinspected', Inspect.listing, Inspect.listing, hhex]

/-- A blob of one byte, and a nil. -/
def blobAndNil : Bytes := [0xc4, 1, 7, 0xc0]

/-- The beginning of a blob of two bytes. -/
def partOfBlob : Bytes := [0xc4, 2, 8]

/-- The file is inspected two bytes at a time and with two values in a message. -/
def inspectByTwo : Arguments.InspectOptions :=
  { file := "blobs", chunkSize := 2, chunkSize_pos := Nat.two_pos, valuesPerMessage := some 2 }

/-- The file is validated three bytes at a time. -/
def validateByThree : Arguments.ValidateOptions :=
  { file := "blobs", chunkSize := 3, chunkSize_pos := Nat.succ_pos 2 }

theorem contents_blobAndNil :
    Contents 0 blobAndNil [⟨0, .bin8, .bin [7]⟩, ⟨3, .nil, .nil⟩] .finished := by
  have hblob : Denotes [0xc4, 1, 7] (.bin [7]) := .blob 0xc4 .w8 [1] [7] (by decide) rfl rfl
  have hallowed : Acceptable none (.bin [7]) := by
    intro most hmost
    cases hmost
  have hnil : Contents 3 [0xc0] [⟨3, .nil, .nil⟩] .finished :=
    .token 3 [0xc0] [] .nil .nil .nil trivial rfl [] _ (.finished 4)
  exact .token 0 [0xc4, 1, 7] [0xc0] .bin8 (.bin [7]) hblob hallowed rfl _ _ hnil

theorem contents_partOfBlob : Contents 4 partOfBlob [] (.cutOff 4 3) := by
  have hblob : Denotes (partOfBlob ++ [9]) (.bin [8, 9]) :=
    .blob 0xc4 .w8 [2] [8, 9] (by decide) rfl rfl
  exact .cutOff 4 partOfBlob (by decide) ⟨[9], .bin [8, 9], by decide, hblob⟩

/-- Both reports show that the whole file has two tokens in four bytes; with part of a third one behind it, the
one lists the two and both say where the third one breaks off. -/
theorem reports_agree_blobs :
    (Inspect.report inspectByTwo blobAndNil).failure = none ∧
    (∃ capacity rows, (Inspect.report inspectByTwo blobAndNil).lines
        = Inspect.listing inspectByTwo [⟨0, .bin8, .bin [7]⟩, ⟨3, .nil, .nil⟩] ++ rows ∧
      Wording.readAll? (Inspect.summaryWordings 2 1) rows = some [[], [2, 1, 4, capacity]]) ∧
    (∃ counts, Wording.readAll? Validate.wordings (Validate.report validateByThree blobAndNil).lines
      = some ([2, 4] :: counts)) ∧
    (∃ text, Inspect.report inspectByTwo (blobAndNil ++ partOfBlob)
        = ⟨Inspect.listing inspectByTwo [⟨0, .bin8, .bin [7]⟩, ⟨3, .nil, .nil⟩], some text⟩ ∧
      Inspect.cutOffWording.read? text = some [4, 3]) ∧
    Wording.readAll? [Validate.rejectedWording Validate.cutOffWording]
      (Validate.report validateByThree (blobAndNil ++ partOfBlob)).lines = some [[4, 3]] := by
  have hwhole := reports_agree (s := blobAndNil) (i := inspectByTwo) (v := validateByThree) rfl
    (Inspect.fed_of_room (by decide) (by decide))
    (Validate.fed_of_room (by decide) (by decide) (by decide))
  have hpart := reports_agree (s := blobAndNil ++ partOfBlob) (i := inspectByTwo) (v := validateByThree)
    rfl (Inspect.fed_of_room (by decide) (by decide))
    (Validate.fed_of_room (by decide) (by decide) (by decide))
  have hcontents := contents_blobAndNil.append contents_partOfBlob
  have hrefused : ¬ Whole (blobAndNil ++ partOfBlob) := by
    intro h
    cases hcontents.finished_iff.2 h
  obtain ⟨tokens, tally, haccepted⟩ := hwhole.2.2.1 contents_blobAndNil.whole
  obtain ⟨rfl, _⟩ := haccepted.contents.unique contents_blobAndNil
  refine ⟨hwhole.1.2 contents_blobAndNil.whole, haccepted.summary_shown, ⟨_, haccepted.counts_shown⟩, ?_⟩
  · obtain ⟨tokens, before, rest, ending, h⟩ := hpart.2.2.2.1 hrefused
    have hfault : Contents (0 + before.length) rest [] ending := by
      rw [Nat.zero_add]
      exact h.fault
    have hall := h.contents.append hfault
    rw [← h.split] at hall
    obtain ⟨htokens, rfl⟩ := hall.unique hcontents
    rw [List.append_nil] at htokens
    subst htokens
    obtain ⟨text, htext, hread⟩ := h.inspected_shown
    have hlisted := h.inspected_eq
    rw [hlisted] at htext
    cases htext
    exact ⟨⟨_, hlisted, hread⟩, h.validated_shown.2⟩

end MessagePack
