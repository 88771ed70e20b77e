import MessagePack.Proofs.Grammar
import MessagePack.Proofs.Turn
/-
  Readers and walks with a limit for blobs, beside the same without. The limit is read in one place only, where a
  scan has the header of a blob before it. So it does not show in any call as long as no header declares more,
  and where one does the limit speaks first, whether or not the payload is there.

  What is proved:
    1. `scanBytes_of_declaresAtMost`, `scanBytes_of_oversized`: what a limit changes in a scan.
    2. `Reply.andThen_within`: calls in a row show a change of state if each of them does.
    3. `Walk.turn_limited`: a turn does the same with the limit if its read does.
    4. `Walk.turn_of_oversized`: a blob that is too large is refused as soon as its header is there.
-/
namespace MessagePack

variable {most : Nat}

/-! ## What a scan makes of the limit -/

/-- No blob that is declared at the front of a string is longer than this. -/
def DeclaresAtMost (most : Nat) (u : Bytes) : Prop := ∀ length, DeclaresBlob u length → length ≤ most

theorem DeclaresBlob.append {u : Bytes} {length : Nat} (h : DeclaresBlob u length) (t : Bytes) :
    DeclaresBlob (u ++ t) length := by
  obtain ⟨tag, w, field, rest, rfl, hrow, hfield, hlength⟩ := h
  refine ⟨tag, w, field, rest ++ t, ?_, hrow, hfield, hlength⟩
  rw [List.cons_append, List.append_assoc]

/-- The token of a blob declares the length of its payload. -/
theorem Denotes.declares {s data : Bytes} (h : Denotes s (.bin data)) (rest : Bytes) :
    DeclaresBlob (s ++ rest) data.length := by
  cases h with
  | blob tag w field data hrow hfield hdata =>
    exact DeclaresBlob.append ⟨tag, w, field, data, rfl, hrow, hfield, hdata⟩ rest

/-- A string declares one length at most. -/
theorem DeclaresBlob.unique {u : Bytes} {length length' : Nat} (h : DeclaresBlob u length)
    (h' : DeclaresBlob u length') : length = length' := by
  obtain ⟨tag, w, field, rest, rfl, hrow, hfield, rfl⟩ := h
  exact (eq_of_declaresBlob hrow hfield h').symm

theorem scanBytes_of_oversized {u : Bytes} {length : Nat} (h : DeclaresBlob u length)
    (hlt : most < length) (offset : Nat) :
    scanBytes (some most) offset u = .error (.blobTooLarge length most offset) :=
  scanBytes_of_stands (.tooLarge length most h rfl hlt)

/-- A limit that a string keeps to does not show in its scan. -/
theorem scanBytes_of_declaresAtMost {u : Bytes} (h : DeclaresAtMost most u) (offset : Nat) :
    scanBytes (some most) offset u = scanBytes none offset u := by
  have hallowed (length : Nat) (hdeclares : DeclaresBlob u length) : Allows (some most) length := by
    intro most' hmost
    cases hmost
    exact h length hdeclares
  obtain ⟨answer, hstands⟩ := exists_stands none offset u
  rw [scanBytes_of_stands hstands]
  apply scanBytes_of_stands
  cases hstands with
  | unsupported b hhead hb => exact .unsupported b hhead hb
  | overflow value hstarts hvalue => exact .overflow value hstarts hvalue
  | tooLarge length most' hdeclares hlimit => cases hlimit
  | nothing hnil => exact .nothing hnil
  | cutOff hbegins => exact .cutOff hbegins hallowed
  | token n v hn hdenotes hv =>
    refine .token n v hn hdenotes ?_
    cases v with
    | bin data =>
      have hdeclares := hdenotes.declares (u.drop n)
      rw [List.take_append_drop] at hdeclares
      exact hallowed data.length hdeclares
    | nil | bool _ | int _ | float _ => exact hv

/-- A string keeps to the limit, or declares a blob that is too large. -/
theorem declaresAtMost_or (most : Nat) (u : Bytes) :
    DeclaresAtMost most u ∨ ∃ length, DeclaresBlob u length ∧ most < length := by
  by_cases h : ∃ length, DeclaresBlob u length ∧ most < length
  · exact .inr h
  · refine .inl ?_
    intro length hdeclares
    apply Nat.le_of_not_lt
    intro hlt
    exact h ⟨length, hdeclares, hlt⟩

/-- What is taken under the limit keeps to it. -/
theorem declaresAtMost_of_scan {offset : Nat} {u : Bytes} {v : Value Extent} {n : Nat}
    (h : scanBytes (some most) offset u = .ok (.complete v n)) : DeclaresAtMost most u := by
  obtain hsmall | ⟨length, hdeclares, hlt⟩ := declaresAtMost_or most u
  · exact hsmall
  · rw [scanBytes_of_oversized hdeclares hlt] at h
    cases h

/-! ## The same walk with a limit -/

/-- A reply to a call that is made in a state that contains another. -/
theorem Reply.andThen_within {σ τ α β : Type} {r : Reply σ α} {embed : σ → τ}
    {next : α → σ → Reply σ β} {next' : α → τ → Reply τ β}
    (h : ∀ a, next' a (embed r.state) = (next a r.state).within embed) :
    (r.within embed).andThen next' = (r.andThen next).within embed := by
  obtain ⟨outcome, s, es⟩ := r
  cases outcome with
  | error f => rfl
  | ok a =>
    simp only at h
    simp only [andThen, within, h]

namespace Reader

/-- The reader with another limit. -/
def limited (most : Nat) (r : Reader) : Reader :=
  { r with config := { r.config with maxBlobLength := some most } }

theorem arena_limited (r : Reader) : (r.limited most).arena = r.arena := rfl

theorem reserve_limited (r : Reader) (n : Nat) :
    (r.limited most).reserve n = (r.reserve n).within (limited most) := rfl

theorem feed_limited (r : Reader) (bytes : Bytes) :
    (r.limited most).feed bytes = (r.feed bytes).within (limited most) := by
  unfold feed
  rw [reserve_limited]
  exact Reply.andThen_within fun _ => rfl

theorem settle_limited (r : Reader) (answer : Except DecodeError (Scan (Value Extent))) :
    (r.limited most).settle answer = (r.settle answer).within (limited most) := by
  cases answer with
  | error e => rfl
  | ok scan => cases scan <;> rfl

theorem next_limited (r : Reader) : (r.limited most).next = r.next.within (limited most) := by
  unfold next
  rw [arena_limited]
  cases r.arena.messageComplete with
  | true => rfl
  | false =>
    cases r.arena.window.lead with
    | nil => rfl
    | cons b lead =>
      simp only
      cases Marker.ofByte? b <;> rfl

theorem resolve_limited (r : Reader) (v : Value View) : (r.limited most).resolve v = r.resolve v := by
  cases v <;> rfl

theorem front_of_declaresAtMost {r : Reader} (hlimit : r.config.maxBlobLength = none)
    (hsmall : DeclaresAtMost most r.arena.unread) : (r.limited most).front = r.front := by
  show scanBytes (some most) r.cursor r.arena.unread
    = scanBytes r.config.maxBlobLength r.cursor r.arena.unread
  rw [hlimit, scanBytes_of_declaresAtMost hsmall]

theorem front_of_oversized {r : Reader} {length : Nat} (h : DeclaresBlob r.arena.unread length)
    (hlt : most < length) : (r.limited most).front = .error (.blobTooLarge length most r.cursor) :=
  scanBytes_of_oversized h hlt r.cursor

/-- Where the limit does not show in the scan, it does not show in the read. -/
theorem readValue_limited {r : Reader} (h : r.arena.WellFormed) (hopen : r.arena.messageComplete = false)
    (hfront : (r.limited most).front = r.front) :
    (r.limited most).readValue = r.readValue.within (limited most) := by
  have hlimited : (r.limited most).readValue = (r.limited most).settle (r.limited most).front :=
    readValue_eq h hopen
  rw [hlimited, readValue_eq h hopen, hfront, settle_limited]

end Reader

namespace Walk

/-- The walk with another limit. -/
def limited (most : Nat) (w : Walk) : Walk := w.withReader (w.reader.limited most)

theorem reader_limited (w : Walk) : (w.limited most).reader = w.reader.limited most := rfl

theorem within_limited {α : Type} (w : Walk) (reply : Reply Reader α) :
    (reply.within (Reader.limited most)).within (w.limited most).withReader
      = (reply.within w.withReader).within (limited most) := rfl

theorem feedChunk_limited (w : Walk) :
    (w.limited most).feedChunk = w.feedChunk.within (limited most) := by
  have hfar : (w.limited most).fed + (w.limited most).chunk = w.fed + w.chunk := rfl
  have hpiece : (w.limited most).rest.take (w.limited most).chunk = w.rest.take w.chunk := rfl
  unfold feedChunk
  rw [hfar, hpiece]
  split
  · rfl
  · cases w.rest.take w.chunk with
    | nil => rfl
    | cons b bs =>
      simp only
      rw [reader_limited, Reader.feed_limited, within_limited]
      exact Reply.andThen_within fun _ => rfl

/-- Bytes are lacking: a chunk is fed, or there is an answer without one. -/
theorem lacking_limited (w : Walk) {answer answer' : Walk → Reply Walk (Option Step)}
    (h : ∀ w', answer' (w'.limited most) = (answer w').within (limited most)) :
    ((w.limited most).feedChunk.andThen fun
      | true, w => .done none w
      | false, w => answer' w) = (w.feedChunk.andThen fun
      | true, w => .done none w
      | false, w => answer w).within (limited most) := by
  rw [feedChunk_limited]
  refine Reply.andThen_within ?_
  intro more
  cases more with
  | true => rfl
  | false => exact h _

theorem countValue_limited (w : Walk) :
    (w.limited most).countValue = w.countValue.within (limited most) := by
  unfold countValue
  simp only [closeMessage_eq]
  show (if w.valuesPerMessage = some (w.inMessage + 1) then _ else _) = Reply.within (if _ then _ else _) _
  split <;> rfl

theorem takeToken_limited {w : Walk} (hread : (w.reader.limited most).readValue
      = w.reader.readValue.within (Reader.limited most)) (m : Marker) :
    (w.limited most).takeToken m = (w.takeToken m).within (limited most) := by
  unfold takeToken
  simp only
  rw [reader_limited, hread, within_limited]
  refine Reply.andThen_within ?_
  intro progress
  generalize (w.reader.readValue.within w.withReader).state = w'
  cases progress with
  | needMoreData => exact lacking_limited w' fun _ => rfl
  | decoded v n =>
    simp only
    rw [reader_limited, Reader.resolve_limited]
    cases w'.reader.resolve v with
    | error e => rfl
    | ok value =>
      simp only
      rw [countValue_limited]
      exact Reply.andThen_within fun _ => rfl

theorem turn_limited {w : Walk} (hread : (w.reader.limited most).readValue
      = w.reader.readValue.within (Reader.limited most)) :
    (w.limited most).turn = w.turn.within (limited most) := by
  unfold turn
  rw [reader_limited, Reader.next_limited, within_limited]
  refine Reply.andThen_within ?_
  intro seen
  rw [Reply.state_within, Reader.state_next, withReader_self]
  cases seen with
  | ended => rfl
  | needMoreData => exact lacking_limited w fun _ => rfl
  | token m => exact takeToken_limited hread m

/-- The limit refuses a blob as soon as its header is there. -/
theorem turn_of_oversized {w : Walk} (h : w.reader.arena.WellFormed)
    (hopen : w.reader.arena.messageComplete = false) {length : Nat}
    (hdeclares : DeclaresBlob w.reader.arena.unread length) (hlt : most < length) :
    (w.limited most).turn = ⟨.error (.fault (.blobTooLarge length most w.reader.cursor)), w.limited most,
      [.rejected w.reader.cursor (.blobTooLarge length most w.reader.cursor)]⟩ := by
  have hfront : (w.limited most).reader.front = .error (.blobTooLarge length most w.reader.cursor) :=
    Reader.front_of_oversized hdeclares hlt
  have hmoves : Moves (w.limited most) _ _ := moves h hopen
  generalize (w.limited most).turnCalls = calls at hmoves
  generalize (w.limited most).turn = reply at hmoves ⊢
  cases hmoves with
  | refused look hlook e hfound =>
    rw [hfront] at hfound
    cases hfound
    rfl
  | finished look hlook hrest hu =>
    rw [Reader.front_of_nil hu] at hfront
    cases hfront
  | failed _ _ _ hfound | fed _ _ _ hfound | cutOff _ _ _ _ hfound | took _ _ _ _ hfound =>
    rw [hfront] at hfound
    cases hfound

end Walk
end MessagePack
