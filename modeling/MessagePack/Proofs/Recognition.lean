import MessagePack.Proofs.Calls
import MessagePack.Proofs.Grammar
/-
  What a reader makes of the bytes before it, in terms of the grammar: which strings it takes as a token, which
  it refuses and why, and for which it waits.

  What is proved:
    1. `stands_front`: what a reader finds at its cursor is what the grammar says about the unread bytes.
    2. `recognises`: each answer of a read is given exactly where the grammar asks for it, and there are no
       other answers.
-/
namespace MessagePack
namespace Reader

/-- The view of the payload of a token of `n` bytes at the cursor, which is the end of the token. -/
def viewOfPayload (r : Reader) (n : Nat) (data : Bytes) : View :=
  ⟨r.cursor + (n - data.length), data.length, r.arena.generation⟩

/-- What a read of an open message may answer, and for which unread bytes. -/
inductive Answers (r : Reader) : Except Failure (Progress (Value View)) → Prop where
  /-- A token is taken if it is in the table, and neither its number nor its blob is too large. -/
  | decoded (value : Value Bytes) (n : Nat) (hn : n ≤ r.arena.unread.length)
      (h : Denotes (r.arena.unread.take n) value)
      (hv : Acceptable r.config.maxBlobLength value) :
      Answers r (.ok (.decoded (value.map (r.viewOfPayload n)) n))
  | unknownTag (b : UInt8) (h : r.arena.unread.head? = some b) (hb : Unsupported b) :
      Answers r (.error (.fault (.unknownTag b r.cursor)))
  | overflow (value : Nat) (h : StartsUint64 r.arena.unread value) (hvalue : 2 ^ 63 ≤ value) :
      Answers r (.error (.fault (.uint64Overflow value r.cursor)))
  /-- A blob is refused as soon as its header is there, whether or not its payload is. -/
  | tooLarge (length most : Nat) (h : DeclaresBlob r.arena.unread length)
      (hlimit : r.config.maxBlobLength = some most) (hlength : most < length) :
      Answers r (.error (.fault (.blobTooLarge length most r.cursor)))
  /-- More bytes are asked for where there are none, or where a token begins that is not refused yet. -/
  | needMoreData (h : r.arena.unread = [] ∨ (BeginsToken r.arena.unread ∧
      ∀ length, DeclaresBlob r.arena.unread length → Allows r.config.maxBlobLength length)) :
      Answers r (.ok .needMoreData)

/-- A token of `n` unread bytes is taken as `v`: it is as long as its header and its payload, and the view of
a blob shows what lies behind the header. -/
structure TakesToken (r : Reader) (v : Value View) (n : Nat) : Prop where
  pos : 1 ≤ n
  le : n ≤ r.arena.unread.length
  parts : ∃ m value, r.marker? = some m ∧ Denotes (r.arena.unread.take n) value ∧
    r.readValue.state.resolve v = .ok value ∧ n = m.headerLength + value.payloadLength ∧
    ∀ view, v = .bin view → view.offset = r.cursor + m.headerLength ∧ view.stop = r.cursor + n

/-! ## From the grammar to the answers -/

theorem stands_front (r : Reader) :
    Stands r.config.maxBlobLength r.cursor r.arena.unread r.front := stands_iff.2 rfl

theorem front_of_stands {r : Reader} {answer : Except DecodeError (Scan (Value Extent))}
    (h : Stands r.config.maxBlobLength r.cursor r.arena.unread answer) : r.front = answer :=
  stands_iff.1 h

theorem map_viewAt (r : Reader) (n : Nat) (value : Value Bytes) :
    (value.map (payloadExtent n)).map r.viewAt = value.map (r.viewOfPayload n) := by
  cases value <;> rfl

theorem answers_readValue {r : Reader} (h : r.arena.WellFormed)
    (hopen : r.arena.messageComplete = false) : Answers r r.readValue.outcome := by
  have hstands := r.stands_front
  rw [readValue_eq h hopen]
  generalize r.front = answer at hstands
  cases hstands with
  | unsupported b hhead hb => exact .unknownTag b hhead hb
  | overflow value hstarts hvalue => exact .overflow value hstarts (Nat.succ_le_of_lt hvalue)
  | tooLarge length most hdeclares hlimit hlength => exact .tooLarge length most hdeclares hlimit hlength
  | nothing hnil => exact .needMoreData (.inl hnil)
  | cutOff hbegins hallowed => exact .needMoreData (.inr ⟨hbegins, hallowed⟩)
  | token n value hn hdenotes hv =>
    simp only [settle, Reply.outcome_done, map_viewAt]
    exact .decoded value n hn hdenotes hv

/-- The grammar asks for one answer only. -/
theorem eq_of_answers {r : Reader} (h : r.arena.WellFormed)
    (hopen : r.arena.messageComplete = false) {answer : Except Failure (Progress (Value View))}
    (ha : Answers r answer) : r.readValue.outcome = answer := by
  rw [readValue_eq h hopen]
  cases ha with
  | decoded value n hn hdenotes hv =>
    rw [front_of_stands (.token n value hn hdenotes hv)]
    simp only [settle, Reply.outcome_done, map_viewAt]
  | unknownTag b hhead hb =>
    rw [front_of_stands (.unsupported b hhead hb)]
    rfl
  | overflow value hstarts hvalue =>
    rw [front_of_stands (.overflow value hstarts hvalue)]
    rfl
  | tooLarge length most hdeclares hlimit hlength =>
    rw [front_of_stands (.tooLarge length most hdeclares hlimit hlength)]
    rfl
  | needMoreData hlack =>
    obtain hnil | ⟨hbegins, hallowed⟩ := hlack
    · rw [front_of_stands (.nothing hnil)]
      rfl
    · rw [front_of_stands (.cutOff hbegins hallowed)]
      rfl

theorem takesToken_of_decoded {r : Reader} (h : r.arena.WellFormed)
    (hopen : r.arena.messageComplete = false) {v : Value View} {n : Nat}
    (hread : r.readValue.outcome = .ok (.decoded v n)) : r.TakesToken v n := by
  have ha := answers_readValue h hopen
  rw [hread] at ha
  cases ha with
  | decoded value n hn hdenotes hv =>
    obtain ⟨b, m, hhead, hm, hlength⟩ := hdenotes.length_eq
    rw [List.length_take_of_le hn] at hlength
    have hpos := m.headerLength_pos
    have hfront := front_of_stands (.token n value hn hdenotes hv)
    have hmarker : r.marker? = some m := by
      rw [List.head?_take, if_neg (by omega)] at hhead
      rw [marker?, hhead]
      exact hm
    refine ⟨by omega, hn, m, value, hmarker, hdenotes, ?_, hlength, ?_⟩
    · have hpayload := hdenotes.within_payload (r.arena.unread.drop n)
      rw [List.take_append_drop, List.length_take_of_le hn] at hpayload
      have hresolve := resolve_settled h hfront
      rw [map_viewAt, hpayload] at hresolve
      rw [readValue_eq h hopen, hfront]
      exact hresolve
    · intro view hview
      cases value with
      | bin data =>
        injection hview with hview
        have hpayload : n = m.headerLength + data.length := hlength
        subst hview
        simp only [viewOfPayload, View.stop]
        omega
      | _ => cases hview

/-- A read recognises the grammar: every answer is given exactly where the grammar asks for it, and there is no
other. What is taken as a token is one, with its length and its payload. -/
theorem readValue_recognises {r : Reader} (hreachable : r.Reachable)
    (hopen : r.arena.messageComplete = false) :
    (∀ answer, r.readValue.outcome = answer ↔ r.Answers answer) ∧
    ∀ v n, r.readValue.outcome = .ok (.decoded v n) → r.TakesToken v n := by
  have h := hreachable.wellFormed
  refine ⟨?_, ?_⟩
  · intro answer
    refine ⟨?_, eq_of_answers h hopen⟩
    intro houtcome
    rw [← houtcome]
    exact answers_readValue h hopen
  · intro v n
    exact takesToken_of_decoded h hopen

/-- A reader behind a nil, with a blob of two bytes before it. -/
def behindNil (limit : Nat) : Reader :=
  (create { initialCapacity := 16, maxBlobLength := some limit }).state.after
    [.feed [0xc0, 0xc4, 2, 7, 8], .read .any]

/-- The blob is taken where the limit allows it; with a smaller limit its header is enough to refuse it. -/
theorem readValue_recognises_behindNil :
    (behindNil 2).readValue.outcome = .ok (.decoded (.bin ⟨3, 2, 0⟩) 4) ∧
    (behindNil 2).TakesToken (.bin ⟨3, 2, 0⟩) 4 ∧
    (behindNil 1).readValue.outcome = .error (.fault (.blobTooLarge 2 1 1)) := by
  have hunread : (behindNil 2).arena.unread = [0xc4, 2, 7, 8] := rfl
  have hunread' : (behindNil 1).arena.unread = [0xc4, 2, 7, 8] := rfl
  have hallowing := readValue_recognises (r := behindNil 2) ⟨_, _, rfl⟩ rfl
  have hrefusing := readValue_recognises (r := behindNil 1) ⟨_, _, rfl⟩ rfl
  have htoken : Denotes [0xc4, 2, 7, 8] (.bin [7, 8]) :=
    .blob 0xc4 .w8 [2] [7, 8] (by decide) rfl rfl
  have hallowed : Acceptable (some 2) (.bin [7, 8]) := by
    intro most hmost
    exact Nat.le_of_eq (Option.some.inj hmost)
  have hheader : DeclaresBlob [0xc4, 2, 7, 8] 2 :=
    ⟨0xc4, .w8, [2], [7, 8], rfl, by decide, rfl, rfl⟩
  have htaken : (behindNil 2).readValue.outcome = .ok (.decoded (.bin ⟨3, 2, 0⟩) 4) := by
    apply (hallowing.1 _).2
    exact .decoded (.bin [7, 8]) 4 (hunread ▸ Nat.le_refl 4) (hunread ▸ htoken) hallowed
  refine ⟨htaken, hallowing.2 _ _ htaken, ?_⟩
  apply (hrefusing.1 _).2
  exact .tooLarge 2 1 (hunread' ▸ hheader) rfl (by decide)

end Reader
end MessagePack
