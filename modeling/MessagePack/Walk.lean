import MessagePack.Reader
/-
  Walks: a whole input decoded token by token through a reader that is fed one chunk at a time, as a
  connection would feed it. Offsets are counted from the start of the input, although the arena forgets what
  lies before the current message; the walk remembers how much that is.

  A message is a fixed number of values. When it is full it is dropped from the arena, so that the arena need
  not hold more than one message and what has arrived behind it.

  What is proved:
    1. `rest_turn_lt`: a turn that gives no answer has fed something, so a step comes to an end.
    2. `pending_step_lt`: a step that gives a token has used up input, so a run comes to an end.
-/
namespace MessagePack

/-- A token of the input, with the bytes of its blob. -/
structure Token where
  offset : Nat
  marker : Marker
  value : Value Bytes
  deriving DecidableEq, Repr

/-- What a step of a walk finds. -/
inductive Step where
  | token (t : Token)
  /-- The input ends inside the token at `offset`, of which `buffered` bytes are there. -/
  | cutOff (offset buffered : Nat)
  /-- The input ends behind a token. -/
  | finished
  deriving DecidableEq, Repr

structure Walk where
  /-- The input that has not been fed yet. -/
  rest : Bytes
  fed : Nat
  /-- The most that is fed at once. -/
  chunk : Nat
  chunk_pos : 0 < chunk
  reader : Reader
  /-- The offset in the input of the first position of the arena. -/
  base : Nat
  /-- How many values make a message; none if the whole input is one message. -/
  valuesPerMessage : Option Nat
  /-- How many values of the current message have been taken. -/
  inMessage : Nat
  closed : Nat

namespace Walk

/-- A walk over `input` that has not fed anything, or the refusal of its first storage. -/
def create (input : Bytes) (chunk : Nat) (chunk_pos : 0 < chunk) (valuesPerMessage : Option Nat)
    (config : Config) : Reply Walk Unit :=
  (Reader.create config).within fun reader =>
    { rest := input, fed := 0, chunk, chunk_pos, reader, base := 0, valuesPerMessage
      inMessage := 0, closed := 0 }

@[inline] def withReader (w : Walk) (reader : Reader) : Walk := { w with reader }

/-- The offset of the read cursor in the input. -/
def position (w : Walk) : Nat := w.base + w.reader.cursor

/-- The messages so far, with the one that has begun. -/
def messages (w : Walk) : Nat := w.closed + if 0 < w.inMessage then 1 else 0

/-- Feeds the next chunk and says whether there was one. -/
def feedChunk (w : Walk) : Reply Walk Bool :=
  if wordMax < w.fed + w.chunk then .fail (.violation .offsetOverflow) w
  else match w.rest.take w.chunk with
    | [] => .done false w
    | b :: bs =>
      let piece := b :: bs
      ((w.reader.feed piece).within w.withReader).andThen fun _ w =>
        .done true { w with rest := w.rest.drop w.chunk, fed := w.fed + piece.length }

/-- Ends the current message and drops it from the arena. -/
def closeMessage (w : Walk) : Reply Walk Unit :=
  let consumed := w.reader.cursor
  (w.reader.endMessage.compact.within w.withReader).andThen fun _ w =>
    let w := { w with base := w.base + consumed, inMessage := 0, closed := w.closed + 1 }
    ⟨.ok (), w, [.messageClosed w.closed consumed w.base]⟩

/-- Counts a value of the current message, and closes the message if that was its last one. -/
def countValue (w : Walk) : Reply Walk Unit :=
  let w := { w with inMessage := w.inMessage + 1 }
  if w.valuesPerMessage = some w.inMessage then w.closeMessage else .done () w

/-- Takes the token with marker `m` at the cursor, or feeds what it lacks. -/
def takeToken (w : Walk) (m : Marker) : Reply Walk (Option Step) :=
  let offset := w.position
  (w.reader.readValue.within w.withReader).andThen fun
    | .needMoreData, w => w.feedChunk.andThen fun
      | true, w => .done none w
      | false, w =>
        let buffered := w.reader.arena.remaining
        ⟨.ok (some (.cutOff offset buffered)), w, [.inputCutOff offset buffered]⟩
    | .decoded v _, w =>
      match w.reader.resolve v with
      | .error e => .fail (.fault e) w
      | .ok value => w.countValue.andThen fun _ w => .done (some (.token ⟨offset, m, value⟩)) w

/-- One turn of a step: an answer, or a chunk fed and no answer yet. -/
def turn (w : Walk) : Reply Walk (Option Step) :=
  (w.reader.next.within w.withReader).andThen fun
    | .ended, w => .fail (.violation .endedMessageLeft) w
    | .needMoreData, w => w.feedChunk.andThen fun
      | true, w => .done none w
      | false, w => .done (some .finished) w
    | .token m, w => w.takeToken m

/-! ## Progress -/

/-- The bytes that a walk has still to take: those not fed and those not read. -/
def pending (w : Walk) : Nat := w.rest.length + w.reader.arena.remaining

/-- What a chunk that was fed does: it leaves the rest shorter, and adds no bytes to what is pending. -/
theorem feedChunk_true {w : Walk} (h : w.feedChunk.outcome = .ok true) :
    w.feedChunk.state.rest.length < w.rest.length ∧ w.feedChunk.state.pending ≤ w.pending := by
  unfold feedChunk at h ⊢
  split at h
  · simp at h
  · split at h
    · simp at h
    · rename_i hover _ b bs hpiece
      have hlen : (b :: bs).length ≤ w.rest.length := by
        rw [← hpiece, List.length_take]
        omega
      have hmin : (b :: bs).length = min w.chunk w.rest.length := by
        rw [← hpiece, List.length_take]
      simp only [hover, if_false] at h ⊢
      cases hf : (w.reader.feed (b :: bs)).outcome with
      | error e => simp [Reply.andThen, hf] at h
      | ok u =>
        have hfeed := w.reader.remaining_feed_le (b :: bs)
        simp only [Reply.andThen, Reply.outcome_within, hf, Reply.state_within, withReader,
          Reply.state_done, pending, List.length_drop] at hfeed ⊢
        simp only [List.length_cons] at hlen hmin hfeed ⊢
        omega

theorem closeMessage_same (w : Walk) :
    w.closeMessage.state.rest = w.rest ∧ w.closeMessage.state.pending = w.pending := by
  have hc : w.reader.endMessage.compact.state.arena.remaining = w.reader.arena.remaining :=
    Arena.remaining_compact _
  unfold closeMessage
  cases h : w.reader.endMessage.compact.outcome with
  | error e => simp [Reply.andThen, h, withReader, pending, hc]
  | ok u => simp [Reply.andThen, h, withReader, pending, hc]

theorem countValue_same (w : Walk) :
    w.countValue.state.rest = w.rest ∧ w.countValue.state.pending = w.pending := by
  unfold countValue
  simp only
  split
  · exact closeMessage_same _
  · exact ⟨rfl, rfl⟩

/-- What a turn may do to a walk: without an answer it has fed a chunk, with a token it has taken one. -/
def Advances (w : Walk) : Option Step → Walk → Prop
  | none, w' => w'.rest.length < w.rest.length ∧ w'.pending ≤ w.pending
  | some (.token _), w' => w'.rest = w.rest ∧ w'.pending < w.pending
  | some _, _ => True

theorem withReader_self (w : Walk) : w.withReader w.reader = w := rfl

/-- A turn that feeds a chunk, or gives an answer that is no token where there is none to feed. -/
theorem advances_feedChunk {w : Walk} {s : Option Step} {answer : Walk → Reply Walk (Option Step)}
    (hs : ∀ w t, (answer w).outcome ≠ .ok (some (.token t)))
    (hn : ∀ w, (answer w).outcome ≠ .ok none)
    (h : (w.feedChunk.andThen fun
      | true, w => .done none w
      | false, w => answer w).outcome = .ok s) :
    w.Advances s (w.feedChunk.andThen fun
      | true, w => .done none w
      | false, w => answer w).state := by
  cases hf : w.feedChunk.outcome with
  | error e => simp [Reply.outcome_andThen_of_error hf] at h
  | ok more =>
    rw [Reply.outcome_andThen_of_ok hf] at h ⊢
    cases more with
    | true =>
      simp only [Reply.outcome_done, Except.ok.injEq] at h
      subst h
      exact feedChunk_true hf
    | false =>
      simp only at h ⊢
      cases s with
      | none => exact absurd h (hn _)
      | some step =>
        cases step with
        | token t => exact absurd h (hs _ t)
        | cutOff _ _ => trivial
        | finished => trivial

theorem advances_takeToken {w : Walk} {m : Marker} {s : Option Step}
    (h : (w.takeToken m).outcome = .ok s) : w.Advances s (w.takeToken m).state := by
  unfold takeToken at h ⊢
  simp only at h ⊢
  cases hr : w.reader.readValue.outcome with
  | error e => simp [Reply.andThen, hr] at h
  | ok p =>
    have hw : (w.reader.readValue.within w.withReader).outcome = .ok p := hr
    rw [Reply.outcome_andThen_of_ok hw] at h ⊢
    cases p with
    | needMoreData =>
      have hsame : w.reader.readValue.state = w.reader :=
        Reader.state_readValue (by simp [hr])
      simp only [Reply.state_within, hsame, withReader_self] at h ⊢
      exact advances_feedChunk (by simp) (by simp) h
    | decoded v n =>
      have hlt := Reader.remaining_readValue_lt hr
      simp only [Reply.state_within] at h ⊢
      generalize hw' : w.withReader w.reader.readValue.state = w' at h ⊢
      have hsame := countValue_same w'
      cases hv : w'.reader.resolve v with
      | error e => simp [hv] at h
      | ok value =>
        simp only [hv] at h ⊢
        cases hc : w'.countValue.outcome with
        | error e => simp [Reply.outcome_andThen_of_error hc] at h
        | ok u =>
          rw [Reply.outcome_andThen_of_ok hc] at h ⊢
          simp only [Reply.outcome_done, Except.ok.injEq] at h
          subst h
          have hrest : w'.rest = w.rest := by rw [← hw']; rfl
          have hpending : w'.pending < w.pending := by
            rw [← hw']
            exact Nat.add_lt_add_left hlt _
          exact ⟨hsame.1.trans hrest, hsame.2 ▸ hpending⟩

theorem advances_turn {w : Walk} {s : Option Step} (h : w.turn.outcome = .ok s) :
    w.Advances s w.turn.state := by
  unfold turn at h ⊢
  cases hn : w.reader.next.outcome with
  | error e => simp [Reply.andThen, hn] at h
  | ok seen =>
    have hw : (w.reader.next.within w.withReader).outcome = .ok seen := hn
    rw [Reply.outcome_andThen_of_ok hw] at h ⊢
    simp only [Reply.state_within, Reader.state_next, withReader_self] at h ⊢
    cases seen with
    | ended => simp at h
    | needMoreData => exact advances_feedChunk (by simp) (by simp) h
    | token m => exact advances_takeToken h

theorem rest_turn_lt {w : Walk} (h : w.turn.outcome = .ok none) :
    w.turn.state.rest.length < w.rest.length := (advances_turn h).1

/-! ## Steps and runs -/

/-- Turns until there is an answer, after `events` that were reported before. -/
def advance (w : Walk) (events : List Event) : Reply Walk Step :=
  match h : w.turn with
  | ⟨.error f, w', es⟩ => ⟨.error f, w', events ++ es⟩
  | ⟨.ok (some s), w', es⟩ => ⟨.ok s, w', events ++ es⟩
  | ⟨.ok none, w', es⟩ =>
    have : w'.rest.length < w.rest.length := by
      have := rest_turn_lt (w := w) (by rw [h])
      rwa [h] at this
    advance w' (events ++ es)
termination_by w.rest.length

/-- The next token, or how the walk ends. The offset of a fault is counted from the start of the input. -/
def step (w : Walk) : Reply Walk Step :=
  let base := w.base
  let r := w.advance []
  { r with outcome := r.outcome.mapError (Failure.shift base) }

theorem pending_advance_lt {w : Walk} {events : List Event} {t : Token}
    (h : (w.advance events).outcome = .ok (.token t)) :
    (w.advance events).state.pending < w.pending := by
  fun_induction advance w events with
  | case1 w events f w' es hw => simp at h
  | case2 w events s w' es hw =>
    simp only [Except.ok.injEq] at h
    subst h
    have := advances_turn (w := w) (by rw [hw])
    rw [hw] at this
    exact this.2
  | case3 w events w' es hw _ ih =>
    have := advances_turn (w := w) (by rw [hw])
    rw [hw] at this
    exact Nat.lt_of_lt_of_le (ih h) this.2

/-- A step that gives a token has used up input. -/
theorem pending_step_lt {w : Walk} {t : Token} (h : w.step.outcome = .ok (.token t)) :
    w.step.state.pending < w.pending := by
  unfold step at h ⊢
  apply pending_advance_lt (t := t)
  simp only at h
  cases ha : (w.advance []).outcome with
  | error e =>
    rw [ha] at h
    cases h
  | ok s =>
    rw [ha] at h
    exact congrArg Except.ok (Except.ok.inj h)

/-- A walk gone through to its end: the tokens, how it ended, the walk then, and all events. -/
structure Run where
  tokens : List Token
  /-- The answer that was no token, or the failure. -/
  ending : Except Failure Step
  walk : Walk
  events : List Event

/-- Steps until there is no further token. The tokens and events so far come in reverse. -/
def runFrom (w : Walk) (tokens : List Token) (events : List Event) : Run :=
  match h : w.step with
  | ⟨.ok (.token t), w', es⟩ =>
    have : w'.pending < w.pending := by
      have := pending_step_lt (w := w) (t := t) (by rw [h])
      rwa [h] at this
    runFrom w' (t :: tokens) (es.reverse ++ events)
  | ⟨ending, w', es⟩ => ⟨tokens.reverse, ending, w', events.reverse ++ es⟩
termination_by w.pending

/-- Steps until there is no further token. -/
def run (w : Walk) : Run := w.runFrom [] []

end Walk
end MessagePack
