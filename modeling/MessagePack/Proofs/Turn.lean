import MessagePack.Proofs.Draining
import MessagePack.Walk
/-
  What a turn of a walk can do. It looks at the next token and refuses it, or takes and counts it; or it
  lacks bytes, and then it feeds a chunk or says how the input ends. Each case comes with the calls that the
  turn makes on its reader, and with what it reports. What holds along every walk follows from this one list.

  What is proved:
    1. `feeds`, `counts`: what feeding a chunk and counting a value can do.
    2. `moves`: the list is complete, for every walk whose reader is in order and in an open message.
    3. `Moves.reader_eq`: the calls of a turn are all that happens to the reader.
    4. `ahead_handOver` and its like: no turn changes the bytes before the walk, but for the token it takes.
    5. `advance_turned`: a step is some turns.
-/
namespace MessagePack
namespace Walk

/-! ## Feeding a chunk -/

/-- The walk when its next chunk has gone to the reader, which has the arena `a` then. -/
def handOver (w : Walk) (a : Arena) : Walk :=
  { w with
    reader := w.reader.withArena a
    rest := w.rest.drop w.chunk
    fed := w.fed + (w.rest.take w.chunk).length }

/-- The call that hands the next chunk to the reader, if there is a chunk. -/
def feedCalls (w : Walk) : List Reader.Call :=
  if wordMax < w.fed + w.chunk then []
  else match w.rest.take w.chunk with
    | [] => []
    | b :: bs => [.feed (b :: bs)]

/-- What feeding a chunk can do, and by which calls on the reader. -/
inductive Feeds (w : Walk) : List Reader.Call → Reply Walk Bool → Prop where
  /-- Where the chunk would end is counted in a word, also if there are not so many bytes. -/
  | tooFar (h : wordMax < w.fed + w.chunk) : Feeds w [] ⟨.error (.violation .offsetOverflow), w, []⟩
  | nothing (h : w.fed + w.chunk ≤ wordMax) (hrest : w.rest = []) : Feeds w [] ⟨.ok false, w, []⟩
  | refused (piece : Bytes) (h : w.fed + w.chunk ≤ wordMax) (hpiece : w.rest.take w.chunk = piece)
      (hsome : piece ≠ []) (hno : ¬ w.reader.arena.Fits piece.length) (f : Failure)
      (hfeed : w.reader.feed piece = .fail f w.reader) : Feeds w [.feed piece] ⟨.error f, w, []⟩
  | handed (piece : Bytes) (h : w.fed + w.chunk ≤ wordMax) (hpiece : w.rest.take w.chunk = piece)
      (hsome : piece ≠ []) (a : Arena) (es : List Event)
      (hfeed : w.reader.feed piece = ⟨.ok (), w.reader.withArena a, es⟩)
      (hextends : w.reader.arena.Extends piece a) : Feeds w [.feed piece] ⟨.ok true, w.handOver a, es⟩

theorem feeds {w : Walk} (h : w.reader.arena.WellFormed) : Feeds w w.feedCalls w.feedChunk := by
  unfold feedChunk feedCalls
  split
  · next hfar => exact .tooFar hfar
  · next hnear =>
    have hend := Nat.le_of_not_lt hnear
    cases hpiece : w.rest.take w.chunk with
    | nil =>
      have hpos := w.chunk_pos
      rcases List.take_eq_nil_iff.1 hpiece with hzero | hnil
      · omega
      · exact .nothing hend hnil
    | cons b bs =>
      simp only
      have hsome : b :: bs ≠ [] := List.cons_ne_nil b bs
      obtain ⟨hno, f, hfeed⟩ | ⟨_, a, es, hfeed, hextends⟩ := Reader.feed_cases h (b :: bs)
      · rw [hfeed]
        exact .refused (b :: bs) hend hpiece hsome hno f hfeed
      · have hhanded := Feeds.handed (b :: bs) hend hpiece hsome a es hfeed hextends
        rw [hfeed, Reply.outcome_andThen_of_ok rfl, Reply.events_done, List.append_nil]
        rw [handOver, hpiece] at hhanded
        exact hhanded

theorem Feeds.calls_cases {w : Walk} {calls : List Reader.Call} {reply : Reply Walk Bool}
    (hfeeds : Feeds w calls reply) : calls = [] ∨ ∃ piece, calls = [.feed piece] := by
  cases hfeeds with
  | tooFar | nothing => exact .inl rfl
  | refused piece | handed piece => exact .inr ⟨piece, rfl⟩

theorem Feeds.reader_eq {w : Walk} {calls : List Reader.Call} {reply : Reply Walk Bool}
    (hfeeds : Feeds w calls reply) : reply.state.reader = w.reader.after calls := by
  cases hfeeds with
  | tooFar | nothing => rfl
  | refused piece h hpiece hsome hno f hfeed =>
    show w.reader = (w.reader.feed piece).state
    rw [hfeed]
    rfl
  | handed piece h hpiece hsome a es hfeed hextends =>
    show w.reader.withArena a = (w.reader.feed piece).state
    rw [hfeed]

/-! ## Counting a value and closing a message -/

/-- The walk when its message is closed. -/
def closing (w : Walk) : Walk :=
  { w with
    reader := w.reader.withArena w.reader.arena.endMessage.compacted
    base := w.base + w.reader.cursor
    inMessage := 0
    closed := w.closed + 1 }

/-- The report of a message that is closed: what was dropped, and how far the input is taken. -/
def closingEvents (w : Walk) : List Event :=
  [.compacted w.reader.cursor w.reader.arena.remaining,
    .messageClosed (w.closed + 1) w.reader.cursor w.position]

theorem closeMessage_eq (w : Walk) : w.closeMessage = ⟨.ok (), w.closing, w.closingEvents⟩ := by
  unfold closeMessage Reader.compact
  obtain ⟨hopen, _⟩ | ⟨_, hcompact⟩ := w.reader.endMessage.arena.compact_cases
  · cases hopen
  · rw [hcompact]
    rfl

/-- The calls that count a value: none, or those that drop the message. -/
def countCalls (w : Walk) : List Reader.Call :=
  if w.valuesPerMessage = some (w.inMessage + 1) then [.endMessage, .compact] else []

/-- What counting a value can do, and by which calls on the reader. -/
inductive Counts (w : Walk) : List Reader.Call → Reply Walk Unit → Prop where
  | kept (h : w.valuesPerMessage ≠ some (w.inMessage + 1)) :
      Counts w [] ⟨.ok (), { w with inMessage := w.inMessage + 1 }, []⟩
  | closed (h : w.valuesPerMessage = some (w.inMessage + 1)) :
      Counts w [.endMessage, .compact] ⟨.ok (), w.closing, w.closingEvents⟩

theorem counts (w : Walk) : Counts w w.countCalls w.countValue := by
  unfold countCalls countValue
  simp only
  split
  · next hfull =>
    rw [closeMessage_eq]
    exact .closed hfull
  · next hmore => exact .kept hmore

theorem Counts.outcome_eq {w : Walk} {calls : List Reader.Call} {reply : Reply Walk Unit}
    (hcounts : Counts w calls reply) : reply.outcome = .ok () := by
  cases hcounts with
  | kept | closed => rfl

theorem Counts.reader_eq {w : Walk} {calls : List Reader.Call} {reply : Reply Walk Unit}
    (hcounts : Counts w calls reply) : reply.state.reader = w.reader.after calls := by
  cases hcounts with
  | kept => rfl
  | closed => exact w.reader.after_close.symm

/-! ## One turn -/

/-- The calls that a turn makes on its reader. -/
def turnCalls (w : Walk) : List Reader.Call :=
  .next :: match w.reader.next.outcome with
    | .error _ | .ok .ended => []
    | .ok .needMoreData => w.feedCalls
    | .ok (.token _) => .read .any :: match w.reader.readValue.outcome with
      | .error _ => []
      | .ok .needMoreData => w.feedCalls
      | .ok (.decoded _ _) => w.countCalls

/-- The walk when a token of `n` bytes is taken, and not counted yet. -/
def taking (w : Walk) (n : Nat) : Walk :=
  w.withReader (w.reader.withArena (w.reader.arena.consume n))

/-- The calls by which a turn looks for a token that it does not take. -/
structure Looks (w : Walk) (look : List Reader.Call) : Prop where
  calls : look = [.next] ∨ look = [.next, .read .any]
  after_eq : w.reader.after look = w.reader

/-- What a turn can do, and by which calls on its reader. -/
inductive Moves (w : Walk) : List Reader.Call → Reply Walk (Option Step) → Prop where
  | refused (look : List Reader.Call) (hlook : Looks w look) (e : DecodeError)
      (hfront : w.reader.front = .error e) :
      Moves w look ⟨.error (.fault e), w, [.rejected w.reader.cursor e]⟩
  /-- Bytes are lacking, and no chunk can be fed. -/
  | failed (look calls : List Reader.Call) (hlook : Looks w look)
      (hfront : w.reader.front = .ok .incomplete) (f : Failure) (w' : Walk) (es : List Event)
      (hfeeds : Feeds w calls ⟨.error f, w', es⟩) : Moves w (look ++ calls) ⟨.error f, w', es⟩
  /-- Bytes are lacking, and a chunk is fed. -/
  | fed (look calls : List Reader.Call) (hlook : Looks w look)
      (hfront : w.reader.front = .ok .incomplete) (w' : Walk) (es : List Event)
      (hfeeds : Feeds w calls ⟨.ok true, w', es⟩) : Moves w (look ++ calls) ⟨.ok none, w', es⟩
  | finished (look : List Reader.Call) (hlook : Looks w look) (hrest : w.rest = [])
      (hu : w.reader.arena.unread = []) : Moves w look ⟨.ok (some .finished), w, []⟩
  | cutOff (look : List Reader.Call) (hlook : Looks w look) (hrest : w.rest = [])
      (hu : w.reader.arena.unread ≠ []) (hfront : w.reader.front = .ok .incomplete) :
      Moves w look ⟨.ok (some (.cutOff w.position w.reader.arena.remaining)), w,
        [.inputCutOff w.position w.reader.arena.remaining]⟩
  | took (v : Value Extent) (n : Nat) (m : Marker) (hmarker : w.reader.marker? = some m)
      (hfront : w.reader.front = .ok (.complete v n)) (calls : List Reader.Call) (w' : Walk)
      (es : List Event) (hcounts : Counts (w.taking n) calls ⟨.ok (), w', es⟩) :
      Moves w ([.next, .read .any] ++ calls)
        ⟨.ok (some (.token ⟨w.position, m, v.map (·.within w.reader.arena.unread)⟩)), w', es⟩

theorem looks_next (w : Walk) : Looks w [.next] := ⟨.inl rfl, w.reader.state_next⟩

theorem after_look (r : Reader) : r.after [.next, .read .any] = r.readValue.state := by
  show r.next.state.readValue.state = _
  rw [Reader.state_next]

/-- A turn that lacks bytes: it feeds a chunk, or what it has is all there is. -/
theorem moves_of_lacking {w : Walk} (h : w.reader.arena.WellFormed) {look : List Reader.Call}
    (hlook : Looks w look) (hfront : w.reader.front = .ok .incomplete)
    (answer : Walk → Reply Walk (Option Step)) (hanswer : w.rest = [] → Moves w look (answer w)) :
    Moves w (look ++ w.feedCalls) (w.feedChunk.andThen fun
      | true, w => .done none w
      | false, w => answer w) := by
  have hfeeds := feeds h
  generalize w.feedCalls = calls at hfeeds ⊢
  generalize w.feedChunk = reply at hfeeds ⊢
  cases hfeeds with
  | tooFar hfar => exact .failed look [] hlook hfront _ w [] (.tooFar hfar)
  | nothing hend hrest =>
    rw [List.append_nil]
    exact hanswer hrest
  | refused piece hend hpiece hsome hno f hfeed =>
    exact .failed look _ hlook hfront f w [] (.refused piece hend hpiece hsome hno f hfeed)
  | handed piece hend hpiece hsome a es hfeed hextends =>
    rw [Reply.outcome_andThen_of_ok rfl, Reply.events_done, List.append_nil]
    exact .fed look _ hlook hfront _ es (.handed piece hend hpiece hsome a es hfeed hextends)

/-- A turn that has a marker before it. -/
theorem moves_takeToken {w : Walk} (h : w.reader.arena.WellFormed)
    (hopen : w.reader.arena.messageComplete = false) {m : Marker} (hmarker : w.reader.marker? = some m)
    (hsome : w.reader.arena.unread ≠ []) :
    Moves w ([.next, .read .any] ++ match w.reader.readValue.outcome with
      | .error _ => []
      | .ok .needMoreData => w.feedCalls
      | .ok (.decoded _ _) => w.countCalls) (w.takeToken m) := by
  have hfinding := Reader.finding h hopen
  have hafter := after_look w.reader
  unfold takeToken
  simp only
  generalize w.reader.readValue = reply at hfinding hafter ⊢
  cases hfinding with
  | refused e hfront => exact .refused _ ⟨.inr rfl, hafter⟩ e hfront
  | lacking hfront =>
    have hlook : Looks w [.next, .read .any] := ⟨.inr rfl, hafter⟩
    refine moves_of_lacking h hlook hfront (fun w' =>
      ⟨.ok (some (.cutOff w.position w'.reader.arena.remaining)), w',
        [.inputCutOff w.position w'.reader.arena.remaining]⟩) ?_
    intro hrest
    exact .cutOff _ hlook hrest hsome hfront
  | found v n hfront =>
    have hcounts : Counts (w.taking n) w.countCalls (w.taking n).countValue := counts (w.taking n)
    have houtcome := hcounts.outcome_eq
    have hresolve := Reader.resolve_settled h hfront
    rw [Reply.outcome_andThen_of_ok rfl]
    simp only [Reply.state_within, Reply.state_done, withReader, hresolve]
    rw [← withReader, ← taking, Reply.outcome_andThen_of_ok houtcome, Reply.events_done, List.append_nil]
    generalize (w.taking n).countValue = reply at hcounts houtcome ⊢
    obtain ⟨outcome, w', es⟩ := reply
    simp only at houtcome
    subst houtcome
    exact .took v n m hmarker hfront _ w' es hcounts

theorem moves {w : Walk} (h : w.reader.arena.WellFormed)
    (hopen : w.reader.arena.messageComplete = false) : Moves w w.turnCalls w.turn := by
  unfold turn turnCalls
  cases hu : w.reader.arena.unread with
  | nil =>
    rw [Reader.next_of_nil hopen hu]
    refine moves_of_lacking h (looks_next w) (Reader.front_of_nil hu)
      (fun w' => .done (some .finished) w') ?_
    intro hrest
    exact .finished [.next] (looks_next w) hrest hu
  | cons b u =>
    rw [Reader.next_of_cons hopen hu]
    cases hm : Marker.ofByte? b with
    | none =>
      have hfront : w.reader.front = .error (.unknownTag b w.reader.cursor) := by
        rw [Reader.front_of_cons hu, hm]
      exact .refused [.next] (looks_next w) _ hfront
    | some m =>
      have hmarker : w.reader.marker? = some m := by simp [Reader.marker?, hu, hm]
      exact moves_takeToken h hopen hmarker (by simp [hu])

/-- The calls of a turn are all that happens to the reader. -/
theorem Moves.reader_eq {w : Walk} {calls : List Reader.Call} {reply : Reply Walk (Option Step)}
    (hmoves : Moves w calls reply) (h : w.reader.arena.WellFormed)
    (hopen : w.reader.arena.messageComplete = false) : reply.state.reader = w.reader.after calls := by
  cases hmoves with
  | refused look hlook | finished look hlook | cutOff look hlook => exact hlook.after_eq.symm
  | failed look calls hlook hfront f w' es hfeeds =>
    rw [Reader.after_append, hlook.after_eq]
    exact hfeeds.reader_eq
  | fed look calls hlook hfront w' es hfeeds =>
    rw [Reader.after_append, hlook.after_eq]
    exact hfeeds.reader_eq
  | took v n m hmarker hfront calls w' es hcounts =>
    have htaken : w.reader.after [.next, .read .any] = (w.taking n).reader := by
      rw [after_look, Reader.readValue_eq h hopen, hfront]
      rfl
    rw [Reader.after_append, htaken]
    exact hcounts.reader_eq

/-! ## What is before a walk -/

/-- The bytes that a walk has not taken: those that its reader holds, and those that it has not fed. -/
def ahead (w : Walk) : Bytes := w.reader.arena.unread ++ w.rest

theorem ahead_handOver {w : Walk} {a : Arena}
    (hextends : w.reader.arena.Extends (w.rest.take w.chunk) a) : (w.handOver a).ahead = w.ahead := by
  show a.unread ++ w.rest.drop w.chunk = w.reader.arena.unread ++ w.rest
  rw [hextends.unread_eq, List.append_assoc, List.take_append_drop]

theorem position_handOver {w : Walk} {bytes : Bytes} {a : Arena} (hextends : w.reader.arena.Extends bytes a) :
    (w.handOver a).position = w.position := congrArg (w.base + ·) hextends.readCursor_eq

theorem ahead_taking {w : Walk} (h : w.reader.arena.WellFormed) {n : Nat}
    (hn : n ≤ w.reader.arena.remaining) : (w.taking n).ahead = w.ahead.drop n := by
  have hthere : n ≤ w.reader.arena.unread.length := by
    rw [Arena.length_unread h]
    exact hn
  show (w.reader.arena.consume n).unread ++ w.rest = (w.reader.arena.unread ++ w.rest).drop n
  rw [Reader.unread_consumed h hn, List.drop_append_of_le_length hthere]

theorem position_taking (w : Walk) (n : Nat) : (w.taking n).position = w.position + n :=
  (Nat.add_assoc _ _ _).symm

/-- What lies behind a closed message is still there when the message is dropped. -/
theorem ahead_closing {w : Walk} (h : w.reader.arena.WellFormed) : w.closing.ahead = w.ahead := by
  have hended := Arena.wellFormed_endMessage h
  show w.reader.arena.endMessage.compacted.unread ++ w.rest = _
  rw [Arena.unread_compacted hended]
  rfl

theorem position_closing (w : Walk) : w.closing.position = w.position := by
  show w.position + w.reader.arena.endMessage.compacted.readCursor = w.position
  rw [Arena.readCursor_compacted, Nat.add_zero]

theorem Counts.position_eq {w w' : Walk} {calls : List Reader.Call} {es : List Event}
    (hcounts : Counts w calls ⟨.ok (), w', es⟩) : w'.position = w.position := by
  cases hcounts with
  | kept => rfl
  | closed => exact position_closing w

/-- When all is fed, what is unread is all there is. -/
theorem ahead_of_rest_nil {w : Walk} (hrest : w.rest = []) : w.ahead = w.reader.arena.unread := by
  rw [ahead, hrest, List.append_nil]

/-- A decision of the reader holds for all that is before the walk, of which it holds only a part. -/
theorem scan_ahead {w : Walk} (hfront : w.reader.front ≠ .ok .incomplete) :
    scanBytes w.reader.config.maxBlobLength w.reader.cursor w.ahead = w.reader.front :=
  scanBytes_append hfront w.rest

theorem marker_ahead {w : Walk} {m : Marker} (h : w.reader.marker? = some m) :
    w.ahead.head?.bind Marker.ofByte? = some m := by
  obtain ⟨b, hb, hm⟩ := Option.bind_eq_some_iff.1 h
  rw [ahead, List.head?_append, hb]
  exact hm

/-! ## Turns and steps -/

/-- The walk after `n` turns, whatever they give. -/
def turned (w : Walk) : Nat → Walk
  | 0 => w
  | n + 1 => (w.turned n).turn.state

theorem turned_add (w : Walk) (m n : Nat) : (w.turned m).turned n = w.turned (m + n) := by
  induction n with
  | zero => rfl
  | succ n ih =>
    show ((w.turned m).turned n).turn.state = _
    rw [ih]
    rfl

/-- The walk after `n` steps, whatever they answer. -/
def stepped (w : Walk) : Nat → Walk
  | 0 => w
  | n + 1 => (w.stepped n).step.state

theorem advance_turned (w : Walk) (events : List Event) :
    ∃ n, (w.advance events).state = w.turned n := by
  fun_induction advance w events with
  | case1 w events f w' es hturn => exact ⟨1, (congrArg Reply.state hturn).symm⟩
  | case2 w events s w' es hturn => exact ⟨1, (congrArg Reply.state hturn).symm⟩
  | case3 w events w' es hturn hless ih =>
    obtain ⟨n, hn⟩ := ih
    have hfirst : w.turned 1 = w' := congrArg Reply.state hturn
    exact ⟨1 + n, by rw [hn, ← hfirst, turned_add]⟩

/-- Every step is some turns. -/
theorem stepped_turned (w : Walk) (n : Nat) : ∃ m, w.stepped n = w.turned m := by
  induction n with
  | zero => exact ⟨0, rfl⟩
  | succ n ih =>
    obtain ⟨m, hm⟩ := ih
    obtain ⟨m', hm'⟩ := (w.stepped n).advance_turned []
    refine ⟨m + m', ?_⟩
    show ((w.stepped n).advance []).state = _
    rw [hm', hm, turned_add]

end Walk
end MessagePack
