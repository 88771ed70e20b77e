import MessagePack.Proofs.Atomicity
import MessagePack.Proofs.Delivery
import MessagePack.Proofs.Runs
/-
  Where a walk stands in its input, whatever the size of its chunks and the storage that it can get. The input
  is in three parts then: what was dropped, what the reader holds, and what was not fed. A step hands over
  chunks, and after each of them the walk stands where it stood; and then one turn answers, or fails.

  What is proved:
    1. `standing_create`, `Standing.handOver`, `Standing.taking`, `Standing.closing`: how a walk stands.
    2. `answers_of_failed`, `answers_of_answered`: the list of the turns that end a step is complete.
    3. `step_cases`: a step is chunks handed over and one such turn.
    4. `Standing.turned`, `Standing.stepped`: turns and steps keep where a walk stands, also after the last answer.
    5. `exists_last`, `outcome_of_le`: the steps come to a last answer, and go on to give it.
-/
namespace MessagePack
namespace Walk

/-- A walk that can go on: its reader is in order, and in an open message. -/
structure Ready (w : Walk) : Prop where
  wellFormed : w.reader.arena.WellFormed
  open_eq : w.reader.arena.messageComplete = false

namespace Ready

theorem handOver {w : Walk} (h : Ready w) {bytes : Bytes} {a : Arena}
    (hextends : w.reader.arena.Extends bytes a) : Ready (w.handOver a) :=
  ⟨hextends.wellFormed, hextends.messageComplete_eq.trans h.open_eq⟩

theorem taking {w : Walk} (h : Ready w) {v : Value Extent} {n : Nat}
    (hfront : w.reader.front = .ok (.complete v n)) : Ready (w.taking n) :=
  ⟨Arena.wellFormed_consume h.wellFormed (Reader.le_remaining_of_front h.wellFormed hfront).2, h.open_eq⟩

theorem closing {w : Walk} (h : Ready w) : Ready w.closing :=
  ⟨Arena.wellFormed_compacted (Arena.wellFormed_endMessage h.wellFormed), Arena.messageComplete_compacted _⟩

theorem counted {w w' : Walk} (h : Ready w) {calls : List Reader.Call} {es : List Event}
    (hcounts : Counts w calls ⟨.ok (), w', es⟩) : Ready w' := by
  cases hcounts with
  | kept => exact ⟨h.wellFormed, h.open_eq⟩
  | closed => exact h.closing

end Ready

theorem ready_create {input : Bytes} {chunk : Nat} {chunk_pos : 0 < chunk} {valuesPerMessage : Option Nat}
    {config : Config} : Ready (create input chunk chunk_pos valuesPerMessage config).state :=
  ⟨(Reader.streaming_create config).wellFormed, (Reader.streaming_create config).open_eq⟩

/-- A walk over `input` whose parts fit together. -/
structure Standing (input : Bytes) (limit : Option Nat) (chunk : Nat) (w : Walk) : Prop extends Ready w where
  chunk_eq : w.chunk = chunk
  limit_eq : w.reader.config.maxBlobLength = limit
  fed_eq : w.base + w.reader.arena.usedEnd = w.fed
  length_eq : w.fed + w.rest.length = input.length
  ahead_eq : w.ahead = input.drop w.position
  rest_eq : w.rest = input.drop w.fed

variable {input : Bytes} {limit : Option Nat} {chunk : Nat}

/-! ## What a turn keeps -/

theorem standing_create (input : Bytes) (chunk : Nat) (chunk_pos : 0 < chunk)
    (valuesPerMessage : Option Nat) (config : Config) :
    Standing input config.maxBlobLength chunk
      (create input chunk chunk_pos valuesPerMessage config).state := by
  have hlimit := (Reader.streaming_create config).limit_eq
  have hfresh := Reader.fresh_create config
  refine ⟨ready_create, rfl, hlimit, ?_, Nat.zero_add _, ?_, rfl⟩
  · show 0 + (Reader.create config).state.arena.usedEnd = 0
    rw [hfresh.usedEnd_eq]
  · show (Reader.create config).state.arena.unread ++ input
      = input.drop (0 + (Reader.create config).state.arena.readCursor)
    rw [hfresh.unread_eq, hfresh.readCursor_eq]
    rfl

theorem Standing.handOver {w : Walk} (hw : Standing input limit chunk w) {a : Arena}
    (hextends : w.reader.arena.Extends (w.rest.take w.chunk) a) :
    Standing input limit chunk (w.handOver a) := by
  have hsplit : w.rest.take w.chunk ++ w.rest.drop w.chunk = w.rest := List.take_append_drop _ _
  have hlength : (w.rest.take w.chunk).length + (w.rest.drop w.chunk).length = w.rest.length := by
    rw [← List.length_append, hsplit]
  refine ⟨hw.toReady.handOver hextends, hw.chunk_eq, hw.limit_eq, ?_, ?_, ?_, ?_⟩
  · show w.base + a.usedEnd = w.fed + _
    rw [hextends.usedEnd_eq, ← Nat.add_assoc, hw.fed_eq]
  · show w.fed + (w.rest.take w.chunk).length + (w.rest.drop w.chunk).length = _
    rw [Nat.add_assoc, hlength, hw.length_eq]
  · rw [ahead_handOver hextends, position_handOver hextends, hw.ahead_eq]
  -- The last chunk may be shorter than the others; then nothing is left behind it.
  · show w.rest.drop w.chunk = input.drop (w.fed + (w.rest.take w.chunk).length)
    rw [← List.drop_drop, ← hw.rest_eq, List.length_take]
    rcases Nat.le_total w.chunk w.rest.length with hle | hle
    · rw [Nat.min_eq_left hle]
    · rw [Nat.min_eq_right hle, List.drop_of_length_le hle, List.drop_length]

theorem Standing.taking {w : Walk} (hw : Standing input limit chunk w) {v : Value Extent} {n : Nat}
    (hfront : w.reader.front = .ok (.complete v n)) : Standing input limit chunk (w.taking n) := by
  obtain ⟨_, hn⟩ := Reader.le_remaining_of_front hw.wellFormed hfront
  refine ⟨hw.toReady.taking hfront, hw.chunk_eq, hw.limit_eq, hw.fed_eq, hw.length_eq, ?_, hw.rest_eq⟩
  rw [ahead_taking hw.wellFormed hn, position_taking, ← List.drop_drop, hw.ahead_eq]

/-- A closed message lies before the base; everything behind it is where it was in the input. -/
theorem Standing.closing {w : Walk} (hw : Standing input limit chunk w) : Standing input limit chunk w.closing := by
  have hcursor := hw.wellFormed.cursor_le
  refine ⟨hw.toReady.closing, hw.chunk_eq, hw.limit_eq, ?_, hw.length_eq, ?_, hw.rest_eq⟩
  -- The base grows by what compaction takes from the cursor and from the used end.
  · show w.base + w.reader.arena.readCursor + w.reader.arena.endMessage.compacted.usedEnd = w.fed
    rw [Arena.usedEnd_compacted, ← hw.fed_eq]
    show _ + (w.reader.arena.usedEnd - w.reader.arena.readCursor) = _
    omega
  · rw [ahead_closing hw.wellFormed, position_closing, hw.ahead_eq]

theorem Standing.counted {w w' : Walk} (hw : Standing input limit chunk w) {calls : List Reader.Call}
    {es : List Event} (hcounts : Counts w calls ⟨.ok (), w', es⟩) : Standing input limit chunk w' := by
  cases hcounts with
  | kept =>
    exact ⟨⟨hw.wellFormed, hw.open_eq⟩, hw.chunk_eq, hw.limit_eq, hw.fed_eq, hw.length_eq, hw.ahead_eq,
      hw.rest_eq⟩
  | closed => exact hw.closing

theorem Standing.fed_le {w : Walk} (hw : Standing input limit chunk w) : w.fed ≤ input.length := by
  rw [← hw.length_eq]
  exact Nat.le_add_right _ _

/-! ## The turns that end a step -/

/-- The failure of a chunk that is refused is that of the storage that it lacks. -/
theorem allocationFailed_of_feed {r : Reader} (h : r.arena.WellFormed) {bytes : Bytes} {f : Failure}
    (hfeed : r.feed bytes = .fail f r) : ∃ size, f = .fault (.allocationFailed size) := by
  have houtcome : (r.perform (.feed bytes)).outcome = .error f := by
    show ((r.feed bytes).mapOutcome _).outcome = _
    rw [hfeed]
    rfl
  obtain ⟨size, _, hf⟩ := Option.map_eq_some_iff.1 ((Reader.outcome_error_iff h _ _).1 houtcome)
  exact ⟨size, hf.symm⟩

/-- Where the end of a chunk is beyond a word, a turn that lacks bytes fails. -/
theorem fed_add_le_of_answered {w : Walk} {s : Step} (h : w.turn.outcome = .ok (some s))
    (hs : ∀ t, s ≠ .token t) : w.fed + w.chunk ≤ wordMax := by
  apply Nat.le_of_not_lt
  intro hfar
  have hfeed : w.feedChunk = .fail (.violation .offsetOverflow) w := by
    unfold feedChunk
    rw [if_pos hfar]
  -- An answer of a turn does not tell that the sum was made; so the turn is opened here, this once. Every way
  -- to an answer that is no token goes through the chunk that fails.
  unfold turn takeToken at h
  simp only at h
  cases hn : w.reader.next.outcome with
  | error f => simp [Reply.andThen, hn] at h
  | ok seen =>
    cases seen with
    | ended => simp [Reply.andThen, hn] at h
    | needMoreData => simp [Reply.andThen, hn, Reader.state_next, withReader_self, hfeed] at h
    | token m =>
      cases hr : w.reader.readValue.outcome with
      | error f => simp [Reply.andThen, hn, hr, Reader.state_next, withReader_self] at h
      | ok p =>
        cases p with
        | needMoreData =>
          have hsame : w.reader.readValue.state = w.reader := Reader.state_readValue (by simp [hr])
          simp [Reply.andThen, hn, hr, hsame, Reader.state_next, withReader_self, hfeed] at h
        | decoded v n =>
          simp only [Reply.andThen, Reply.outcome_within, Reply.state_within, hn, hr, Reader.state_next,
            withReader_self] at h
          split at h
          · simp at h
          · split at h
            · simp at h
            · simp only [Reply.outcome_done, Except.ok.injEq, Option.some.injEq] at h
              exact hs _ h.symm

/-- What the turn can do that ends a step. -/
inductive Answers (w : Walk) : Reply Walk Step → Prop where
  | refused (e : DecodeError) (hfront : w.reader.front = .error e) :
      Answers w ⟨.error (.fault e), w, [.rejected w.reader.cursor e]⟩
  | overflowed (hfront : w.reader.front = .ok .incomplete) (hfar : wordMax < w.fed + w.chunk) :
      Answers w ⟨.error (.violation .offsetOverflow), w, []⟩
  | denied (hfront : w.reader.front = .ok .incomplete) (hnear : w.fed + w.chunk ≤ wordMax)
      (hno : ¬ w.reader.arena.Fits (w.rest.take w.chunk).length) (size : Nat) :
      Answers w ⟨.error (.fault (.allocationFailed size)), w, []⟩
  | finished (hrest : w.rest = []) (hu : w.reader.arena.unread = []) (hnear : w.fed + w.chunk ≤ wordMax) :
      Answers w ⟨.ok .finished, w, []⟩
  | cutOff (hrest : w.rest = []) (hu : w.reader.arena.unread ≠ [])
      (hfront : w.reader.front = .ok .incomplete) (hnear : w.fed + w.chunk ≤ wordMax) :
      Answers w ⟨.ok (.cutOff w.position w.reader.arena.remaining), w,
        [.inputCutOff w.position w.reader.arena.remaining]⟩
  | took (v : Value Extent) (n : Nat) (m : Marker) (hmarker : w.reader.marker? = some m)
      (hfront : w.reader.front = .ok (.complete v n)) (calls : List Reader.Call) (w' : Walk)
      (es : List Event) (hcounts : Counts (w.taking n) calls ⟨.ok (), w', es⟩) :
      Answers w ⟨.ok (.token ⟨w.position, m, v.map (·.within w.reader.arena.unread)⟩), w', es⟩

theorem answers_of_failed {w w' : Walk} (h : Ready w) {f : Failure} {es : List Event}
    (hturn : w.turn = ⟨.error f, w', es⟩) : Answers w ⟨.error f, w', es⟩ := by
  have hmoves := moves h.wellFormed h.open_eq
  generalize w.turnCalls = calls at hmoves
  rw [hturn] at hmoves
  cases hmoves with
  | refused look hlook e hfront => exact .refused e hfront
  | failed look calls hlook hfront f w' es hfeeds =>
    cases hfeeds with
    | tooFar hfar => exact .overflowed hfront hfar
    | refused piece hnear hpiece hsome hno f hfeed =>
      obtain ⟨size, rfl⟩ := allocationFailed_of_feed h.wellFormed hfeed
      exact .denied hfront hnear (hpiece ▸ hno) size

theorem answers_of_answered {w w' : Walk} (h : Ready w) {s : Step} {es : List Event}
    (hturn : w.turn = ⟨.ok (some s), w', es⟩) : Answers w ⟨.ok s, w', es⟩ := by
  have hmoves := moves h.wellFormed h.open_eq
  have hnear := fed_add_le_of_answered (w := w) (s := s) (by rw [hturn])
  generalize w.turnCalls = calls at hmoves
  rw [hturn] at hmoves
  cases hmoves with
  | finished look hlook hrest hu => exact .finished hrest hu (hnear (by simp))
  | cutOff look hlook hrest hu hfront => exact .cutOff hrest hu hfront (hnear (by simp))
  | took v n m hmarker hfront calls w' es hcounts => exact .took v n m hmarker hfront calls w' es hcounts

/-! ## Chunks that are handed over -/

/-- A turn that hands over the chunk `bytes` and leaves the reader with the arena `a`. -/
structure Passes (w : Walk) (bytes : Bytes) (a : Arena) (es : List Event) : Prop where
  turn_eq : w.turn = ⟨.ok none, w.handOver a, es⟩
  calls_eq : ∃ look, Looks w look ∧ w.turnCalls = look ++ [.feed bytes]
  piece_eq : w.rest.take w.chunk = bytes
  some : bytes ≠ []
  feed_eq : w.reader.feed bytes = ⟨.ok (), w.reader.withArena a, es⟩
  extends_feed : w.reader.arena.Extends bytes a

theorem passes {w w' : Walk} (h : Ready w) {es : List Event} (hturn : w.turn = ⟨.ok none, w', es⟩) :
    ∃ bytes a, Passes w bytes a es ∧ w' = w.handOver a := by
  have hmoves := moves h.wellFormed h.open_eq
  generalize hcalls : w.turnCalls = calls at hmoves
  rw [hturn] at hmoves
  cases hmoves with
  | fed look calls hlook hfront w' es hfeeds =>
    cases hfeeds with
    | handed piece hnear hpiece hsome a es hfeed hextends =>
      exact ⟨piece, a, ⟨hturn, ⟨look, hlook, hcalls⟩, hpiece, hsome, hfeed, hextends⟩, rfl⟩

theorem Passes.standing {w : Walk} {bytes : Bytes} {a : Arena} {es : List Event}
    (h : Passes w bytes a es) (hw : Standing input limit chunk w) : Standing input limit chunk (w.handOver a) := by
  apply hw.handOver
  rw [h.piece_eq]
  exact h.extends_feed

/-- Chunks that are handed over one after the other, with what is reported meanwhile. -/
inductive Hands : Walk → List Bytes → List Event → Walk → Prop where
  | nothing (w : Walk) : Hands w [] [] w
  | piece {w last : Walk} {pieces : List Bytes} {es later : List Event} (bytes : Bytes) (a : Arena)
      (hpasses : Passes w bytes a es) (hrest : Hands (w.handOver a) pieces later last) :
      Hands w (bytes :: pieces) (es ++ later) last

/-- What does not change while chunks are handed over. -/
structure Beholds (w last : Walk) : Prop where
  base_eq : last.base = w.base
  cursor_eq : last.reader.cursor = w.reader.cursor
  closed_eq : last.closed = w.closed
  inMessage_eq : last.inMessage = w.inMessage
  valuesPerMessage_eq : last.valuesPerMessage = w.valuesPerMessage
  chunk_eq : last.chunk = w.chunk

theorem Beholds.position_eq {w last : Walk} (h : Beholds w last) : last.position = w.position := by
  rw [position, h.base_eq, h.cursor_eq]
  rfl

theorem Hands.beholds {w last : Walk} {pieces : List Bytes} {es : List Event}
    (h : Hands w pieces es last) : Beholds w last := by
  induction h with
  | nothing w => exact ⟨rfl, rfl, rfl, rfl, rfl, rfl⟩
  | piece bytes a hpasses hrest ih =>
    have hcursor := hpasses.extends_feed.readCursor_eq
    exact ⟨ih.base_eq, ih.cursor_eq.trans hcursor, ih.closed_eq, ih.inMessage_eq, ih.valuesPerMessage_eq,
      ih.chunk_eq⟩

theorem Hands.ready {w last : Walk} {pieces : List Bytes} {es : List Event} (h : Hands w pieces es last)
    (hw : Ready w) : Ready last := by
  induction h with
  | nothing w => exact hw
  | piece bytes a hpasses hrest ih => exact ih (hw.handOver hpasses.extends_feed)

theorem Hands.standing {w last : Walk} {pieces : List Bytes} {es : List Event}
    (h : Hands w pieces es last) (hw : Standing input limit chunk w) : Standing input limit chunk last := by
  induction h with
  | nothing w => exact hw
  | piece bytes a hpasses hrest ih => exact ih (hpasses.standing hw)

/-! ## Steps -/

/-- A step that hands over `pieces`, reporting `es`, and comes to `last`, where a turn answers `reply`. -/
structure Goes (w : Walk) (pieces : List Bytes) (es : List Event) (last : Walk) (reply : Reply Walk Step) :
    Prop where
  hands : Hands w pieces es last
  turn_eq : last.turn = reply.mapOutcome some
  answers : Answers last reply

theorem goes {w : Walk} (h : Ready w) (events : List Event) :
    ∃ pieces es last reply, Goes w pieces es last reply ∧
      w.advance events = ⟨reply.outcome, reply.state, events ++ es ++ reply.events⟩ := by
  -- Along the recursion of the loop: a turn without an answer has handed over a chunk.
  fun_induction advance w events with
  | case1 w events f w' es hturn =>
    have hanswers := answers_of_failed h hturn
    exact ⟨[], [], w, ⟨.error f, w', es⟩, ⟨.nothing w, hturn, hanswers⟩, by rw [List.append_nil]⟩
  | case2 w events s w' es hturn =>
    have hanswers := answers_of_answered h hturn
    exact ⟨[], [], w, ⟨.ok s, w', es⟩, ⟨.nothing w, hturn, hanswers⟩, by rw [List.append_nil]⟩
  | case3 w events w' es hturn hless ih =>
    obtain ⟨bytes, a, hpasses, rfl⟩ := passes h hturn
    obtain ⟨pieces, later, last, reply, hgoes, hadvance⟩ := ih (h.handOver hpasses.extends_feed)
    refine ⟨bytes :: pieces, es ++ later, last, reply, ?_, ?_⟩
    · exact ⟨.piece bytes a hpasses hgoes.hands, hgoes.turn_eq, hgoes.answers⟩
    · rw [hadvance, List.append_assoc events]

/-- What a step can do: it hands over chunks, and then a turn answers. Offsets are counted in the input. -/
theorem step_cases {w : Walk} (h : Ready w) :
    ∃ pieces es last reply, Goes w pieces es last reply ∧
      w.step = ⟨reply.outcome.mapError (.shift w.base), reply.state, es ++ reply.events⟩ := by
  obtain ⟨pieces, es, last, reply, hgoes, hadvance⟩ := goes h []
  refine ⟨pieces, es, last, reply, hgoes, ?_⟩
  unfold step
  simp only
  rw [hadvance, List.nil_append]

theorem Answers.ready {w : Walk} {reply : Reply Walk Step} (h : Answers w reply) (hw : Ready w) :
    Ready reply.state := by
  cases h with
  | refused | overflowed | denied | finished | cutOff => exact hw
  | took v n m hmarker hfront calls w' es hcounts => exact (hw.taking hfront).counted hcounts

theorem Ready.step {w : Walk} (h : Ready w) : Ready w.step.state := by
  obtain ⟨pieces, es, last, reply, hgoes, hstep⟩ := step_cases h
  rw [hstep]
  exact hgoes.answers.ready (hgoes.hands.ready h)

theorem Ready.stepped {w : Walk} (h : Ready w) (n : Nat) : Ready (w.stepped n) := by
  induction n with
  | zero => exact h
  | succ n ih => exact ih.step

theorem Answers.standing {w : Walk} {reply : Reply Walk Step} (h : Answers w reply)
    (hw : Standing input limit chunk w) : Standing input limit chunk reply.state := by
  cases h with
  | refused | overflowed | denied | finished | cutOff => exact hw
  | took v n m hmarker hfront calls w' es hcounts => exact (hw.taking hfront).counted hcounts

theorem Standing.step {w : Walk} (hw : Standing input limit chunk w) : Standing input limit chunk w.step.state := by
  obtain ⟨pieces, es, last, reply, hgoes, hstep⟩ := step_cases hw.toReady
  rw [hstep]
  exact hgoes.answers.standing (hgoes.hands.standing hw)

theorem Standing.stepped {w : Walk} (hw : Standing input limit chunk w) (n : Nat) :
    Standing input limit chunk (w.stepped n) := by
  induction n with
  | zero => exact hw
  | succ n ih => exact ih.step

/-- A turn answers, or it hands over a chunk. -/
theorem turn_cases {w : Walk} (h : Ready w) :
    (∃ reply, w.turn = reply.mapOutcome some ∧ Answers w reply) ∨ ∃ bytes a es, Passes w bytes a es := by
  cases hturn : w.turn with
  | mk outcome w' es =>
    cases outcome with
    | error f => exact .inl ⟨⟨.error f, w', es⟩, rfl, answers_of_failed h hturn⟩
    | ok answer =>
      cases answer with
      | some s => exact .inl ⟨⟨.ok s, w', es⟩, rfl, answers_of_answered h hturn⟩
      | none =>
        obtain ⟨bytes, a, hpasses, _⟩ := passes h hturn
        exact .inr ⟨bytes, a, es, hpasses⟩

/-- Every turn leaves a walk that stands where it should, whether or not a step would go on there. -/
theorem Standing.turn {w : Walk} (hw : Standing input limit chunk w) :
    Standing input limit chunk w.turn.state := by
  obtain ⟨reply, hturn, hanswers⟩ | ⟨bytes, a, es, hpasses⟩ := turn_cases hw.toReady
  · rw [hturn]
    exact hanswers.standing hw
  · rw [hpasses.turn_eq]
    exact hpasses.standing hw

theorem Standing.turned {w : Walk} (hw : Standing input limit chunk w) (n : Nat) :
    Standing input limit chunk (w.turned n) := by
  induction n with
  | zero => exact hw
  | succ n ih => exact ih.turn

/-! ## The last answer -/

theorem advance_of_turn {w : Walk} {reply : Reply Walk Step} (hturn : w.turn = reply.mapOutcome some)
    (events : List Event) : w.advance events = ⟨reply.outcome, reply.state, events ++ reply.events⟩ := by
  obtain ⟨outcome, w', es⟩ := reply
  cases outcome with
  | error f => rw [advance_eq, hturn]; rfl
  | ok s => rw [advance_eq, hturn]; rfl

/-- A turn that takes no token leaves the walk as it was. -/
theorem Answers.state_eq {w : Walk} {reply : Reply Walk Step} (h : Answers w reply)
    (hlast : ∀ t, reply.outcome ≠ .ok (.token t)) : reply.state = w := by
  cases h with
  | refused | overflowed | denied | finished | cutOff => rfl
  | took => exact absurd rfl (hlast _)

/-- A step that gives no token leaves a walk whose next step answers the same. -/
theorem step_again {w : Walk} (h : Ready w) (hlast : ∀ t, w.step.outcome ≠ .ok (.token t)) :
    w.step.state.step.outcome = w.step.outcome := by
  obtain ⟨pieces, es, last, reply, hgoes, hstep⟩ := step_cases h
  have hbase := hgoes.hands.beholds.base_eq
  rw [hstep] at hlast ⊢
  have hstate : reply.state = last := by
    apply hgoes.answers.state_eq
    intro t ht
    exact hlast t (by rw [ht]; rfl)
  show reply.state.step.outcome = reply.outcome.mapError _
  rw [hstate, Walk.step]
  simp only
  rw [advance_of_turn hgoes.turn_eq, hbase]

/-- Behind the first step that gives no token, all steps answer the same. -/
theorem outcome_of_le {w : Walk} (h : Ready w) {m n : Nat} (hle : m ≤ n)
    (hlast : ∀ t, (w.stepped m).step.outcome ≠ .ok (.token t)) :
    (w.stepped n).step.outcome = (w.stepped m).step.outcome := by
  induction hle with
  | refl => rfl
  | @step n hle ih =>
    rw [← ih] at hlast ⊢
    exact step_again (h.stepped n) hlast

theorem stepped_succ (w : Walk) (n : Nat) : w.stepped (n + 1) = w.step.state.stepped n := by
  induction n with
  | zero => rfl
  | succ n ih =>
    show (w.stepped (n + 1)).step.state = _
    rw [ih]
    rfl

/-- The steps of a walk come to a last answer, after as many tokens as there are bytes at most. -/
theorem exists_last (w : Walk) :
    ∃ n, n ≤ w.pending ∧ (∀ m < n, ∃ t, (w.stepped m).step.outcome = .ok (.token t)) ∧
      ∀ t, (w.stepped n).step.outcome ≠ .ok (.token t) := by
  -- A token takes at least one byte of those that are pending, and no step adds to them.
  induction hpending : w.pending using Nat.strongRecOn generalizing w with
  | ind pending ih =>
    by_cases hlast : ∀ t, w.step.outcome ≠ .ok (.token t)
    · exact ⟨0, Nat.zero_le _, fun m hm => absurd hm (Nat.not_lt_zero m), hlast⟩
    · obtain ⟨t, ht⟩ : ∃ t, w.step.outcome = .ok (.token t) := by simpa using hlast
      have hless := pending_step_lt ht
      obtain ⟨n, hn, htokens, hend⟩ := ih _ (hpending ▸ hless) w.step.state rfl
      refine ⟨n + 1, by omega, ?_, ?_⟩
      · intro m hm
        cases m with
        | zero => exact ⟨t, ht⟩
        | succ m =>
          rw [stepped_succ]
          exact htokens m (Nat.lt_of_succ_lt_succ hm)
      · rw [stepped_succ]
        exact hend

end Walk
end MessagePack
