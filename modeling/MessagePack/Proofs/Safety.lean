import MessagePack.Proofs.Standing
/-
  How a walk can fail. Its parts fit together along every run, also when steps go on behind the last answer; so a
  chunk is cut from within the input, no message is found ended, and the view of a blob is never out of date. What
  is left are tokens that are refused, storage that is refused, and one sum: where a chunk would end is counted in
  a word before it is known how many bytes there are.

  What is proved:
    1. `Standing.safe`: what is sound in every walk that stands where it should.
    2. `violation_turn_iff`: a turn ends in a violation just where it lacks bytes and that sum is beyond a word.
    3. `fails_step`: the failures of a step.
    4. `not_violated_iff`: the runs on which no step ends in a violation.
    5. `safe_but_for_overflow`: all this for every input, chunk size, message length and configuration.
-/
namespace MessagePack
namespace Walk

variable {input : Bytes} {limit : Option Nat} {chunk : Nat}

/-! ## What is sound -/

/-- What cannot go wrong in a walk over `input`. -/
structure Safe (input : Bytes) (chunk : Nat) (w : Walk) : Prop where
  /-- The next chunk is a stretch of the input. -/
  piece_eq : ∃ last, last = min (w.fed + chunk) input.length ∧ w.fed ≤ last ∧ last ≤ input.length ∧
    w.rest.take w.chunk = (input.take last).drop w.fed
  /-- No message is found that was ended and not dropped. -/
  not_ended : w.reader.next.outcome ≠ .ok .ended
  /-- The blob of a token that is taken is still there. -/
  resolves : ∀ v n, w.reader.readValue.outcome = .ok (.decoded v n) →
    ∃ value, w.reader.readValue.state.resolve v = .ok value

theorem Standing.piece_eq {w : Walk} (hw : Standing input limit chunk w) :
    w.rest.take w.chunk = (input.take (min (w.fed + chunk) input.length)).drop w.fed := by
  have hlength := hw.length_eq
  have hchunk := hw.chunk_eq
  rw [List.drop_take, ← hw.rest_eq, List.take_eq_take_iff]
  omega

theorem Standing.safe {w : Walk} (hw : Standing input limit chunk w) : Safe input chunk w := by
  refine ⟨?_, ?_, ?_⟩
  · have hfed := hw.fed_le
    exact ⟨_, rfl, by omega, by omega, hw.piece_eq⟩
  · cases hu : w.reader.arena.unread with
    | nil => simp [Reader.next_of_nil hw.open_eq hu]
    | cons b u =>
      rw [Reader.next_of_cons hw.open_eq hu]
      cases Marker.ofByte? b with
      | none => simp [Reader.reject]
      | some m => simp
  · intro v n hread
    have hfinding := Reader.finding hw.wellFormed hw.open_eq
    generalize w.reader.readValue = reply at hfinding hread ⊢
    cases hfinding with
    | refused | lacking => cases hread
    | found extents k hfront =>
      cases hread
      exact ⟨_, Reader.resolve_settled hw.wellFormed hfront⟩

/-! ## How a step fails -/

/-- The failures of a walk that stands at `p`. -/
inductive Fails (p : Nat) : Failure → Prop where
  /-- The token at `p` is refused. -/
  | token (e : DecodeError) (h : e.offset? = some p) : Fails p (.fault e)
  | storage (size : Nat) : Fails p (.fault (.allocationFailed size))
  | overflow : Fails p (.violation .offsetOverflow)

theorem fails_step {w : Walk} (hw : Ready w) {f : Failure} (hf : w.step.outcome = .error f) :
    Fails w.position f := by
  obtain ⟨pieces, es, last, reply, hgoes, hstep⟩ := step_cases hw
  have hanswers := hgoes.answers
  have hcursor := hgoes.hands.beholds.cursor_eq
  rw [hstep] at hf
  clear hstep hgoes
  cases hanswers with
  | refused e hfront =>
    have hoffset : (e.shift w.base).offset? = some w.position := by
      rw [DecodeError.offset?_shift, scanBytes_error hfront, hcursor]
      rfl
    cases hf
    exact .token _ hoffset
  | overflowed =>
    cases hf
    exact .overflow
  | denied _ _ _ size =>
    cases hf
    exact .storage size
  | finished | cutOff | took => cases hf

/-- A turn ends in a violation just where it lacks bytes and the end of the next chunk is beyond a word. -/
theorem violation_turn_iff {w : Walk} (hw : Ready w) (v : Violation) :
    w.turn.outcome = .error (.violation v) ↔
      v = .offsetOverflow ∧ w.reader.front = .ok .incomplete ∧ wordMax < w.fed + w.chunk := by
  refine ⟨?_, ?_⟩
  · intro hv
    have hturn : w.turn = ⟨.error (.violation v), w.turn.state, w.turn.events⟩ := by rw [← hv]
    have hanswers := answers_of_failed hw hturn
    generalize w.turn.state = w' at hanswers
    generalize w.turn.events = es at hanswers
    cases hanswers with
    | overflowed hfront hfar => exact ⟨rfl, hfront, hfar⟩
  · rintro ⟨rfl, hfront, hfar⟩
    -- A turn that lacks bytes makes the sum first, whatever it does next.
    have hmoves := moves hw.wellFormed hw.open_eq
    have hnear (s : Step) := fed_add_le_of_answered (w := w) (s := s)
    generalize w.turnCalls = calls at hmoves
    generalize w.turn = reply at hmoves hnear ⊢
    cases hmoves with
    | refused look hlook e hrefused => cases hfront.symm.trans hrefused
    | took v n m hmarker hfound => cases hfront.symm.trans hfound
    | failed look calls hlook _ f w' es hfeeds =>
      cases hfeeds with
      | tooFar => rfl
      | refused piece hend => omega
    | fed look calls hlook _ w' es hfeeds =>
      cases hfeeds with
      | handed piece hend => omega
    | finished =>
      have hend := hnear .finished rfl (by simp)
      omega
    | cutOff =>
      have hend := hnear _ rfl (by simp)
      omega

/-! ## Runs without a violation -/

/-- Where the length of the input and one chunk make a word together, no sum is beyond a word. -/
theorem not_violation_of_le {w : Walk} (hw : Standing input limit chunk w)
    (hle : input.length + chunk ≤ wordMax) (v : Violation) :
    w.step.outcome ≠ .error (.violation v) := by
  intro hv
  obtain ⟨pieces, es, last, reply, hgoes, hstep⟩ := step_cases hw.toReady
  have hfed := (hgoes.hands.standing hw).fed_le
  have hchunk := (hgoes.hands.standing hw).chunk_eq
  have hanswers := hgoes.answers
  rw [hstep] at hv
  clear hstep hgoes
  cases hanswers with
  | overflowed hfront hfar => omega
  | refused | denied | finished | cutOff | took => cases hv

theorem not_violation_of_runs {w : Walk} {run : Run} (hruns : Runs w run) (hw : Standing input limit chunk w)
    (hle : input.length + chunk ≤ wordMax) (v : Violation) : run.ending ≠ .error (.violation v) := by
  induction hruns with
  | ends hstep hlast =>
    have hsound := not_violation_of_le hw hle v
    rwa [hstep] at hsound
  | @goes w w' t es run hstep hrest ih =>
    have hnext : Standing input limit chunk w.step.state := hw.stepped 1
    rw [hstep] at hnext
    exact ih hnext

/-- A walk that takes all of its input has counted the end of one more chunk. -/
theorem length_add_le_of_ended {w : Walk} (hw : Standing input limit chunk w) {s : Step}
    (hs : w.step.outcome = .ok s) (hlast : ∀ t, s ≠ .token t) : input.length + chunk ≤ wordMax := by
  obtain ⟨pieces, es, last, reply, hgoes, hstep⟩ := step_cases hw.toReady
  have hlength := (hgoes.hands.standing hw).length_eq
  have hchunk := (hgoes.hands.standing hw).chunk_eq
  have hanswers := hgoes.answers
  rw [hstep] at hs
  clear hstep hgoes
  cases hanswers with
  | finished hrest hu hnear | cutOff hrest hu hfront hnear =>
    rw [hrest, List.length_nil] at hlength
    omega
  | took => cases hs; exact absurd rfl (hlast _)
  | refused | overflowed | denied => cases hs

theorem not_violated_iff {w : Walk} (hw : Standing input limit chunk w) :
    (∀ n v, (w.stepped n).step.outcome ≠ .error (.violation v)) ↔
      input.length + chunk ≤ wordMax ∨ ∃ n e, (w.stepped n).step.outcome = .error (.fault e) := by
  refine ⟨?_, ?_⟩
  · intro hsound
    obtain ⟨n, _, _, hlast⟩ := exists_last w
    cases hanswer : (w.stepped n).step.outcome with
    | error f =>
      cases f with
      | fault e => exact .inr ⟨n, e, hanswer⟩
      | violation v => exact absurd hanswer (hsound n v)
    | ok s =>
      have hend : ∀ t, s ≠ .token t := by
        rintro t rfl
        exact hlast t hanswer
      exact .inl (length_add_le_of_ended (hw.stepped n) hanswer hend)
  · rintro (hle | ⟨n, e, hfault⟩) m v hv
    · exact not_violation_of_le (hw.stepped m) hle v hv
    · -- Both of the steps are behind the last token, so they would answer the same.
      rcases Nat.le_total m n with hle | hle
      · have hsame := outcome_of_le hw.toReady hle (by rw [hv]; simp)
        rw [hfault, hv] at hsame
        cases hsame
      · have hsame := outcome_of_le hw.toReady hle (by rw [hfault]; simp)
        rw [hfault, hv] at hsame
        cases hsame

/-! ## Every walk -/

/-- How a walk over `input` can fail, at every turn and at every step. -/
structure SafeButForOverflow (input : Bytes) (chunk : Nat) (w : Walk) : Prop where
  /-- All the walks that steps come to are those that turns come to. -/
  turned : ∀ n, ∃ m, w.stepped n = w.turned m
  safe : ∀ m, Safe input chunk (w.turned m)
  violation_iff : ∀ m v, (w.turned m).turn.outcome = .error (.violation v) ↔
    v = .offsetOverflow ∧ (w.turned m).reader.front = .ok .incomplete ∧
      wordMax < (w.turned m).fed + chunk
  fails : ∀ n f, (w.stepped n).step.outcome = .error f → Fails (w.stepped n).position f
  not_violated_iff : (∀ n v, (w.stepped n).step.outcome ≠ .error (.violation v)) ↔
    input.length + chunk ≤ wordMax ∨ ∃ n e, (w.stepped n).step.outcome = .error (.fault e)

/-- A walk cuts its chunks from within the input, never finds a message ended and never loses the bytes of a
blob, whatever the input, the chunk size, the message length and the configuration, and also when steps go on
behind the last answer. Its steps fail with a token or with storage that is refused; or where bytes are lacking and
the end of the next chunk is beyond a word. That is so on no step just if the length of the input and one chunk
make a word together, or a refusal comes before. -/
theorem safe_but_for_overflow (input : Bytes) (chunk : Nat) (chunk_pos : 0 < chunk)
    (valuesPerMessage : Option Nat) (config : Config) :
    SafeButForOverflow input chunk (create input chunk chunk_pos valuesPerMessage config).state := by
  have hw := standing_create input chunk chunk_pos valuesPerMessage config
  generalize (create input chunk chunk_pos valuesPerMessage config).state = w at hw ⊢
  refine ⟨w.stepped_turned, ?_, ?_, ?_, not_violated_iff hw⟩
  · intro m
    exact (hw.turned m).safe
  · intro m v
    have hiff := violation_turn_iff (hw.turned m).toReady v
    rwa [(hw.turned m).chunk_eq] at hiff
  · intro n f hf
    exact fails_step (hw.stepped n).toReady hf

/-- A walk over a nil, in the largest chunks with which no sum is beyond a word: no step ends in a violation, and no
message is found ended. -/
theorem safe_but_for_overflow_largestChunk :
    (∀ n v, ((create [0xc0] (wordMax - 1) (by decide) none {}).state.stepped n).step.outcome
      ≠ .error (.violation v)) ∧
    ∀ m, ((create [0xc0] (wordMax - 1) (by decide) none {}).state.turned m).reader.next.outcome
      ≠ .ok .ended := by
  have h := safe_but_for_overflow [0xc0] (wordMax - 1) (by decide) none {}
  refine ⟨h.not_violated_iff.2 (.inl (by decide)), ?_⟩
  intro m
  exact (h.safe m).not_ended

/-- A walk over a nil, in the largest chunks that a word can count. -/
def hugeWalk : Walk := (create [0xc0] wordMax (by decide) none { initialCapacity := 1 }).state

theorem overflow_hugeWalk : (hugeWalk.stepped 1).step.outcome = .error (.violation .offsetOverflow) := by
  have hnil : ∃ es, hugeWalk.step = ⟨.ok (.token ⟨0, .nil, .nil⟩), hugeWalk.turned 2, es⟩ := by
    rw [step, advance_of_handed rfl, advance_of_answer rfl]
    exact ⟨_, rfl⟩
  obtain ⟨_, hnil⟩ := hnil
  have hstart : Standing [0xc0] none wordMax hugeWalk := standing_create _ _ _ none { initialCapacity := 1 }
  have hw := hstart.turned 2
  have hfar : wordMax < (hugeWalk.turned 2).fed + (hugeWalk.turned 2).chunk := by
    have hfed : (hugeWalk.turned 2).fed = 1 := rfl
    have hchunk : (hugeWalk.turned 2).chunk = wordMax := hw.chunk_eq
    omega
  have hturn := (violation_turn_iff hw.toReady .offsetOverflow).2 ⟨rfl, rfl, hfar⟩
  show hugeWalk.step.state.step.outcome = _
  rw [hnil, step]
  simp only
  rw [advance_of_failed hturn]
  rfl

/-- The nil is there after one chunk; but before the walk can say that the input ends behind it, it adds one more
chunk to the byte that it has fed. -/
theorem overflows_at_second_chunk :
    ¬ ∀ (input : Bytes) (chunk : Nat) (chunk_pos : 0 < chunk) (_ : chunk ≤ wordMax)
      (valuesPerMessage : Option Nat) (config : Config),
      (create input chunk chunk_pos valuesPerMessage config).outcome = .ok () →
      ∀ n v, ((create input chunk chunk_pos valuesPerMessage config).state.stepped n).step.outcome
        ≠ .error (.violation v) := by
  intro h
  have hsound := h [0xc0] wordMax (by decide) (Nat.le_refl _) none { initialCapacity := 1 } rfl
  exact hsound 1 .offsetOverflow overflow_hugeWalk

end Walk
end MessagePack
