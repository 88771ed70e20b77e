import MessagePack.Proofs.Standing
/-
  What a walk finds: the tokens of its input, whatever the size of its chunks and of its messages.

  The walk holds three stretches of the input: what it has dropped, what its reader holds, and what it has not
  fed. The invariant says that the last two are what the input has from the position on, and that the counts of
  the walk agree with this. One turn, one step and any number of steps keep it.

  What is proved:
    1. `turns`: a turn feeds a chunk, or settles what stands at the position.
    2. `settles_step`: a step settles what stands at the position, with offsets counted in the input.
    3. `reached_stepped`: after `n` steps the walk stands behind the first `n` tokens.
    4. `walk_follows`: the steps give the tokens of the input, and then the reason why there are no more.
-/
namespace MessagePack
namespace Walk

/-! ## The invariant -/

/-- A walk over `input` whose parts fit together. -/
structure Walking (input : Bytes) (limit : Option Nat) (w : Walk) : Prop where
  wellFormed : w.reader.arena.WellFormed
  open_eq : w.reader.arena.messageComplete = false
  limit_eq : w.reader.config.maxBlobLength = limit
  fed_eq : w.base + w.reader.arena.usedEnd = w.fed
  length_eq : w.fed + w.rest.length = input.length
  ahead_eq : w.reader.arena.unread ++ w.rest = input.drop w.position
  chunk_le : input.length + w.chunk ≤ wordMax
  room : input.length ≤ w.reader.arena.capacity ∨ w.reader.arena.allocator.provides (leastPowerOfTwo input.length)

variable {input : Bytes} {limit : Option Nat}

theorem Walking.rest_eq {w : Walk} (hw : Walking input limit w) : w.rest = input.drop w.fed := by
  have hcursor := hw.wellFormed.cursor_le
  have hfed : w.position + w.reader.arena.remaining = w.fed := by
    have hused := hw.fed_eq
    show w.base + w.reader.arena.readCursor + (w.reader.arena.usedEnd - w.reader.arena.readCursor) = _
    omega
  calc w.rest
    _ = (w.reader.arena.unread ++ w.rest).drop w.reader.arena.unread.length := List.drop_left.symm
    _ = input.drop w.fed := by
      rw [hw.ahead_eq, List.drop_drop, Arena.length_unread hw.wellFormed, hfed]

theorem Walking.standing {w : Walk} (hw : Walking input limit w) : Standing input limit w.chunk w :=
  ⟨⟨hw.wellFormed, hw.open_eq⟩, rfl, hw.limit_eq, hw.fed_eq, hw.length_eq, hw.ahead_eq, hw.rest_eq⟩

/-- With room for all of the input, and its length a word, a walk that stands where it should can go on to the
end. -/
theorem Standing.walking {chunk : Nat} {w : Walk} (hw : Standing input limit chunk w)
    (hchunk : input.length + chunk ≤ wordMax)
    (hroom : input.length ≤ w.reader.arena.capacity ∨
      w.reader.arena.allocator.provides (leastPowerOfTwo input.length)) :
    Walking input limit w :=
  ⟨hw.wellFormed, hw.open_eq, hw.limit_eq, hw.fed_eq, hw.length_eq, hw.ahead_eq, hw.chunk_eq.symm ▸ hchunk,
    hroom⟩

theorem walking_create {chunk : Nat} {chunk_pos : 0 < chunk} {valuesPerMessage : Option Nat}
    {config : Config} (hchunk : input.length + chunk ≤ wordMax)
    (hfits : (Reader.create config).state.arena.Fits input.length) :
    Walking input config.maxBlobLength
      (create input chunk chunk_pos valuesPerMessage config).state := by
  have hfresh := Reader.fresh_create config
  unfold Arena.Fits at hfits
  rw [hfresh.usedEnd_eq, Nat.zero_add] at hfits
  exact (standing_create input chunk chunk_pos valuesPerMessage config).walking hchunk hfits

/-- Every byte that a walk may still feed fits behind those that its reader holds. -/
theorem Walking.fits {w : Walk} (hw : Walking input limit w) {n : Nat} (hn : n ≤ w.rest.length) :
    w.reader.arena.Fits n := by
  have hfed := hw.fed_eq
  have hlength := hw.length_eq
  rcases hw.room with hroom | hprovided
  · exact .inl (by omega)
  · have hmono : leastPowerOfTwo (w.reader.arena.usedEnd + n) ≤ leastPowerOfTwo input.length := by
      apply leastPowerOfTwo_mono
      omega
    exact .inr (Allocator.provides_of_le hmono hprovided)

/-! ## What a turn keeps -/

theorem Walking.handOver {w : Walk} (hw : Walking input limit w) {a : Arena}
    (hextends : w.reader.arena.Extends (w.rest.take w.chunk) a) :
    Walking input limit (w.handOver a) := by
  apply (hw.standing.handOver hextends).walking hw.chunk_le
  rcases hw.room with hroom | hprovided
  · exact .inl (Nat.le_trans hroom hextends.grows.capacity_le)
  · exact .inr (hextends.allocator_eq ▸ hprovided)

/-- With room for all of the input, and its length a word, no chunk is refused. -/
theorem Walking.not_failed {w w' : Walk} (hw : Walking input limit w) {calls : List Reader.Call}
    {f : Failure} {es : List Event} : ¬ Feeds w calls ⟨.error f, w', es⟩ := by
  intro hfeeds
  have hchunk := hw.chunk_le
  have hlength := hw.length_eq
  cases hfeeds with
  | tooFar h => omega
  | refused piece h hpiece hsome hno =>
    apply hno
    apply hw.fits
    rw [← hpiece]
    exact List.length_take_le' _ _

theorem Walking.taking {w : Walk} (hw : Walking input limit w) {v : Value Extent} {n : Nat}
    (hfront : w.reader.front = .ok (.complete v n)) : Walking input limit (w.taking n) :=
  (hw.standing.taking hfront).walking hw.chunk_le hw.room

theorem Walking.closing {w : Walk} (hw : Walking input limit w) : Walking input limit w.closing := by
  apply hw.standing.closing.walking hw.chunk_le
  show input.length ≤ w.reader.arena.endMessage.compacted.capacity ∨
    w.reader.arena.endMessage.compacted.allocator.provides _
  rw [Arena.capacity_compacted (Arena.wellFormed_endMessage hw.wellFormed), Arena.allocator_compacted]
  exact hw.room

theorem Walking.counting {w : Walk} (hw : Walking input limit w) (n : Nat) :
    Walking input limit { w with inMessage := n } :=
  ⟨hw.wellFormed, hw.open_eq, hw.limit_eq, hw.fed_eq, hw.length_eq, hw.ahead_eq, hw.chunk_le, hw.room⟩

/-- Whether or not a value ends its message, the walk stands where it stood. -/
theorem Walking.counted {w w' : Walk} (hw : Walking input limit w) {calls : List Reader.Call}
    {es : List Event} (hcounts : Counts w calls ⟨.ok (), w', es⟩) :
    Walking input limit w' ∧ w'.position = w.position := by
  refine ⟨?_, hcounts.position_eq⟩
  cases hcounts with
  | kept => exact hw.counting _
  | closed => exact hw.closing

/-! ## One turn -/

/-- The answer to what stands at position `p` of the input, if the position is counted as `offset`. -/
inductive Settles (input : Bytes) (limit : Option Nat) (p offset : Nat) :
    Except Failure Step → Walk → Prop where
  | refused (e : DecodeError) (w : Walk) (hw : Walking input limit w) (hposition : w.position = p)
      (h : scanBytes limit offset (input.drop p) = .error e) :
      Settles input limit p offset (.error (.fault e)) w
  | finished (w : Walk) (hw : Walking input limit w) (hposition : w.position = p)
      (h : input.drop p = []) : Settles input limit p offset (.ok .finished) w
  | cutOff (w : Walk) (hw : Walking input limit w) (hposition : w.position = p)
      (h : scanBytes limit offset (input.drop p) = .ok .incomplete) (hsome : input.drop p ≠ []) :
      Settles input limit p offset (.ok (.cutOff p (input.drop p).length)) w
  | took (v : Value Extent) (n : Nat) (m : Marker) (w : Walk) (hw : Walking input limit w)
      (hposition : w.position = p + n)
      (h : scanBytes limit offset (input.drop p) = .ok (.complete v n))
      (hm : (input.drop p).head?.bind Marker.ofByte? = some m) :
      Settles input limit p offset (.ok (.token ⟨p, m, v.map (·.within (input.drop p))⟩)) w

/-- What a turn does: it hands over a chunk, or it settles what stands at the position. -/
inductive Turns (input : Bytes) (limit : Option Nat) (w : Walk) : Reply Walk (Option Step) → Prop where
  | handed (w' : Walk) (es : List Event) (hw : Walking input limit w') (hbase : w'.base = w.base)
      (hcursor : w'.reader.cursor = w.reader.cursor) : Turns input limit w ⟨.ok none, w', es⟩
  | failed (f : Failure) (w' : Walk) (es : List Event)
      (h : Settles input limit w.position w.reader.cursor (.error f) w') :
      Turns input limit w ⟨.error f, w', es⟩
  | answered (s : Step) (w' : Walk) (es : List Event)
      (h : Settles input limit w.position w.reader.cursor (.ok s) w') :
      Turns input limit w ⟨.ok (some s), w', es⟩

/-- A decision of the reader holds for the input, of which it holds only a part. -/
theorem Walking.scan_eq {w : Walk} (hw : Walking input limit w)
    (hfront : w.reader.front ≠ .ok .incomplete) :
    scanBytes limit w.reader.cursor (input.drop w.position) = w.reader.front := by
  rw [← hw.standing.ahead_eq, ← hw.limit_eq]
  exact scan_ahead hfront

theorem Walking.unread_eq {w : Walk} (hw : Walking input limit w) (hrest : w.rest = []) :
    input.drop w.position = w.reader.arena.unread :=
  hw.standing.ahead_eq.symm.trans (ahead_of_rest_nil hrest)

theorem turns {w : Walk} (hw : Walking input limit w) : Turns input limit w w.turn := by
  have hmoves := moves hw.wellFormed hw.open_eq
  generalize w.turnCalls = calls at hmoves
  generalize w.turn = reply at hmoves ⊢
  cases hmoves with
  | refused look hlook e hfront =>
    have hscan := hw.scan_eq (by simp [hfront])
    rw [hfront] at hscan
    exact .failed (.fault e) w _ (.refused e w hw rfl hscan)
  | failed look calls hlook hfront f w' es hfeeds => exact absurd hfeeds hw.not_failed
  | fed look calls hlook hfront w' es hfeeds =>
    cases hfeeds with
    | handed piece h hpiece hsome a es hfeed hextends =>
      have hhanded : Walking input limit (w.handOver a) := hw.handOver (hpiece ▸ hextends)
      exact .handed (w.handOver a) es hhanded rfl hextends.readCursor_eq
  | finished look hlook hrest hu =>
    have hahead := hw.unread_eq hrest
    rw [hu] at hahead
    exact .answered .finished w _ (.finished w hw rfl hahead)
  | cutOff look hlook hrest hu hfront =>
    -- Nothing is left to feed, so what is unread is all that the input has.
    have hahead := hw.unread_eq hrest
    have hscan : scanBytes limit w.reader.cursor (input.drop w.position) = .ok .incomplete := by
      rw [hahead, ← hw.limit_eq]
      exact hfront
    rw [← Arena.length_unread hw.wellFormed, ← hahead]
    exact .answered _ w _ (.cutOff w hw rfl hscan (hahead ▸ hu))
  | took v n m hmarker hfront calls w' es hcounts =>
    obtain ⟨hcounted, hposition⟩ := (hw.taking hfront).counted hcounts
    have hscan := hw.scan_eq (by simp [hfront])
    rw [hfront] at hscan
    have hbehind : w'.position = w.position + n := hposition.trans (Nat.add_assoc _ _ _).symm
    have hhead : (input.drop w.position).head?.bind Marker.ofByte? = some m := by
      rw [← hw.standing.ahead_eq]
      exact marker_ahead hmarker
    rw [← map_within_append hfront w.rest, hw.ahead_eq]
    exact .answered _ w' es (.took v n m w' hcounted hbehind hscan hhead)

/-! ## One step -/

/-- Chunks are handed over until what stands at the position is settled. -/
theorem settles_advance {w : Walk} (hw : Walking input limit w) (events : List Event) :
    Settles input limit w.position w.reader.cursor (w.advance events).outcome
        (w.advance events).state := by
  -- A chunk that is handed over changes neither base nor cursor: the next turn settles the same position.
  have hturns := turns hw
  fun_induction advance w events with
  | case1 w events f w' es hturn =>
    rw [hturn] at hturns
    cases hturns with
    | failed f w' es h => exact h
  | case2 w events s w' es hturn =>
    rw [hturn] at hturns
    cases hturns with
    | answered s w' es h => exact h
  | case3 w events w' es hturn hless ih =>
    rw [hturn] at hturns
    cases hturns with
    | handed w' es hw' hbase hcursor =>
      have hsettles := ih hw' (turns hw')
      rwa [position, hbase, hcursor] at hsettles

/-- In a step the positions are counted in the input: the base is added to the offset of a refusal. -/
theorem settles_step {w : Walk} (hw : Walking input limit w) :
    Settles input limit w.position w.position w.step.outcome w.step.state := by
  have hsettles := settles_advance hw []
  have hshift := scanBytes_shift limit w.base w.reader.cursor (input.drop w.position)
  unfold step
  simp only
  generalize w.advance [] = reply at hsettles ⊢
  obtain ⟨outcome, w', es⟩ := reply
  simp only at hsettles ⊢
  cases hsettles with
  | refused e w' hw' hposition h =>
    rw [h] at hshift
    exact .refused (e.shift w.base) w' hw' hposition hshift
  | finished w' hw' hposition h => exact .finished w' hw' hposition h
  | cutOff w' hw' hposition h hsome =>
    rw [h] at hshift
    exact .cutOff w' hw' hposition hshift hsome
  | took v n m w' hw' hposition h hm =>
    rw [h] at hshift
    exact .took v n m w' hw' hposition hshift hm

/-! ## Any number of steps -/

/-- A walk that stands behind the first `n` tokens of its input, or at the end of them if there are fewer. -/
structure Reached (input : Bytes) (limit : Option Nat) (n : Nat) (w : Walk) : Prop where
  walking : Walking input limit w
  position_eq : w.position = consumedBy ((tokenise limit 0 input).tokens.take n)
  tokens_eq : (tokenise limit w.position (input.drop w.position)).tokens
    = (tokenise limit 0 input).tokens.drop n

theorem reached_create {chunk : Nat} {chunk_pos : 0 < chunk} {valuesPerMessage : Option Nat}
    {config : Config} {w : Walk}
    (hcreate : w = (create input chunk chunk_pos valuesPerMessage config).state)
    (hw : Walking input limit w) : Reached input limit 0 w := by
  have hposition : w.position = 0 := by
    rw [hcreate]
    show 0 + (Reader.create config).state.arena.readCursor = 0
    rw [(Reader.fresh_create config).readCursor_eq]
  refine ⟨hw, hposition, ?_⟩
  rw [hposition]
  rfl

/-- Where no token is left, a step leaves the walk where it is. -/
theorem Reached.stay {n : Nat} {w w' : Walk} (hr : Reached input limit n w)
    (hnone : (tokenise limit w.position (input.drop w.position)).tokens = [])
    (hw' : Walking input limit w') (hposition : w'.position = w.position) :
    Reached input limit (n + 1) w' := by
  -- No token behind the position means that `n` counts all of them.
  have hdrop := hr.tokens_eq
  rw [hnone] at hdrop
  have hall : (tokenise limit 0 input).tokens.length ≤ n := List.drop_eq_nil_iff.1 hdrop.symm
  refine ⟨hw', ?_, ?_⟩
  · rw [hposition, hr.position_eq, List.take_of_length_le hall, List.take_of_length_le (by omega)]
  · rw [hposition, hnone, List.drop_of_length_le (by omega)]

/-- A step that takes a token goes behind it. -/
theorem Reached.go {n : Nat} {w w' : Walk} (hr : Reached input limit n w) {v : Value Extent} {k : Nat}
    (hscan : scanBytes limit w.position (input.drop w.position) = .ok (.complete v k))
    (hw' : Walking input limit w') (hposition : w'.position = w.position + k) :
    Reached input limit (n + 1) w' := by
  have hcons : (tokenise limit 0 input).tokens.drop n
      = ⟨v.map (·.within (input.drop w.position)), k⟩
        :: (tokenise limit w'.position (input.drop w'.position)).tokens := by
    rw [← hr.tokens_eq, tokenise_of_complete hscan, List.drop_drop, hposition]
    rfl
  have hnext : (tokenise limit 0 input).tokens[n]?
      = some ⟨v.map (·.within (input.drop w.position)), k⟩ := by
    rw [← List.head?_drop, hcons]
    rfl
  refine ⟨hw', ?_, ?_⟩
  · rw [List.take_add_one, consumedBy_append, hnext, ← hr.position_eq, hposition]
    rfl
  · rw [← List.tail_drop, hcons]
    rfl

theorem Reached.step {n : Nat} {w : Walk} (hr : Reached input limit n w) :
    Reached input limit (n + 1) w.step.state := by
  have hsettles := settles_step hr.walking
  generalize w.step.outcome = answer at hsettles
  generalize w.step.state = w' at hsettles ⊢
  cases hsettles with
  | refused e _ hw' hposition h =>
    exact hr.stay (by rw [tokenise_of_error h]) hw' hposition
  | finished _ hw' hposition h =>
    exact hr.stay (by rw [h, tokenise_nil]) hw' hposition
  | cutOff _ hw' hposition h hsome =>
    exact hr.stay (by rw [tokenise_of_incomplete h]) hw' hposition
  | took v k m _ hw' hposition h hm => exact hr.go h hw' hposition

theorem reached_stepped {w : Walk} (hr : Reached input limit 0 w) (n : Nat) :
    Reached input limit n (w.stepped n) := by
  induction n with
  | zero => exact hr
  | succ n ih => exact ih.step

/-! ## The tokens of the input -/

/-- What the steps of a walk have to be, by what a reader finds that is fed the whole input at once. -/
structure Follows (input : Bytes) (d : Drained) (w : Walk) : Prop where
  /-- After `n` steps the walk stands behind the first `n` tokens. -/
  position_eq : ∀ n, (w.stepped n).position = consumedBy (d.readings.take n)
  /-- The next step gives the next token, with its place, its marker and its value. -/
  token_eq : ∀ n reading, d.readings[n]? = some reading → ∃ b m value,
    input[consumedBy (d.readings.take n)]? = some b ∧ Marker.ofByte? b = some m ∧
      reading.value = .ok value ∧
      (w.stepped n).step.outcome = .ok (.token ⟨consumedBy (d.readings.take n), m, value⟩)
  /-- Behind the last token, every step says whether all bytes were taken. -/
  finished_iff : ∀ n, d.readings.length ≤ n →
    ((w.stepped n).step.outcome = .ok .finished ↔ consumedBy d.readings = input.length)
  /-- Or that the input ends inside a token. -/
  cutOff_iff : ∀ n, d.readings.length ≤ n → ∀ offset buffered,
    ((w.stepped n).step.outcome = .ok (.cutOff offset buffered) ↔
      d.ending = .ok .needMoreData ∧ offset = consumedBy d.readings ∧
      offset + buffered = input.length ∧ 0 < buffered)
  /-- Or that the next token is refused, for the reader's reason. -/
  refused_iff : ∀ n, d.readings.length ≤ n → ∀ f,
    ((w.stepped n).step.outcome = .error f ↔ d.ending = .error f)
  refused_at : ∀ f, d.ending = .error f →
    ∃ e, f = .fault e ∧ e.offset? = some (consumedBy d.readings)

/-- The answer at the end of the tokens. -/
theorem Reached.last {n : Nat} {w : Walk} (hr : Reached input limit n w)
    (hn : (tokenise limit 0 input).tokens.length ≤ n) :
    w.position = consumedBy (tokenise limit 0 input).tokens ∧
      scanBytes limit w.position (input.drop w.position)
        = match (tokenise limit 0 input).refusal with
          | some e => .error e
          | none => .ok .incomplete := by
  have hwhole := tokenises limit 0 input
  have hposition := hr.position_eq
  rw [List.take_of_length_le hn] at hposition
  have hlast := hwhole.last_eq
  rw [hwhole.rest_eq, Nat.zero_add, ← hposition] at hlast
  exact ⟨hposition, hlast⟩

theorem Reached.token {n : Nat} {w : Walk} (hr : Reached input limit n w)
    {k : Reading (Value Bytes)} (hk : (tokenise limit 0 input).tokens[n]? = some k) :
    ∃ b m, input[w.position]? = some b ∧ Marker.ofByte? b = some m ∧
      w.step.outcome = .ok (.token ⟨w.position, m, k.value⟩) := by
  have hsettles := settles_step hr.walking
  have hfirst : (tokenise limit w.position (input.drop w.position)).tokens.head? = some k := by
    rw [hr.tokens_eq, List.head?_drop, hk]
  generalize w.step.outcome = answer at hsettles ⊢
  generalize w.step.state = w' at hsettles
  cases hsettles with
  | refused e _ hw' hposition h =>
    rw [tokenise_of_error h] at hfirst
    cases hfirst
  | finished _ hw' hposition h =>
    rw [h, tokenise_nil] at hfirst
    cases hfirst
  | cutOff _ hw' hposition h hsome =>
    rw [tokenise_of_incomplete h] at hfirst
    cases hfirst
  | took v n' m _ hw' hposition h hm =>
    rw [tokenise_of_complete h] at hfirst
    have hvalue : Reading.mk (v.map (·.within (input.drop w.position))) n' = k :=
      Option.some.inj hfirst
    rw [List.head?_drop] at hm
    obtain ⟨b, hb, hmarker⟩ := Option.bind_eq_some_iff.1 hm
    refine ⟨b, m, hb, hmarker, ?_⟩
    rw [← hvalue]

/-- The last answer, by the place and the reason for which the tokens end. -/
inductive Ends (input : Bytes) (p : Nat) (refusal : Option DecodeError) : Except Failure Step → Prop where
  | refused (e : DecodeError) (hrefusal : refusal = some e) (hoffset : e.offset? = some p)
      (hp : p < input.length) : Ends input p refusal (.error (.fault e))
  | finished (hrefusal : refusal = none) (hp : p = input.length) : Ends input p refusal (.ok .finished)
  | cutOff (hrefusal : refusal = none) (hp : p < input.length) :
      Ends input p refusal (.ok (.cutOff p (input.length - p)))

theorem Reached.ends {n : Nat} {w : Walk} (hr : Reached input limit n w)
    (hn : (tokenise limit 0 input).tokens.length ≤ n) :
    Ends input (consumedBy (tokenise limit 0 input).tokens) (tokenise limit 0 input).refusal
      w.step.outcome := by
  obtain ⟨hposition, hlast⟩ := hr.last hn
  have hle := (tokenises limit 0 input).consumed_le
  have hsettles := settles_step hr.walking
  rw [hposition] at hlast hsettles
  generalize consumedBy (tokenise limit 0 input).tokens = p at *
  generalize (tokenise limit 0 input).refusal = refusal at *
  generalize w.step.outcome = answer at hsettles ⊢
  generalize w.step.state = w' at hsettles
  have hinside (hsome : input.drop p ≠ []) : p < input.length := by
    apply Nat.lt_of_not_le
    intro hge
    exact hsome (List.drop_of_length_le hge)
  cases hsettles with
  | refused e _ hw' hp h =>
    rw [h] at hlast
    cases refusal with
    | none => cases hlast
    | some e' =>
      have hsome : input.drop p ≠ [] := by
        intro hnil
        rw [hnil] at h
        cases h
      injection hlast with he
      subst he
      exact .refused e rfl (scanBytes_error h) (hinside hsome)
  | finished _ hw' hp h =>
    rw [h] at hlast
    cases refusal with
    | some e' => cases hlast
    | none => exact .finished rfl (Nat.le_antisymm hle (List.drop_eq_nil_iff.1 h))
  | cutOff _ hw' hp h hsome =>
    rw [h] at hlast
    cases refusal with
    | some e' => cases hlast
    | none =>
      rw [List.length_drop]
      exact .cutOff rfl (hinside hsome)
  | took v k m _ hw' hp h hm =>
    rw [h] at hlast
    cases refusal <;> cases hlast

theorem finished_iff_of_ends {p : Nat} {t : Tokenisation} {answer : Except Failure Step}
    (h : Ends input p t.refusal answer) : answer = .ok .finished ↔ p = input.length := by
  cases h with
  | refused e hrefusal hoffset hp =>
    refine ⟨by simp, ?_⟩
    omega
  | finished hrefusal hp =>
    refine ⟨?_, ?_⟩
    · intro _
      exact hp
    · intro _
      rfl
  | cutOff hrefusal hp =>
    refine ⟨by simp, ?_⟩
    omega

theorem cutOff_iff_of_ends {p : Nat} {t : Tokenisation} {answer : Except Failure Step}
    (h : Ends input p t.refusal answer) (offset buffered : Nat) :
    answer = .ok (.cutOff offset buffered) ↔
      t.ending = .ok .needMoreData ∧ offset = p ∧ offset + buffered = input.length ∧ 0 < buffered := by
  unfold Tokenisation.ending
  cases h with
  | refused e hrefusal hoffset hp =>
    rw [hrefusal]
    simp
  | finished hrefusal hp =>
    refine ⟨by simp, ?_⟩
    intro h
    omega
  | cutOff hrefusal hp =>
    rw [hrefusal]
    refine ⟨?_, ?_⟩
    · intro h
      injection h with h
      injection h with hoffset hbuffered
      exact ⟨rfl, hoffset.symm, by omega, by omega⟩
    · intro h
      obtain ⟨_, hoffset, hsum, _⟩ := h
      rw [hoffset, show buffered = input.length - p by omega]

theorem refused_iff_of_ends {p : Nat} {t : Tokenisation} {answer : Except Failure Step}
    (h : Ends input p t.refusal answer) (f : Failure) : answer = .error f ↔ t.ending = .error f := by
  unfold Tokenisation.ending
  cases h with
  | refused e hrefusal hoffset hp =>
    rw [hrefusal]
    simp
  | finished hrefusal hp =>
    rw [hrefusal]
    simp
  | cutOff hrefusal hp =>
    rw [hrefusal]
    simp

theorem consumedBy_take_resolved (tokens : List (Reading (Value Bytes))) (n : Nat) :
    consumedBy ((tokens.map Reading.resolved).take n) = consumedBy (tokens.take n) := by
  rw [← List.map_take, consumedBy_resolved]

theorem Reached.follows {w : Walk} (hr : Reached input limit 0 w) {d : Drained}
    (hd : Reader.Finds limit input [] d) : Follows input d w := by
  have hreadings : d.readings = (tokenise limit 0 input).tokens.map Reading.resolved := hd.readings_eq
  have hsum : consumedBy d.readings = consumedBy (tokenise limit 0 input).tokens := by
    rw [hreadings, consumedBy_resolved]
  have hlength : d.readings.length = (tokenise limit 0 input).tokens.length := by
    rw [hreadings, List.length_map]
  have hends (n : Nat) (hn : d.readings.length ≤ n) : Ends input (consumedBy d.readings)
      (tokenise limit 0 input).refusal (w.stepped n).step.outcome := by
    rw [hsum]
    exact (reached_stepped hr n).ends (by omega)
  refine ⟨?_, ?_, ?_, ?_, ?_, ?_⟩
  · intro n
    rw [hreadings, consumedBy_take_resolved]
    exact (reached_stepped hr n).position_eq
  · intro n reading hreading
    rw [hreadings, List.getElem?_map] at hreading
    obtain ⟨k, hk, hresolved⟩ := Option.map_eq_some_iff.1 hreading
    obtain ⟨b, m, hb, hm, hstep⟩ := (reached_stepped hr n).token hk
    rw [(reached_stepped hr n).position_eq] at hb hstep
    rw [hreadings, consumedBy_take_resolved, ← hresolved]
    exact ⟨b, m, k.value, hb, hm, rfl, hstep⟩
  · intro n hn
    exact finished_iff_of_ends (hends n hn)
  · intro n hn offset buffered
    rw [hd.ending_eq]
    exact cutOff_iff_of_ends (hends n hn) offset buffered
  · intro n hn f
    rw [hd.ending_eq]
    exact refused_iff_of_ends (hends n hn) f
  · intro f hf
    have hlast := hends d.readings.length (Nat.le_refl _)
    rw [hd.ending_eq] at hf
    have hstep := (refused_iff_of_ends hlast f).2 hf
    rw [hstep] at hlast
    cases hlast with
    | refused e hrefusal hoffset hp => exact ⟨e, rfl, hoffset⟩

/-- A walk gives the tokens of its input, whatever the size of its chunks and its messages and the storage it
starts with: the same values as a reader that is fed the whole input at once, each at its place in the input,
and at the end the same refusal. -/
theorem walk_follows {input : Bytes} {config : Config} {chunk : Nat} (chunk_pos : 0 < chunk)
    (valuesPerMessage : Option Nat)
    (hgranted : ((Reader.create config).state.feed input).outcome = .ok ())
    (hchunk : input.length + chunk ≤ wordMax) :
    Follows input (Reader.atOnce config input)
      (create input chunk chunk_pos valuesPerMessage config).state := by
  have hfits := Reader.fits_of_feed (Reader.streaming_create config).wellFormed hgranted
  exact (reached_create rfl (walking_create hchunk hfits)).follows (Reader.finds_atOnce hfits)

/-- A blob, a nil, and a blob that is cut off. -/
def cutOffBlob : Bytes := [0xc4, 1, 7, 0xc0, 0xc4, 2, 8]

theorem atOnce_cutOffBlob :
    (Reader.atOnce { initialCapacity := 2 } cutOffBlob).readings
        = [⟨.ok (.bin [7]), 3⟩, ⟨.ok .nil, 1⟩] ∧
      (Reader.atOnce { initialCapacity := 2 } cutOffBlob).ending = .ok .needMoreData := by
  unfold Reader.atOnce
  generalize hr : ((Reader.create { initialCapacity := 2 }).state.feed cutOffBlob).state = r
  have hblob : r.readValue = ⟨.ok (.decoded (.bin ⟨2, 1, 1⟩) 3), r.readValue.state, []⟩ := by
    rw [← hr]
    rfl
  have hnil : r.readValue.state.readValue
      = ⟨.ok (.decoded .nil 1), r.readValue.state.readValue.state, []⟩ := by
    rw [← hr]
    rfl
  have hrest : r.readValue.state.readValue.state.readValue
      = ⟨.ok .needMoreData, r.readValue.state.readValue.state, []⟩ := by
    rw [← hr]
    rfl
  rw [Reader.drain_of_decoded hblob, Reader.drain_of_decoded hnil, Reader.drain_of_needMoreData hrest,
    ← hr]
  exact ⟨rfl, rfl⟩

/-- A walk over it, two bytes at a time and with one value in a message. -/
def cutOffWalk : Walk :=
  (create cutOffBlob 2 (by decide) (some 1) { initialCapacity := 2 }).state

/-- The walk gives the two tokens, and says where the third one starts and how much of it there is. -/
theorem walk_follows_cutOffBlob :
    (cutOffWalk.stepped 0).step.outcome = .ok (.token ⟨0, .bin8, .bin [7]⟩) ∧
    (cutOffWalk.stepped 1).step.outcome = .ok (.token ⟨3, .nil, .nil⟩) ∧
    (cutOffWalk.stepped 2).step.outcome = .ok (.cutOff 4 3) ∧
    (cutOffWalk.stepped 3).position = 4 := by
  obtain ⟨hreadings, hending⟩ := atOnce_cutOffBlob
  have hgranted : ((Reader.create { initialCapacity := 2 }).state.feed cutOffBlob).outcome = .ok () := rfl
  have h := walk_follows (show 0 < 2 by decide) (some 1) hgranted (show 7 + 2 ≤ wordMax by decide)
  have hblob := h.token_eq 0 ⟨.ok (.bin [7]), 3⟩ (by rw [hreadings]; rfl)
  have hnil := h.token_eq 1 ⟨.ok .nil, 1⟩ (by rw [hreadings]; rfl)
  have hcut := (h.cutOff_iff 2 (by rw [hreadings]; decide) 4 3).2
  have hposition := h.position_eq 3
  rw [hreadings] at hblob hnil hcut hposition
  refine ⟨?_, ?_, hcut ⟨hending, rfl, rfl, by decide⟩, hposition⟩
  · obtain ⟨b, m, value, hb, hm, hvalue, hstep⟩ := hblob
    obtain rfl : 0xc4 = b := Option.some.inj hb
    obtain rfl : Marker.bin8 = m := Option.some.inj hm
    obtain rfl : Value.bin [7] = value := Except.ok.inj hvalue
    exact hstep
  · obtain ⟨b, m, value, hb, hm, hvalue, hstep⟩ := hnil
    obtain rfl : 0xc0 = b := Option.some.inj hb
    obtain rfl : Marker.nil = m := Option.some.inj hm
    obtain rfl : Value.nil = value := Except.ok.inj hvalue
    exact hstep

end Walk
end MessagePack
