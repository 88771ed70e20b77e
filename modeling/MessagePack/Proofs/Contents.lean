import MessagePack.Proofs.BlobLimit
import MessagePack.Proofs.Canonical
import MessagePack.Proofs.Standing
import MessagePack.Proofs.Walking
/-
  What a file is made of, in the words of the grammar: tokens one after the other, and then the end of the file,
  or a token that the end cuts off, or bytes that no reader takes. Neither a reader nor a walk is needed to say
  this, so two walks that are told apart by their chunks, their messages and their storage find the same.

  What is proved:
    1. `exists_contents`, `Contents.unique`: every string has contents, and no others.
    2. `Contents.finished_iff`, `Contents.split`, `Contents.append`: the tokens go on to the end of the string
       where it is a concatenation of them, and else up to the place where they end.
    3. `Walk.contents_of_runs`: a run finds the contents of its input, unless it lacks room or a word for a place.
    4. `Walk.counted_of_runs`: how many messages a run has begun, by the number of its tokens.
    5. `Walk.not_starved_of_room`: a run lacks neither where the whole input fits into the storage.
-/
namespace MessagePack

/-- How the tokens of a file end. -/
inductive Ending where
  | finished
  /-- The file ends inside the token at `offset`, of which `buffered` bytes are there. -/
  | cutOff (offset buffered : Nat)
  | refused (e : DecodeError)
  deriving DecidableEq, Repr

/-- The last answer of a walk, where the tokens end so. -/
def Ending.answer : Ending → Except Failure Step
  | finished => .ok .finished
  | cutOff offset buffered => .ok (.cutOff offset buffered)
  | refused e => .error (.fault e)

/-- The tokens of a string that starts at an offset, each with its place, and how they end. -/
inductive Contents : Nat → Bytes → List Token → Ending → Prop where
  | finished (p : Nat) : Contents p [] [] .finished
  | cutOff (p : Nat) (u : Bytes) (hsome : u ≠ []) (h : BeginsToken u) :
      Contents p u [] (.cutOff p u.length)
  | unsupported (p : Nat) (b : UInt8) (u : Bytes) (h : Unsupported b) :
      Contents p (b :: u) [] (.refused (.unknownTag b p))
  | overflow (p : Nat) (u : Bytes) (value : Nat) (h : StartsUint64 u value) (hvalue : int64Max < value) :
      Contents p u [] (.refused (.uint64Overflow value p))
  | token (p : Nat) (s rest : Bytes) (m : Marker) (v : Value Bytes) (h : Denotes s v)
      (hv : Acceptable none v) (hm : s.head?.bind Marker.ofByte? = some m) (tokens : List Token)
      (ending : Ending) (hrest : Contents (p + s.length) rest tokens ending) :
      Contents p (s ++ rest) (⟨p, m, v⟩ :: tokens) ending

/-- A string that is a concatenation of tokens, all of which a reader without a limit takes. -/
def Whole (s : Bytes) : Prop :=
  ∃ parts : List Bytes, s = parts.flatten ∧ ∀ t ∈ parts, ∃ v, Denotes t v ∧ Acceptable none v

variable {p : Nat} {u : Bytes} {tokens : List Token} {ending : Ending}

/-! ## By scans -/

theorem contents_of_error {e : DecodeError} (h : scanBytes none p u = .error e) :
    Contents p u [] (.refused e) := by
  have hstands := stands_iff.2 h
  generalize hanswer : Except.error e = answer at hstands
  cases hstands with
  | unsupported b hhead hb =>
    obtain ⟨rest, rfl⟩ := List.head?_eq_some_iff.1 hhead
    cases hanswer
    exact .unsupported p b rest hb
  | overflow value hstarts hvalue =>
    cases hanswer
    exact .overflow p u value hstarts hvalue
  | tooLarge length most _ hlimit => cases hlimit
  | nothing | cutOff | token => cases hanswer

theorem contents_of_incomplete (h : scanBytes none p u = .ok .incomplete) (hsome : u ≠ []) :
    Contents p u [] (.cutOff p u.length) := by
  have hstands := stands_iff.2 h
  generalize hanswer : Except.ok Scan.incomplete = answer at hstands
  cases hstands with
  | nothing hnil => exact absurd hnil hsome
  | cutOff hbegins => exact .cutOff p u hsome hbegins
  | unsupported | overflow | tooLarge | token => cases hanswer

theorem head?_take_of_pos {n : Nat} (h : 0 < n) (s : Bytes) : (s.take n).head? = s.head? := by
  rw [List.head?_take, if_neg (Nat.ne_of_gt h)]

theorem contents_of_complete {v : Value Extent} {n : Nat} (h : scanBytes none p u = .ok (.complete v n))
    {m : Marker} (hm : u.head?.bind Marker.ofByte? = some m)
    (hrest : Contents (p + n) (u.drop n) tokens ending) :
    Contents p u (⟨p, m, v.map (·.within u)⟩ :: tokens) ending := by
  obtain ⟨hpos, hn⟩ := scanBytes_bounds h
  obtain ⟨hdenotes, hv⟩ := denotes_of_scanBytes h
  have hlength : (u.take n).length = n := List.length_take_of_le hn
  have hmarker : (u.take n).head?.bind Marker.ofByte? = some m := by
    rw [head?_take_of_pos hpos, hm]
  have hcontents := Contents.token p (u.take n) (u.drop n) m _ hdenotes hv hmarker tokens ending
    (hlength.symm ▸ hrest)
  rwa [List.take_append_drop] at hcontents

/-- What the scan finds at the front of a string whose contents are known. -/
inductive Contents.Front (p : Nat) (u : Bytes) : List Token → Ending → Prop where
  | finished (h : u = []) : Front p u [] .finished
  | cutOff (hsome : u ≠ []) (h : scanBytes none p u = .ok .incomplete) : Front p u [] (.cutOff p u.length)
  | refused (e : DecodeError) (h : scanBytes none p u = .error e) : Front p u [] (.refused e)
  | token (v : Value Extent) (n : Nat) (m : Marker) (tokens : List Token) (ending : Ending)
      (h : scanBytes none p u = .ok (.complete v n)) (hm : u.head?.bind Marker.ofByte? = some m)
      (hrest : Contents (p + n) (u.drop n) tokens ending) :
      Front p u (⟨p, m, v.map (·.within u)⟩ :: tokens) ending

theorem Contents.front (h : Contents p u tokens ending) : Front p u tokens ending := by
  cases h with
  | finished => exact .finished rfl
  | cutOff _ _ hsome hbegins =>
    refine .cutOff hsome (scanBytes_of_stands (.cutOff hbegins ?_))
    intro length _ most hmost
    cases hmost
  | unsupported _ b u hb => exact .refused _ (scanBytes_of_stands (.unsupported b rfl hb))
  | overflow _ _ value hstarts hvalue =>
    exact .refused _ (scanBytes_of_stands (.overflow value hstarts hvalue))
  | token _ s rest m v hdenotes hv hm tokens _ hrest =>
    have hscan := scanBytes_of_token hdenotes hv p rest
    have hhead : (s ++ rest).head?.bind Marker.ofByte? = some m := by
      obtain ⟨b, hb, _⟩ := Option.bind_eq_some_iff.1 hm
      rw [List.head?_append, hb]
      rwa [hb] at hm
    have hdrop : (s ++ rest).drop s.length = rest := List.drop_left
    have hfront := Front.token _ _ m tokens ending hscan hhead (hdrop.symm ▸ hrest)
    rwa [hdenotes.within_payload rest] at hfront

theorem exists_marker_of_complete {limit : Option Nat} {offset : Nat} {v : Value Extent} {n : Nat}
    (h : scanBytes limit offset u = .ok (.complete v n)) :
    ∃ m, u.head?.bind Marker.ofByte? = some m := by
  cases u with
  | nil => cases h
  | cons b u =>
    cases hm : Marker.ofByte? b with
    | none =>
      simp only [scanBytes, hm] at h
      cases h
    | some m => exact ⟨m, hm⟩

/-- A string has contents. -/
theorem exists_contents (p : Nat) (u : Bytes) : ∃ tokens ending, Contents p u tokens ending := by
  induction hlength : u.length using Nat.strongRecOn generalizing p u with
  | ind length ih =>
    by_cases hsome : u = []
    · subst hsome
      exact ⟨_, _, .finished p⟩
    · cases hscan : scanBytes none p u with
      | error e => exact ⟨_, _, contents_of_error hscan⟩
      | ok found =>
        cases found with
        | incomplete => exact ⟨_, _, contents_of_incomplete hscan hsome⟩
        | complete v n =>
          obtain ⟨m, hm⟩ := exists_marker_of_complete hscan
          have hless : (u.drop n).length < length := by
            rw [List.length_drop, ← hlength]
            exact length_sub_lt_of_scan hscan
          obtain ⟨tokens, ending, hrest⟩ := ih _ hless (p + n) (u.drop n) rfl
          exact ⟨_, _, contents_of_complete hscan hm hrest⟩

/-- A string has one contents only. -/
theorem Contents.unique (h : Contents p u tokens ending) {tokens' : List Token} {ending' : Ending}
    (h' : Contents p u tokens' ending') : tokens = tokens' ∧ ending = ending' := by
  induction hlength : u.length using Nat.strongRecOn generalizing p u tokens ending tokens' ending' with
  | ind length ih =>
    -- Both begin with what the one scan finds at the front; it is the rest that the induction is for.
    have hfront' := h'.front
    cases h.front with
    | finished hnil =>
      subst hnil
      cases hfront' with
      | finished => exact ⟨rfl, rfl⟩
      | cutOff hsome => exact absurd rfl hsome
      | refused _ hscan' | token _ _ _ _ _ hscan' => cases hscan'
    | cutOff hsome hscan =>
      cases hfront' with
      | finished hnil => exact absurd hnil hsome
      | cutOff => exact ⟨rfl, rfl⟩
      | refused _ hscan' | token _ _ _ _ _ hscan' => cases hscan.symm.trans hscan'
    | refused e hscan =>
      cases hfront' with
      | finished hnil =>
        subst hnil
        cases hscan
      | refused e' hscan' =>
        cases hscan.symm.trans hscan'
        exact ⟨rfl, rfl⟩
      | cutOff _ hscan' | token _ _ _ _ _ hscan' => cases hscan.symm.trans hscan'
    | token v n m tokens ending hscan hm hrest =>
      cases hfront' with
      | finished hnil =>
        subst hnil
        cases hscan
      | cutOff _ hscan' | refused _ hscan' => cases hscan.symm.trans hscan'
      | token v' n' m' tokens' ending' hscan' hm' hrest' =>
        cases hscan.symm.trans hscan'
        cases hm.symm.trans hm'
        have hless : (u.drop n).length < length := by
          rw [List.length_drop, ← hlength]
          exact length_sub_lt_of_scan hscan
        obtain ⟨rfl, rfl⟩ := ih _ hless hrest hrest' rfl
        exact ⟨rfl, rfl⟩

/-! ## Concatenations of tokens -/

theorem whole_nil : Whole [] := ⟨[], rfl, by simp⟩

theorem Whole.cons {s rest : Bytes} {v : Value Bytes} (h : Denotes s v) (hv : Acceptable none v)
    (hrest : Whole rest) : Whole (s ++ rest) := by
  obtain ⟨parts, rfl, hall⟩ := hrest
  exact ⟨s :: parts, rfl, List.forall_mem_cons.2 ⟨⟨v, h, hv⟩, hall⟩⟩

theorem Contents.whole (h : Contents p u tokens .finished) : Whole u := by
  generalize hending : Ending.finished = ending at h
  induction h with
  | finished => exact whole_nil
  | cutOff | unsupported | overflow => cases hending
  | token p s rest m v hdenotes hv hm tokens ending hrest ih => exact .cons hdenotes hv (ih hending)

theorem Whole.contents (h : Whole u) (p : Nat) : ∃ tokens, Contents p u tokens .finished := by
  obtain ⟨parts, rfl, hall⟩ := h
  induction parts generalizing p with
  | nil => exact ⟨[], .finished p⟩
  | cons s parts ih =>
    obtain ⟨⟨v, hdenotes, hv⟩, hrest⟩ := List.forall_mem_cons.1 hall
    obtain ⟨tokens, hcontents⟩ := ih (p + s.length) hrest
    obtain ⟨b, m, hb, hm, _⟩ := hdenotes.length_eq
    have hmarker : s.head?.bind Marker.ofByte? = some m := by rw [hb]; exact hm
    exact ⟨_, .token p s _ m v hdenotes hv hmarker tokens _ hcontents⟩

/-- The tokens go on to the end of the string just where it is a concatenation of tokens. -/
theorem Contents.finished_iff (h : Contents p u tokens ending) : ending = .finished ↔ Whole u := by
  refine ⟨?_, ?_⟩
  · rintro rfl
    exact h.whole
  · intro hwhole
    obtain ⟨tokens', h'⟩ := hwhole.contents p
    exact (h.unique h').2

/-- The tokens lie in front of what ends them. -/
theorem Contents.split (h : Contents p u tokens ending) :
    ∃ before rest, u = before ++ rest ∧ Contents p before tokens .finished ∧
      Contents (p + before.length) rest [] ending := by
  induction h with
  | finished p => exact ⟨[], [], rfl, .finished p, .finished _⟩
  | cutOff p u hsome h => exact ⟨[], u, rfl, .finished p, .cutOff p u hsome h⟩
  | unsupported p b u h => exact ⟨[], b :: u, rfl, .finished p, .unsupported p b u h⟩
  | overflow p u value h hvalue => exact ⟨[], u, rfl, .finished p, .overflow p u value h hvalue⟩
  | token p s rest m v h hv hm tokens ending hrest ih =>
    obtain ⟨before, rest', hsplit, hbefore, hlast⟩ := ih
    rw [Nat.add_assoc, ← List.length_append] at hlast
    refine ⟨s ++ before, rest', ?_, .token p s before m v h hv hm tokens _ hbefore, hlast⟩
    rw [hsplit, List.append_assoc]

theorem Contents.append (h : Contents p u tokens .finished) {rest : Bytes} {tokens' : List Token}
    {ending' : Ending} (h' : Contents (p + u.length) rest tokens' ending') :
    Contents p (u ++ rest) (tokens ++ tokens') ending' := by
  generalize hending : Ending.finished = ending at h
  induction h with
  | finished p => exact h'
  | cutOff | unsupported | overflow => cases hending
  | token p s u m v hdenotes hv hm tokens ending hrest ih =>
    rw [List.length_append, ← Nat.add_assoc] at h'
    have hbehind := ih h' hending
    rw [List.append_assoc]
    exact .token p s _ m v hdenotes hv hm _ _ hbehind

/-- A token that the end cuts off has begun, and goes on to the end. -/
theorem Contents.cutOff_bounds {offset buffered : Nat} (h : Contents p u tokens (.cutOff offset buffered)) :
    offset + buffered = p + u.length ∧ 0 < buffered := by
  generalize hending : Ending.cutOff offset buffered = ending at h
  induction h with
  | finished | unsupported | overflow => cases hending
  | cutOff p u hsome h =>
    cases hending
    exact ⟨rfl, List.length_pos_iff.2 hsome⟩
  | token p s rest m v h hv hm tokens ending hrest ih =>
    obtain ⟨hend, hpos⟩ := ih hending
    refine ⟨?_, hpos⟩
    rw [hend, List.length_append, Nat.add_assoc]

/-- The marker of each token is of the family of its value. -/
theorem Contents.family_eq (h : Contents p u tokens ending) :
    ∀ t ∈ tokens, t.marker.family = t.value.family := by
  induction h with
  | finished | cutOff | unsupported | overflow => simp
  | token p s rest m v h hv hm tokens ending hrest ih =>
    exact List.forall_mem_cons.2 ⟨h.family_eq hm, ih⟩

/-! ## What a walk finds -/

namespace Walk

variable {input : Bytes}

/-- What a step makes of what stands at position `p`, counted as `offset`; the walk behind a token. -/
inductive Sees (input : Bytes) (p offset : Nat) : Except Failure Step → Walk → Prop where
  | starved (f : Failure) (h : Starved f) (w : Walk) : Sees input p offset (.error f) w
  | refused (e : DecodeError) (h : scanBytes none offset (input.drop p) = .error e) (w : Walk) :
      Sees input p offset (.error (.fault e)) w
  | finished (h : input.drop p = []) (w : Walk) : Sees input p offset (.ok .finished) w
  | cutOff (hsome : input.drop p ≠ []) (h : scanBytes none offset (input.drop p) = .ok .incomplete)
      (w : Walk) : Sees input p offset (.ok (.cutOff p (input.drop p).length)) w
  | took (v : Value Extent) (n : Nat) (m : Marker)
      (h : scanBytes none offset (input.drop p) = .ok (.complete v n))
      (hm : (input.drop p).head?.bind Marker.ofByte? = some m) (w : Walk) (hw : Aligned input w)
      (hposition : w.position = p + n) :
      Sees input p offset (.ok (.token ⟨p, m, v.map (·.within (input.drop p))⟩)) w

/-- A decision of the reader holds for the input, of which it holds only a part. -/
theorem Aligned.scan_eq {w : Walk} (hw : Aligned input w) (hfront : w.reader.front ≠ .ok .incomplete) :
    scanBytes none w.reader.cursor (input.drop w.position) = w.reader.front := by
  rw [← hw.ahead_eq, ← hw.limit_eq]
  exact scan_ahead hfront

theorem Answers.sees {w : Walk} {reply : Reply Walk Step} (h : Answers w reply) (hw : Aligned input w) :
    Sees input w.position w.reader.cursor reply.outcome reply.state := by
  cases h with
  | refused e hfront =>
    have hscan := hw.scan_eq (by simp [hfront])
    exact .refused e (hscan.trans hfront) w
  | overflowed => exact .starved _ .offsetOverflow w
  | denied _ _ _ size => exact .starved _ (.allocationFailed size) w
  | finished hrest hu =>
    have hahead := hw.unread_eq hrest
    exact .finished (hahead.symm.trans hu) w
  | cutOff hrest hu hfront =>
    -- Nothing is left to feed, so what is unread is all that the input has.
    have hahead := hw.unread_eq hrest
    have hscan : scanBytes none w.reader.cursor (input.drop w.position) = .ok .incomplete := by
      rw [← hahead, ← hw.limit_eq]
      exact hfront
    rw [← Arena.length_unread hw.wellFormed, hahead]
    exact .cutOff (hahead ▸ hu) hscan w
  | took v n m hmarker hfront calls w' es hcounts =>
    have hscan := hw.scan_eq (by simp [hfront])
    have hbehind : w'.position = w.position + n := hcounts.position_eq.trans (position_taking w n)
    have hhead : (input.drop w.position).head?.bind Marker.ofByte? = some m := by
      rw [← hw.ahead_eq]
      exact marker_ahead hmarker
    rw [← map_within_append hfront w.rest, hw.append_eq]
    exact .took v n m (hscan.trans hfront) hhead w' ((hw.taking hfront).counted hcounts) hbehind

theorem sees_advance {w : Walk} (hw : Aligned input w) (events : List Event) :
    Sees input w.position w.reader.cursor (w.advance events).outcome (w.advance events).state := by
  -- A chunk that is handed over changes neither base nor cursor.
  obtain ⟨pieces, es, last, reply, hgoes, hadvance⟩ := goes hw.ready events
  have hbeholds := hgoes.hands.beholds
  have hsees := hgoes.answers.sees (hgoes.hands.aligned hw)
  rw [hbeholds.position_eq, hbeholds.cursor_eq] at hsees
  rw [hadvance]
  exact hsees

/-- In a step the offset of a refusal is counted in the input. -/
theorem sees_step {w : Walk} (hw : Aligned input w) :
    Sees input w.position w.position w.step.outcome w.step.state := by
  have hsees := sees_advance hw []
  have hshift := scanBytes_shift none w.base w.reader.cursor (input.drop w.position)
  unfold step
  simp only
  generalize w.advance [] = reply at hsees ⊢
  obtain ⟨outcome, w', es⟩ := reply
  simp only at hsees ⊢
  cases hsees with
  | starved f hstarved =>
    cases hstarved with
    | offsetOverflow => exact .starved _ .offsetOverflow w'
    | allocationFailed size => exact .starved _ (.allocationFailed size) w'
  | refused e h =>
    rw [h] at hshift
    exact .refused _ hshift w'
  | finished h => exact .finished h w'
  | cutOff hsome h =>
    rw [h] at hshift
    exact .cutOff hsome hshift w'
  | took v n m h hm _ hw' hposition =>
    rw [h] at hshift
    exact .took v n m hshift hm w' hw' hposition

/-- A run finds the contents of its input, unless it lacks room or a word for a place. -/
theorem contents_of_runs {w : Walk} {run : Run} (hruns : Runs w run) (hw : Aligned input w)
    (hfed : ∀ f, run.ending = .error f → ¬ Starved f) :
    ∃ ending, Contents w.position (input.drop w.position) run.tokens ending ∧
      run.ending = ending.answer := by
  induction hruns with
  | @ends w w' answer es hstep hlast =>
    have hsees := sees_step hw
    rw [hstep] at hsees
    cases hsees with
    | starved f hstarved => exact absurd hstarved (hfed f rfl)
    | refused e h => exact ⟨.refused e, contents_of_error h, rfl⟩
    | finished h =>
      rw [h]
      exact ⟨.finished, .finished _, rfl⟩
    | cutOff hsome h => exact ⟨.cutOff _ _, contents_of_incomplete h hsome, rfl⟩
    | took => exact absurd rfl (hlast _)
  | @goes w w' t es run hstep hrest ih =>
    have hsees := sees_step hw
    rw [hstep] at hsees
    cases hsees with
    | took v n m h hm _ hw' hposition =>
      obtain ⟨ending, hcontents, hanswer⟩ := ih hw' hfed
      rw [hposition, ← List.drop_drop] at hcontents
      exact ⟨ending, contents_of_complete h hm hcontents, hanswer⟩

/-- Where the whole input fits, and the end of the last chunk is a word, a run lacks nothing. -/
theorem not_starved_of_runs {limit : Option Nat} {w : Walk} {run : Run} (hruns : Runs w run)
    (hw : Walking input limit w) {f : Failure} (hf : run.ending = .error f) : ¬ Starved f := by
  induction hruns with
  | @ends w w' answer es hstep hlast =>
    have hsettles := settles_step hw
    rw [hstep] at hsettles
    subst hf
    cases hsettles with
    | refused e _ _ _ h =>
      have hoffset := scanBytes_error h
      intro hstarved
      cases hstarved with
      | allocationFailed size => cases hoffset
  | @goes w w' t es run hstep hrest ih =>
    have hsettles := settles_step hw
    rw [hstep] at hsettles
    cases hsettles with
    | took v n m _ hw' => exact ih hw' hf

/-! ## How many messages there are -/

/-- How many messages some tokens make. Where a message has no fixed length, all of them make one. -/
def messageCount : Option Nat → Nat → Nat
  | some (n + 1), tokens => (tokens + n) / (n + 1)
  | _, tokens => min 1 tokens

/-- A walk that has counted some values: the messages that are closed, and the one that has begun. -/
structure Counted (valuesPerMessage : Option Nat) (values : Nat) (w : Walk) : Prop where
  valuesPerMessage_eq : w.valuesPerMessage = valuesPerMessage
  full : ∀ n, valuesPerMessage = some (n + 1) →
    w.closed * (n + 1) + w.inMessage = values ∧ w.inMessage ≤ n
  endless : (∀ n, valuesPerMessage ≠ some (n + 1)) → w.closed = 0 ∧ w.inMessage = values

variable {valuesPerMessage : Option Nat} {values : Nat}

theorem div_eq_of_begun {closed begun n : Nat} (h : begun ≤ n) :
    (closed * (n + 1) + begun + n) / (n + 1) = closed + if 0 < begun then 1 else 0 := by
  rw [Nat.add_assoc, Nat.mul_comm, Nat.mul_add_div (Nat.succ_pos n)]
  congr 1
  split
  · apply Nat.div_eq_of_lt_le <;> omega
  · apply Nat.div_eq_of_lt
    omega

theorem Counted.messages_eq {w : Walk} (hw : Counted valuesPerMessage values w) :
    w.messages = messageCount valuesPerMessage values := by
  have hone : (0 + if 0 < values then 1 else 0) = min 1 values := by split <;> omega
  unfold messages
  match valuesPerMessage, hw with
  | none, hw =>
    obtain ⟨hclosed, hbegun⟩ := hw.endless (by simp)
    rw [hclosed, hbegun]
    exact hone
  | some 0, hw =>
    obtain ⟨hclosed, hbegun⟩ := hw.endless (by simp)
    rw [hclosed, hbegun]
    exact hone
  | some (n + 1), hw =>
    obtain ⟨hsum, hle⟩ := hw.full n rfl
    rw [messageCount, ← hsum, div_eq_of_begun hle]

theorem counted_create {input : Bytes} {chunk : Nat} {chunk_pos : 0 < chunk} {config : Config} :
    Counted valuesPerMessage 0 (create input chunk chunk_pos valuesPerMessage config).state := by
  refine ⟨rfl, ?_, fun _ => ⟨rfl, rfl⟩⟩
  intro n _
  exact ⟨Nat.zero_mul _, Nat.zero_le n⟩

/-- A value that is counted closes its message, or is one more of it. -/
theorem Counted.count {w w' : Walk} (hw : Counted valuesPerMessage values w) {calls : List Reader.Call}
    {es : List Event} (hcounts : Counts w calls ⟨.ok (), w', es⟩) :
    Counted valuesPerMessage (values + 1) w' := by
  have hsame := hw.valuesPerMessage_eq
  cases hcounts with
  | kept hmore =>
    rw [hsame] at hmore
    refine ⟨hsame, ?_, ?_⟩
    · intro n hn
      obtain ⟨hsum, hle⟩ := hw.full n hn
      have hne : w.inMessage ≠ n := by
        rintro rfl
        exact hmore hn
      refine ⟨?_, Nat.lt_of_le_of_ne hle hne⟩
      show w.closed * (n + 1) + (w.inMessage + 1) = values + 1
      omega
    · intro hnone
      obtain ⟨hclosed, hbegun⟩ := hw.endless hnone
      exact ⟨hclosed, congrArg Nat.succ hbegun⟩
  | closed hfull =>
    rw [hsame] at hfull
    refine ⟨hsame, ?_, fun hnone => absurd hfull (hnone _)⟩
    intro n hn
    obtain ⟨hsum, _⟩ := hw.full n hn
    obtain rfl : w.inMessage = n := Nat.succ.inj (Option.some.inj (hfull.symm.trans hn))
    refine ⟨?_, Nat.zero_le _⟩
    show (w.closed + 1) * (w.inMessage + 1) + 0 = values + 1
    rw [Nat.succ_mul]
    omega

theorem Counted.of_same {w w' : Walk} (hw : Counted valuesPerMessage values w)
    (hper : w'.valuesPerMessage = w.valuesPerMessage) (hclosed : w'.closed = w.closed)
    (hbegun : w'.inMessage = w.inMessage) : Counted valuesPerMessage values w' := by
  refine ⟨hper.trans hw.valuesPerMessage_eq, ?_, ?_⟩
  · rw [hclosed, hbegun]
    exact hw.full
  · rw [hclosed, hbegun]
    exact hw.endless

/-- How many tokens an answer is. -/
def tokensOf : Except Failure Step → Nat
  | .ok (.token _) => 1
  | _ => 0

theorem tokensOf_mapError (answer : Except Failure Step) (g : Failure → Failure) :
    tokensOf (answer.mapError g) = tokensOf answer := by
  cases answer <;> rfl

theorem Counted.of_hands {w last : Walk} (hw : Counted valuesPerMessage values w) {pieces : List Bytes}
    {es : List Event} (hhands : Hands w pieces es last) : Counted valuesPerMessage values last :=
  hw.of_same hhands.beholds.valuesPerMessage_eq hhands.beholds.closed_eq hhands.beholds.inMessage_eq

theorem Counted.answered {w : Walk} (hw : Counted valuesPerMessage values w) {reply : Reply Walk Step}
    (hanswers : Answers w reply) :
    Counted valuesPerMessage (values + tokensOf reply.outcome) reply.state := by
  cases hanswers with
  | refused | overflowed | denied | finished | cutOff => exact hw
  | took v n m hmarker hfront calls w' es hcounts =>
    have htaken : Counted valuesPerMessage values (w.taking n) := hw.of_same rfl rfl rfl
    exact htaken.count hcounts

theorem counted_step {w : Walk} (hw : Ready w) (hcounted : Counted valuesPerMessage values w) :
    Counted valuesPerMessage (values + tokensOf w.step.outcome) w.step.state := by
  obtain ⟨pieces, es, last, reply, hgoes, hstep⟩ := step_cases hw
  rw [hstep]
  simp only [tokensOf_mapError]
  exact (hcounted.of_hands hgoes.hands).answered hgoes.answers

theorem counted_of_runs {w : Walk} {run : Run} (hruns : Runs w run) (hw : Ready w)
    (hcounted : Counted valuesPerMessage values w) :
    Counted valuesPerMessage (values + run.tokens.length) run.walk := by
  induction hruns generalizing values with
  | @ends w w' answer es hstep hlast =>
    have hstepped := counted_step hw hcounted
    rw [hstep] at hstepped
    cases answer with
    | error f => exact hstepped
    | ok s =>
      cases s with
      | token t => exact absurd rfl (hlast t)
      | cutOff | finished => exact hstepped
  | @goes w w' t es run hstep hrest ih =>
    have hready := hw.step
    have hstepped := counted_step hw hcounted
    rw [hstep] at hready hstepped
    have hrun := ih hready hstepped
    have hlength : values + 1 + run.tokens.length = values + (run.tokens.length + 1) := by omega
    simp only [tokensOf, hlength] at hrun
    exact hrun

/-! ## Runs from the start -/

section
variable {chunk : Nat} {chunk_pos : 0 < chunk} {capacity : Nat} {allocator : Allocator}

theorem position_create {config : Config} :
    (create input chunk chunk_pos valuesPerMessage config).state.position = 0 := by
  show 0 + (Reader.create config).state.arena.readCursor = 0
  rw [(Reader.fresh_create config).readCursor_eq]

/-- A run over an input finds its contents, whatever its chunks, its messages and its storage. -/
theorem runOver_of_contents {tokens : List Token} {ending : Ending} (h : Contents 0 input tokens ending)
    (hfed : ∀ f, (runOver input chunk chunk_pos valuesPerMessage capacity none allocator).ending = .error f →
      ¬ Starved f) :
    (runOver input chunk chunk_pos valuesPerMessage capacity none allocator).tokens = tokens ∧
    (runOver input chunk chunk_pos valuesPerMessage capacity none allocator).ending = ending.answer := by
  obtain ⟨found, hcontents, hanswer⟩ :=
    contents_of_runs (runs _) (show Aligned input _ from aligned_create rfl) hfed
  rw [position_create, List.drop_zero] at hcontents
  obtain ⟨htokens, rfl⟩ := hcontents.unique h
  exact ⟨htokens, hanswer⟩

theorem messages_runOver (input : Bytes) (chunk : Nat) (chunk_pos : 0 < chunk)
    (valuesPerMessage : Option Nat) (capacity : Nat) (allocator : Allocator) :
    (runOver input chunk chunk_pos valuesPerMessage capacity none allocator).walk.messages
      = messageCount valuesPerMessage
        (runOver input chunk chunk_pos valuesPerMessage capacity none allocator).tokens.length := by
  have hcounted := counted_of_runs
    (runs (create input chunk chunk_pos valuesPerMessage { initialCapacity := capacity, allocator }).state)
    ready_create counted_create
  rw [Nat.zero_add] at hcounted
  exact hcounted.messages_eq

/-- Where the whole input fits into a storage that can be had, a run lacks nothing. -/
theorem not_starved_of_room (hchunk : input.length + chunk ≤ wordMax)
    (hroom : allocator.provides (leastPowerOfTwo input.length)) {f : Failure}
    (hf : (runOver input chunk chunk_pos valuesPerMessage capacity none allocator).ending = .error f) :
    ¬ Starved f := by
  have hfits : (Reader.create { initialCapacity := capacity, allocator }).state.arena.Fits input.length := by
    refine .inr ?_
    rw [(Reader.fresh_create _).usedEnd_eq, Nat.zero_add, Reader.allocator_create]
    exact hroom
  exact not_starved_of_runs (runs _) (walking_create hchunk hfits) hf

end

end Walk
end MessagePack
