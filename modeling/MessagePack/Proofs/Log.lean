import Mathlib.Algebra.Ring.Nat
import MessagePack.Proofs.CallLog
import MessagePack.Proofs.Contents
/-
  The log of a walk. The reader counts its offsets from the start of the storage, and what a walk closes is
  dropped from there; so an offset in the log means little by itself. The messages that were closed before say
  how much was dropped, and with that every offset in the log is one in the input.

  What is proved:
    1. `Hands.silent`: handing over chunks closes no message and refuses no token.
    2. `accounted_stepped`: after any number of steps the log says how many messages were closed and where each
       of them ended.
    3. `tells_step`: a step reports a refusal just where it ends with one, at an offset that the log explains.
    4. `log_exact`: this for every walk, and for every reader what `accounts` and `lastCapacity_log` say.
-/
namespace MessagePack

/-- A message that a log says was closed. -/
structure Closing where
  messages : Nat
  consumed : Nat
  base : Nat
  deriving DecidableEq, Repr

/-- The message that an event closes. -/
def Event.closing? : Event → Option Closing
  | .messageClosed messages consumed base => some ⟨messages, consumed, base⟩
  | _ => none

/-- The refusal of a token that an event reports, with the place of the token. -/
def Event.refusal? : Event → Option (Nat × DecodeError)
  | .rejected offset e => some (offset, e)
  | _ => none

def closings (log : List Event) : List Closing := log.filterMap Event.closing?

def refusals (log : List Event) : List (Nat × DecodeError) := log.filterMap Event.refusal?

/-- How much was dropped by the messages that a log closes. -/
def consumed (log : List Event) : Nat := ((closings log).map Closing.consumed).sum

/-- The offset behind the last byte of a token. -/
def Token.stop (t : Token) : Nat := t.offset + (t.marker.headerLength + t.value.payloadLength)

theorem closings_append (log later : List Event) : closings (log ++ later) = closings log ++ closings later :=
  List.filterMap_append

theorem refusals_append (log later : List Event) : refusals (log ++ later) = refusals log ++ refusals later :=
  List.filterMap_append

theorem closings_resized (old new : Nat) : closings (resized old new) = [] := by
  unfold resized
  split <;> rfl

theorem refusals_resized (old new : Nat) : refusals (resized old new) = [] := by
  unfold resized
  split <;> rfl

/-- A token that is found is as long as its marker announces, and its payload. -/
theorem length_of_scanBytes {limit : Option Nat} {offset : Nat} {u : Bytes} {v : Value Extent} {n : Nat}
    (h : scanBytes limit offset u = .ok (.complete v n)) {m : Marker}
    (hm : u.head?.bind Marker.ofByte? = some m) :
    n = m.headerLength + (v.map (·.within u)).payloadLength := by
  obtain ⟨hpos, hn⟩ := scanBytes_bounds h
  obtain ⟨b, m', hb, hm', hlength⟩ := (denotes_of_scanBytes h).1.length_eq
  rw [head?_take_of_pos hpos] at hb
  rw [hb] at hm
  obtain rfl : m' = m := Option.some.inj (hm'.symm.trans hm)
  rwa [List.length_take_of_le hn] at hlength

namespace Walk

variable {input : Bytes} {limit : Option Nat} {valuesPerMessage : Option Nat}

/-! ## What a step reports -/

theorem Hands.silent {w last : Walk} {pieces : List Bytes} {es : List Event} (h : Hands w pieces es last)
    (hw : Ready w) : closings es = [] ∧ refusals es = [] := by
  induction h with
  | nothing w => exact ⟨rfl, rfl⟩
  | piece bytes a hpasses hrest ih =>
    have hevents := Reader.events_feed hw.wellFormed bytes
    rw [hpasses.feed_eq] at hevents
    simp only at hevents
    obtain ⟨hclosings, hrefusals⟩ := ih (hw.handOver hpasses.extends_feed)
    rw [closings_append, refusals_append, hevents, closings_resized, refusals_resized, hclosings, hrefusals]
    exact ⟨rfl, rfl⟩

/-- What a step reports of a token that is refused. -/
structure Tells (base : Nat) (reply : Reply Walk Step) : Prop where
  /-- The offset in the log is counted from what was dropped, that of the failure in the input. -/
  refused : ∀ e p, reply.outcome = .error (.fault e) → e.offset? = some p → ∃ offset cause,
    refusals reply.events = [(offset, cause)] ∧ e = cause.shift base ∧ base + offset = p
  silent : (∀ e, reply.outcome = .error (.fault e) → e.offset? = none) → refusals reply.events = []

theorem Counts.refusals_eq {w w' : Walk} {calls : List Reader.Call} {es : List Event}
    (h : Counts w calls ⟨.ok (), w', es⟩) : refusals es = [] := by
  cases h with
  | kept | closed => rfl

theorem tells_step {w : Walk} (hw : Ready w) : Tells w.base w.step := by
  obtain ⟨pieces, es, last, reply, hgoes, hstep⟩ := step_cases hw
  have hsilent := (hgoes.hands.silent hw).2
  have hanswers := hgoes.answers
  have hcursor := hgoes.hands.beholds.cursor_eq
  rw [hstep]
  clear hstep hgoes
  have hall : refusals (es ++ reply.events) = refusals reply.events := by
    rw [refusals_append, hsilent, List.nil_append]
  refine ⟨?_, ?_⟩
  · intro e p he hp
    simp only at he
    rw [hall]
    -- The report counts from the cursor, the failure from the base: so much lies between the two offsets.
    cases hanswers with
    | refused cause hfront =>
      obtain rfl : cause.shift w.base = e := by
        injection he with he
        injection he
      rw [DecodeError.offset?_shift, scanBytes_error hfront] at hp
      exact ⟨last.reader.cursor, cause, rfl, rfl, Option.some.inj hp⟩
    | overflowed => cases he
    | denied _ _ _ size =>
      injection he with he
      injection he with he
      rw [← he] at hp
      cases hp
    | finished | cutOff | took => cases he
  · intro hnone
    rw [hall]
    cases hanswers with
    | refused cause hfront =>
      have hoffset := hnone _ rfl
      rw [DecodeError.offset?_shift, scanBytes_error hfront] at hoffset
      cases hoffset
    | overflowed | denied | finished | cutOff => rfl
    | took v n m hmarker hfront calls w' es' hcounts => exact hcounts.refusals_eq

/-! ## The messages of a log -/

/-- The token that an answer gives. -/
def given : Except Failure Step → List Token
  | .ok (.token t) => [t]
  | _ => []

/-- The tokens that the first `n` steps give. -/
def taken (w : Walk) : Nat → List Token
  | 0 => []
  | n + 1 => w.taken n ++ given (w.stepped n).step.outcome

/-- What the first `n` steps report. -/
def logged (w : Walk) : Nat → List Event
  | 0 => []
  | n + 1 => w.logged n ++ (w.stepped n).step.events

/-- The message with number `i` of a log, behind so many tokens as make so many messages. -/
structure Closes (valuesPerMessage : Option Nat) (log : List Event) (tokens : List Token) (i : Nat)
    (c : Closing) : Prop where
  messages_eq : c.messages = i + 1
  base_eq : c.base = (((closings log).take (i + 1)).map Closing.consumed).sum
  last_eq : ∃ n t, valuesPerMessage = some n ∧ tokens[(i + 1) * n - 1]? = some t ∧ t.stop = c.base

/-- A log that accounts for the messages of a walk, and for what was dropped with them. -/
structure Accounted (valuesPerMessage : Option Nat) (log : List Event) (tokens : List Token) (w : Walk) :
    Prop where
  length_eq : (closings log).length = w.closed
  base_eq : w.base = consumed log
  closes : ∀ i c, (closings log)[i]? = some c → Closes valuesPerMessage log tokens i c

variable {log : List Event} {tokens : List Token}

theorem Closes.append {i : Nat} {c : Closing} (h : Closes valuesPerMessage log tokens i c)
    (hi : i < (closings log).length) (es : List Event) (more : List Token) :
    Closes valuesPerMessage (log ++ es) (tokens ++ more) i c := by
  obtain ⟨n, t, hn, ht, hstop⟩ := h.last_eq
  refine ⟨h.messages_eq, ?_, n, t, hn, ?_, hstop⟩
  · rw [closings_append, List.take_append_of_le_length hi]
    exact h.base_eq
  · exact List.getElem?_append_left (List.getElem?_eq_some_iff.1 ht).1 ▸ ht

/-- What closes no message and drops nothing leaves the account as it is. -/
theorem Accounted.silent {w w' : Walk} (hw : Accounted valuesPerMessage log tokens w) {es : List Event}
    (hsilent : closings es = []) (hclosed : w'.closed = w.closed) (hbase : w'.base = w.base)
    (more : List Token) : Accounted valuesPerMessage (log ++ es) (tokens ++ more) w' := by
  have hsame : closings (log ++ es) = closings log := by rw [closings_append, hsilent, List.append_nil]
  refine ⟨?_, ?_, ?_⟩
  · rw [hsame, hclosed, hw.length_eq]
  · rw [hbase, hw.base_eq, consumed, consumed, hsame]
  · intro i c hc
    rw [hsame] at hc
    exact (hw.closes i c hc).append (List.getElem?_eq_some_iff.1 hc).1 es more

theorem closings_closing (log : List Event) (w : Walk) :
    closings (log ++ w.closingEvents) = closings log ++ [⟨w.closed + 1, w.reader.cursor, w.position⟩] :=
  closings_append _ _

/-- With a message all is dropped that is behind the position. -/
theorem consumed_closing {w : Walk} (hbase : w.base = consumed log) :
    consumed (log ++ w.closingEvents) = w.position := by
  rw [consumed, closings_closing, List.map_append, List.sum_append, position, hbase]
  rfl

/-- A message that is closed ends where the token ends that was taken last. -/
theorem Accounted.closes_last {w : Walk} (hw : Accounted valuesPerMessage log tokens w)
    (hcounted : Counted valuesPerMessage tokens.length w)
    (hfull : w.valuesPerMessage = some (w.inMessage + 1)) {n : Nat} {t : Token}
    (hstop : t.stop = w.position + n) :
    Closes valuesPerMessage (log ++ (w.taking n).closingEvents) (tokens ++ [t]) (closings log).length
      ⟨(w.taking n).closed + 1, (w.taking n).reader.cursor, (w.taking n).position⟩ := by
  have hlength : (closings log).length = (w.taking n).closed := hw.length_eq
  have hbase : (w.taking n).base = consumed log := hw.base_eq
  have hsome : valuesPerMessage = some (w.inMessage + 1) := hcounted.valuesPerMessage_eq.symm.trans hfull
  obtain ⟨hvalues, _⟩ := hcounted.full w.inMessage hsome
  have hindex : ((closings log).length + 1) * (w.inMessage + 1) - 1 = tokens.length := by
    rw [hw.length_eq, Nat.succ_mul]
    omega
  refine ⟨congrArg Nat.succ hlength.symm, ?_, w.inMessage + 1, t, hsome, ?_, ?_⟩
  · rw [List.take_of_length_le (by simp [closings_closing])]
    exact (consumed_closing hbase).symm
  · rw [hindex, List.getElem?_concat_length]
  · rw [hstop, position_taking]

/-- A message that is closed is the last one of its log. -/
theorem Accounted.closing {w : Walk} (hw : Accounted valuesPerMessage log tokens w)
    (hcounted : Counted valuesPerMessage tokens.length w)
    (hfull : w.valuesPerMessage = some (w.inMessage + 1)) {n : Nat} {t : Token}
    (hstop : t.stop = w.position + n) :
    Accounted valuesPerMessage (log ++ (w.taking n).closingEvents) (tokens ++ [t]) (w.taking n).closing := by
  have hbase : (w.taking n).base = consumed log := hw.base_eq
  refine ⟨?_, (consumed_closing hbase).symm, ?_⟩
  · rw [closings_closing, List.length_append, hw.length_eq]
    rfl
  · intro i c hc
    rw [closings_closing] at hc
    rcases Nat.lt_or_ge i (closings log).length with hlt | hge
    · rw [List.getElem?_append_left hlt] at hc
      exact (hw.closes i c hc).append hlt _ _
    · obtain rfl : i = (closings log).length := by
        have hlt := (List.getElem?_eq_some_iff.1 hc).1
        simp only [List.length_append, List.length_singleton] at hlt
        omega
      rw [List.getElem?_concat_length] at hc
      obtain rfl := Option.some.inj hc
      exact hw.closes_last hcounted hfull hstop

theorem given_mapError (answer : Except Failure Step) (g : Failure → Failure) :
    given (answer.mapError g) = given answer := by
  cases answer <;> rfl

theorem length_given (answer : Except Failure Step) : (given answer).length = tokensOf answer := by
  match answer with
  | .error _ | .ok .finished | .ok (.cutOff _ _) | .ok (.token _) => rfl

theorem Accounted.answered {w : Walk} (hw : Accounted valuesPerMessage log tokens w)
    (hcounted : Counted valuesPerMessage tokens.length w) {reply : Reply Walk Step}
    (hanswers : Answers w reply) :
    Accounted valuesPerMessage (log ++ reply.events) (tokens ++ given reply.outcome) reply.state := by
  cases hanswers with
  | refused | overflowed | denied | finished | cutOff =>
    apply hw.silent <;> rfl
  | took v n m hmarker hfront calls w' es hcounts =>
    cases hcounts with
    | kept => apply hw.silent <;> rfl
    | closed hfull =>
      have hlength := length_of_scanBytes hfront hmarker
      refine hw.closing hcounted hfull ?_
      rw [hlength]
      rfl

/-- A step goes on with the account. -/
theorem Accounted.step {w : Walk} (hw : Accounted valuesPerMessage log tokens w) (hready : Ready w)
    (hcounted : Counted valuesPerMessage tokens.length w) :
    Accounted valuesPerMessage (log ++ w.step.events) (tokens ++ given w.step.outcome)
      w.step.state := by
  -- Chunks that are handed over only report sizes, so the account is the same where the answer comes.
  obtain ⟨pieces, es, last, reply, hgoes, hstep⟩ := step_cases hready
  have hbeholds := hgoes.hands.beholds
  have hsilent := (hgoes.hands.silent hready).1
  have hlast := hw.silent hsilent hbeholds.closed_eq hbeholds.base_eq []
  rw [List.append_nil] at hlast
  rw [hstep]
  simp only [given_mapError, ← List.append_assoc]
  exact hlast.answered (hcounted.of_hands hgoes.hands) hgoes.answers

/-- After any number of steps the log accounts for the walk. -/
theorem accounted_stepped {w : Walk} (hw : Accounted valuesPerMessage log tokens w) (hready : Ready w)
    (hcounted : Counted valuesPerMessage tokens.length w) (n : Nat) :
    Ready (w.stepped n) ∧
    Counted valuesPerMessage (tokens ++ w.taken n).length (w.stepped n) ∧
    Accounted valuesPerMessage (log ++ w.logged n) (tokens ++ w.taken n) (w.stepped n) := by
  induction n with
  | zero =>
    simp only [taken, logged, List.append_nil]
    exact ⟨hready, hcounted, hw⟩
  | succ n ih =>
    obtain ⟨hready, hcounted, haccounted⟩ := ih
    have hstepped := counted_step hready hcounted
    have hgoes := haccounted.step hready hcounted
    simp only [taken, logged, ← List.append_assoc]
    refine ⟨hready.step, ?_, hgoes⟩
    rw [List.length_append, length_given]
    exact hstepped

theorem Counted.closed_eq {values : Nat} {w : Walk} (hw : Counted valuesPerMessage values w) :
    w.closed = values / valuesPerMessage.getD 0 := by
  match valuesPerMessage, hw with
  | none, hw | some 0, hw =>
    rw [(hw.endless (by simp)).1]
    exact (Nat.div_zero values).symm
  | some (n + 1), hw =>
    obtain ⟨hsum, hle⟩ := hw.full n rfl
    show w.closed = values / (n + 1)
    rw [← hsum, Nat.mul_comm, Nat.mul_add_div (Nat.succ_pos n), Nat.div_eq_of_lt (by omega), Nat.add_zero]

/-- The log of a walk that has made `n` steps, and what the next step adds to it. -/
structure Explains (valuesPerMessage : Option Nat) (log : List Event) (tokens : List Token) (w : Walk) :
    Prop where
  /-- As many messages are closed as the tokens fill. -/
  closed_eq : w.closed = tokens.length / valuesPerMessage.getD 0
  accounted : Accounted valuesPerMessage log tokens w
  tells : Tells (consumed log) w.step

theorem accounted_create (input : Bytes) (chunk : Nat) (chunk_pos : 0 < chunk)
    (valuesPerMessage : Option Nat) (config : Config) :
    Accounted valuesPerMessage (create input chunk chunk_pos valuesPerMessage config).events []
      (create input chunk chunk_pos valuesPerMessage config).state := by
  have hcreate : (create input chunk chunk_pos valuesPerMessage config).events
      = resized 0 (Arena.create config.initialCapacity config.allocator).state.capacity :=
    Arena.events_create config.initialCapacity config.allocator
  have hnone : closings (create input chunk chunk_pos valuesPerMessage config).events = [] := by
    rw [hcreate, closings_resized]
  refine ⟨by rw [hnone]; rfl, by rw [consumed, hnone]; rfl, ?_⟩
  intro i c hc
  rw [hnone] at hc
  cases hc

theorem explains_stepped (input : Bytes) (chunk : Nat) (chunk_pos : 0 < chunk)
    (valuesPerMessage : Option Nat) (config : Config) (n : Nat) :
    Explains valuesPerMessage
      ((create input chunk chunk_pos valuesPerMessage config).events
        ++ (create input chunk chunk_pos valuesPerMessage config).state.logged n)
      ((create input chunk chunk_pos valuesPerMessage config).state.taken n)
      ((create input chunk chunk_pos valuesPerMessage config).state.stepped n) := by
  have hcreate := accounted_create input chunk chunk_pos valuesPerMessage config
  obtain ⟨hready, hcounted, haccounted⟩ := accounted_stepped hcreate ready_create counted_create n
  have htells := tells_step hready
  rw [List.nil_append] at hcounted haccounted
  rw [haccounted.base_eq] at htells
  exact ⟨hcounted.closed_eq, haccounted, htells⟩

end Walk

/-- The log is an exact account. A reader reports every refusal of a token once and at its place, every change of
the size of its storage and every message that is dropped, and nothing else; so the size that was reported last
is the size of the storage. A walk reports every message that it closes once, with its number and with the offset
at which its last token ends, which is the sum of all that was dropped so far; and that sum and the offset in the
report of a refusal make the offset that the failure names. -/
theorem log_exact :
    (∀ r : Reader, r.Reachable → r.Accounts) ∧
    (∀ (config : Config) (history : List Reader.Call),
      lastCapacity 0 ((Reader.create config).events ++ (Reader.create config).state.log history)
        = ((Reader.create config).state.after history).arena.capacity) ∧
    ∀ (input : Bytes) (chunk : Nat) (chunk_pos : 0 < chunk) (valuesPerMessage : Option Nat)
      (config : Config) (n : Nat),
      Walk.Explains valuesPerMessage
        ((Walk.create input chunk chunk_pos valuesPerMessage config).events
          ++ (Walk.create input chunk chunk_pos valuesPerMessage config).state.logged n)
        ((Walk.create input chunk chunk_pos valuesPerMessage config).state.taken n)
        ((Walk.create input chunk chunk_pos valuesPerMessage config).state.stepped n) := by
  refine ⟨?calls, ?sizes, ?walks⟩
  case calls =>
    intro r hr
    exact Reader.accounts hr.wellFormed
  case sizes => exact Reader.lastCapacity_log
  case walks => exact Walk.explains_stepped

/-- A blob, a nil, and a byte that no token starts with. -/
def blobNilAndJunk : Bytes := [0xc4, 1, 7, 0xc0, 0xc1]

/-- The walk over it, two bytes at a time and with two values in a message. -/
def junkCreated : Reply Walk Unit :=
  Walk.create blobNilAndJunk 2 Nat.two_pos (some 2) { initialCapacity := 2 }

def junkWalk : Walk := junkCreated.state

theorem steps_junkWalk :
    junkWalk.taken 2 = [⟨0, .bin8, .bin [7]⟩, ⟨3, .nil, .nil⟩] ∧
      (junkWalk.stepped 2).step.outcome = .error (.fault (.unknownTag 0xc1 4)) := by
  have hblob : ∃ es, junkWalk.step = ⟨.ok (.token ⟨0, .bin8, .bin [7]⟩), junkWalk.turned 3, es⟩ := by
    rw [Walk.step, Walk.advance_of_handed rfl, Walk.advance_of_handed rfl, Walk.advance_of_answer rfl]
    exact ⟨_, rfl⟩
  have hnil : ∃ es, (junkWalk.turned 3).step = ⟨.ok (.token ⟨3, .nil, .nil⟩), junkWalk.turned 4, es⟩ := by
    rw [Walk.step, Walk.advance_of_answer rfl]
    exact ⟨_, rfl⟩
  have hjunk : (junkWalk.turned 4).step.outcome = .error (.fault (.unknownTag 0xc1 4)) := by
    rw [Walk.step, Walk.advance_of_handed rfl, Walk.advance_eq]
    rfl
  obtain ⟨_, hblob⟩ := hblob
  obtain ⟨_, hnil⟩ := hnil
  have hone : junkWalk.stepped 1 = junkWalk.turned 3 := congrArg Reply.state hblob
  have htwo : junkWalk.stepped 2 = junkWalk.turned 4 := by
    show (junkWalk.stepped 1).step.state = _
    rw [hone, hnil]
  refine ⟨?_, by rw [htwo, hjunk]⟩
  show ([] ++ Walk.given junkWalk.step.outcome) ++ Walk.given (junkWalk.stepped 1).step.outcome = _
  rw [hone, hblob, hnil]
  rfl

/-- Four bytes were dropped when the message was closed, so the byte at offset 4 of the input is reported at the
start of the storage. A reader that holds nothing but this byte reports the same. -/
theorem log_exact_blobNilAndJunk :
    (∃ c, closings (junkCreated.events ++ junkWalk.logged 2) = [c] ∧ c.messages = 1 ∧ c.consumed = 4 ∧
      c.base = 4) ∧
    refusals (junkWalk.stepped 2).step.events = [(0, .unknownTag 0xc1 0)] ∧
    (((Reader.create { initialCapacity := 1 }).state.after [.feed [0xc1]]).perform .next).events
      = [.rejected 0 (.unknownTag 0xc1 0)] := by
  obtain ⟨htokens, hlast⟩ := steps_junkWalk
  obtain ⟨hcalls, _, hwalks⟩ := log_exact
  have h := hwalks blobNilAndJunk 2 Nat.two_pos (some 2) { initialCapacity := 2 } 2
  have hreader := hcalls ((Reader.create { initialCapacity := 1 }).state.after [.feed [0xc1]])
    ⟨_, _, rfl⟩
  change Walk.Explains (some 2) (junkCreated.events ++ junkWalk.logged 2) (junkWalk.taken 2)
    (junkWalk.stepped 2) at h
  rw [htokens] at h
  generalize junkCreated.events ++ junkWalk.logged 2 = log at h ⊢
  have hclosed : (closings log).length = 1 := h.accounted.length_eq.trans h.closed_eq
  obtain ⟨c, hc⟩ := List.length_eq_one_iff.1 hclosed
  have hfirst : (closings log)[0]? = some c := by rw [hc]; rfl
  obtain ⟨hmessages, hbase, n, t, hn, ht, hstop⟩ := h.accounted.closes 0 c hfirst
  obtain rfl : 2 = n := Option.some.inj hn
  obtain rfl : ⟨3, .nil, .nil⟩ = t := Option.some.inj ht
  have hfour : c.base = 4 := hstop.symm
  have hsum : c.base = c.consumed := by rw [hbase, hc]; rfl
  have hconsumed : consumed log = 4 := by
    rw [consumed, hc]
    exact hsum.symm.trans hfour
  obtain ⟨offset, cause, hrefusals, hcause, hoffset⟩ := h.tells.refused _ 4 hlast rfl
  rw [hconsumed] at hcause hoffset
  refine ⟨⟨c, hc, hmessages, hsum.symm.trans hfour, hfour⟩, ?_, ?_⟩
  · obtain rfl : offset = 0 := by omega
    rw [hrefusals]
    cases cause with
    | unknownTag b p =>
      injection hcause with hb hp
      obtain rfl : p = 0 := by omega
      rw [hb]
    | uint64Overflow | blobTooLarge | allocationFailed | staleView | format => cases hcause
  · exact hreader.looking .next .next

end MessagePack
