import Mathlib.Algebra.Ring.Nat
import MessagePack.Proofs.Contents
import MessagePack.Proofs.Cutting
import MessagePack.Proofs.Safety
/-
  A transcript, a decoding in pieces and a walk over the same bytes. Each has a loop of its own: the transcript
  looks before it reads and feeds in two places, the decoding only reads, and the walk drops the messages behind
  it. They find the same tokens, at the same places, and end in the same way.

  The transcript stands between the other two. Round by round the decoding does what the transcript does; and the
  lines of the transcript are the contents of the bytes, which a walk finds too.

  What is proved:
    1. `exists_goes`: the rounds of a transcript, as a relation that keeps nothing in reverse.
    2. `retells_of_goes`: a decoding goes through the same rounds.
    3. `recounts_of_goes`: the lines are the contents of what the reader holds and what is still to come.
    4. `stories_agree`: all three, for every byte string and every length of the pieces.
-/
namespace MessagePack

/-! ## Readers of a transcript -/

namespace Reader

/-- A reader in order, in an open message and without a limit for blobs. -/
structure Open (r : Reader) : Prop where
  wellFormed : r.arena.WellFormed
  open_eq : r.arena.messageComplete = false
  limit_eq : r.config.maxBlobLength = none

theorem open_small : small.Open := by
  have hs := streaming_create { initialCapacity := 16 }
  exact ⟨hs.wellFormed, hs.open_eq, hs.limit_eq⟩

variable {r : Reader}

theorem Open.feed (hr : r.Open) {bytes : Bytes} {a : Arena} (hextends : r.arena.Extends bytes a) :
    (r.withArena a).Open :=
  ⟨hextends.wellFormed, hextends.messageComplete_eq.trans hr.open_eq, hr.limit_eq⟩

theorem Open.take (hr : r.Open) {v : Value Extent} {n : Nat} (hfront : r.front = .ok (.complete v n)) :
    (r.withArena (r.arena.consume n)).Open :=
  ⟨Arena.wellFormed_consume hr.wellFormed (le_remaining_of_front hr.wellFormed hfront).2, hr.open_eq, hr.limit_eq⟩

/-- What a look can find: nothing, the marker of the next token, or a byte that no token starts with. -/
inductive Looks (r : Reader) : Except Failure Upcoming → Prop where
  | nothing (hu : r.arena.unread = []) : Looks r (.ok .needMoreData)
  | marker (m : Marker) (hu : r.arena.unread ≠ []) (hm : r.marker? = some m) : Looks r (.ok (.token m))
  | refused (e : DecodeError) (hfront : r.front = .error e) : Looks r (.error (.fault e))

theorem looks (hopen : r.arena.messageComplete = false) : Looks r r.next.outcome := by
  cases hu : r.arena.unread with
  | nil =>
    rw [next_of_nil hopen hu]
    exact .nothing hu
  | cons b u =>
    rw [next_of_cons hopen hu]
    cases hm : Marker.ofByte? b with
    | none => exact .refused _ (by rw [front_of_cons hu, hm])
    | some m => exact .marker m (by simp [hu]) (by simp [marker?, hu, hm])

end Reader

namespace Transcript

/-! ## Rounds -/

/-- The bytes that a line says were fed. -/
def Line.piece? : Line → Option Bytes
  | fedBetween piece => some piece
  | fedInside _ piece => some piece
  | _ => none

theorem Line.eq_of_piece? {line : Line} {piece : Bytes} (h : line.piece? = some piece) :
    line = .fedBetween piece ∨ ∃ m, line = .fedInside m piece := by
  cases line with
  | fedBetween fed => exact .inl (congrArg fedBetween (Option.some.inj h))
  | fedInside m fed => exact .inr ⟨m, congrArg (fedInside m) (Option.some.inj h)⟩
  | took | endedBetween | endedInside => cases h

/-- How a transcript goes, from a reader and the pieces still to come. -/
inductive Goes : Reader → List Bytes → Except Breakdown (List Line) → Prop where
  | refused {r : Reader} (pieces : List Bytes) (e : DecodeError) (hfront : r.front = .error e) :
      Goes r pieces (.error (.fault .reading e))
  | finished {r : Reader} (hu : r.arena.unread = []) : Goes r [] (.ok [.endedBetween])
  | cutOff {r : Reader} (m : Marker) (hu : r.arena.unread ≠ []) (hfront : r.front = .ok .incomplete) :
      Goes r [] (.ok [.endedInside m r.arena.remaining])
  | starved {r : Reader} (piece : Bytes) (pieces : List Bytes) (size : Nat)
      (hfront : r.front = .ok .incomplete) (hfeed : r.feed piece = .fail (.fault (.allocationFailed size)) r) :
      Goes r (piece :: pieces) (.error (.fault .feeding (.allocationFailed size)))
  | fed {r : Reader} {piece : Bytes} {pieces : List Bytes} {result : Except Breakdown (List Line)} (line : Line)
      (hline : line.piece? = some piece) (hfront : r.front = .ok .incomplete) (a : Arena) (es : List Event)
      (hfeed : r.feed piece = ⟨.ok (), r.withArena a, es⟩) (hextends : r.arena.Extends piece a)
      (hrest : Goes (r.withArena a) pieces result) : Goes r (piece :: pieces) (result.map (line :: ·))
  | took {r : Reader} {pieces : List Bytes} {result : Except Breakdown (List Line)} (m : Marker)
      (v : Value Extent) (n : Nat) (hm : r.marker? = some m) (hfront : r.front = .ok (.complete v n))
      (hrest : Goes (r.withArena (r.arena.consume n)) pieces result) :
      Goes r pieces
        (result.map (.took m (v.map (·.within r.arena.unread)) n (r.cursor + n) :: ·))

theorem map_behind (result : Except Breakdown (List Line)) (line : Line) (lines : List Line) :
    result.map ((line :: lines).reverse ++ ·) = (result.map (line :: ·)).map (lines.reverse ++ ·) := by
  cases result with
  | error b => rfl
  | ok later => simp [Except.map]

theorem size_of_feed {r r' : Reader} (hr : r.Open) {piece : Bytes} {f : Failure} {es : List Event}
    (h : r.feed piece = ⟨.error f, r', es⟩) :
    ∃ size, f = .fault (.allocationFailed size) ∧ r.feed piece = .fail (.fault (.allocationFailed size)) r := by
  obtain ⟨_, f', hrefused⟩ | ⟨_, a, es', hgranted, _⟩ := Reader.feed_cases hr.wellFormed piece
  · obtain ⟨size, rfl⟩ := Walk.allocationFailed_of_feed hr.wellFormed hrefused
    rw [hrefused] at h
    cases h
    exact ⟨size, rfl, hrefused⟩
  · rw [hgranted] at h
    cases h

theorem extends_of_feed {r r' : Reader} (hr : r.Open) {piece : Bytes} {es : List Event}
    (h : r.feed piece = ⟨.ok (), r', es⟩) : ∃ a, r' = r.withArena a ∧ r.arena.Extends piece a := by
  obtain ⟨_, f, hrefused⟩ | ⟨_, a, es', hgranted, hextends⟩ := Reader.feed_cases hr.wellFormed piece
  · rw [hrefused] at h
    cases h
  · rw [hgranted] at h
    cases h
    exact ⟨a, rfl, hextends⟩

theorem looked {r : Reader} (hr : r.Open) {answer : Except Failure Upcoming} (h : r.next.outcome = answer) :
    Reader.Looks r answer := h ▸ Reader.looks hr.open_eq

theorem found {r : Reader} (hr : r.Open) {reply : Reply Reader (Progress (Value View))} (h : r.readValue = reply) :
    Reader.Finding r reply := h ▸ Reader.finding hr.wellFormed hr.open_eq

/-- A transcript goes on behind the lines that it has. -/
theorem exists_goes {r : Reader} (hr : r.Open) (pieces : List Bytes) (lines : List Line) :
    ∃ result, Goes r pieces result ∧ continueFrom r pieces lines = result.map (lines.reverse ++ ·) := by
  -- One case for each way in which a round ends; what a look and a read can find leaves those of the relation.
  fun_induction continueFrom r pieces lines with
  | case1 r pieces lines f hlook =>
    cases looked hr hlook with
    | refused e hfront => exact ⟨_, .refused pieces e hfront, rfl⟩
  | case2 r pieces lines hlook => cases looked hr hlook
  | case3 r lines hlook =>
    cases looked hr hlook with
    | nothing hu => exact ⟨_, .finished hu, by simp [Except.map]⟩
  | case4 r lines hlook piece pieces f r' es hfeed =>
    cases looked hr hlook with
    | nothing hu =>
      obtain ⟨size, rfl, hrefused⟩ := size_of_feed hr hfeed
      exact ⟨_, .starved piece pieces size (Reader.front_of_nil hu) hrefused, rfl⟩
  | case5 r lines hlook piece pieces r' es hfeed ih =>
    cases looked hr hlook with
    | nothing hu =>
      obtain ⟨a, rfl, hextends⟩ := extends_of_feed hr hfeed
      obtain ⟨result, hgoes, hresult⟩ := ih (hr.feed hextends)
      rw [hresult, map_behind]
      exact ⟨_, .fed _ rfl (Reader.front_of_nil hu) a es hfeed hextends hgoes, rfl⟩
  | case6 r pieces lines m hlook f r' es hread =>
    cases found hr hread with
    | refused e hfront => exact ⟨_, .refused pieces e hfront, rfl⟩
  | case7 r pieces lines m hlook v n r' es hread e hresolve =>
    cases found hr hread with
    | found v n hfront =>
      rw [Reader.resolve_settled hr.wellFormed hfront] at hresolve
      cases hresolve
  | case8 r pieces lines m hlook v n r' es hread value hresolve hless ih =>
    cases looked hr hlook with
    | marker m hu hm =>
      cases found hr hread with
      | found v n hfront =>
        rw [Reader.resolve_settled hr.wellFormed hfront] at hresolve
        cases hresolve
        obtain ⟨result, hgoes, hresult⟩ := ih (hr.take hfront)
        rw [hresult, map_behind]
        exact ⟨_, .took m v n hm hfront hgoes, rfl⟩
  | case9 r lines m hlook r' es hread =>
    cases looked hr hlook with
    | marker m hu hm =>
      cases found hr hread with
      | lacking hfront => exact ⟨_, .cutOff m hu hfront, by simp [Except.map]⟩
  | case10 r lines m hlook r' es hread piece pieces f r'' es' hfeed =>
    cases found hr hread with
    | lacking hfront =>
      obtain ⟨size, rfl, hrefused⟩ := size_of_feed hr hfeed
      exact ⟨_, .starved piece pieces size hfront hrefused, rfl⟩
  | case11 r lines m hlook r' es hread piece pieces r'' es' hfeed ih =>
    cases found hr hread with
    | lacking hfront =>
      obtain ⟨a, rfl, hextends⟩ := extends_of_feed hr hfeed
      obtain ⟨result, hgoes, hresult⟩ := ih (hr.feed hextends)
      rw [hresult, map_behind]
      exact ⟨_, .fed _ rfl hfront a es' hfeed hextends hgoes, rfl⟩

/-! ## The decoding -/

namespace Line

def value? : Line → Option (Value Bytes)
  | took _ value _ _ => some value
  | _ => none

/-- How many bytes a line says were left over. -/
def buffered : Line → Nat
  | endedInside _ n => n
  | _ => 0

theorem value?_of_piece? {line : Line} {piece : Bytes} (h : line.piece? = some piece) : line.value? = none := by
  obtain rfl | ⟨m, rfl⟩ := eq_of_piece? h
  all_goals rfl

end Line

/-- One round of a decoding, by what is at the front of its reader. -/
theorem continueFrom_eq {r : Reader} (hr : r.Open) (pieces : List Bytes) (values : List (Value Bytes))
    (reads feeds : Nat) :
    Decoding.continueFrom r pieces values reads feeds = match r.front, pieces with
      | .error e, _ => ⟨.error (.fault e), reads + 1, feeds⟩
      | .ok (.complete v n), pieces => Decoding.continueFrom (r.withArena (r.arena.consume n)) pieces
          (v.map (·.within r.arena.unread) :: values) (reads + 1) feeds
      | .ok .incomplete, [] => ⟨.ok ⟨values.reverse, r.arena.remaining⟩, reads + 1, feeds⟩
      | .ok .incomplete, piece :: pieces =>
        match r.feed piece with
        | ⟨.error f, _, _⟩ => ⟨.error f, reads + 1, feeds + 1⟩
        | ⟨.ok (), r', _⟩ => Decoding.continueFrom r' pieces values (reads + 1) (feeds + 1) := by
  have hfinding := Reader.finding hr.wellFormed hr.open_eq
  rw [Decoding.continueFrom]
  split
  all_goals
    rename_i hread
    rw [hread] at hfinding
    cases hfinding
  case h_1.refused hfront => simp only [hfront]
  case h_2.found hfront =>
    simp only [Reader.resolve_settled hr.wellFormed hfront, hfront]
  case h_3.lacking hfront =>
    simp only [hfront]
    cases pieces <;> rfl

/-- What a decoding answers, by the transcript of the same pieces. -/
inductive Retells : Except Breakdown (List Line) → Except Failure Decoded → Prop where
  | broken (phase : Phase) (e : DecodeError) : Retells (.error (.fault phase e)) (.error (.fault e))
  | told (lines : List Line) (last : Line) (h : lines.getLast? = some last) :
      Retells (.ok lines) (.ok ⟨lines.filterMap Line.value?, last.buffered⟩)

theorem getLast?_behind {lines : List Line} {last : Line} (h : lines.getLast? = some last) (line : Line) :
    (line :: lines).getLast? = some last := by
  rw [List.getLast?_cons, h]
  rfl

theorem Retells.skip {result : Except Breakdown (List Line)} {answer : Except Failure Decoded}
    (h : Retells result answer) {line : Line} (hline : line.value? = none) :
    Retells (result.map (line :: ·)) answer := by
  cases h with
  | broken phase e => exact .broken phase e
  | told lines last hlast =>
    have htold := Retells.told _ last (getLast?_behind hlast line)
    rwa [List.filterMap_cons_none hline] at htold

theorem Retells.take {result : Except Breakdown (List Line)} {answer : Except Failure Decoded}
    (h : Retells result answer) (m : Marker) (value : Value Bytes) (n cursor : Nat) :
    Retells (result.map (.took m value n cursor :: ·))
      (answer.map fun d => ⟨value :: d.values, d.leftover⟩) := by
  cases h with
  | broken phase e => exact .broken phase e
  | told lines last hlast => exact .told _ last (getLast?_behind hlast _)

/-- A decoding goes through the same rounds, behind the values that it has. -/
theorem retells_of_goes {r : Reader} {pieces : List Bytes} {result : Except Breakdown (List Line)}
    (h : Goes r pieces result) (hr : r.Open) (values : List (Value Bytes)) (reads feeds : Nat) :
    ∃ answer, Retells result answer ∧ (Decoding.continueFrom r pieces values reads feeds).outcome
      = answer.map fun d => ⟨values.reverse ++ d.values, d.leftover⟩ := by
  induction h generalizing values reads feeds with
  | refused pieces e hfront =>
    refine ⟨_, .broken .reading e, ?_⟩
    rw [continueFrom_eq hr, hfront]
    rfl
  | finished hu =>
    refine ⟨_, .told [.endedBetween] .endedBetween rfl, ?_⟩
    rw [continueFrom_eq hr, Reader.front_of_nil hu]
    simp [Except.map, Line.value?, Line.buffered, ← Arena.length_unread hr.wellFormed, hu]
  | @cutOff r m hu hfront =>
    refine ⟨_, .told [.endedInside m r.arena.remaining] _ rfl, ?_⟩
    rw [continueFrom_eq hr, hfront]
    simp [Except.map, Line.value?, Line.buffered]
  | starved piece pieces size hfront hfeed =>
    refine ⟨_, .broken .feeding _, ?_⟩
    rw [continueFrom_eq hr, hfront]
    simp only [hfeed]
    rfl
  | fed line hline hfront a es hfeed hextends hrest ih =>
    obtain ⟨answer, hretells, hanswer⟩ := ih (hr.feed hextends) values (reads + 1) (feeds + 1)
    refine ⟨answer, hretells.skip (Line.value?_of_piece? hline), ?_⟩
    rw [continueFrom_eq hr, hfront]
    simp only [hfeed]
    exact hanswer
  | @took r pieces result m v n hm hfront hrest ih =>
    obtain ⟨answer, hretells, hanswer⟩ :=
      ih (hr.take hfront) (v.map (·.within r.arena.unread) :: values) (reads + 1) feeds
    refine ⟨_, hretells.take m _ n _, ?_⟩
    rw [continueFrom_eq hr, hfront]
    simp only [hanswer]
    cases answer with
    | error f => rfl
    | ok d => simp [Except.map]

/-! ## The contents -/

namespace Line

/-- The bytes that a line says were fed; none for a line that fed nothing. -/
def fed (line : Line) : Bytes := line.piece?.getD []

def consumed : Line → Nat
  | took _ _ n _ => n
  | _ => 0

def cursor? : Line → Option Nat
  | took _ _ _ cursor => some cursor
  | _ => none

/-- The token of a line, which begins where the cursor was before. -/
def token? : Line → Option Token
  | took m value n cursor => some ⟨cursor - n, m, value⟩
  | _ => none

end Line

/-- The last line, by the way in which the tokens end. -/
inductive Closes : Ending → Line → Prop where
  | finished : Closes .finished .endedBetween
  | cutOff (offset buffered : Nat) (m : Marker) : Closes (.cutOff offset buffered) (.endedInside m buffered)

/-- Lines that tell of these tokens from position `p` on, and of the bytes that are fed meanwhile. -/
structure Tells (p : Nat) (fed : Bytes) (tokens : List Token) (ending : Ending) (lines : List Line) : Prop where
  fed_eq : lines.flatMap Line.fed = fed
  tokens_eq : lines.filterMap Line.token? = tokens
  /-- The cursor of a line is the sum of all counts up to there. -/
  cursor_eq : ∀ i m value n cursor, lines[i]? = some (.took m value n cursor) →
    cursor = p + ((lines.take (i + 1)).map Line.consumed).sum
  /-- Each token begins where the cursor was put before. -/
  offsets_eq : tokens.map (·.offset) = (p :: lines.filterMap Line.cursor?).dropLast
  closes : ∃ last, lines.getLast? = some last ∧ Closes ending last

variable {p : Nat} {fed : Bytes} {tokens : List Token} {ending : Ending} {lines : List Line}

theorem tells_single {last : Line} (hcloses : Closes ending last) : Tells p [] [] ending [last] := by
  have hsteps : ∀ i m value n cursor, [last][i]? = some (.took m value n cursor) →
      cursor = p + (([last].take (i + 1)).map Line.consumed).sum := by
    intro i m value n cursor hline
    obtain rfl := List.mem_singleton.1 (List.mem_of_getElem? hline)
    cases hcloses
  cases hcloses with
  | finished => exact ⟨rfl, rfl, hsteps, rfl, _, rfl, .finished⟩
  | cutOff offset buffered m => exact ⟨rfl, rfl, hsteps, rfl, _, rfl, .cutOff offset buffered m⟩

/-- A line that feeds a piece moves no cursor. -/
theorem Tells.feed (h : Tells p fed tokens ending lines) {line : Line} {piece : Bytes}
    (hline : line.piece? = some piece) : Tells p (piece ++ fed) tokens ending (line :: lines) := by
  obtain ⟨last, hlast, hcloses⟩ := h.closes
  have hsilent : line.token? = none ∧ line.cursor? = none ∧ line.consumed = 0 := by
    obtain rfl | ⟨m, rfl⟩ := Line.eq_of_piece? hline
    all_goals exact ⟨rfl, rfl, rfl⟩
  obtain ⟨htoken, hcursor, hconsumed⟩ := hsilent
  refine ⟨?_, ?_, ?_, ?_, last, getLast?_behind hlast line, hcloses⟩
  · rw [List.flatMap_cons, h.fed_eq, Line.fed, hline]
    rfl
  · rw [List.filterMap_cons_none htoken, h.tokens_eq]
  · intro i m value n cursor hi
    cases i with
    | zero =>
      obtain rfl := Option.some.inj hi
      cases hline
    | succ i =>
      rw [List.take_succ_cons, List.map_cons, List.sum_cons, hconsumed, Nat.zero_add]
      exact h.cursor_eq i m value n cursor hi
  · rw [List.filterMap_cons_none hcursor, h.offsets_eq]

/-- A line that takes a token puts the cursor behind it. -/
theorem Tells.take {n : Nat} (h : Tells (p + n) fed tokens ending lines) (m : Marker) (value : Value Bytes) :
    Tells p fed (⟨p, m, value⟩ :: tokens) ending (.took m value n (p + n) :: lines) := by
  obtain ⟨last, hlast, hcloses⟩ := h.closes
  have htoken : (Line.took m value n (p + n)).token? = some ⟨p, m, value⟩ := by
    rw [Line.token?, Nat.add_sub_cancel]
  refine ⟨?_, ?_, ?_, ?_, last, getLast?_behind hlast _, hcloses⟩
  · rw [List.flatMap_cons, h.fed_eq]
    rfl
  · rw [List.filterMap_cons_some htoken, h.tokens_eq]
  · intro i m' value' n' cursor hi
    cases i with
    | zero =>
      cases hi
      simp [Line.consumed]
    | succ i =>
      have hcursor := h.cursor_eq i m' value' n' cursor hi
      rw [List.take_succ_cons, List.map_cons, List.sum_cons, ← Nat.add_assoc]
      exact hcursor
  · rw [List.map_cons, h.offsets_eq]
    rfl

/-- What a transcript is, if the reader stands at `p`, in front of `u`, and `fed` is still to come. -/
inductive Recounts (p : Nat) (u fed : Bytes) : Except Breakdown (List Line) → Prop where
  | starved (size : Nat) : Recounts p u fed (.error (.fault .feeding (.allocationFailed size)))
  | refused (tokens : List Token) (e : DecodeError) (h : Contents p u tokens (.refused e)) :
      Recounts p u fed (.error (.fault .reading e))
  | told (tokens : List Token) (ending : Ending) (lines : List Line) (h : Contents p u tokens ending)
      (htells : Tells p fed tokens ending lines) : Recounts p u fed (.ok lines)

/-- The lines are the contents of what the reader holds and what is still to come. -/
theorem recounts_of_goes {r : Reader} {pieces : List Bytes} {result : Except Breakdown (List Line)}
    (h : Goes r pieces result) (hr : r.Open) :
    Recounts r.cursor (r.arena.unread ++ pieces.flatten) pieces.flatten result := by
  induction h with
  | @refused r pieces e hfront =>
    rw [Reader.front, hr.limit_eq] at hfront
    exact .refused [] e (contents_of_error (scanBytes_append_of_error hfront _))
  | @finished r hu =>
    rw [hu]
    exact .told [] .finished _ (.finished _) (tells_single .finished)
  | @cutOff r m hu hfront =>
    rw [Reader.front, hr.limit_eq] at hfront
    rw [List.flatten_nil, List.append_nil, ← Arena.length_unread hr.wellFormed]
    exact .told [] _ _ (contents_of_incomplete hfront hu) (tells_single (.cutOff _ _ m))
  | starved piece pieces size hfront hfeed => exact .starved size
  | @fed r piece pieces result line hline hfront a es hfeed hextends hrest ih =>
    have hnext := ih (hr.feed hextends)
    have hcursor : (r.withArena a).cursor = r.cursor := hextends.readCursor_eq
    have hunread : (r.withArena a).arena.unread = r.arena.unread ++ piece := hextends.unread_eq
    rw [hcursor, hunread, List.append_assoc] at hnext
    rw [List.flatten_cons]
    cases hnext with
    | starved size => exact .starved size
    | refused tokens e hcontents => exact .refused tokens e hcontents
    | told tokens ending lines hcontents htells => exact .told tokens ending _ hcontents (htells.feed hline)
  | @took r pieces result m v n hm hfront hrest ih =>
    have hnext := ih (hr.take hfront)
    have hn := (Reader.le_remaining_of_front hr.wellFormed hfront).2
    have hcursor : (r.withArena (r.arena.consume n)).cursor = r.cursor + n := rfl
    have hunread : (r.withArena (r.arena.consume n)).arena.unread = r.arena.unread.drop n :=
      Reader.unread_consumed hr.wellFormed hn
    have hlength : n ≤ r.arena.unread.length := by rwa [Arena.length_unread hr.wellFormed]
    rw [hcursor, hunread, ← List.drop_append_of_le_length hlength] at hnext
    -- The token in front decides the same when more comes behind it.
    rw [Reader.front, hr.limit_eq] at hfront
    have hscan := scanBytes_append_of_complete hfront pieces.flatten
    have hmarker : (r.arena.unread ++ pieces.flatten).head?.bind Marker.ofByte? = some m := by
      obtain ⟨b, hb, hbyte⟩ := Option.bind_eq_some_iff.1 hm
      rw [List.head?_append, hb]
      exact hbyte
    rw [← map_within_append hfront pieces.flatten]
    cases hnext with
    | starved size => exact .starved size
    | refused tokens e hcontents => exact .refused _ e (contents_of_complete hscan hmarker hcontents)
    | told tokens ending lines hcontents htells =>
      exact .told _ ending _ (contents_of_complete hscan hmarker hcontents) (htells.take m _)

/-- A transcript that has room for all pieces is not refused the storage for one of them. -/
theorem fed_of_goes {r : Reader} {pieces : List Bytes} {result : Except Breakdown (List Line)}
    (h : Goes r pieces result) (hr : r.Open) (hfits : r.arena.Fits pieces.flatten.length) (size : Nat) :
    result ≠ .error (.fault .feeding (.allocationFailed size)) := by
  induction h with
  | refused | finished | cutOff => simp
  | @starved r piece pieces size' hfront hfeed =>
    rw [List.flatten_cons, List.length_append] at hfits
    obtain ⟨hno, _⟩ | ⟨_, _, _, hgranted, _⟩ := Reader.feed_cases hr.wellFormed piece
    · exact absurd hfits.first hno
    · rw [hgranted] at hfeed
      cases hfeed
  | @fed r piece pieces result line hline hfront a es hfeed hextends hrest ih =>
    rw [List.flatten_cons, List.length_append] at hfits
    have hroom : a.Fits pieces.flatten.length := 
      hfits.second hextends.usedEnd_eq hextends.grows.capacity_le hextends.allocator_eq
    have hnext := ih (hr.feed hextends) hroom
    cases result with
    | ok lines => simp [Except.map]
    | error b => exact hnext
  | @took r pieces result m v n hm hfront hrest ih =>
    have hnext := ih (hr.take hfront) hfits
    cases result with
    | ok lines => simp [Except.map]
    | error b => exact hnext

/-! ## From the start -/

section
variable {bytes : Bytes} {length : Nat}

theorem goes_ofChunks (bytes : Bytes) (length : Nat) :
    Goes .small (chunksOf (max length 1) (pieceLength_pos length) bytes) (ofChunks bytes length) := by
  obtain ⟨result, hgoes, hresult⟩ :=
    exists_goes Reader.open_small (chunksOf (max length 1) (pieceLength_pos length) bytes) []
  have hsame : ofChunks bytes length = result := by
    rw [ofChunks, hresult]
    cases result <;> rfl
  rwa [hsame]

/-- The pieces of a decoding are those of a transcript; an empty string is one empty piece to the one and no piece to
the other. -/
theorem outcome_inChunks (bytes : Bytes) (length : Nat) : (Decoding.inChunks bytes length).outcome
    = (Decoding.ofPieces (chunksOf (max length 1) (pieceLength_pos length) bytes)).outcome := by
  by_cases h : bytes = []
  · subst h
    have hfits : Reader.small.arena.Fits ([] : Bytes).length := .inl Reader.open_small.wellFormed.usedEnd_le
    have hnopiece : Reader.small.arena.Fits ([] : List Bytes).flatten.length := hfits
    have hnone : ([] : List (Value Bytes)).reverse = ([] : List (Reading (Value Bytes))).map Reading.value := rfl
    have hwhole : (Decoding.inChunks [] length).outcome = (tokenise none 0 []).decoded :=
      Reader.outcome_withCuts hfits _
    have hpieces : (Decoding.continueFrom .small [] [] 0 0).outcome = (tokenise none 0 []).decoded :=
      Reader.outcome_continueFrom (Reader.streaming_create { initialCapacity := 16 }) hnopiece hnone 0 0
    rw [chunksOf_nil, hwhole]
    exact hpieces.symm
  · rw [Decoding.inChunks, Decoding.withCuts, split_evenCuts (pieceLength_pos length) h]

theorem retells_ofChunks (bytes : Bytes) (length : Nat) :
    Retells (ofChunks bytes length) (Decoding.inChunks bytes length).outcome := by
  obtain ⟨answer, hretells, hanswer⟩ := retells_of_goes (goes_ofChunks bytes length) Reader.open_small [] 0 0
  have hsame : (Decoding.inChunks bytes length).outcome = answer := by
    rw [outcome_inChunks, Decoding.ofPieces, hanswer]
    cases answer <;> rfl
  rwa [hsame]

theorem recounts_ofChunks (bytes : Bytes) (length : Nat) : Recounts 0 bytes bytes (ofChunks bytes length) := by
  have hrecounts := recounts_of_goes (goes_ofChunks bytes length) Reader.open_small
  have hfresh := Reader.fresh_create { initialCapacity := 16 }
  have hcursor : Reader.small.cursor = 0 := hfresh.readCursor_eq
  have hunread : Reader.small.arena.unread = [] := hfresh.unread_eq
  rwa [hcursor, hunread, flatten_chunksOf, List.nil_append] at hrecounts

/-- The walk over a string in the same pieces. -/
def walked (bytes : Bytes) (length : Nat) (valuesPerMessage : Option Nat) (capacity : Nat)
    (allocator : Allocator := .standard) : Walk.Run :=
  Walk.runOver bytes (max length 1) (pieceLength_pos length) valuesPerMessage capacity none allocator

/-- No growth of a storage is refused, to the transcript or to the walk. -/
structure Granted (bytes : Bytes) (length : Nat) (run : Walk.Run) : Prop where
  transcript : ∀ size, ofChunks bytes length ≠ .error (.fault .feeding (.allocationFailed size))
  walk : ∀ size, run.ending ≠ .error (.fault (.allocationFailed size))

variable {valuesPerMessage : Option Nat} {capacity : Nat} {allocator : Allocator}

/-- The walk finds the contents that the transcript tells. -/
theorem walked_of_contents (hle : bytes.length + max length 1 ≤ wordMax)
    (hgranted : Granted bytes length (walked bytes length valuesPerMessage capacity allocator)) {tokens : List Token}
    {ending : Ending} (h : Contents 0 bytes tokens ending) :
    (walked bytes length valuesPerMessage capacity allocator).tokens = tokens ∧
    (walked bytes length valuesPerMessage capacity allocator).ending = ending.answer := by
  apply Walk.runOver_of_contents h
  intro f hf hstarved
  cases hstarved with
  | allocationFailed size => exact hgranted.walk size hf
  | offsetOverflow =>
    have hw := Walk.standing_create bytes (max length 1) (pieceLength_pos length) valuesPerMessage
      { initialCapacity := capacity, maxBlobLength := none, allocator }
    exact Walk.not_violation_of_runs (Walk.runs _) hw hle .offsetOverflow hf

/-- Where a string of this length can be stored, no growth is refused. -/
theorem granted_of_room (hle : bytes.length + max length 1 ≤ wordMax)
    (hroom : Allocator.standard.provides (leastPowerOfTwo bytes.length)) :
    Granted bytes length (walked bytes length valuesPerMessage capacity) := by
  refine ⟨?_, ?_⟩
  · have hfresh := Reader.fresh_create { initialCapacity := 16 }
    have hused : Reader.small.arena.usedEnd = 0 := hfresh.usedEnd_eq
    have hallocator : Reader.small.arena.allocator = .standard := Reader.allocator_create _
    have hfits : Reader.small.arena.Fits (chunksOf (max length 1) (pieceLength_pos length) bytes).flatten.length := by
      refine .inr ?_
      rw [hused, hallocator, flatten_chunksOf, Nat.zero_add]
      exact hroom
    exact fed_of_goes (goes_ofChunks bytes length) Reader.open_small hfits
  · intro size hf
    exact Walk.not_starved_of_room hle hroom hf (.allocationFailed size)

end

/-! ## The same story -/

/-- What a transcript, a decoding and a walk have in common that come to the end of the bytes. -/
structure SameStory (bytes : Bytes) (lines : List Line) (d : Decoded) (run : Walk.Run) : Prop where
  values_eq : lines.filterMap Line.value? = d.values
  walked_eq : run.tokens.map (·.value) = d.values
  /-- A line says from where to where its token is, with its marker and its value. -/
  tokens_eq : lines.filterMap Line.token? = run.tokens
  cursor_eq : ∀ i m value n cursor, lines[i]? = some (.took m value n cursor) →
    cursor = ((lines.take (i + 1)).map Line.consumed).sum
  /-- The cursor behind a token is the offset of the next one. -/
  next_eq : ∀ k cursor t, (lines.filterMap Line.cursor?)[k]? = some cursor → run.tokens[k + 1]? = some t →
    t.offset = cursor
  fed_eq : lines.flatMap Line.fed = bytes
  finished_iff : lines.getLast? = some .endedBetween ↔ d.leftover = 0
  leftover_iff : d.leftover = 0 ↔ run.ending = .ok .finished
  cutOff : d.leftover ≠ 0 → ∃ m offset, lines.getLast? = some (.endedInside m d.leftover) ∧
    run.ending = .ok (.cutOff offset d.leftover) ∧ offset + d.leftover = bytes.length

theorem value?_eq (line : Line) : line.value? = line.token?.map (·.value) := by
  cases line <;> rfl

theorem ends_of_closes {bytes : Bytes} {tokens : List Token} {ending : Ending} {last : Line}
    (h : Contents 0 bytes tokens ending) (hcloses : Closes ending last) :
    (last = .endedBetween ↔ last.buffered = 0) ∧ (last.buffered = 0 ↔ ending.answer = .ok .finished) ∧
    (last.buffered ≠ 0 → ∃ m offset, last = .endedInside m last.buffered ∧
      ending.answer = .ok (.cutOff offset last.buffered) ∧ offset + last.buffered = bytes.length) := by
  cases hcloses with
  | finished => simp [Line.buffered, Ending.answer]
  | cutOff offset buffered m =>
    obtain ⟨hend, hpos⟩ := h.cutOff_bounds
    rw [Nat.zero_add] at hend
    have hsome : buffered ≠ 0 := Nat.ne_of_gt hpos
    refine ⟨by simp [Line.buffered, hsome], by simp [Line.buffered, Ending.answer, hsome], ?_⟩
    intro _
    exact ⟨m, offset, rfl, rfl, hend⟩

/-- Lines that tell the contents of a string, and a walk that finds them, have the same story. -/
theorem sameStory_of_tells {bytes : Bytes} {tokens : List Token} {ending : Ending} {lines : List Line}
    (h : Contents 0 bytes tokens ending) (htells : Tells 0 bytes tokens ending lines) {last : Line}
    (hlast : lines.getLast? = some last) {run : Walk.Run} (htokens : run.tokens = tokens)
    (hending : run.ending = ending.answer) :
    SameStory bytes lines ⟨lines.filterMap Line.value?, last.buffered⟩ run := by
  have hvalues : lines.filterMap Line.value? = run.tokens.map (·.value) := by
    rw [htokens, ← htells.tokens_eq, List.map_filterMap]
    congr
    funext line
    exact value?_eq line
  have hcursor : ∀ i m value n cursor, lines[i]? = some (.took m value n cursor) →
      cursor = ((lines.take (i + 1)).map Line.consumed).sum := by
    intro i m value n cursor hi
    rw [htells.cursor_eq i m value n cursor hi, Nat.zero_add]
  have hnext : ∀ k cursor t, (lines.filterMap Line.cursor?)[k]? = some cursor → run.tokens[k + 1]? = some t →
      t.offset = cursor := by
    intro k cursor t hk ht
    have hoffset : (run.tokens.map (·.offset))[k + 1]? = some t.offset := by rw [List.getElem?_map, ht]; rfl
    rw [htokens, htells.offsets_eq, List.getElem?_dropLast] at hoffset
    split at hoffset
    · rw [List.getElem?_cons_succ, hk] at hoffset
      exact (Option.some.inj hoffset).symm
    · cases hoffset
  have hclosing : Closes ending last := by
    obtain ⟨last', hlast', hcloses⟩ := htells.closes
    rw [hlast] at hlast'
    cases hlast'
    exact hcloses
  obtain ⟨hfinished, hleftover, hcutOff⟩ := ends_of_closes h hclosing
  refine ⟨rfl, hvalues.symm, htells.tokens_eq.trans htokens.symm, hcursor, hnext, htells.fed_eq, ?_, ?_, ?_⟩
  · rw [hlast, Option.some_inj]
    exact hfinished
  · rw [hending]
    exact hleftover
  · intro hsome
    obtain ⟨m, offset, hline, hanswer, hsum⟩ := hcutOff hsome
    refine ⟨m, offset, ?_, hending.trans hanswer, hsum⟩
    rw [hlast]
    exact congrArg some hline

/-- A transcript, a decoding and a walk tell the same of every byte string and every length of the pieces, the
walk whatever its messages and its storage. The transcript breaks off just where the decoding fails, and for the
fault that ends the walk; else their values are the same, the cursors lead from token to token, and all end with
the same count of bytes left over. -/
theorem stories_agree {bytes : Bytes} {length : Nat} {valuesPerMessage : Option Nat} {capacity : Nat}
    {allocator : Allocator}
    (hle : bytes.length + max length 1 ≤ wordMax)
    (hgranted : Granted bytes length (walked bytes length valuesPerMessage capacity allocator)) :
    ((∃ b, ofChunks bytes length = .error b) ↔ ∃ f, (Decoding.inChunks bytes length).outcome = .error f) ∧
    (∀ f, (Decoding.inChunks bytes length).outcome = .error f → ∃ e, f = .fault e ∧
      ofChunks bytes length = .error (.fault .reading e) ∧
      (walked bytes length valuesPerMessage capacity allocator).ending = .error f) ∧
    ∀ d, (Decoding.inChunks bytes length).outcome = .ok d → ∃ lines, ofChunks bytes length = .ok lines ∧
      SameStory bytes lines d (walked bytes length valuesPerMessage capacity allocator) := by
  have hrecounts := recounts_ofChunks bytes length
  have hretells := retells_ofChunks bytes length
  have hstarved := hgranted.transcript
  generalize ofChunks bytes length = result at hrecounts hretells hstarved ⊢
  generalize (Decoding.inChunks bytes length).outcome = answer at hretells ⊢
  cases hretells with
  | broken phase e =>
    refine ⟨by simp, ?_, by simp⟩
    rintro f hf
    cases hf
    cases hrecounts with
    | starved size => exact absurd rfl (hstarved size)
    | refused tokens e hcontents =>
      obtain ⟨_, hending⟩ := walked_of_contents hle hgranted hcontents
      exact ⟨e, rfl, rfl, hending⟩
  | told lines last hlast =>
    refine ⟨by simp, by simp, ?_⟩
    rintro d hd
    cases hd
    cases hrecounts with
    | told tokens ending _ hcontents htells =>
      obtain ⟨htokens, hending⟩ := walked_of_contents hle hgranted hcontents
      exact ⟨lines, rfl, sameStory_of_tells hcontents htells hlast htokens hending⟩

/-- A blob, a nil and part of a blob, decoded in pieces of two bytes. -/
theorem outcome_cutOffBlob :
    (Decoding.inChunks Walk.cutOffBlob 2).outcome = .ok ⟨[.bin [7], .nil], 3⟩ := by
  have hfed : (Reader.small.feed Walk.cutOffBlob).outcome = .ok () := rfl
  have hfits := Reader.fits_of_feed Reader.open_small.wellFormed hfed
  have hblob : scanBytes none 0 Walk.cutOffBlob = .ok (.complete (.bin ⟨2, 1⟩) 3) := rfl
  have hnil : scanBytes none 3 [0xc0, 0xc4, 2, 8] = .ok (.complete .nil 1) := rfl
  have hrest : scanBytes none 4 [0xc4, 2, 8] = .ok .incomplete := rfl
  have htokens : tokenise none 0 Walk.cutOffBlob = ⟨[⟨.bin [7], 3⟩, ⟨.nil, 1⟩], [0xc4, 2, 8], none⟩ := by
    calc tokenise none 0 Walk.cutOffBlob
        = (tokenise none 3 [0xc0, 0xc4, 2, 8]).behind [⟨.bin [7], 3⟩] := tokenise_of_complete hblob
      _ = ((tokenise none 4 [0xc4, 2, 8]).behind [⟨.nil, 1⟩]).behind [⟨.bin [7], 3⟩] := by
        rw [tokenise_of_complete hnil]
        rfl
      _ = ⟨[⟨.bin [7], 3⟩, ⟨.nil, 1⟩], [0xc4, 2, 8], none⟩ := by
        rw [tokenise_of_incomplete hrest]
        rfl
  rw [Decoding.inChunks, Reader.outcome_withCuts hfits, htokens]
  rfl

/-- The transcript and the walk have both tokens, and three bytes left over of the third. -/
theorem stories_agree_cutOffBlob :
    ∃ lines, ofChunks Walk.cutOffBlob 2 = .ok lines ∧
      lines.filterMap Line.value? = [.bin [7], .nil] ∧
      lines.filterMap Line.token? = (walked Walk.cutOffBlob 2 (some 1) 2).tokens ∧
      lines.flatMap Line.fed = Walk.cutOffBlob ∧
      (∃ m, lines.getLast? = some (.endedInside m 3)) ∧
      (walked Walk.cutOffBlob 2 (some 1) 2).ending = .ok (.cutOff 4 3) := by
  have hle : Walk.cutOffBlob.length + max 2 1 ≤ wordMax := by decide
  have hgranted : Granted Walk.cutOffBlob 2 (walked Walk.cutOffBlob 2 (some 1) 2) :=
    granted_of_room hle (by decide)
  obtain ⟨_, _, htold⟩ := stories_agree hle hgranted
  obtain ⟨lines, hlines, hstory⟩ := htold _ outcome_cutOffBlob
  obtain ⟨m, offset, hlast, hending, hsum⟩ := hstory.cutOff (by decide)
  obtain rfl : offset = 4 := Nat.add_right_cancel hsum
  exact ⟨lines, hlines, hstory.values_eq, hstory.tokens_eq, hstory.fed_eq, ⟨m, hlast⟩, hending⟩

end Transcript
end MessagePack
