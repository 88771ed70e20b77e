import MessagePack.Command.Validate
import MessagePack.Proofs.Limited
import MessagePack.Proofs.Standing
/-
  The limit for blobs is transparent but for the first blob that is too large. Two walks go side by side over one
  input, one without a limit and one with it. They hand over the same chunks and take the same tokens, until the
  second one has the header of a blob before it that declares too much: it refuses the blob there, while the first
  one goes on for the payload and takes the blob, or finds that the input cuts it off.

  What is proved:
    1. `beside_step`: a step does the same in both walks, or the limit refuses what stands there.
    2. `compares_run`: so do the runs, up to the first blob that declares too much.
    3. `report_of_accepted`: what a validation accepts does not depend on how much more is allowed.
    4. `blobLimit_transparent`: all this for every input, chunk size, message length and limit.
-/
namespace MessagePack

variable {most : Nat}

namespace Walk

/-! ## Where a walk stands -/

/-- A walk without a limit that stands where it should in `input`, whatever storage it has. -/
structure Aligned (input : Bytes) (w : Walk) : Prop where
  wellFormed : w.reader.arena.WellFormed
  open_eq : w.reader.arena.messageComplete = false
  limit_eq : w.reader.config.maxBlobLength = none
  ahead_eq : w.ahead = input.drop w.position

variable {input : Bytes}

theorem Aligned.ready {w : Walk} (hw : Aligned input w) : Ready w := ⟨hw.wellFormed, hw.open_eq⟩

theorem aligned_create {chunk : Nat} {chunk_pos : 0 < chunk} {valuesPerMessage : Option Nat}
    {config : Config} (hlimit : config.maxBlobLength = none) :
    Aligned input (create input chunk chunk_pos valuesPerMessage config).state := by
  have hs := standing_create input chunk chunk_pos valuesPerMessage config
  exact ⟨hs.wellFormed, hs.open_eq, hs.limit_eq.trans hlimit, hs.ahead_eq⟩

theorem Aligned.handOver {w : Walk} (hw : Aligned input w) {a : Arena}
    (hextends : w.reader.arena.Extends (w.rest.take w.chunk) a) : Aligned input (w.handOver a) := by
  have hready := hw.ready.handOver hextends
  refine ⟨hready.wellFormed, hready.open_eq, hw.limit_eq, ?_⟩
  rw [ahead_handOver hextends, position_handOver hextends, hw.ahead_eq]

theorem Aligned.taking {w : Walk} (hw : Aligned input w) {v : Value Extent} {n : Nat}
    (hfront : w.reader.front = .ok (.complete v n)) : Aligned input (w.taking n) := by
  obtain ⟨_, hn⟩ := Reader.le_remaining_of_front hw.wellFormed hfront
  have hready := hw.ready.taking hfront
  refine ⟨hready.wellFormed, hready.open_eq, hw.limit_eq, ?_⟩
  rw [ahead_taking hw.wellFormed hn, position_taking, hw.ahead_eq, List.drop_drop]

theorem Aligned.counted {w w' : Walk} (hw : Aligned input w) {calls : List Reader.Call}
    {es : List Event} (hcounts : Counts w calls ⟨.ok (), w', es⟩) : Aligned input w' := by
  have hready := hw.ready.counted hcounts
  cases hcounts with
  | kept => exact ⟨hready.wellFormed, hready.open_eq, hw.limit_eq, hw.ahead_eq⟩
  | closed =>
    refine ⟨hready.wellFormed, hready.open_eq, hw.limit_eq, ?_⟩
    rw [ahead_closing hw.wellFormed, position_closing, hw.ahead_eq]

theorem Hands.aligned {w last : Walk} {pieces : List Bytes} {es : List Event} (h : Hands w pieces es last)
    (hw : Aligned input w) : Aligned input last := by
  induction h with
  | nothing w => exact hw
  | piece bytes a hpasses hrest ih =>
    have hextends := hpasses.extends_feed
    rw [← hpasses.piece_eq] at hextends
    exact ih (hw.handOver hextends)

theorem Aligned.append_eq {w : Walk} (hw : Aligned input w) :
    w.reader.arena.unread ++ w.rest = input.drop w.position := hw.ahead_eq

theorem Aligned.unread_eq {w : Walk} (hw : Aligned input w) (hrest : w.rest = []) :
    w.reader.arena.unread = input.drop w.position :=
  (ahead_of_rest_nil hrest).symm.trans hw.ahead_eq

/-- What is taken under the limit keeps to it, in the reader and in the input. -/
theorem Aligned.declaresAtMost_of_front {w : Walk} (hw : Aligned input w) {v : Value Extent} {n : Nat}
    (hfront : (w.reader.limited most).front = .ok (.complete v n)) :
    DeclaresAtMost most (input.drop w.position) := by
  have hall := declaresAtMost_of_scan (scanBytes_append_of_complete hfront w.rest)
  rw [← hw.append_eq]
  exact hall

/-! ## A token that the limit refuses -/

/-- The failures of a walk that lacks something: room for a chunk, or a word for the place where it ends. -/
inductive Starved : Failure → Prop where
  | offsetOverflow : Starved (.violation .offsetOverflow)
  | allocationFailed (size : Nat) : Starved (.fault (.allocationFailed size))

/-- What the walk without the limit makes of a token at `p` that the limit refuses. -/
inductive Exceeds (p : Nat) : Except Failure Step → Prop where
  | starved (f : Failure) (h : Starved f) : Exceeds p (.error f)
  | cutOff (buffered : Nat) : Exceeds p (.ok (.cutOff p buffered))
  | took (m : Marker) (value : Value Bytes) : Exceeds p (.ok (.token ⟨p, m, value⟩))

/-- Without a limit no header of a blob is refused. -/
theorem not_error_of_declares {u : Bytes} {length : Nat} (h : DeclaresBlob u length) (offset : Nat)
    (e : DecodeError) : scanBytes none offset u ≠ .error e := by
  obtain ⟨tag, w, field, rest, rfl, hrow, hfield, _⟩ := h
  rw [scanBytes_of_header _ _ _ hrow hfield]
  simp only [Option.filter]
  split <;> simp

theorem Hands.declares {w last : Walk} {pieces : List Bytes} {es : List Event} (h : Hands w pieces es last)
    {length : Nat} (hdeclares : DeclaresBlob w.reader.arena.unread length) :
    DeclaresBlob last.reader.arena.unread length := by
  induction h with
  | nothing w => exact hdeclares
  | piece bytes a hpasses hrest ih =>
    apply ih
    show DeclaresBlob a.unread length
    rw [hpasses.extends_feed.unread_eq]
    exact hdeclares.append bytes

theorem Answers.exceeds {w : Walk} {reply : Reply Walk Step} (h : Answers w reply)
    (hlimit : w.reader.config.maxBlobLength = none) {length : Nat}
    (hdeclares : DeclaresBlob w.reader.arena.unread length) : Exceeds w.position reply.outcome := by
  cases h with
  | refused e hfront =>
    rw [Reader.front, hlimit] at hfront
    exact absurd hfront (not_error_of_declares hdeclares _ e)
  | overflowed => exact .starved _ .offsetOverflow
  | denied _ _ _ size => exact .starved _ (.allocationFailed size)
  | finished hrest hu =>
    obtain ⟨tag, _, _, _, hcons, _⟩ := hdeclares
    rw [hu] at hcons
    cases hcons
  | cutOff => exact .cutOff _
  | took v n m => exact .took m _

/-- More chunks change nothing about the header that is before the walk. -/
theorem exceeds_advance {w : Walk} (hw : Aligned input w) {length : Nat}
    (hdeclares : DeclaresBlob w.reader.arena.unread length) (events : List Event) :
    Exceeds w.position (w.advance events).outcome := by
  obtain ⟨pieces, es, last, reply, hgoes, hadvance⟩ := goes hw.ready events
  have hlast := hgoes.hands.aligned hw
  rw [hadvance, ← hgoes.hands.beholds.position_eq]
  exact hgoes.answers.exceeds hlast.limit_eq (hgoes.hands.declares hdeclares)

/-! ## Steps side by side -/

/-- An answer to what stands at `p` that the limit leaves as it is. -/
inductive Allowed (input : Bytes) (most p : Nat) : Except Failure Step → Walk → Prop where
  | failed (f : Failure) (w : Walk) : Allowed input most p (.error f) w
  | finished (w : Walk) : Allowed input most p (.ok .finished) w
  | cutOff (buffered : Nat) (w : Walk) (h : DeclaresAtMost most (input.drop p)) :
      Allowed input most p (.ok (.cutOff p buffered)) w
  | took (m : Marker) (value : Value Bytes) (w : Walk) (h : DeclaresAtMost most (input.drop p))
      (hw : Aligned input w) : Allowed input most p (.ok (.token ⟨p, m, value⟩)) w

/-- A step at position `p`, counted as `offset`, beside the same step with the limit: both do the same, or the
limit refuses what stands there. -/
inductive Beside (input : Bytes) (most p offset : Nat) : Reply Walk Step → Reply Walk Step → Prop where
  | same (free : Reply Walk Step) (h : Allowed input most p free.outcome free.state) :
      Beside input most p offset free (free.within (limited most))
  | refused (length : Nat) (hdeclares : DeclaresBlob (input.drop p) length) (hlt : most < length)
      (free : Reply Walk Step) (hfree : Exceeds p free.outcome) (w : Walk) (es : List Event) :
      Beside input most p offset free ⟨.error (.fault (.blobTooLarge length most offset)), w, es⟩

/-- Both walks hand over the same chunks until one of them answers. -/
theorem beside_advance {w : Walk} (hw : Aligned input w) (events : List Event) :
    Beside input most w.position w.reader.cursor (w.advance events) ((w.limited most).advance events) := by
  -- What the limit makes of the bytes in the reader comes first: where it refuses them, the turns of the two
  -- walks have nothing in common, and the one without the limit may feed many chunks more.
  induction hn : w.rest.length using Nat.strongRecOn generalizing w events with
  | ind n ih =>
    obtain hsmall | ⟨length, hdeclares, hlt⟩ := declaresAtMost_or most w.reader.arena.unread
    · have hfront := Reader.front_of_declaresAtMost hw.limit_eq hsmall
      have hread := Reader.readValue_limited hw.wellFormed hw.open_eq hfront
      rw [advance_eq w, advance_eq (w.limited most), turn_limited hread]
      have hless := rest_turn_lt (w := w)
      have hmoves := moves hw.wellFormed hw.open_eq
      generalize w.turnCalls = calls at hmoves
      generalize w.turn = reply at hmoves hless ⊢
      cases hmoves with
      | refused look hlook e hfront => exact .same ⟨_, w, _⟩ (.failed _ w)
      | failed look calls hlook hfront f w' es hfeeds => exact .same ⟨_, w', _⟩ (.failed f w')
      | fed look calls hlook hfront w' es hfeeds =>
        cases hfeeds with
        | handed piece h hpiece hsome a es hfeed hextends =>
          have hbeside := ih _ (hn ▸ hless rfl) (hw.handOver (hpiece ▸ hextends)) (events ++ es) rfl
          have hcursor : (w.handOver a).reader.cursor = w.reader.cursor := hextends.readCursor_eq
          rwa [position_handOver hextends, hcursor] at hbeside
      | finished look hlook hrest hu => exact .same ⟨_, w, _⟩ (.finished w)
      | cutOff look hlook hrest hu hfront =>
        -- Nothing is left to feed, so what is unread is all that the input has.
        rw [hw.unread_eq hrest] at hsmall
        exact .same ⟨_, w, _⟩ (.cutOff _ w hsmall)
      | took v n m hmarker hfound calls w' es hcounts =>
        have hall := hw.declaresAtMost_of_front (hfront.trans hfound)
        exact .same ⟨_, w', _⟩ (.took m _ w' hall ((hw.taking hfound).counted hcounts))
    · rw [advance_eq (w.limited most), turn_of_oversized hw.wellFormed hw.open_eq hdeclares hlt]
      have hall := hdeclares.append w.rest
      rw [hw.append_eq] at hall
      exact .refused length hall hlt _ (exceeds_advance hw hdeclares events) _ _

theorem Allowed.shift {p base : Nat} {answer : Except Failure Step} {w : Walk}
    (h : Allowed input most p answer w) : Allowed input most p (answer.mapError (.shift base)) w := by
  cases h with
  | failed f => exact .failed _ w
  | finished => exact .finished w
  | cutOff buffered _ hsmall => exact .cutOff buffered w hsmall
  | took m value _ hsmall hw => exact .took m value w hsmall hw

theorem Exceeds.shift {p base : Nat} {answer : Except Failure Step} (h : Exceeds p answer) :
    Exceeds p (answer.mapError (.shift base)) := by
  cases h with
  | starved f hstarved =>
    cases hstarved with
    | offsetOverflow => exact .starved _ .offsetOverflow
    | allocationFailed size => exact .starved _ (.allocationFailed size)
  | cutOff buffered => exact .cutOff buffered
  | took m value => exact .took m value

/-- In a step the offset of the refusal is counted in the input. -/
theorem beside_step {w : Walk} (hw : Aligned input w) :
    Beside input most w.position w.position w.step (w.limited most).step := by
  have hbeside : Beside input most _ _ _ _ := beside_advance hw []
  have hbase : (w.limited most).base = w.base := rfl
  unfold step
  rw [hbase]
  simp only
  generalize w.advance [] = free at hbeside ⊢
  generalize (w.limited most).advance [] = bounded at hbeside ⊢
  cases hbeside with
  | same _ h => exact .same ⟨_, _, _⟩ h.shift
  | refused length hdeclares hlt _ hfree w' es =>
    exact .refused length hdeclares hlt ⟨_, _, _⟩ hfree.shift w' es

/-! ## Runs side by side -/

/-- The token with number `n` of a run starts at `offset`; behind the last whole token it may be one that the
input cuts off. -/
inductive Run.Reaches (run : Run) (n offset : Nat) : Prop where
  | token (t : Token) (h : run.tokens[n]? = some t) (hoffset : t.offset = offset) : Reaches run n offset
  | cutOff (buffered : Nat) (hn : n = run.tokens.length) (h : run.ending = .ok (.cutOff offset buffered)) :
      Reaches run n offset

/-- The token with number `n` of a run over `input` is a blob at `offset` that declares `length` bytes. -/
def Run.Declares (input : Bytes) (run : Run) (n offset length : Nat) : Prop :=
  run.Reaches n offset ∧ DeclaresBlob (input.drop offset) length

/-- No token with a number below `n` is a blob that declares more bytes than the limit. -/
def Run.KeepsTo (input : Bytes) (most n : Nat) (run : Run) : Prop :=
  ∀ m < n, ∀ offset length, run.Declares input m offset length → length ≤ most

/-- How a run with the limit goes beside a run without. -/
inductive Compares (input : Bytes) (most : Nat) (free : Run) : Run → Prop where
  | same (h : ∀ n, free.KeepsTo input most n) (w : Walk) : Compares input most free { free with walk := w }
  | refused (n offset length : Nat) (hbefore : free.KeepsTo input most n)
      (hfound : free.Declares input n offset length ∨ ∃ f, free.ending = .error f ∧ Starved f)
      (hlt : most < length) (w : Walk) (es : List Event) :
      Compares input most free
        ⟨free.tokens.take n, .error (.fault (.blobTooLarge length most offset)), w, es⟩

theorem Run.KeepsTo.mono {run : Run} {n larger : Nat} (h : run.KeepsTo input most n)
    (hle : most ≤ larger) : run.KeepsTo input larger n :=
  fun m hm offset length hdeclares => Nat.le_trans (h m hm offset length hdeclares) hle

/-- A blob that declares too much does not come before. -/
theorem Run.KeepsTo.le_of_oversized {run : Run} {m n offset length : Nat} (h : run.KeepsTo input most n)
    (hdeclares : run.Declares input m offset length) (hlt : most < length) : n ≤ m := by
  apply Nat.le_of_not_lt
  intro hless
  exact absurd (h m hless offset length hdeclares) (Nat.not_le_of_lt hlt)

theorem Run.declares_zero {run : Run} {t : Token} {es : List Event} {offset length : Nat}
    (h : (run.behind [t] es).Declares input 0 offset length) : DeclaresBlob (input.drop t.offset) length := by
  obtain ⟨hreaches, hdeclares⟩ := h
  cases hreaches with
  | token t' h hoffset =>
    cases h
    rw [hoffset]
    exact hdeclares
  | cutOff buffered hn => cases hn

theorem Run.declares_succ {run : Run} {t : Token} {es : List Event} {n offset length : Nat} :
    (run.behind [t] es).Declares input (n + 1) offset length ↔ run.Declares input n offset length := by
  refine and_congr_left fun _ => ⟨?_, ?_⟩
  · intro hreaches
    cases hreaches with
    | token t' h hoffset => exact .token t' h hoffset
    | cutOff buffered hn h => exact .cutOff buffered (Nat.succ.inj hn) h
  · intro hreaches
    cases hreaches with
    | token t' h hoffset => exact .token t' h hoffset
    | cutOff buffered hn h => exact .cutOff buffered (congrArg Nat.succ hn) h

theorem Run.KeepsTo.behind {run : Run} {t : Token} {n : Nat} (h : run.KeepsTo input most n)
    (hsmall : DeclaresAtMost most (input.drop t.offset)) (es : List Event) :
    (run.behind [t] es).KeepsTo input most (n + 1) := by
  intro m hm offset length hdeclares
  cases m with
  | zero => exact hsmall length (Run.declares_zero hdeclares)
  | succ m => exact h m (Nat.lt_of_succ_lt_succ hm) offset length (Run.declares_succ.1 hdeclares)

theorem Compares.behind {free bounded : Run} {t : Token} (h : Compares input most free bounded)
    (hsmall : DeclaresAtMost most (input.drop t.offset)) (es : List Event) :
    Compares input most (free.behind [t] es) (bounded.behind [t] es) := by
  cases h with
  | same h w =>
    refine .same ?_ w
    intro n
    have hbehind := (h n).behind hsmall es
    intro m hm
    exact hbehind m (Nat.lt_succ_of_lt hm)
  | refused n offset length hbefore hfound hlt w es' =>
    refine .refused (n + 1) offset length (hbefore.behind hsmall es) ?_ hlt w _
    rw [Run.declares_succ]
    exact hfound

/-- A refused step ends the run with the limit, before any token. -/
theorem compares_of_refused {w w' : Walk} {length : Nat} {es : List Event}
    (hstep : (w.limited most).step = ⟨.error (.fault (.blobTooLarge length most w.position)), w', es⟩)
    (hlt : most < length) {free : Run}
    (hfound : free.Declares input 0 w.position length ∨ ∃ f, free.ending = .error f ∧ Starved f) :
    Compares input most free (w.limited most).run := by
  rw [run_of_runs (.ends hstep (by simp))]
  exact .refused 0 w.position length (fun _ h => absurd h (Nat.not_lt_zero _)) hfound hlt _ _

/-- A walk with the limit goes through the steps of the walk without, up to the first one it refuses. -/
theorem compares_run {w : Walk} {free : Run} (hruns : Runs w free) (hw : Aligned input w) :
    Compares input most free (w.limited most).run := by
  -- By the steps of the run without the limit; where the limit refuses one, the other run is at its end.
  induction hruns with
  | @ends w w' ending es hstep hlast =>
    have hbeside : Beside input most _ _ _ _ := beside_step hw
    rw [hstep] at hbeside
    generalize hlimited : (w.limited most).step = reply at hbeside
    cases hbeside with
    | same _ hallowed =>
      rw [run_of_runs (.ends hlimited hlast)]
      refine .same ?_ _
      intro n m _ offset length hdeclares
      obtain ⟨hreaches, hdeclares⟩ := hdeclares
      cases hreaches with
      | token t h => cases h
      | cutOff buffered hm hending =>
        simp only at hending
        subst hending
        cases hallowed with
        | cutOff _ _ hsmall => exact hsmall length hdeclares
    | refused length hdeclares hlt _ hfree =>
      refine compares_of_refused hlimited hlt ?_
      simp only at hfree
      cases hfree with
      | starved f hstarved => exact .inr ⟨f, rfl, hstarved⟩
      | cutOff buffered => exact .inl ⟨.cutOff buffered rfl rfl, hdeclares⟩
      | took m value => exact absurd rfl (hlast _)
  | @goes w w' t es run hstep hrest ih =>
    have hbeside : Beside input most _ _ _ _ := beside_step hw
    rw [hstep] at hbeside
    generalize hlimited : (w.limited most).step = reply at hbeside
    cases hbeside with
    | same _ hallowed =>
      cases hallowed with
      | took m value _ hsmall hw' =>
        rw [run_of_runs (.goes hlimited (runs (w'.limited most)))]
        exact (ih hw').behind hsmall es
    | refused length hdeclares hlt _ hfree =>
      refine compares_of_refused hlimited hlt ?_
      cases hfree with
      | took m value => exact .inl ⟨.token _ rfl rfl, hdeclares⟩

theorem Run.Reaches.unique {run : Run} {n offset offset' : Nat} (h : run.Reaches n offset)
    (h' : run.Reaches n offset') : offset = offset' := by
  cases h with
  | token t ht hoffset =>
    cases h' with
    | token t' ht' hoffset' =>
      rw [ht] at ht'
      cases ht'
      rw [← hoffset, hoffset']
    | cutOff buffered' hn' _ =>
      rw [List.getElem?_eq_none (Nat.le_of_eq hn'.symm)] at ht
      cases ht
  | cutOff buffered hn hending =>
    cases h' with
    | token t' ht' _ =>
      rw [List.getElem?_eq_none (Nat.le_of_eq hn.symm)] at ht'
      cases ht'
    | cutOff buffered' _ hending' =>
      rw [hending] at hending'
      cases hending'
      rfl

theorem Run.Declares.unique {run : Run} {n offset length offset' length' : Nat}
    (h : run.Declares input n offset length) (h' : run.Declares input n offset' length') :
    offset = offset' ∧ length = length' := by
  obtain ⟨hreaches, hdeclares⟩ := h
  obtain ⟨hreaches', hdeclares'⟩ := h'
  obtain rfl := hreaches.unique hreaches'
  exact ⟨rfl, hdeclares.unique hdeclares'⟩

/-- What a limit changes in a run: nothing, unless a blob that is reached declares more; and then the first such
blob, whole or cut off, ends the run with its refusal. -/
structure Transparent (input : Bytes) (most : Nat) (free bounded : Run) : Prop where
  same : (∀ n offset length, free.Declares input n offset length → length ≤ most) →
    bounded.tokens = free.tokens ∧ bounded.ending = free.ending
  refused : ∀ n offset length, free.Declares input n offset length → most < length →
    (∀ m < n, ∀ offset' length', free.Declares input m offset' length' → length' ≤ most) →
    bounded.tokens = free.tokens.take n ∧
      bounded.ending = .error (.fault (.blobTooLarge length most offset))

theorem transparent_of_compares {free bounded : Run} (h : Compares input most free bounded)
    (hfed : ∀ f, free.ending = .error f → ¬ Starved f) : Transparent input most free bounded := by
  cases h with
  | same h w =>
    refine ⟨fun _ => ⟨rfl, rfl⟩, ?_⟩
    intro n offset length hdeclares hlt
    exact absurd ((h (n + 1)).le_of_oversized hdeclares hlt) (Nat.not_succ_le_self n)
  | refused n offset length hbefore hfound hlt w es =>
    obtain hdeclares | ⟨f, hending, hstarved⟩ := hfound
    · refine ⟨?_, ?_⟩
      · intro hall
        exact absurd (hall n offset length hdeclares) (Nat.not_le_of_lt hlt)
      · intro n' offset' length' hdeclares' hlt' hbefore'
        -- Both are the first blob that is too large.
        have hle : n ≤ n' := hbefore.le_of_oversized hdeclares' hlt'
        have hge : n' ≤ n := Run.KeepsTo.le_of_oversized hbefore' hdeclares hlt
        obtain rfl : n = n' := Nat.le_antisymm hle hge
        obtain ⟨rfl, rfl⟩ := hdeclares.unique hdeclares'
        exact ⟨rfl, rfl⟩
    · exact absurd hstarved (hfed f hending)

/-- A run with the limit that comes to an end without a failure is the run without. -/
theorem Compares.same_of_ok {free bounded : Run} (h : Compares input most free bounded) {s : Step}
    (hok : bounded.ending = .ok s) :
    (∀ n, free.KeepsTo input most n) ∧ bounded.tokens = free.tokens ∧ bounded.ending = free.ending := by
  cases h with
  | same h w => exact ⟨h, rfl, rfl⟩
  | refused => cases hok

/-- A run without the limit that comes to an end and keeps to it is the run with the limit. -/
theorem Compares.same_of_keeps {free bounded : Run} (h : Compares input most free bounded) {s : Step}
    (hok : free.ending = .ok s) (hsmall : ∀ n, free.KeepsTo input most n) :
    bounded.tokens = free.tokens ∧ bounded.ending = free.ending := by
  cases h with
  | same h w => exact ⟨rfl, rfl⟩
  | refused n offset length _ hfound hlt =>
    obtain hdeclares | ⟨f, hending, _⟩ := hfound
    · exact absurd ((hsmall (n + 1)).le_of_oversized hdeclares hlt) (Nat.not_succ_le_self n)
    · rw [hok] at hending
      cases hending

/-- The run over `input` with this limit, from a storage of `capacity` bytes. -/
def runOver (input : Bytes) (chunk : Nat) (chunk_pos : 0 < chunk) (valuesPerMessage : Option Nat)
    (capacity : Nat) (limit : Option Nat) (allocator : Allocator := .standard) : Run :=
  (create input chunk chunk_pos valuesPerMessage
    { initialCapacity := capacity, maxBlobLength := limit, allocator }).state.run

theorem compares_runOver (input : Bytes) (chunk : Nat) (chunk_pos : 0 < chunk)
    (valuesPerMessage : Option Nat) (capacity most : Nat) (allocator : Allocator) :
    Compares input most (runOver input chunk chunk_pos valuesPerMessage capacity none allocator)
      (runOver input chunk chunk_pos valuesPerMessage capacity (some most) allocator) :=
  compares_run (runs _) (aligned_create rfl)

end Walk

/-! ## Validation -/

namespace Validate

/-- The report on a file of `size` bytes, by the run over it. -/
def conclude (run : Walk.Run) (size : Nat) : Report :=
  match run.ending with
  | .error f => rejected f.message
  | .ok (.cutOff offset buffered) => rejected (cutOffText offset buffered)
  | .ok _ => ⟨(run.tokens.foldl Tally.count {}).lines size, none⟩

theorem report_eq (o : Arguments.ValidateOptions) (bytes : Bytes) :
    report o bytes = match (Arena.create o.chunkSize).outcome with
      | .error f => .failed f.message
      | .ok () => conclude (Walk.runOver bytes o.chunkSize o.chunkSize_pos (some 1) o.chunkSize
        o.maxBlobLength) bytes.length := by
  unfold report walk Walk.runOver Walk.create Reader.create
  generalize Arena.create o.chunkSize = reply
  obtain ⟨outcome, a, es⟩ := reply
  cases outcome with
  | error f => rfl
  | ok u => rfl

theorem conclude_congr {run run' : Walk.Run} (htokens : run'.tokens = run.tokens)
    (hending : run'.ending = run.ending) (size : Nat) : conclude run' size = conclude run size := by
  unfold conclude
  rw [htokens, hending]

/-- Only a run that comes to an end without a failure is accepted. -/
theorem ending_of_accepted {run : Walk.Run} {size : Nat} (h : (conclude run size).failure = none) :
    ∃ s, run.ending = .ok s := by
  unfold conclude at h
  cases hending : run.ending with
  | error f =>
    rw [hending] at h
    cases h
  | ok s => exact ⟨s, rfl⟩

/-- What is accepted under a limit gives the same report under a larger one, and without one. -/
theorem report_of_accepted {o : Arguments.ValidateOptions} {bytes : Bytes} {most : Nat}
    (h : (report { o with maxBlobLength := some most } bytes).failure = none) :
    report { o with maxBlobLength := none } bytes = report { o with maxBlobLength := some most } bytes ∧
    ∀ larger, most ≤ larger → report { o with maxBlobLength := some larger } bytes
      = report { o with maxBlobLength := some most } bytes := by
  have hcompares (limit : Nat) :=
    Walk.compares_runOver bytes o.chunkSize o.chunkSize_pos (some 1) o.chunkSize limit .standard
  simp only [report_eq] at h ⊢
  cases hcreate : (Arena.create o.chunkSize).outcome with
  | error f => exact ⟨rfl, fun _ _ => rfl⟩
  | ok u =>
    rw [hcreate] at h
    simp only at h ⊢
    obtain ⟨s, hok⟩ := ending_of_accepted h
    obtain ⟨hsmall, htokens, hending⟩ := (hcompares most).same_of_ok hok
    have hfree := conclude_congr htokens hending bytes.length
    rw [hending] at hok
    refine ⟨hfree.symm, ?_⟩
    intro larger hle
    have hlarger (n : Nat) := (hsmall n).mono hle
    obtain ⟨htokens', hending'⟩ := (hcompares larger).same_of_keeps hok hlarger
    rw [conclude_congr htokens' hending', hfree]

end Validate

/-! ## The limit -/

/-- The limit for blobs is transparent. A run with the limit gives the tokens and the end of the run without, if
that reaches no blob that declares more; else the tokens before the first such blob, and then its refusal, also
where the input ends inside it. So what a validation accepts under a limit it accepts under every larger one, and
without one, with the same report. -/
theorem blobLimit_transparent :
    (∀ (input : Bytes) (chunk : Nat) (chunk_pos : 0 < chunk) (valuesPerMessage : Option Nat)
      (capacity most : Nat) (allocator : Allocator),
      (∀ f, (Walk.runOver input chunk chunk_pos valuesPerMessage capacity none allocator).ending = .error f →
        ¬ Walk.Starved f) →
      Walk.Transparent input most (Walk.runOver input chunk chunk_pos valuesPerMessage capacity none allocator)
        (Walk.runOver input chunk chunk_pos valuesPerMessage capacity (some most) allocator)) ∧
    ∀ (o : Arguments.ValidateOptions) (bytes : Bytes) (most : Nat),
      (Validate.report { o with maxBlobLength := some most } bytes).failure = none →
      Validate.report { o with maxBlobLength := none } bytes
        = Validate.report { o with maxBlobLength := some most } bytes ∧
      ∀ larger, most ≤ larger → Validate.report { o with maxBlobLength := some larger } bytes
        = Validate.report { o with maxBlobLength := some most } bytes := by
  refine ⟨?_, ?_⟩
  · intro input chunk chunk_pos valuesPerMessage capacity most allocator hfed
    have hcompares := Walk.compares_runOver input chunk chunk_pos valuesPerMessage capacity most allocator
    exact Walk.transparent_of_compares hcompares hfed
  · intro o bytes most haccepted
    exact Validate.report_of_accepted haccepted

/-- A nil, and a blob of three bytes that is cut off behind two of them. -/
def nilAndTail : Bytes := [0xc0, 0xc4, 3, 1, 2]

/-- The walk over it without a limit, two bytes at a time and with one value in a message. -/
def tailWalk : Walk := (Walk.create nilAndTail 2 Nat.two_pos (some 1) { initialCapacity := 4 }).state

theorem run_tailWalk :
    tailWalk.run.tokens = [⟨0, .nil, .nil⟩] ∧ tailWalk.run.ending = .ok (.cutOff 1 4) := by
  have hnil : ∃ es, tailWalk.step = ⟨.ok (.token ⟨0, .nil, .nil⟩), tailWalk.turned 2, es⟩ := by
    rw [Walk.step, Walk.advance_of_handed rfl, Walk.advance_of_answer rfl]
    exact ⟨_, rfl⟩
  have hlast : ∃ es, (tailWalk.turned 2).step = ⟨.ok (.cutOff 1 4), tailWalk.turned 5, es⟩ := by
    rw [Walk.step, Walk.advance_of_handed rfl, Walk.advance_of_handed rfl, Walk.advance_of_answer rfl]
    exact ⟨_, rfl⟩
  obtain ⟨_, hnil⟩ := hnil
  obtain ⟨_, hlast⟩ := hlast
  rw [Walk.run_of_runs (.goes hnil (.ends hlast (by simp)))]
  exact ⟨rfl, rfl⟩

theorem declares_tail : DeclaresBlob (nilAndTail.drop 1) 3 :=
  ⟨0xc4, .w8, [3], [1, 2], rfl, by decide, rfl, rfl⟩

/-- The only blob that is reached is the one that is cut off. -/
theorem declares_tailWalk {n offset length : Nat} (h : tailWalk.run.Declares nilAndTail n offset length) :
    n = 1 ∧ length = 3 := by
  obtain ⟨htokens, hending⟩ := run_tailWalk
  obtain ⟨hreaches, hdeclares⟩ := h
  cases hreaches with
  | token t ht hoffset =>
    rw [htokens] at ht
    obtain rfl : t = ⟨0, .nil, .nil⟩ := List.mem_singleton.1 (List.mem_of_getElem? ht)
    subst hoffset
    obtain ⟨tag, w, field, rest, hcons, hrow, _⟩ := hdeclares
    obtain rfl : 0xc0 = tag := (List.cons.inj hcons).1
    simp [blobRows] at hrow
  | cutOff buffered hn hcut =>
    rw [hending] at hcut
    cases hcut
    rw [htokens] at hn
    exact ⟨hn, hdeclares.unique declares_tail⟩

/-- A file with one blob of one byte. -/
def blobOfOne : Bytes := [0xc4, 1, 7]

/-- How the file is validated, two bytes at a time. -/
def validateBlob (limit : Option Nat) : Arguments.ValidateOptions :=
  { file := "blob", chunkSize := 2, chunkSize_pos := Nat.two_pos, maxBlobLength := limit }

/-- The walk over it under a limit of one byte. -/
def blobWalk : Walk :=
  (Walk.create blobOfOne 2 Nat.two_pos (some 1) { initialCapacity := 2, maxBlobLength := some 1 }).state

theorem accepted_blobOfOne : (Validate.report (validateBlob (some 1)) blobOfOne).failure = none := by
  have hblob : ∃ es, blobWalk.step = ⟨.ok (.token ⟨0, .bin8, .bin [7]⟩), blobWalk.turned 3, es⟩ := by
    rw [Walk.step, Walk.advance_of_handed rfl, Walk.advance_of_handed rfl, Walk.advance_of_answer rfl]
    exact ⟨_, rfl⟩
  have hlast : ∃ es, (blobWalk.turned 3).step = ⟨.ok .finished, blobWalk.turned 4, es⟩ := by
    rw [Walk.step, Walk.advance_of_answer rfl]
    exact ⟨_, rfl⟩
  obtain ⟨_, hblob⟩ := hblob
  obtain ⟨_, hlast⟩ := hlast
  rw [Validate.report_eq]
  show (Validate.conclude blobWalk.run 3).failure = none
  rw [Walk.run_of_runs (.goes hblob (.ends hlast (by simp)))]
  rfl

/-- Under a limit of two bytes the blob that is cut off ends the run with its refusal; under one of three the run
says that it is cut off. What is accepted with a blob as long as the limit is accepted without one. -/
theorem blobLimit_transparent_nilAndTail :
    (Walk.runOver nilAndTail 2 Nat.two_pos (some 1) 4 (some 2)).tokens = [⟨0, .nil, .nil⟩] ∧
    (Walk.runOver nilAndTail 2 Nat.two_pos (some 1) 4 (some 2)).ending
      = .error (.fault (.blobTooLarge 3 2 1)) ∧
    (Walk.runOver nilAndTail 2 Nat.two_pos (some 1) 4 (some 3)).ending = .ok (.cutOff 1 4) ∧
    (Validate.report (validateBlob none) blobOfOne).failure = none := by
  obtain ⟨htokens, hending⟩ := run_tailWalk
  have hfed (f : Failure) (hfailed : tailWalk.run.ending = .error f) : ¬ Walk.Starved f := by
    rw [hending] at hfailed
    cases hfailed
  have htail : tailWalk.run.Declares nilAndTail 1 1 3 :=
    ⟨.cutOff 4 (by rw [htokens]; rfl) hending, declares_tail⟩
  have htwo := blobLimit_transparent.1 nilAndTail 2 Nat.two_pos (some 1) 4 2 .standard hfed
  have hthree := blobLimit_transparent.1 nilAndTail 2 Nat.two_pos (some 1) 4 3 .standard hfed
  have hreport := (blobLimit_transparent.2 (validateBlob none) blobOfOne 1 accepted_blobOfOne).1
  have hbefore (m : Nat) (hm : m < 1) (offset length : Nat)
      (h : tailWalk.run.Declares nilAndTail m offset length) : length ≤ 2 := by
    have hn := (declares_tailWalk h).1
    omega
  obtain ⟨hkept, hrefused⟩ := htwo.refused 1 1 3 htail (by decide) hbefore
  obtain ⟨_, hsame⟩ := hthree.same fun n offset length h => Nat.le_of_eq (declares_tailWalk h).2
  refine ⟨?_, hrefused, hsame.trans hending, ?_⟩
  · rw [hkept]
    show tailWalk.run.tokens.take 1 = _
    rw [htokens]
    rfl
  · exact (congrArg Report.failure hreport).trans accepted_blobOfOne

end MessagePack
