import MessagePack.Command.Validate
import MessagePack.Proofs.Grammar
import MessagePack.Proofs.Room
import MessagePack.Proofs.Walking
/-
  The footprint of a walk: how much a walk holds at a time, whatever its input is and whatever lengths the
  headers in it declare.

  A chunk is fed only where bytes are lacking, and then what is unread is a proper part of one token that is
  not refused, which has a greatest length. Before it lie the tokens of the current message that have been
  taken. So the bytes held are fewer than those of the greatest message, and one chunk.

  The states between the calls that a turn makes on its reader are looked at too. Feeding is the only one of
  these calls after which more is held than before, and it is the last one of its turn.

  What is proved:
    1. `length_le_tokenMax`, `length_lt_tokenMax`: a token that is taken has at most so many bytes, and one
       that lacks bytes has fewer.
    2. `Modest.next`: every turn keeps the bounds that feeding goes by.
    3. `Modest.within_calls`: so does every call of a turn.
    4. `footprint_bounded`: no call of any turn exceeds them.
-/
namespace MessagePack

/-! ## How long a token can be -/

/-- The most bytes that a token can have which a reader with this limit takes: a number of eight bytes, or a
blob with the longest header and as long as the limit, or the header, allows. -/
def tokenMax (limit : Option Nat) : Nat := max 9 (5 + limit.getD 0xffffffff)

theorem nine_le_tokenMax (limit : Option Nat) : 9 ≤ tokenMax limit := Nat.le_max_left _ _

theorem bytes_le_of_blobRow {tag : UInt8} {w : Width} (h : (tag, w) ∈ blobRows) : w.bytes ≤ 4 := by
  have hall : ∀ p ∈ blobRows, p.2.bytes ≤ 4 := by decide
  exact hall _ h

/-- A length that is not refused, although there is no limit but what its field can say. -/
theorem le_of_allows {limit : Option Nat} {tag : UInt8} {w : Width} {field : Bytes}
    (hrow : (tag, w) ∈ blobRows) (hfield : field.length = w.bytes)
    (h : Allows limit (ofBigEndian field)) : ofBigEndian field ≤ limit.getD 0xffffffff := by
  cases limit with
  | some most => exact h most rfl
  | none =>
    have hlt := ofBigEndian_lt_of_field hfield
    have hbytes := bytes_le_of_blobRow hrow
    have hpow : 2 ^ w.bits ≤ 2 ^ 32 := by
      apply Nat.pow_le_pow_right (by decide)
      unfold Width.bits
      omega
    show ofBigEndian field ≤ 0xffffffff
    omega

/-- A token is short, or it is a blob. -/
theorem Denotes.length_cases {s : Bytes} {v : Value Bytes} (h : Denotes s v) :
    s.length ≤ 9 ∨ ∃ tag w field data, s = tag :: (field ++ data) ∧ (tag, w) ∈ blobRows ∧
      field.length = w.bytes ∧ ofBigEndian field = data.length ∧ v = .bin data := by
  obtain ⟨b, m, _, _, hlength⟩ := h.length_eq
  have hheader := m.headerLength_le
  cases h with
  | blob tag w field data hrow hfield hdata =>
    exact .inr ⟨tag, w, field, data, rfl, hrow, hfield, hdata, rfl⟩
  | _ =>
    left
    simp only [Value.payloadLength] at hlength
    omega

/-- A blob that is not refused is no longer than a token can be. -/
theorem length_blob_le {limit : Option Nat} {tag : UInt8} {w : Width} {field data : Bytes}
    (hrow : (tag, w) ∈ blobRows) (hfield : field.length = w.bytes)
    (hdata : ofBigEndian field = data.length) (h : Allows limit (ofBigEndian field)) :
    (tag :: (field ++ data)).length ≤ tokenMax limit := by
  have hbytes := bytes_le_of_blobRow hrow
  have hle := le_of_allows hrow hfield h
  have hmax : 5 + limit.getD 0xffffffff ≤ tokenMax limit := Nat.le_max_right _ _
  simp only [List.length_cons, List.length_append]
  omega

/-- A token that is taken is no longer than a token can be. -/
theorem length_le_tokenMax {limit : Option Nat} {offset : Nat} {u : Bytes} {v : Value Extent} {n : Nat}
    (h : scanBytes limit offset u = .ok (.complete v n)) : n ≤ tokenMax limit := by
  have hstands := stands_iff.2 h
  cases hstands with
  | token n v hn hdenotes hv =>
    have hlength : (u.take n).length = n := List.length_take_of_le hn
    obtain hshort | ⟨tag, w, field, data, hs, hrow, hfield, hdata, rfl⟩ := hdenotes.length_cases
    · have hnine := nine_le_tokenMax limit
      omega
    · have hallows : Allows limit (ofBigEndian field) := by
        rw [hdata]
        exact hv
      have hblob := length_blob_le hrow hfield hdata hallows
      rwa [← hs, hlength] at hblob

/-- What lacks bytes of a token is shorter than a token can be. -/
theorem length_lt_tokenMax {limit : Option Nat} {offset : Nat} {u : Bytes}
    (h : scanBytes limit offset u = .ok .incomplete) : u.length < tokenMax limit := by
  have hnine := nine_le_tokenMax limit
  have hstands := stands_iff.2 h
  cases hstands with
  | nothing hnil =>
    rw [hnil, List.length_nil]
    omega
  | cutOff hbegins hallowed =>
    obtain ⟨more, value, hmore, hdenotes⟩ := hbegins
    have hpos : 0 < more.length := List.length_pos_iff.2 hmore
    have hlength : (u ++ more).length = u.length + more.length := List.length_append
    obtain hshort | ⟨tag, w, field, data, hs, hrow, hfield, hdata, _⟩ := hdenotes.length_cases
    · omega
    · have hbytes := bytes_le_of_blobRow hrow
      by_cases hheader : (tag :: field).length ≤ u.length
      · -- The header is all there, so the length it declares has passed the limit.
        obtain ⟨rest, hu⟩ : tag :: field <+: u :=
          List.prefix_of_prefix_length_le ⟨data, hs.symm⟩ ⟨more, rfl⟩ hheader
        have hallows := hallowed _ ⟨tag, w, field, rest, hu.symm, hrow, hfield, rfl⟩
        have hblob := length_blob_le hrow hfield hdata hallows
        rw [← hs] at hblob
        omega
      · rw [List.length_cons] at hheader
        omega

/-! ## Calls that hold no more than before -/

namespace Reader

/-- The calls that add nothing to an arena. -/
def Call.adds : Call → Bool
  | .feed _ | .reserve _ _ | .commit _ => true
  | _ => false

/-- No more bytes are held than `held`, and the storage is no larger than `room`. -/
structure Within (held room : Nat) (r : Reader) : Prop where
  usedEnd_le : r.arena.usedEnd ≤ held
  capacity_le : r.arena.capacity ≤ room

theorem Within.perform {held room : Nat} {r : Reader} (hr : Within held room r)
    (h : r.arena.WellFormed) {c : Call} (hc : c.adds = false) :
    Within held room (r.perform c).state := by
  have hp := performs h c
  generalize r.perform c = reply at hp ⊢
  cases hp with
  | refused | looked | lacking | took | ended => exact ⟨hr.usedEnd_le, hr.capacity_le⟩
  | discarded => exact ⟨Nat.zero_le _, hr.capacity_le⟩
  | compacted es hended =>
    refine ⟨Nat.le_trans ?_ hr.usedEnd_le, ?_⟩
    · show r.arena.compacted.usedEnd ≤ r.arena.usedEnd
      rw [Arena.usedEnd_compacted]
      exact Nat.sub_le _ _
    · show r.arena.compacted.capacity ≤ room
      rw [Arena.capacity_compacted h]
      exact hr.capacity_le
  | fed | reserved | committed => cases hc

theorem Within.after {held room : Nat} {r : Reader} (hr : Within held room r)
    (h : r.arena.WellFormed) (history : List Call) (hcalls : ∀ c ∈ history, c.adds = false) :
    Within held room (r.after history) := by
  induction history generalizing r with
  | nil => exact hr
  | cons c history ih =>
    obtain ⟨hc, hrest⟩ := List.forall_mem_cons.1 hcalls
    exact ih (hr.perform h hc) (wellFormed_perform h c) hrest

theorem capacity_create_le (config : Config) :
    (create config).state.arena.capacity ≤ config.initialCapacity := by
  rw [arena_create, Arena.create]
  split
  · exact Nat.zero_le _
  · obtain ⟨_, hgrow⟩ | ⟨_, hgrow⟩ := (Arena.empty config.allocator).growTo_cases config.initialCapacity
    · rw [hgrow]
      exact Nat.zero_le _
    · rw [hgrow]
      show ((Arena.empty config.allocator).enlarged config.initialCapacity).capacity ≤ _
      rw [Arena.capacity_enlarged]
      exact Nat.max_le.2 ⟨Nat.zero_le _, Nat.le_refl _⟩

end Reader

namespace Walk

/-! ## The bounds -/

/-- The most that a walk with `k` values in a message holds at a time: less than the greatest message, and
one chunk. -/
def heldMax (limit : Option Nat) (k chunk : Nat) : Nat := k * tokenMax limit - 1 + chunk

end Walk

/-- A reader in an open message of which `n` tokens are taken, and what it holds. -/
structure Reader.Modest (limit : Option Nat) (held room n : Nat) (r : Reader) : Prop where
  wellFormed : r.arena.WellFormed
  open_eq : r.arena.messageComplete = false
  limit_eq : r.config.maxBlobLength = limit
  cursor_le : r.cursor ≤ n * tokenMax limit
  within : Within held room r

/-- A walk with `k` values in a message that keeps to the bounds. -/
structure Walk.Modest (limit : Option Nat) (k chunk room : Nat) (w : Walk) : Prop where
  chunk_eq : w.chunk = chunk
  perMessage_eq : w.valuesPerMessage = some k
  inMessage_lt : w.inMessage < k
  reader : w.reader.Modest limit (heldMax limit k chunk) room w.inMessage

namespace Reader

variable {limit : Option Nat} {held room n : Nat} {r : Reader}

theorem modest_create {config : Config} (hroom : config.initialCapacity ≤ room) :
    (create config).state.Modest config.maxBlobLength held room 0 := by
  have hfresh := fresh_create config
  refine ⟨wellFormed_after config [], hfresh.messageComplete_eq, rfl, ?_, ?_, ?_⟩
  · exact Nat.le_trans (Nat.le_of_eq hfresh.readCursor_eq) (Nat.zero_le _)
  · exact Nat.le_trans (Nat.le_of_eq hfresh.usedEnd_eq) (Nat.zero_le _)
  · exact Nat.le_trans (capacity_create_le config) hroom

/-- Where bytes are lacking, what is held is less than one token more than those that were taken. -/
theorem Modest.usedEnd_lt (hr : r.Modest limit held room n) (hfront : r.front = .ok .incomplete) :
    r.arena.usedEnd < (n + 1) * tokenMax limit := by
  have hunread := length_lt_tokenMax hfront
  rw [hr.limit_eq, Arena.length_unread hr.wellFormed] at hunread
  have hcursor : r.arena.readCursor ≤ n * tokenMax limit := hr.cursor_le
  unfold Arena.remaining at hunread
  rw [Nat.succ_mul]
  omega

/-- Feeding what there is a bound for keeps to it, whether or not it is granted. -/
theorem Modest.feed (hr : r.Modest limit held room n) {bytes : Bytes}
    (hend : r.arena.usedEnd + bytes.length ≤ held) (hroom : leastPowerOfTwo held ≤ room) :
    (r.feed bytes).state.Modest limit held room n := by
  have hcapacity := (capacity_feed hr.wellFormed bytes).capacity_le
  have hleast := leastPowerOfTwo_mono hend
  have hbefore := hr.within.capacity_le
  obtain ⟨_, f, hfeed⟩ | ⟨_, a, es, hfeed, hextends⟩ := feed_cases hr.wellFormed bytes
  · rw [hfeed]
    exact hr
  · rw [hfeed] at hcapacity ⊢
    refine ⟨hextends.wellFormed, hextends.messageComplete_eq.trans hr.open_eq, hr.limit_eq, ?_, ?_, ?_⟩
    · exact Nat.le_trans (Nat.le_of_eq hextends.readCursor_eq) hr.cursor_le
    · exact Nat.le_trans (Nat.le_of_eq hextends.usedEnd_eq) hend
    · exact Nat.le_trans hcapacity (Nat.max_le.2 ⟨hbefore, Nat.le_trans hleast hroom⟩)

/-- One more token is taken. -/
theorem Modest.take (hr : r.Modest limit held room n) {v : Value Extent} {length : Nat}
    (hfront : r.front = .ok (.complete v length)) :
    (r.withArena (r.arena.consume length)).Modest limit held room (n + 1) := by
  have hthere := (le_remaining_of_front hr.wellFormed hfront).2
  have hlength := length_le_tokenMax hfront
  rw [hr.limit_eq] at hlength
  refine ⟨Arena.wellFormed_consume hr.wellFormed hthere, hr.open_eq, hr.limit_eq, ?_,
    hr.within.usedEnd_le, hr.within.capacity_le⟩
  show r.cursor + length ≤ (n + 1) * tokenMax limit
  rw [Nat.succ_mul]
  exact Nat.add_le_add hr.cursor_le hlength

/-- The message is dropped, and with it all that was taken. -/
theorem Modest.close (hr : r.Modest limit held room n) :
    (r.withArena r.arena.endMessage.compacted).Modest limit held room 0 := by
  have hwithin := hr.within.after hr.wellFormed [.endMessage, .compact] (by decide)
  rw [after_close] at hwithin
  refine ⟨Arena.wellFormed_compacted (Arena.wellFormed_endMessage hr.wellFormed),
    Arena.messageComplete_compacted _, hr.limit_eq, ?_, hwithin⟩
  show r.arena.endMessage.compacted.readCursor ≤ 0 * tokenMax limit
  rw [Arena.readCursor_compacted]
  exact Nat.zero_le _

end Reader

namespace Walk

variable {limit : Option Nat} {k chunk room : Nat} {w : Walk}

/-- A walk that lacks bytes has room for a chunk. -/
theorem Modest.usedEnd_add_le (hw : w.Modest limit k chunk room)
    (hfront : w.reader.front = .ok .incomplete) {piece : Bytes}
    (hpiece : w.rest.take w.chunk = piece) :
    w.reader.arena.usedEnd + piece.length ≤ heldMax limit k chunk := by
  have hend := hw.reader.usedEnd_lt hfront
  have hmessage : (w.inMessage + 1) * tokenMax limit ≤ k * tokenMax limit :=
    Nat.mul_le_mul_right _ hw.inMessage_lt
  have hlength : piece.length ≤ chunk := by
    rw [← hpiece, ← hw.chunk_eq, List.length_take]
    exact Nat.min_le_left _ _
  unfold heldMax
  omega

/-- Whether or not a chunk is fed, the bounds are kept. -/
theorem Modest.feed (hw : w.Modest limit k chunk room)
    (hroom : leastPowerOfTwo (heldMax limit k chunk) ≤ room)
    (hfront : w.reader.front = .ok .incomplete) {calls : List Reader.Call} {reply : Reply Walk Bool}
    (hfeeds : Feeds w calls reply) : reply.state.Modest limit k chunk room := by
  cases hfeeds with
  | tooFar | nothing | refused => exact hw
  | handed piece h hpiece hsome a es hfeed hextends =>
    have hfed := hw.reader.feed (hw.usedEnd_add_le hfront hpiece) hroom
    rw [hfeed] at hfed
    exact ⟨hw.chunk_eq, hw.perMessage_eq, hw.inMessage_lt, hfed⟩

/-- A token is taken and counted, and the message is dropped if it is full. -/
theorem Modest.take (hw : w.Modest limit k chunk room) {v : Value Extent} {n : Nat}
    (hfront : w.reader.front = .ok (.complete v n)) {calls : List Reader.Call} {reply : Reply Walk Unit}
    (hcounts : Counts (w.taking n) calls reply) : reply.state.Modest limit k chunk room := by
  have htaken := hw.reader.take hfront
  cases hcounts with
  | kept hmore =>
    have hless : w.inMessage + 1 ≠ k := by
      intro hfull
      exact hmore (hw.perMessage_eq.trans (congrArg some hfull.symm))
    exact ⟨hw.chunk_eq, hw.perMessage_eq, Nat.lt_of_le_of_ne hw.inMessage_lt hless, htaken⟩
  | closed =>
    have hpos : 0 < k := Nat.lt_of_le_of_lt (Nat.zero_le _) hw.inMessage_lt
    exact ⟨hw.chunk_eq, hw.perMessage_eq, hpos, htaken.close⟩

/-- A turn keeps the bounds. -/
theorem Modest.next (hw : w.Modest limit k chunk room)
    (hroom : leastPowerOfTwo (heldMax limit k chunk) ≤ room) {calls : List Reader.Call}
    {reply : Reply Walk (Option Step)} (hmoves : Moves w calls reply) :
    reply.state.Modest limit k chunk room := by
  cases hmoves with
  | refused | finished | cutOff => exact hw
  | failed look calls hlook hfront f w' es hfeeds => exact hw.feed hroom hfront hfeeds
  | fed look calls hlook hfront w' es hfeeds => exact hw.feed hroom hfront hfeeds
  | took v n m hmarker hfront calls w' es hcounts => exact hw.take hfront hcounts

theorem Looks.quiet {look : List Reader.Call} (hlook : Looks w look) : ∀ c ∈ look, c.adds = false := by
  obtain rfl | rfl := hlook.calls
  all_goals decide

/-- Where bytes are lacking, what comes before the chunk adds nothing. -/
theorem Looks.quiet_feeds {look calls first : List Reader.Call} (hlook : Looks w look)
    {reply : Reply Walk Bool} (hfeeds : Feeds w calls reply) (hfirst : first <+: look ++ calls)
    (hpart : first ≠ look ++ calls) : ∀ c ∈ first, c.adds = false := by
  intro c hc
  obtain rfl | ⟨piece, rfl⟩ := hfeeds.calls_cases
  · rw [List.append_nil] at hfirst
    exact hlook.quiet c (hfirst.subset hc)
  · obtain hall | hless := List.prefix_concat_iff.1 hfirst
    · exact absurd hall hpart
    · exact hlook.quiet c (hless.subset hc)

/-- A turn adds something by its last call at most. -/
theorem Moves.quiet {calls first : List Reader.Call} {reply : Reply Walk (Option Step)}
    (hmoves : Moves w calls reply) (hfirst : first <+: calls) (hpart : first ≠ calls) :
    ∀ c ∈ first, c.adds = false := by
  cases hmoves with
  | refused look hlook | finished look hlook | cutOff look hlook =>
    intro c hc
    exact hlook.quiet c (hfirst.subset hc)
  | failed look calls hlook hfront f w' es hfeeds => exact hlook.quiet_feeds hfeeds hfirst hpart
  | fed look calls hlook hfront w' es hfeeds => exact hlook.quiet_feeds hfeeds hfirst hpart
  | took v n m hmarker hfront calls w' es hcounts =>
    intro c hc
    cases hcounts with
    | kept =>
      have hall : ∀ c ∈ [Reader.Call.next, .read .any], c.adds = false := by decide
      exact hall c (hfirst.subset hc)
    | closed =>
      have hall : ∀ c ∈ [Reader.Call.next, .read .any, .endMessage, .compact], c.adds = false := by decide
      exact hall c (hfirst.subset hc)

/-- No call of a turn exceeds the bounds. -/
theorem Modest.within_calls (hw : w.Modest limit k chunk room)
    (hroom : leastPowerOfTwo (heldMax limit k chunk) ≤ room) {calls : List Reader.Call}
    {reply : Reply Walk (Option Step)} (hmoves : Moves w calls reply) {first : List Reader.Call}
    (hfirst : first <+: calls) :
    Reader.Within (heldMax limit k chunk) room (w.reader.after first) := by
  by_cases hall : first = calls
  · rw [hall, ← hmoves.reader_eq hw.reader.wellFormed hw.reader.open_eq]
    exact (hw.next hroom hmoves).reader.within
  · exact hw.reader.within.after hw.reader.wellFormed first (hmoves.quiet hfirst hall)

/-! ## Turns and steps -/

theorem Modest.turn (hw : w.Modest limit k chunk room)
    (hroom : leastPowerOfTwo (heldMax limit k chunk) ≤ room) :
    w.turn.state.Modest limit k chunk room :=
  hw.next hroom (moves hw.reader.wellFormed hw.reader.open_eq)

theorem Modest.turned (hw : w.Modest limit k chunk room)
    (hroom : leastPowerOfTwo (heldMax limit k chunk) ≤ room) (n : Nat) :
    (w.turned n).Modest limit k chunk room := by
  induction n with
  | zero => exact hw
  | succ n ih => exact ih.turn hroom

/-- At every moment of a walk, from one call on its reader to the next, no more than `held` bytes are held,
in a storage no larger than `room`. -/
def StaysWithin (start : Walk) (held room : Nat) : Prop :=
  ∀ (n : Nat) (calls : List Reader.Call), calls <+: (start.turned n).turnCalls →
    Reader.Within held room ((start.turned n).reader.after calls)

section
variable (input : Bytes) (chunk_pos : 0 < chunk) (hk : 0 < k) (config : Config)
  (hstart : config.initialCapacity ≤ room)
  (hroom : leastPowerOfTwo (heldMax config.maxBlobLength k chunk) ≤ room)
include hk hstart hroom

theorem modest_turned (n : Nat) :
    ((create input chunk chunk_pos (some k) config).state.turned n).Modest
      config.maxBlobLength k chunk room := by
  have hcreate : (create input chunk chunk_pos (some k) config).state.Modest
      config.maxBlobLength k chunk room := ⟨rfl, rfl, hk, Reader.modest_create hstart⟩
  exact hcreate.turned hroom n

theorem staysWithin_create :
    StaysWithin (create input chunk chunk_pos (some k) config).state
      (heldMax config.maxBlobLength k chunk) room := by
  intro n calls hcalls
  have hw := modest_turned input chunk_pos hk config hstart hroom n
  exact hw.within_calls hroom (moves hw.reader.wellFormed hw.reader.open_eq) hcalls

end

/-- The memory of a walk is bounded by its own figures, whatever the input is and whatever lengths the
headers in it declare. With `k` values in a message it holds less than `k` of the greatest tokens and one
chunk, at every moment, and the storage grows no further than to the least power of two that is enough for
them. The turns that this speaks of are those of the steps, and their calls are all that happens to the
reader. A validation drops every token as soon as it is counted, so it never holds more than one token and
one chunk. -/
theorem footprint_bounded {input : Bytes} {chunk : Nat} {chunk_pos : 0 < chunk} {k : Nat} (hk : 0 < k)
    {config : Config} {start : Walk}
    (hcreate : start = (create input chunk chunk_pos (some k) config).state) :
    StaysWithin start (k * tokenMax config.maxBlobLength - 1 + chunk)
      (max config.initialCapacity
        (leastPowerOfTwo (k * tokenMax config.maxBlobLength - 1 + chunk))) ∧
    (∀ n, ∃ m, start.stepped n = start.turned m) ∧
    (∀ n, (start.turned (n + 1)).reader
      = (start.turned n).reader.after (start.turned n).turnCalls) ∧
    (∀ o : Arguments.ValidateOptions, StaysWithin (Validate.walk o input).state
      (tokenMax o.maxBlobLength - 1 + o.chunkSize)
      (leastPowerOfTwo (tokenMax o.maxBlobLength - 1 + o.chunkSize))) := by
  subst hcreate
  refine ⟨?_, stepped_turned _, ?_, ?_⟩
  · exact staysWithin_create input chunk_pos hk config (Nat.le_max_left _ _) (Nat.le_max_right _ _)
  · intro n
    have hw := modest_turned input chunk_pos hk config (Nat.le_max_left _ _) (Nat.le_max_right _ _) n
    have hmoves := moves hw.reader.wellFormed hw.reader.open_eq
    exact hmoves.reader_eq hw.reader.wellFormed hw.reader.open_eq
  · intro o
    have hheld : heldMax o.maxBlobLength 1 o.chunkSize = tokenMax o.maxBlobLength - 1 + o.chunkSize := by
      rw [heldMax, Nat.one_mul]
    rw [← hheld]
    -- The first storage of a validation is one chunk, which the bound leaves room for.
    have hstart : o.chunkSize ≤ leastPowerOfTwo (heldMax o.maxBlobLength 1 o.chunkSize) :=
      Nat.le_trans (Nat.le_add_left _ _) (le_leastPowerOfTwo _)
    exact staysWithin_create input o.chunkSize_pos Nat.one_pos
      { initialCapacity := o.chunkSize, maxBlobLength := o.maxBlobLength } hstart (Nat.le_refl _)

/-- A walk over a blob of two bytes and a null, with two values in a message, in chunks of three bytes. -/
def blobAndNull : Walk :=
  (create [0xc4, 2, 7, 8, 0xc0] 3 (by decide) (some 2)
    { initialCapacity := 0, maxBlobLength := some 2 }).state

/-- It could hold two tokens of nine bytes; after its second chunk it holds five bytes in a storage of
eight. -/
theorem footprint_bounded_blobAndNull :
    StaysWithin blobAndNull 20 32 ∧
    (blobAndNull.turned 2).reader.arena.usedEnd = 5 ∧
    (blobAndNull.turned 2).reader.arena.capacity = 8 := by
  have hcreate : blobAndNull = (create [0xc4, 2, 7, 8, 0xc0] 3 (by decide) (some 2)
    { initialCapacity := 0, maxBlobLength := some 2 }).state := rfl
  exact ⟨(footprint_bounded (by decide) hcreate).1, rfl, rfl⟩

end Walk
end MessagePack
