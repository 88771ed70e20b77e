import MessagePack.Proofs.Draining
/-
  Delivery: a byte string comes to a reader in any number of pieces, and tokens are asked for at any moments
  in between. Neither the pieces nor the moments show in what is read.

  The invariant compares the reader with the whole string, without knowing how much is still to come: whatever
  comes behind the bytes fed so far, the tokens of all of it are those read so far and then those before the
  reader.

  What is proved:
    1. `Streaming.perform`: every feed, look and read keeps the invariant.
    2. `Streaming.over`: so does every history of them.
    3. `outcome_continueFrom`: decoding in pieces gives what the tokenisation says.
    4. `delivery_irrelevant`: every delivery reads what one feed of the whole string reads.
-/
namespace MessagePack

/-- What a decoding answers that finds these tokens. -/
def Tokenisation.decoded (t : Tokenisation) : Except Failure Decoded :=
  match t.refusal with
  | some e => .error (.fault e)
  | none => .ok ⟨t.tokens.map (·.value), t.rest.length⟩

namespace Reader

/-! ## Histories that deliver a string -/

/-- The calls of a delivery: feeds, looks and reads. -/
def Call.delivers : Call → Bool
  | .feed _ | .next | .read _ => true
  | _ => false

/-- The bytes that a call is given to feed. -/
def Call.fed : Call → Bytes
  | .feed bytes => bytes
  | _ => []

/-- All the bytes that a history feeds. -/
def fedBy (history : List Call) : Bytes := history.flatMap Call.fed

/-- What a call reads, its blob resolved right after. -/
def readingBy (r : Reader) (c : Call) : List (Reading (Except DecodeError (Value Bytes))) :=
  match (r.perform c).outcome with
  | .ok (.progress (.decoded v n)) => [⟨(r.perform c).state.resolve v, n⟩]
  | _ => []

/-- What a history reads. -/
def readings (r : Reader) : List Call → List (Reading (Except DecodeError (Value Bytes)))
  | [] => []
  | c :: history => r.readingBy c ++ (r.perform c).state.readings history

/-! ## The invariant -/

/-- The reader has been fed `come` from the start of a string, and has read `taken` of it. -/
structure Streaming (limit : Option Nat) (come : Bytes) (taken : List (Reading (Value Bytes)))
    (r : Reader) : Prop where
  wellFormed : r.arena.WellFormed
  open_eq : r.arena.messageComplete = false
  limit_eq : r.config.maxBlobLength = limit
  usedEnd_eq : r.arena.usedEnd = come.length
  cursor_eq : r.cursor = consumedBy taken
  tokens_eq : ∀ t, tokenise limit 0 (come ++ t)
    = (tokenise limit r.cursor (r.arena.unread ++ t)).behind taken

theorem streaming_create (config : Config) :
    Streaming config.maxBlobLength [] [] (create config).state := by
  have hfresh := fresh_create config
  refine ⟨wellFormed_after config [], hfresh.messageComplete_eq, rfl, hfresh.usedEnd_eq,
    hfresh.readCursor_eq, ?_⟩
  intro t
  rw [hfresh.unread_eq, cursor, hfresh.readCursor_eq]
  rfl

/-- The tokens of the bytes that have come are those taken and those before the reader. -/
theorem Streaming.whole_eq {limit : Option Nat} {come : Bytes} {taken : List (Reading (Value Bytes))}
    {r : Reader} (hs : Streaming limit come taken r) :
    tokenise limit 0 come = r.tokenisation.behind taken := by
  have htokens := hs.tokens_eq []
  rw [List.append_nil, List.append_nil] at htokens
  rw [htokens, tokenisation, hs.limit_eq]

/-- What is fed comes behind what is before the reader. -/
theorem Streaming.feed {limit : Option Nat} {come : Bytes} {taken : List (Reading (Value Bytes))}
    {r : Reader} (hs : Streaming limit come taken r) {bytes : Bytes} {a : Arena}
    (hextends : r.arena.Extends bytes a) : Streaming limit (come ++ bytes) taken (r.withArena a) := by
  refine ⟨hextends.wellFormed, hextends.messageComplete_eq.trans hs.open_eq, hs.limit_eq, ?_, ?_, ?_⟩
  · show a.usedEnd = _
    rw [hextends.usedEnd_eq, hs.usedEnd_eq, List.length_append]
  · exact hextends.readCursor_eq.trans hs.cursor_eq
  · intro t
    show _ = (tokenise limit a.readCursor (a.unread ++ t)).behind taken
    rw [List.append_assoc, hs.tokens_eq, hextends.unread_eq, hextends.readCursor_eq,
      List.append_assoc]
    rfl

/-- What is read goes from what is before the reader to what was taken. -/
theorem Streaming.take {limit : Option Nat} {come : Bytes} {taken : List (Reading (Value Bytes))}
    {r : Reader} (hs : Streaming limit come taken r) {v : Value Extent} {n : Nat}
    (hfront : r.front = .ok (.complete v n)) :
    Streaming limit come (taken ++ [⟨v.map (·.within r.arena.unread), n⟩])
      (r.withArena (r.arena.consume n)) := by
  have hn := (le_remaining_of_front hs.wellFormed hfront).2
  refine ⟨Arena.wellFormed_consume hs.wellFormed hn, hs.open_eq, hs.limit_eq, hs.usedEnd_eq, ?_, ?_⟩
  · show r.cursor + n = _
    rw [consumedBy_append, consumedBy_single, hs.cursor_eq]
  · intro t
    have hfirst := hfront
    rw [front, hs.limit_eq] at hfirst
    show _ = (tokenise limit (r.cursor + n) ((r.arena.consume n).unread ++ t)).behind _
    rw [hs.tokens_eq, tokenise_append hfirst, Tokenisation.behind_behind,
      unread_consumed hs.wellFormed hn]

/-- A call of a delivery keeps the invariant, with what it fed and what it read. -/
theorem Streaming.perform {limit : Option Nat} {come : Bytes} {taken : List (Reading (Value Bytes))}
    {r : Reader} (hs : Streaming limit come taken r) {c : Call} (hc : c.delivers = true)
    (hfits : r.arena.Fits c.fed.length) :
    ∃ tokens, r.readingBy c = tokens.map Reading.resolved ∧
      Streaming limit (come ++ c.fed) (taken ++ tokens) (r.perform c).state ∧
      r.arena.capacity ≤ (r.perform c).state.arena.capacity := by
  have hp := performs hs.wellFormed c
  have hnil : Streaming limit (come ++ []) (taken ++ []) r := by simpa using hs
  unfold readingBy
  cases c with
  | feed bytes =>
    obtain ⟨hno, _⟩ | ⟨_, a, es, hfeed, hextends⟩ := feed_cases hs.wellFormed bytes
    · exact absurd hfits hno
    · have hperform : r.perform (.feed bytes) = ⟨.ok .done, r.withArena a, es⟩ := by
        show (r.feed bytes).mapOutcome _ = _
        rw [hfeed]
        rfl
      rw [hperform]
      refine ⟨[], rfl, ?_, hextends.grows.capacity_le⟩
      rw [List.append_nil]
      exact hs.feed hextends
  | next =>
    generalize r.perform .next = reply at hp ⊢
    cases hp with
    | refused c f es => exact ⟨[], rfl, hnil, Nat.le_refl _⟩
    | looked u => exact ⟨[], rfl, hnil, Nat.le_refl _⟩
  | read call =>
    generalize r.perform (.read call) = reply at hp ⊢
    cases hp with
    | refused c f es => exact ⟨[], rfl, hnil, Nat.le_refl _⟩
    | lacking call hopen hfront => exact ⟨[], rfl, hnil, Nat.le_refl _⟩
    | took call v n hopen hfront =>
      refine ⟨[⟨v.map (·.within r.arena.unread), n⟩], ?_, ?_, Nat.le_refl _⟩
      · show [Reading.mk ((r.withArena (r.arena.consume n)).resolve (v.map r.viewAt)) n] = _
        rw [resolve_settled hs.wellFormed hfront]
        rfl
      · show Streaming limit (come ++ []) _ _
        rw [List.append_nil]
        exact hs.take hfront
  | _ => cases hc

theorem Streaming.over {limit : Option Nat} {come : Bytes} {taken : List (Reading (Value Bytes))}
    {r : Reader} (hs : Streaming limit come taken r) {history : List Call}
    (hdelivers : ∀ c ∈ history, c.delivers = true) (hfits : r.arena.Fits (fedBy history).length) :
    ∃ tokens, r.readings history = tokens.map Reading.resolved ∧
      Streaming limit (come ++ fedBy history) (taken ++ tokens) (r.after history) := by
  induction history generalizing r come taken with
  | nil => exact ⟨[], rfl, by simpa [fedBy, after] using hs⟩
  | cons c history ih =>
    have hlength : (fedBy (c :: history)).length = c.fed.length + (fedBy history).length := by
      simp [fedBy]
    -- Room for the whole history is room for its first call, and then for the others.
    rw [hlength] at hfits
    obtain ⟨first, hfirst, hnext, hcap⟩ := hs.perform (hdelivers c List.mem_cons_self) hfits.first
    have hend : (r.perform c).state.arena.usedEnd = r.arena.usedEnd + c.fed.length := by
      rw [hnext.usedEnd_eq, hs.usedEnd_eq, List.length_append]
    have hlater : ∀ c' ∈ history, c'.delivers = true := by
      intro c' hc'
      exact hdelivers c' (List.mem_cons_of_mem _ hc')
    have hallocator := allocator_perform hs.wellFormed c
    obtain ⟨second, hsecond, hrest⟩ := ih hnext hlater (hfits.second hend hcap hallocator)
    refine ⟨first ++ second, ?_, ?_⟩
    · rw [readings, hfirst, hsecond, List.map_append]
    · rw [List.append_assoc, List.append_assoc] at hrest
      exact hrest

/-! ## Draining at the end -/

/-- Two readers have come to the end in the same place, and for the same reason. -/
structure SameEnd (d d' : Drained) : Prop where
  ending_eq : d.ending = d'.ending
  cursor_eq : d.reader.cursor = d'.reader.cursor
  usedEnd_eq : d.reader.arena.usedEnd = d'.reader.arena.usedEnd
  remaining_eq : d.reader.arena.remaining = d'.reader.arena.remaining

/-- What a drained reader has found, with what was read before, of the whole string. -/
structure Finds (limit : Option Nat) (s : Bytes) (taken : List (Reading (Value Bytes))) (d : Drained) :
    Prop where
  readings_eq : taken.map Reading.resolved ++ d.readings
    = (tokenise limit 0 s).tokens.map Reading.resolved
  ending_eq : d.ending = (tokenise limit 0 s).ending
  cursor_eq : d.reader.cursor = consumedBy (tokenise limit 0 s).tokens
  usedEnd_eq : d.reader.arena.usedEnd = s.length

theorem Streaming.drain {limit : Option Nat} {come : Bytes} {taken : List (Reading (Value Bytes))}
    {r : Reader} (hs : Streaming limit come taken r) : Finds limit come taken r.drain := by
  have hwhole := hs.whole_eq
  obtain ⟨hreadings, hending, hreader⟩ := drains r hs.wellFormed hs.open_eq
  refine ⟨?_, ?_, ?_, ?_⟩
  · rw [hwhole, hreadings, ← List.map_append]
    rfl
  · rw [hwhole]
    exact hending
  · rw [hwhole, hreader]
    show r.cursor + consumedBy r.tokenisation.tokens = _
    rw [Tokenisation.consumedBy_behind, hs.cursor_eq]
  · rw [hreader]
    exact hs.usedEnd_eq

/-! ## Decoding in pieces -/

/-- A refused token is refused whatever comes behind it. -/
theorem Streaming.refusal_eq {limit : Option Nat} {come : Bytes}
    {taken : List (Reading (Value Bytes))} {r : Reader} (hs : Streaming limit come taken r)
    {e : DecodeError} (hfront : r.front = .error e) (t : Bytes) :
    (tokenise limit 0 (come ++ t)).refusal = some e := by
  rw [front, hs.limit_eq] at hfront
  rw [hs.tokens_eq, tokenise_of_error (scanBytes_append_of_error hfront t)]
  rfl

/-- Where bytes are lacking and no more come, that is the end. -/
theorem Streaming.decoded_eq {limit : Option Nat} {come : Bytes}
    {taken : List (Reading (Value Bytes))} {r : Reader} (hs : Streaming limit come taken r)
    (hfront : r.front = .ok .incomplete) :
    (tokenise limit 0 come).decoded = .ok ⟨taken.map (·.value), r.arena.remaining⟩ := by
  rw [hs.whole_eq, tokenisation, tokenise_of_incomplete hfront, ← Arena.length_unread hs.wellFormed]
  show Except.ok (Decoded.mk ((taken ++ []).map Reading.value) r.arena.unread.length) = _
  rw [List.append_nil]

theorem outcome_continueFrom {limit : Option Nat} {come : Bytes}
    {taken : List (Reading (Value Bytes))} {r : Reader} (hs : Streaming limit come taken r)
    {pieces : List Bytes} (hfits : r.arena.Fits pieces.flatten.length) {values : List (Value Bytes)}
    (hvalues : values.reverse = taken.map (·.value)) (reads feeds : Nat) :
    (Decoding.continueFrom r pieces values reads feeds).outcome
      = (tokenise limit 0 (come ++ pieces.flatten)).decoded := by
  -- One case for each way in which a round ends; what the scan finds at the cursor leaves one of them.
  have hfinding := finding hs.wellFormed hs.open_eq
  fun_induction Decoding.continueFrom r pieces values reads feeds generalizing come taken with
  | case1 r pieces values reads feeds f r' es hread =>
    rw [hread] at hfinding
    cases hfinding with
    | refused e hfront =>
      rw [Tokenisation.decoded, hs.refusal_eq hfront]
  | case2 r pieces values reads feeds v n r' es hread e hresolve =>
    rw [hread] at hfinding
    cases hfinding with
    | found v n hfront =>
      rw [resolve_settled hs.wellFormed hfront] at hresolve
      cases hresolve
  | case3 r pieces values reads feeds v n r' es hread value hresolve hless ih =>
    rw [hread] at hfinding
    cases hfinding with
    | found v n hfront =>
      rw [resolve_settled hs.wellFormed hfront] at hresolve
      injection hresolve with hvalue
      have hnext := hs.take hfront
      have hmore : (value :: values).reverse
          = (taken ++ [Reading.mk (v.map (·.within r.arena.unread)) n]).map Reading.value := by
        rw [List.reverse_cons, hvalues, List.map_append, ← hvalue]
        rfl
      exact ih hnext hfits hmore (finding hnext.wellFormed hnext.open_eq)
  | case4 r values reads feeds r' es hread =>
    rw [hread] at hfinding
    cases hfinding with
    | lacking hfront =>
      rw [List.flatten_nil, List.append_nil, hs.decoded_eq hfront, hvalues]
  | case5 r values reads feeds r' es hread piece pieces f r'' es' hfeed =>
    rw [hread] at hfinding
    cases hfinding with
    | lacking hfront =>
      rw [List.flatten_cons, List.length_append] at hfits
      obtain ⟨hno, _⟩ | ⟨_, _, _, hgranted, _⟩ := feed_cases hs.wellFormed piece
      · exact absurd hfits.first hno
      · rw [hgranted] at hfeed
        cases hfeed
  | case6 r values reads feeds r' es hread piece pieces r'' es' hfeed ih =>
    rw [hread] at hfinding
    cases hfinding with
    | lacking hfront =>
      rw [List.flatten_cons, List.length_append] at hfits
      obtain ⟨hno, _⟩ | ⟨_, a, _, hgranted, hextends⟩ := feed_cases hs.wellFormed piece
      · exact absurd hfits.first hno
      · rw [hgranted] at hfeed
        cases hfeed
        have hnext := hs.feed hextends
        have hrest : a.Fits pieces.flatten.length :=
          hfits.second hextends.usedEnd_eq hextends.grows.capacity_le hextends.allocator_eq
        rw [ih hnext hrest hvalues (finding hnext.wellFormed hnext.open_eq), List.flatten_cons,
          List.append_assoc]

/-- A string that a small reader has room for is decoded alike wherever it is cut. -/
theorem outcome_withCuts {bytes : Bytes} (hfits : small.arena.Fits bytes.length) (cuts : List Nat) :
    (Decoding.withCuts bytes cuts).outcome = (tokenise none 0 bytes).decoded := by
  have hs : Streaming none [] [] small := streaming_create { initialCapacity := 16 }
  have hpieces : (split bytes cuts).flatten = bytes := flatten_split bytes cuts
  have hroom : small.arena.Fits (split bytes cuts).flatten.length := by
    rw [hpieces]
    exact hfits
  have hnone : ([] : List (Value Bytes)).reverse = ([] : List (Reading (Value Bytes))).map Reading.value :=
    rfl
  have houtcome := outcome_continueFrom hs hroom hnone 0 0
  rw [hpieces] at houtcome
  exact houtcome

/-! ## Any delivery -/

/-- What a string fed at once gives, read to the end. -/
def atOnce (config : Config) (s : Bytes) : Drained := ((create config).state.feed s).state.drain

theorem finds_after {config : Config} {history : List Call}
    (hdelivers : ∀ c ∈ history, c.delivers = true)
    (hfits : (create config).state.arena.Fits (fedBy history).length) :
    ∃ tokens, (create config).state.readings history = tokens.map Reading.resolved ∧
      Finds config.maxBlobLength (fedBy history) tokens ((create config).state.after history).drain := by
  obtain ⟨tokens, hreadings, hs⟩ := (streaming_create config).over hdelivers hfits
  exact ⟨tokens, hreadings, hs.drain⟩

theorem fits_of_feed {r : Reader} (h : r.arena.WellFormed) {bytes : Bytes}
    (hgranted : (r.feed bytes).outcome = .ok ()) : r.arena.Fits bytes.length := by
  obtain ⟨_, f, hfeed⟩ | ⟨hfits, _⟩ := feed_cases h bytes
  · rw [hfeed] at hgranted
    cases hgranted
  · exact hfits

theorem finds_atOnce {config : Config} {s : Bytes} (hfits : (create config).state.arena.Fits s.length) :
    Finds config.maxBlobLength s [] (atOnce config s) := by
  have hs := streaming_create config
  unfold atOnce
  obtain ⟨hno, _⟩ | ⟨_, a, es, hfeed, hextends⟩ := feed_cases hs.wellFormed s
  · exact absurd hfits hno
  · rw [hfeed]
    exact (hs.feed hextends).drain

/-- Two readers that have found the same string have come to the same end. -/
theorem Finds.sameEnd {limit : Option Nat} {s : Bytes} {taken taken' : List (Reading (Value Bytes))}
    {d d' : Drained} (h : Finds limit s taken d) (h' : Finds limit s taken' d') : SameEnd d d' := by
  have hcursor := h.cursor_eq.trans h'.cursor_eq.symm
  have hend := h.usedEnd_eq.trans h'.usedEnd_eq.symm
  refine ⟨h.ending_eq.trans h'.ending_eq.symm, hcursor, hend, ?_⟩
  show d.reader.arena.usedEnd - d.reader.cursor = d'.reader.arena.usedEnd - d'.reader.cursor
  rw [hcursor, hend]

/-- It does not show in what is read how a string came and when it was read. Whatever feeds, looks and reads
deliver it: they have read the first of the tokens that a reader finds which is fed all of it at once. Reading
on gives the others, and ends in the same place and for the same reason. In particular a string is decoded
alike wherever it is cut. -/
theorem delivery_irrelevant {config : Config} {s : Bytes}
    (hgranted : ((create config).state.feed s).outcome = .ok ()) :
    (∀ history : List Call, (∀ c ∈ history, c.delivers = true) → fedBy history = s →
      (create config).state.readings history <+: (atOnce config s).readings ∧
      (create config).state.readings history ++ ((create config).state.after history).drain.readings
        = (atOnce config s).readings ∧
      SameEnd ((create config).state.after history).drain (atOnce config s)) ∧
    ((small.feed s).outcome = .ok () →
      ∀ cuts cuts', (Decoding.withCuts s cuts).outcome = (Decoding.withCuts s cuts').outcome) := by
  have hfits := fits_of_feed (streaming_create config).wellFormed hgranted
  have hwhole := finds_atOnce hfits
  refine ⟨?_, ?_⟩
  · intro history hdelivers hs
    subst hs
    obtain ⟨tokens, hreadings, hfinds⟩ := finds_after hdelivers hfits
    have hsame : (create config).state.readings history
        ++ ((create config).state.after history).drain.readings
          = (atOnce config (fedBy history)).readings := by
      rw [hreadings, hfinds.readings_eq, ← hwhole.readings_eq]
      rfl
    exact ⟨⟨_, hsame⟩, hsame, hfinds.sameEnd hwhole⟩
  · intro hsmall cuts cuts'
    have hroom := fits_of_feed (streaming_create { initialCapacity := 16 }).wellFormed hsmall
    rw [outcome_withCuts hroom cuts, outcome_withCuts hroom cuts']

/-- Five bytes that come in two pieces, a blob and then a byte that no token starts with. -/
def twoPieces : List Call :=
  [.read .any, .feed [0xc4, 2, 7], .read .any, .next, .feed [8, 0xc1], .read .any, .read .any]

/-- What these calls have read, and why reading ends: as if all had come at once. -/
theorem delivery_irrelevant_twoPieces :
    (create { initialCapacity := 2 }).state.readings twoPieces = [⟨.ok (.bin [7, 8]), 4⟩] ∧
    (create { initialCapacity := 2 }).state.readings twoPieces
      <+: (atOnce { initialCapacity := 2 } [0xc4, 2, 7, 8, 0xc1]).readings ∧
    (atOnce { initialCapacity := 2 } [0xc4, 2, 7, 8, 0xc1]).ending
      = .error (.fault (.unknownTag 0xc1 4)) ∧
    (Decoding.withCuts [0xc4, 2, 7, 8, 0xc1] [3]).outcome
      = (Decoding.withCuts [0xc4, 2, 7, 8, 0xc1] []).outcome := by
  have hdelivers : ∀ c ∈ twoPieces, c.delivers = true := by decide
  have hgranted : ((create { initialCapacity := 2 }).state.feed [0xc4, 2, 7, 8, 0xc1]).outcome
      = .ok () := rfl
  have h := delivery_irrelevant hgranted
  obtain ⟨hfirst, _, hend⟩ := h.1 twoPieces hdelivers rfl
  have hread : ((create { initialCapacity := 2 }).state.after twoPieces).readValue
      = ⟨.error (.fault (.unknownTag 0xc1 4)), (create { initialCapacity := 2 }).state.after twoPieces,
        [.rejected 4 (.unknownTag 0xc1 4)]⟩ := rfl
  refine ⟨rfl, hfirst, ?_, h.2 rfl [3] []⟩
  rw [← hend.ending_eq, drain_of_error hread]

end Reader
end MessagePack
