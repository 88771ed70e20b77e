import MessagePack.Proofs.Standing
/-
  How much work the loops do. None of them counts: a round goes on because it took a token or fed a piece. So the
  rounds are as many as the tokens and the pieces, and the one that ends the loop.

  What is proved:
    1. `Decoding.work_of_ok`, `Decoding.work_le`: the reads and the feeds of a decoding in pieces.
    2. `Passes.granted_eq`, `granted_of_answered`: a turn of a walk feeds one chunk where it gives no answer, and
       none where it does.
    3. `turnsBy_eq`: the turns of some steps are as many as the steps and the chunks that they feed.
    4. `chunksOf_input`: the chunks are those of the input, in their order.
    5. `work_exact`: all this for every string and every input, up to the last answer.
-/
namespace MessagePack

/-! ## Decoding in pieces -/

namespace Decoding

open Reader

/-- A decoding that ends well has asked once for each value, once for each piece and once at the end. -/
theorem work_of_ok {r : Reader} {pieces : List Bytes} {values : List (Value Bytes)} {reads feeds : Nat}
    {d : Decoded} (h : (continueFrom r pieces values reads feeds).outcome = .ok d) :
    (continueFrom r pieces values reads feeds).reads + values.length
        = reads + d.values.length + pieces.length + 1 ∧
      (continueFrom r pieces values reads feeds).feeds = feeds + pieces.length := by
  fun_induction continueFrom r pieces values reads feeds with
  | case1 | case2 | case5 => cases h
  | case3 r pieces values reads feeds v n r' es hread value hresolve hless ih =>
    obtain ⟨hreads, hfeeds⟩ := ih h
    rw [List.length_cons] at hreads
    exact ⟨by omega, hfeeds⟩
  | case4 r values reads feeds r' es hread =>
    cases h
    simp only [List.length_reverse, List.length_nil]
    exact ⟨by omega, rfl⟩
  | case6 r values reads feeds r' es hread piece pieces r'' es' hfeed ih =>
    obtain ⟨hreads, hfeeds⟩ := ih h
    rw [List.length_cons]
    exact ⟨by omega, by omega⟩

/-- What was taken are tokens of the string, whatever comes behind. -/
theorem taken_le {limit : Option Nat} {come : Bytes} {taken : List (Reading (Value Bytes))} {r : Reader}
    (hs : Streaming limit come taken r) (t : Bytes) :
    taken.length ≤ (tokenise limit 0 (come ++ t)).tokens.length := by
  rw [hs.tokens_eq]
  simp only [Tokenisation.behind, List.length_append]
  exact Nat.le_add_right _ _

/-- However a decoding ends, it has not asked more often than for each token of the string, for each piece, and
once at the end. -/
theorem work_le {limit : Option Nat} {come : Bytes} {taken : List (Reading (Value Bytes))} {r : Reader}
    (hs : Streaming limit come taken r) (pieces : List Bytes) (values : List (Value Bytes))
    (reads feeds : Nat) :
    (continueFrom r pieces values reads feeds).reads + taken.length
        ≤ reads + (tokenise limit 0 (come ++ pieces.flatten)).tokens.length + pieces.length + 1 ∧
      (continueFrom r pieces values reads feeds).feeds ≤ feeds + pieces.length := by
  -- All tokens of the string are known from the start, so those taken count how many reads can be left.
  have hfinding := finding hs.wellFormed hs.open_eq
  have htaken := taken_le hs pieces.flatten
  fun_induction continueFrom r pieces values reads feeds generalizing come taken with
  | case1 | case2 | case4 | case5 =>
    simp only [List.length_cons]
    exact ⟨by omega, by omega⟩
  | case3 r pieces values reads feeds v n r' es hread value hresolve hless ih =>
    rw [hread] at hfinding
    cases hfinding with
    | found v n hfront =>
      have hnext := hs.take hfront
      obtain ⟨hreads, hfeeds⟩ := ih hnext (finding hnext.wellFormed hnext.open_eq) (taken_le hnext _)
      rw [List.length_append, List.length_singleton] at hreads
      exact ⟨by omega, hfeeds⟩
  | case6 r values reads feeds r' es hread piece pieces r'' es' hfeed ih =>
    rw [hread] at hfinding
    cases hfinding with
    | lacking hfront =>
      obtain ⟨_, _, hrefused⟩ | ⟨_, a, _, hgranted, hextends⟩ := feed_cases hs.wellFormed piece
      · rw [hrefused] at hfeed
        cases hfeed
      · rw [hgranted] at hfeed
        cases hfeed
        have hnext := hs.feed hextends
        obtain ⟨hreads, hfeeds⟩ := ih hnext (finding hnext.wellFormed hnext.open_eq) (taken_le hnext _)
        rw [List.flatten_cons, ← List.append_assoc, List.length_cons]
        exact ⟨by omega, by omega⟩

end Decoding

/-! ## Chunks that a walk feeds -/

/-- The pieces that the calls of a history feed, those that are refused left out. -/
def Reader.granted (r : Reader) : List Reader.Call → List Bytes
  | [] => []
  | .feed bytes :: calls =>
    match r.feed bytes with
    | ⟨.ok (), r', _⟩ => bytes :: r'.granted calls
    | ⟨.error _, r', _⟩ => r'.granted calls
  | c :: calls => (r.perform c).state.granted calls

namespace Walk

variable {input : Bytes} {limit : Option Nat} {chunk : Nat}

/-- How many turns a step takes. -/
def turnCount (w : Walk) : Nat :=
  match h : w.turn with
  | ⟨.ok none, w', _⟩ =>
    have : w'.rest.length < w.rest.length := by
      have := rest_turn_lt (w := w) (by rw [h])
      rwa [h] at this
    turnCount w' + 1
  | _ => 1
termination_by w.rest.length

/-- How many turns the first `n` steps take. -/
def turnsBy (w : Walk) : Nat → Nat
  | 0 => 0
  | n + 1 => w.turnsBy n + (w.stepped n).turnCount

/-- The chunks that the first `m` turns feed. -/
def handed (w : Walk) : Nat → List Bytes
  | 0 => []
  | m + 1 => w.handed m ++ (w.turned m).reader.granted (w.turned m).turnCalls

theorem handed_add (w : Walk) (m n : Nat) : w.handed (m + n) = w.handed m ++ (w.turned m).handed n := by
  induction n with
  | zero => exact (List.append_nil _).symm
  | succ n ih =>
    show w.handed (m + n) ++ (w.turned (m + n)).reader.granted (w.turned (m + n)).turnCalls = _
    rw [ih, ← turned_add, List.append_assoc]
    rfl

theorem granted_look {w : Walk} {look : List Reader.Call} (hlook : Looks w look)
    (calls : List Reader.Call) : w.reader.granted (look ++ calls) = w.reader.granted calls := by
  have hafter := hlook.after_eq
  rcases hlook.calls with rfl | rfl
  · show (w.reader.after [.next]).granted calls = _
    rw [hafter]
  · show (w.reader.after [.next, .read .any]).granted calls = _
    rw [hafter]

theorem granted_feed {r r' : Reader} {bytes : Bytes} {es : List Event}
    (h : r.feed bytes = ⟨.ok (), r', es⟩) : r.granted [.feed bytes] = [bytes] := by
  simp [Reader.granted, h]

/-- A turn without an answer feeds one chunk. -/
theorem Passes.granted_eq {w : Walk} {bytes : Bytes} {a : Arena} {es : List Event}
    (h : Passes w bytes a es) : w.reader.granted w.turnCalls = [bytes] := by
  obtain ⟨look, hlook, hcalls⟩ := h.calls_eq
  rw [hcalls, granted_look hlook, granted_feed h.feed_eq]

/-- A turn that answers, or fails, feeds none. -/
theorem granted_of_answered {w : Walk} (hw : Ready w) {reply : Reply Walk Step}
    (hturn : w.turn = reply.mapOutcome some) : w.reader.granted w.turnCalls = [] := by
  have hmoves := moves hw.wellFormed hw.open_eq
  have hsome : w.turn.outcome ≠ .ok none := by
    rw [hturn]
    obtain ⟨outcome, w', es⟩ := reply
    cases outcome <;> exact nofun
  generalize w.turnCalls = calls at hmoves ⊢
  generalize w.turn = reply at hmoves hsome
  cases hmoves with
  | refused look hlook | finished look hlook | cutOff look hlook =>
    have hnone := granted_look hlook []
    rwa [List.append_nil] at hnone
  | failed look calls hlook hfront f w' es hfeeds =>
    rw [granted_look hlook]
    cases hfeeds with
    | tooFar => rfl
    | refused piece hend hpiece hpos hno f hfeed => simp [Reader.granted, hfeed, Reply.fail]
  | fed => exact absurd rfl hsome
  | took v n m hmarker hfront calls w' es hcounts =>
    cases hcounts with
    | kept | closed => rfl

/-! ## Turns -/

theorem turnCount_eq (w : Walk) : w.turnCount = match w.turn with
    | ⟨.ok none, w', _⟩ => w'.turnCount + 1
    | _ => 1 := by
  rw [turnCount]
  split <;> simp_all

theorem turnCount_of_passes {w : Walk} {bytes : Bytes} {a : Arena} {es : List Event}
    (h : Passes w bytes a es) : w.turnCount = (w.handOver a).turnCount + 1 := by
  rw [turnCount_eq, h.turn_eq]

theorem turnCount_of_answered {w : Walk} {reply : Reply Walk Step}
    (hturn : w.turn = reply.mapOutcome some) : w.turnCount = 1 := by
  rw [turnCount_eq, hturn]
  obtain ⟨outcome, w', es⟩ := reply
  cases outcome <;> rfl

/-- Chunks that are handed over take a turn each, and are the first ones of what was not fed. -/
theorem Hands.work {w last : Walk} {pieces : List Bytes} {es : List Event} (h : Hands w pieces es last) :
    w.turned pieces.length = last ∧ w.handed pieces.length = pieces ∧
      w.turnCount = last.turnCount + pieces.length := by
  induction h with
  | nothing w => exact ⟨rfl, rfl, rfl⟩
  | @piece w last pieces es later bytes a hpasses hrest ih =>
    obtain ⟨hturned, hhanded, hcount⟩ := ih
    have hfirst : w.turned 1 = w.handOver a := congrArg Reply.state hpasses.turn_eq
    have hone : w.handed 1 = [bytes] := hpasses.granted_eq
    have hlength : (bytes :: pieces).length = 1 + pieces.length := by
      rw [List.length_cons, Nat.add_comm]
    rw [hlength, ← turned_add, handed_add, hfirst, hone, hturned, hhanded, turnCount_of_passes hpasses, hcount]
    refine ⟨rfl, rfl, ?_⟩
    omega

/-- A step takes a turn for each chunk that it feeds, and one for its answer. -/
theorem step_work {w : Walk} (hw : Ready w) :
    w.step.state = w.turned w.turnCount ∧ w.turnCount = (w.handed w.turnCount).length + 1 := by
  obtain ⟨pieces, es, last, reply, hgoes, hstep⟩ := step_cases hw
  obtain ⟨hturned, hhanded, hcount⟩ := hgoes.hands.work
  have hanswered := granted_of_answered (hgoes.hands.ready hw) hgoes.turn_eq
  have hall : w.handed (pieces.length + 1) = pieces := by
    show w.handed pieces.length ++ (w.turned pieces.length).reader.granted _ = _
    rw [hturned, hanswered, List.append_nil, hhanded]
  rw [turnCount_of_answered hgoes.turn_eq, Nat.add_comm] at hcount
  rw [hcount, hall, hstep]
  refine ⟨?_, rfl⟩
  show reply.state = (w.turned pieces.length).turn.state
  rw [hturned, hgoes.turn_eq]
  rfl

/-- The turns of some steps are as many as the steps and the chunks that they feed. -/
theorem turnsBy_eq {w : Walk} (hw : Ready w) (n : Nat) :
    w.stepped n = w.turned (w.turnsBy n) ∧ w.turnsBy n = n + (w.handed (w.turnsBy n)).length := by
  induction n with
  | zero => exact ⟨rfl, rfl⟩
  | succ n ih =>
    obtain ⟨hstepped, hcount⟩ := ih
    obtain ⟨hstate, hturns⟩ := step_work (hw.stepped n)
    refine ⟨?_, ?_⟩
    · show (w.stepped n).step.state = w.turned (w.turnsBy n + (w.stepped n).turnCount)
      rw [hstate, ← turned_add, ← hstepped]
    · show w.turnsBy n + (w.stepped n).turnCount
        = n + 1 + (w.handed (w.turnsBy n + (w.stepped n).turnCount)).length
      rw [handed_add, ← hstepped, List.length_append]
      omega

/-! ## The chunks of the input -/

theorem Counts.rest_eq {w w' : Walk} {calls : List Reader.Call} {es : List Event}
    (h : Counts w calls ⟨.ok (), w', es⟩) : w'.rest = w.rest := by
  cases h with
  | kept | closed => rfl

theorem Answers.rest_eq {w : Walk} {reply : Reply Walk Step} (h : Answers w reply) :
    reply.state.rest = w.rest := by
  cases h with
  | refused | overflowed | denied | finished | cutOff => rfl
  | took v n m hmarker hfront calls w' es hcounts => exact hcounts.rest_eq

/-- A turn feeds the first chunk of what was not fed, or nothing. -/
theorem chunksOf_turn (chunk_pos : 0 < chunk) {w : Walk} (hw : Standing input limit chunk w) :
    chunksOf chunk chunk_pos w.rest
      = w.reader.granted w.turnCalls ++ chunksOf chunk chunk_pos w.turn.state.rest := by
  obtain ⟨reply, hturn, hanswers⟩ | ⟨bytes, a, es, hpasses⟩ := turn_cases hw.toReady
  · rw [granted_of_answered hw.toReady hturn, hturn, List.nil_append]
    exact congrArg (chunksOf chunk chunk_pos) hanswers.rest_eq.symm
  · have hpiece := hpasses.piece_eq
    rw [hw.chunk_eq] at hpiece
    have hsome : w.rest ≠ [] := by
      intro hnil
      rw [hnil, List.take_nil] at hpiece
      exact hpasses.some hpiece.symm
    have hrest : w.turn.state.rest = w.rest.drop chunk := by
      rw [hpasses.turn_eq, ← hw.chunk_eq]
      rfl
    rw [hpasses.granted_eq, hrest, chunksOf_eq chunk_pos hsome, hpiece]
    rfl

/-- The chunks that turns feed are the first ones of the input; behind them come those that are not fed yet. -/
theorem chunksOf_input (chunk_pos : 0 < chunk) {w : Walk} (hw : Standing input limit chunk w)
    (hstart : w.rest = input) (m : Nat) :
    chunksOf chunk chunk_pos input = w.handed m ++ chunksOf chunk chunk_pos (w.turned m).rest := by
  induction m with
  | zero =>
    rw [← hstart]
    rfl
  | succ m ih =>
    rw [ih, chunksOf_turn chunk_pos (hw.turned m), ← List.append_assoc]
    rfl

/-- How a walk over `input` works, from its start to its last answer and beyond. -/
structure Works (input : Bytes) (chunk : Nat) (chunk_pos : 0 < chunk) (w : Walk) : Prop where
  /-- The first answer that is no token comes after as many tokens as there are bytes at most. The turns up to it
  are as many as the tokens and the chunks that are fed, and one more. -/
  last : ∃ n, n ≤ input.length ∧ (∀ m < n, ∃ t, (w.stepped m).step.outcome = .ok (.token t)) ∧
    (∀ t, (w.stepped n).step.outcome ≠ .ok (.token t)) ∧
    w.turnsBy (n + 1) = n + (w.handed (w.turnsBy (n + 1))).length + 1
  turned : ∀ n, w.stepped n = w.turned (w.turnsBy n)
  /-- What is fed are chunks of the input in their order, and as much of it as is counted as fed. -/
  chunks : ∀ m, w.handed m <+: chunksOf chunk chunk_pos input ∧
    (w.handed m).flatten = input.take (w.turned m).fed
  length_le : ∀ m, (w.handed m).length ≤ (input.length + chunk - 1) / chunk

theorem works {w : Walk} (chunk_pos : 0 < chunk) (hw : Standing input limit chunk w)
    (hstart : w.rest = input) (hpending : w.pending = input.length) : Works input chunk chunk_pos w := by
  -- The chunks are cut the same way from what is left as from the input, so those fed are the first ones.
  have hfront (m : Nat) : w.handed m <+: chunksOf chunk chunk_pos input := by
    rw [chunksOf_input chunk_pos hw hstart m]
    exact List.prefix_append _ _
  refine ⟨?_, ?_, ?_, ?_⟩
  · obtain ⟨n, hn, htokens, hlast⟩ := exists_last w
    obtain ⟨_, hturns⟩ := turnsBy_eq hw.toReady (n + 1)
    exact ⟨n, hpending ▸ hn, htokens, hlast, by omega⟩
  · intro n
    exact (turnsBy_eq hw.toReady n).1
  · intro m
    refine ⟨hfront m, ?_⟩
    have hall := congrArg List.flatten (chunksOf_input chunk_pos hw hstart m)
    rw [flatten_chunksOf, List.flatten_append, flatten_chunksOf, (hw.turned m).rest_eq] at hall
    have hsplit := List.take_append_drop (w.turned m).fed input
    exact (List.append_cancel_right (hsplit.trans hall)).symm
  · intro m
    rw [← length_chunksOf chunk chunk_pos]
    exact (hfront m).length_le

end Walk

/-! ## Every loop -/

/-- How much work it is to decode a string that is cut into pieces. -/
structure Decoding.Works (bytes : Bytes) (cuts : List Nat) : Prop where
  of_ok : ∀ d, (withCuts bytes cuts).outcome = .ok d →
    (withCuts bytes cuts).reads = d.values.length + (split bytes cuts).length + 1 ∧
      (withCuts bytes cuts).feeds = (split bytes cuts).length
  reads_le : (withCuts bytes cuts).reads
    ≤ (tokenise none 0 bytes).tokens.length + (split bytes cuts).length + 1
  feeds_le : (withCuts bytes cuts).feeds ≤ (split bytes cuts).length

theorem Decoding.works (bytes : Bytes) (cuts : List Nat) : Works bytes cuts := by
  have hs : Reader.Streaming none [] [] Reader.small := Reader.streaming_create { initialCapacity := 16 }
  obtain ⟨hreads, hfeeds⟩ := work_le hs (split bytes cuts) [] 0 0
  rw [flatten_split, Nat.zero_add] at hreads
  rw [Nat.zero_add] at hfeeds
  refine ⟨?_, hreads, hfeeds⟩
  intro d hd
  obtain ⟨hreads, hfeeds⟩ := work_of_ok hd
  rw [Nat.zero_add] at hreads hfeeds
  exact ⟨hreads, hfeeds⟩

/-- All loops end, with just the work that there is to do. To decode a string in pieces takes one read for each
value, one for each piece and one at the end, and not more where it fails. The steps of a walk come to a last
answer behind as many tokens as there are bytes at most, whatever the chunk size, the message length and the
configuration; their turns are as many as the tokens and the chunks that they feed, and one more. These chunks
are those of the input in their order, so no byte is fed twice. -/
theorem work_exact :
    (∀ (bytes : Bytes) (cuts : List Nat), Decoding.Works bytes cuts) ∧
    ∀ (input : Bytes) (chunk : Nat) (chunk_pos : 0 < chunk) (valuesPerMessage : Option Nat)
      (config : Config), Walk.Works input chunk chunk_pos
        (Walk.create input chunk chunk_pos valuesPerMessage config).state := by
  refine ⟨Decoding.works, ?_⟩
  intro input chunk chunk_pos valuesPerMessage config
  have hw := Walk.standing_create input chunk chunk_pos valuesPerMessage config
  have hfresh := Reader.fresh_create config
  have hpending : (Walk.create input chunk chunk_pos valuesPerMessage config).state.pending
      = input.length := by
    show input.length + ((Reader.create config).state.arena.usedEnd
      - (Reader.create config).state.arena.readCursor) = input.length
    rw [hfresh.usedEnd_eq, Nat.zero_sub, Nat.add_zero]
  exact Walk.works chunk_pos hw rfl hpending

/-- Two nils are decoded one by one with five reads; and a walk over them, one byte at a time, does not need more
than two chunks. -/
theorem work_exact_twoNils :
    (Decoding.withCuts [0xc0, 0xc0] [1]).reads = 5 ∧
    (Decoding.withCuts [0xc0, 0xc0] [1]).feeds = 2 ∧
    ∀ m, ((Walk.create [0xc0, 0xc0] 1 Nat.one_pos none {}).state.handed m).length ≤ 2 := by
  obtain ⟨hdecodings, hwalks⟩ := work_exact
  have hfits : Reader.small.arena.Fits [0xc0, 0xc0].length := .inl (by decide)
  have houtcome : (Decoding.withCuts [0xc0, 0xc0] [1]).outcome = .ok ⟨[.nil, .nil], 0⟩ := by
    rw [Reader.outcome_withCuts hfits, tokenise_of_complete rfl, tokenise_of_complete rfl]
    show (Tokenisation.behind (Tokenisation.behind (tokenise none 2 []) _) _).decoded = _
    rw [tokenise_nil]
    rfl
  obtain ⟨hreads, hfeeds⟩ := (hdecodings [0xc0, 0xc0] [1]).of_ok _ houtcome
  exact ⟨hreads, hfeeds, (hwalks [0xc0, 0xc0] 1 Nat.one_pos none {}).length_le⟩

end MessagePack
