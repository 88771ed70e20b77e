import MessagePack.Proofs.Room
/-
  Isolation of messages: what a reader answers depends on its unread bytes, its limit and whether the message
  is over, and on nothing else of what has happened to it. Neither storage nor generation nor the bytes of
  earlier messages, which nobody erases, show in an answer. The offsets of faults are counted from where the
  arena starts, and that is the one thing that two such readers differ in; it ends when both drop a message.

  Two readers are compared call by call. The relation between them fixes what the answers depend on, and how
  far apart the cursors are. Every call keeps it, also one that fails.

  What is proved:
    1. `agree`: two paired readers give one answer to a call and are paired again.
    2. `together`: so they do and are after every history.
    3. `messages_isolated`: paired readers cannot be told apart; in particular a reader that has dropped a
       message is as good as a new one.
-/
namespace MessagePack
namespace Reader

/-! ## What can be seen of a call -/

/-- The calls that messages are read with: feeding, looking, reading, and dropping a message. -/
def Call.ofMessages : Call → Bool
  | .reserve _ _ | .commit _ => false
  | _ => true

/-- What a call that succeeds shows, when the blob that it read is resolved right after. -/
inductive Shown where
  | done
  | region (bytes : Bytes)
  | upcoming (u : Upcoming)
  | took (reading : Reading (Except DecodeError (Value Bytes)))
  | needMoreData

/-- An answer as it shows to someone who holds the reader `r`. -/
def Answer.shownBy (r : Reader) : Answer → Shown
  | .done => .done
  | .region bytes => .region bytes
  | .upcoming u => .upcoming u
  | .progress (.decoded v n) => .took ⟨r.resolve v, n⟩
  | .progress .needMoreData => .needMoreData

/-- What a reply shows: the answer, or the failure. -/
def shown (reply : Reply Reader Answer) : Except Failure Shown :=
  reply.outcome.map (Answer.shownBy reply.state)

/-- What a call on a reader shows. -/
def shows (r : Reader) (c : Call) : Except Failure Shown := shown (r.perform c)

/-- Whether a call drops what lies before the cursor: a compaction that succeeds does, and a discard. -/
def drops (r : Reader) (c : Call) : Bool :=
  match c with
  | .discard => true
  | .compact => (r.perform c).outcome.isOk
  | _ => false

/-- Whether some call of a history drops what lies before the cursor. -/
def dropsIn (r : Reader) : List Call → Bool
  | [] => false
  | c :: history => r.drops c || (r.perform c).state.dropsIn history

/-! ## Readers that cannot be told apart -/

/-- Two readers that agree in all that an answer depends on, offsets apart. -/
structure Alike (r r' : Reader) : Prop where
  limit_eq : r'.config.maxBlobLength = r.config.maxBlobLength
  unread_eq : r'.arena.unread = r.arena.unread
  complete_eq : r'.arena.messageComplete = r.arena.messageComplete

/-- Two readers give the same answers, whatever is asked of both, as long as no growth is refused to either.
The offsets of faults differ as the cursors did at first, until a message is dropped. -/
def Conform (r r' : Reader) : Prop :=
  ∀ (history : List Call) (c : Call), (∀ c' ∈ history ++ [c], c'.ofMessages = true) →
    r.Granted (history ++ [c]) → r'.Granted (history ++ [c]) →
    r'.dropsIn history = r.dropsIn history ∧
    if r.dropsIn history then (r'.after history).shows c = (r.after history).shows c
    else ((r'.after history).shows c).mapError (Failure.shift r.cursor)
      = ((r.after history).shows c).mapError (Failure.shift r'.cursor)

/-- Two readers give the same answers, the offsets included. -/
def Coincide (r r' : Reader) : Prop :=
  ∀ (history : List Call) (c : Call), (∀ c' ∈ history ++ [c], c'.ofMessages = true) →
    r.Granted (history ++ [c]) → r'.Granted (history ++ [c]) →
    (r'.after history).shows c = (r.after history).shows c

/-! ## The relation -/

/-- Two readers that are alike, with cursors so far apart that `base` and `base'` make up for it. -/
structure Paired (base base' : Nat) (r r' : Reader) : Prop where
  wellFormed : r.arena.WellFormed
  wellFormed' : r'.arena.WellFormed
  alike : Alike r r'
  cursor_eq : base + r'.cursor = base' + r.cursor

variable {base base' : Nat} {r r' : Reader}

theorem Paired.marker?_eq (h : Paired base base' r r') : r'.marker? = r.marker? := by
  rw [marker?, marker?, h.alike.unread_eq]

/-- Both scans find the same, offsets apart. -/
theorem Paired.front_eq (h : Paired base base' r r') :
    r'.front.mapError (DecodeError.shift base) = r.front.mapError (DecodeError.shift base') := by
  rw [front, front, ← scanBytes_shift, ← scanBytes_shift, h.cursor_eq, h.alike.limit_eq,
    h.alike.unread_eq]

/-- What two paired readers make of one call. -/
structure Agree (base base' : Nat) (r r' : Reader) (c : Call) : Prop where
  shows_eq : (r'.shows c).mapError (Failure.shift base) = (r.shows c).mapError (Failure.shift base')
  drops_eq : r'.drops c = r.drops c
  paired : Paired (if r.drops c then 0 else base) (if r.drops c then 0 else base')
    (r.perform c).state (r'.perform c).state

/-- A call that drops nothing: it is enough to compare the replies. -/
theorem agree_of_replies {c : Call} (hdrops : ∀ r : Reader, r.drops c = false)
    {reply reply' : Reply Reader Answer} (hreply : r.perform c = reply)
    (hreply' : r'.perform c = reply')
    (hshown : (shown reply').mapError (Failure.shift base) = (shown reply).mapError (Failure.shift base'))
    (hpaired : Paired base base' reply.state reply'.state) : Agree base base' r r' c := by
  refine ⟨?_, ?_, ?_⟩
  · rw [shows, shows, hreply, hreply', hshown]
  · rw [hdrops, hdrops]
  · rw [hdrops, hreply, hreply']
    exact hpaired

/-! ## Looking and reading -/

theorem agree_next (h : Paired base base' r r') : Agree base base' r r' .next := by
  have hperform (r : Reader) : r.perform .next = r.next.mapOutcome .upcoming := rfl
  cases hended : r.arena.messageComplete with
  | true =>
    have hnext : r.next = .done .ended r := by simp [next, hended]
    have hnext' : r'.next = .done .ended r' := by simp [next, h.alike.complete_eq, hended]
    exact agree_of_replies (fun _ => rfl) (by rw [hperform, hnext]) (by rw [hperform, hnext']) rfl h
  | false =>
    have hended' : r'.arena.messageComplete = false := h.alike.complete_eq.trans hended
    cases hu : r.arena.unread with
    | nil =>
      have hnext := next_of_nil hended hu
      have hnext' := next_of_nil hended' (h.alike.unread_eq.trans hu)
      exact agree_of_replies (fun _ => rfl) (by rw [hperform, hnext]) (by rw [hperform, hnext']) rfl h
    | cons b u =>
      have hnext := next_of_cons hended hu
      have hnext' := next_of_cons hended' (h.alike.unread_eq.trans hu)
      cases hm : Marker.ofByte? b with
      | none =>
        rw [hm] at hnext hnext'
        refine agree_of_replies (fun _ => rfl) (by rw [hperform, hnext]) (by rw [hperform, hnext']) ?_ h
        show Except.error (Failure.fault (.unknownTag b (base + r'.cursor))) = _
        rw [h.cursor_eq]
        rfl
      | some m =>
        rw [hm] at hnext hnext'
        exact agree_of_replies (fun _ => rfl) (by rw [hperform, hnext]) (by rw [hperform, hnext'])
          rfl h

theorem Paired.misuse?_eq (h : Paired base base' r r') (call : ReadCall) :
    r'.misuse? call = r.misuse? call := by
  unfold misuse?
  rw [h.alike.complete_eq, h.marker?_eq]

/-- After a token was taken from both, they are as far apart as before. -/
theorem Paired.consume (h : Paired base base' r r') {v v' : Value Extent} {n : Nat}
    (hfront : r.front = .ok (.complete v n)) (hfront' : r'.front = .ok (.complete v' n)) :
    Paired base base' (r.withArena (r.arena.consume n)) (r'.withArena (r'.arena.consume n)) := by
  have hn := (le_remaining_of_front h.wellFormed hfront).2
  have hn' := (le_remaining_of_front h.wellFormed' hfront').2
  refine ⟨Arena.wellFormed_consume h.wellFormed hn, Arena.wellFormed_consume h.wellFormed' hn',
    ⟨h.alike.limit_eq, ?_, h.alike.complete_eq⟩, ?_⟩
  · show (r'.arena.consume n).unread = (r.arena.consume n).unread
    rw [unread_consumed h.wellFormed hn, unread_consumed h.wellFormed' hn', h.alike.unread_eq]
  · have hcursor := h.cursor_eq
    show base + (r'.cursor + n) = base' + (r.cursor + n)
    omega

theorem agree_read (h : Paired base base' r r') (call : ReadCall) :
    Agree base base' r r' (.read call) := by
  have hread := read_eq h.wellFormed call
  have hread' := read_eq h.wellFormed' call
  rw [h.misuse?_eq] at hread'
  have hperform (r : Reader) : r.perform (.read call) = (r.read call).mapOutcome .progress := rfl
  cases hmisuse : r.misuse? call with
  | some v =>
    rw [hmisuse] at hread hread'
    exact agree_of_replies (fun _ => rfl) (by rw [hperform, hread]) (by rw [hperform, hread']) rfl h
  | none =>
    rw [hmisuse] at hread hread'
    have hfront := h.front_eq
    -- The two scans differ in the offset of an error at most.
    cases hf : r.front with
    | error e =>
      rw [hf] at hread hfront
      cases hf' : r'.front with
      | ok scan =>
        rw [hf'] at hfront
        cases hfront
      | error e' =>
        rw [hf'] at hread' hfront
        injection hfront with hfront
        refine agree_of_replies (fun _ => rfl) (by rw [hperform, hread]) (by rw [hperform, hread']) ?_ h
        show Except.error (Failure.fault (e'.shift base)) = _
        rw [hfront]
        rfl
    | ok scan =>
      rw [hf] at hread hfront
      have hf' : r'.front = .ok scan := by
        cases hf' : r'.front with
        | error e' =>
          rw [hf'] at hfront
          cases hfront
        | ok scan' =>
          rw [hf'] at hfront
          injection hfront with hfront
          rw [hfront]
      rw [hf'] at hread'
      cases scan with
      | incomplete =>
        exact agree_of_replies (fun _ => rfl) (by rw [hperform, hread]) (by rw [hperform, hread'])
          rfl h
      | complete v n =>
        refine agree_of_replies (fun _ => rfl) (by rw [hperform, hread]) (by rw [hperform, hread']) ?_
          (h.consume hf hf')
        show Except.ok (Shown.took
          ⟨(r'.withArena (r'.arena.consume n)).resolve (v.map r'.viewAt), n⟩) = _
        rw [resolve_settled h.wellFormed' hf', h.alike.unread_eq, ← resolve_settled h.wellFormed hf]
        rfl

/-! ## Feeding and dropping -/

theorem agree_feed (h : Paired base base' r r') {bytes : Bytes}
    (hgranted : (r.feed bytes).outcome = .ok ()) (hgranted' : (r'.feed bytes).outcome = .ok ()) :
    Agree base base' r r' (.feed bytes) := by
  have hperform (r : Reader) : r.perform (.feed bytes) = (r.feed bytes).mapOutcome fun _ => .done := rfl
  obtain ⟨_, f, hfeed⟩ | ⟨_, a, es, hfeed, hextends⟩ := feed_cases h.wellFormed bytes
  · rw [hfeed] at hgranted
    cases hgranted
  · obtain ⟨_, f, hfeed'⟩ | ⟨_, a', es', hfeed', hextends'⟩ := feed_cases h.wellFormed' bytes
    · rw [hfeed'] at hgranted'
      cases hgranted'
    · refine agree_of_replies (fun _ => rfl) (by rw [hperform, hfeed]) (by rw [hperform, hfeed']) rfl
        ⟨hextends.wellFormed, hextends'.wellFormed, ⟨h.alike.limit_eq, ?_, ?_⟩, ?_⟩
      · show a'.unread = a.unread
        rw [hextends.unread_eq, hextends'.unread_eq, h.alike.unread_eq]
      · show a'.messageComplete = a.messageComplete
        rw [hextends.messageComplete_eq, hextends'.messageComplete_eq, h.alike.complete_eq]
      · show base + a'.readCursor = base' + a.readCursor
        rw [hextends.readCursor_eq, hextends'.readCursor_eq]
        exact h.cursor_eq

theorem agree_endMessage (h : Paired base base' r r') : Agree base base' r r' .endMessage :=
  agree_of_replies (fun _ => rfl) rfl rfl rfl
    ⟨Arena.wellFormed_endMessage h.wellFormed, Arena.wellFormed_endMessage h.wellFormed',
      ⟨h.alike.limit_eq, h.alike.unread_eq, rfl⟩, h.cursor_eq⟩

/-- Where the storage is compacted, both cursors come to the start. -/
theorem Paired.compacted (h : Paired base base' r r') :
    Paired 0 0 (r.withArena r.arena.compacted) (r'.withArena r'.arena.compacted) := by
  refine ⟨Arena.wellFormed_compacted h.wellFormed, Arena.wellFormed_compacted h.wellFormed',
    ⟨h.alike.limit_eq, ?_, ?_⟩, ?_⟩
  · show r'.arena.compacted.unread = r.arena.compacted.unread
    rw [Arena.unread_compacted h.wellFormed, Arena.unread_compacted h.wellFormed', h.alike.unread_eq]
  · show r'.arena.compacted.messageComplete = r.arena.compacted.messageComplete
    rw [Arena.messageComplete_compacted, Arena.messageComplete_compacted]
  · show 0 + r'.arena.compacted.readCursor = 0 + r.arena.compacted.readCursor
    rw [Arena.readCursor_compacted, Arena.readCursor_compacted]

theorem agree_compact (h : Paired base base' r r') : Agree base base' r r' .compact := by
  cases hended : r.arena.messageComplete with
  | false =>
    have hreply := perform_compact_of_open hended
    have hreply' := perform_compact_of_open (h.alike.complete_eq.trans hended)
    have hdrops : r.drops .compact = false := congrArg (·.outcome.isOk) hreply
    have hdrops' : r'.drops .compact = false := congrArg (·.outcome.isOk) hreply'
    refine ⟨?_, hdrops'.trans hdrops.symm, ?_⟩
    · rw [shows, shows, hreply, hreply']
      rfl
    · rw [hdrops, hreply, hreply']
      exact h
  | true =>
    have hreply := perform_compact_of_ended hended
    have hreply' := perform_compact_of_ended (h.alike.complete_eq.trans hended)
    have hdrops : r.drops .compact = true := congrArg (·.outcome.isOk) hreply
    have hdrops' : r'.drops .compact = true := congrArg (·.outcome.isOk) hreply'
    refine ⟨?_, hdrops'.trans hdrops.symm, ?_⟩
    · rw [shows, shows, hreply, hreply']
      rfl
    · rw [hdrops, hreply, hreply']
      exact h.compacted

theorem agree_discard (h : Paired base base' r r') : Agree base base' r r' .discard := by
  refine ⟨rfl, rfl, ?_⟩
  refine ⟨Arena.wellFormed_clear h.wellFormed, Arena.wellFormed_clear h.wellFormed',
    ⟨h.alike.limit_eq, ?_, rfl⟩, rfl⟩
  show r'.arena.clear.unread = r.arena.clear.unread
  rw [Arena.unread_clear, Arena.unread_clear]

/-- Two paired readers give one answer to a call, and are paired again. -/
theorem agree (h : Paired base base' r r') {c : Call} (hc : c.ofMessages = true)
    (hgranted : ∀ bytes, c = .feed bytes → (r.feed bytes).outcome = .ok ())
    (hgranted' : ∀ bytes, c = .feed bytes → (r'.feed bytes).outcome = .ok ()) :
    Agree base base' r r' c := by
  cases c with
  | feed bytes => exact agree_feed h (hgranted bytes rfl) (hgranted' bytes rfl)
  | next => exact agree_next h
  | read call => exact agree_read h call
  | endMessage => exact agree_endMessage h
  | compact => exact agree_compact h
  | discard => exact agree_discard h
  | _ => cases hc

/-! ## Histories -/

/-- Two paired readers after a history, and their answers to the call behind it. -/
structure Together (base base' : Nat) (r r' : Reader) (history : List Call) (c : Call) : Prop where
  drops_eq : r'.dropsIn history = r.dropsIn history
  last : Agree (if r.dropsIn history then 0 else base) (if r.dropsIn history then 0 else base')
    (r.after history) (r'.after history) c

/-- What one call keeps, a history keeps. -/
theorem together (h : Paired base base' r r') {history : List Call} {c : Call}
    (hcalls : ∀ c' ∈ history ++ [c], c'.ofMessages = true) (hgranted : r.Granted (history ++ [c]))
    (hgranted' : r'.Granted (history ++ [c])) : Together base base' r r' history c := by
  induction history generalizing base base' r r' with
  | nil => exact ⟨rfl, agree h (hcalls c List.mem_cons_self) hgranted.1 hgranted'.1⟩
  | cons first history ih =>
    obtain ⟨hc, hlater⟩ := List.forall_mem_cons.1 hcalls
    have hfirst := agree h hc hgranted.1 hgranted'.1
    obtain ⟨hdrops, hlast⟩ := ih hfirst.paired hlater hgranted.2 hgranted'.2
    refine ⟨?_, ?_⟩
    · show (r'.drops first || (r'.perform first).state.dropsIn history) = _
      rw [hfirst.drops_eq, hdrops]
      rfl
    · show Agree (if (r.drops first || (r.perform first).state.dropsIn history) then 0 else base)
        (if (r.drops first || (r.perform first).state.dropsIn history) then 0 else base') _ _ c
      cases hd : r.drops first with
      | false =>
        rw [hd] at hlast
        exact hlast
      | true =>
        -- The bases are zero once and for all.
        rw [hd] at hlast
        simp only [if_true, ite_self] at hlast
        exact hlast

theorem mapError_shift_zero {α : Type} (outcome : Except Failure α) :
    outcome.mapError (Failure.shift 0) = outcome := by
  cases outcome with
  | ok a => rfl
  | error f =>
    cases f with
    | fault e => exact congrArg (fun e => Except.error (Failure.fault e)) e.shift_zero
    | violation v => rfl

theorem conform_of_alike (h : r.arena.WellFormed) (h' : r'.arena.WellFormed) (halike : Alike r r') :
    Conform r r' := by
  intro history c hcalls hgranted hgranted'
  have hpaired : Paired r.cursor r'.cursor r r' := ⟨h, h', halike, Nat.add_comm _ _⟩
  obtain ⟨hdrops, hlast⟩ := together hpaired hcalls hgranted hgranted'
  refine ⟨hdrops, ?_⟩
  have hshows := hlast.shows_eq
  split
  · next hdropped =>
    simp only [hdropped, if_true, mapError_shift_zero] at hshows
    exact hshows
  · next hkept =>
    simp only [hkept, Bool.false_eq_true, if_false] at hshows
    exact hshows

/-- Readers at the start of their arenas agree in the offsets too. -/
theorem coincide_of_alike (h : r.arena.WellFormed) (h' : r'.arena.WellFormed) (halike : Alike r r')
    (hcursor : r.cursor = 0) (hcursor' : r'.cursor = 0) : Coincide r r' := by
  intro history c hcalls hgranted hgranted'
  have hpaired : Paired 0 0 r r' := ⟨h, h', halike, by rw [hcursor, hcursor']⟩
  obtain ⟨_, hlast⟩ := together hpaired hcalls hgranted hgranted'
  have hshows := hlast.shows_eq
  simp only [ite_self, mapError_shift_zero] at hshows
  exact hshows

/-! ## Messages -/

theorem unread_close (h : r.arena.WellFormed) : r.arena.endMessage.compacted.unread = r.arena.unread :=
  Arena.unread_compacted (Arena.wellFormed_endMessage h)

theorem wellFormed_close (h : r.arena.WellFormed) :
    (r.after [.endMessage, .compact]).arena.WellFormed := wellFormed_foldl h _

/-- A new reader that was fed some bytes has them before it, and nothing else. -/
theorem alike_feed {config : Config} (hlimit : config.maxBlobLength = r.config.maxBlobLength)
    {bytes : Bytes} (hunread : r.arena.unread = bytes) (hopen : r.arena.messageComplete = false)
    (hgranted : ((create config).state.feed bytes).outcome = .ok ()) :
    Alike r ((create config).state.feed bytes).state ∧
      ((create config).state.feed bytes).state.arena.WellFormed ∧
      ((create config).state.feed bytes).state.cursor = 0 := by
  have hfresh := fresh_create config
  obtain ⟨_, f, hfeed⟩ | ⟨_, a, es, hfeed, hextends⟩ :=
    feed_cases (wellFormed_after config []) bytes
  · rw [after, List.foldl_nil] at hfeed
    rw [hfeed] at hgranted
    cases hgranted
  · rw [after, List.foldl_nil] at hfeed hextends
    rw [hfeed]
    refine ⟨⟨hlimit, ?_, ?_⟩, hextends.wellFormed, ?_⟩
    · show a.unread = r.arena.unread
      rw [hextends.unread_eq, hfresh.unread_eq, hunread]
      rfl
    · exact hextends.messageComplete_eq.trans (hfresh.messageComplete_eq.trans hopen.symm)
    · exact hextends.readCursor_eq.trans hfresh.readCursor_eq

/-- Messages are isolated from one another. Two readers with one limit, the same unread bytes and both inside
or both behind a message cannot be told apart, whatever has happened to them before. So a reader that has
dropped a message answers like a new one that is fed what was left over, and one that has discarded everything
like a new one; and to drop what was read of an open message changes no answer, however little of the next
token has come. -/
theorem messages_isolated {r : Reader} (h : r.Reachable) :
    (∀ r' : Reader, r'.Reachable → Alike r r' → Conform r r') ∧
    (∀ config : Config, config.maxBlobLength = r.config.maxBlobLength →
      (((create config).state.feed r.arena.unread).outcome = .ok () →
        Coincide (r.after [.endMessage, .compact])
          ((create config).state.feed r.arena.unread).state) ∧
      Coincide (r.after [.discard]) (create config).state) ∧
    (r.arena.messageComplete = false → Conform r (r.after [.endMessage, .compact])) := by
  have hwf := h.wellFormed
  have hclosed := wellFormed_close hwf
  rw [after_close] at hclosed ⊢
  refine ⟨?_, ?_, ?_⟩
  · intro r' h' halike
    exact conform_of_alike hwf h'.wellFormed halike
  · intro config hlimit
    refine ⟨?_, ?_⟩
    · intro hgranted
      obtain ⟨halike, hfed, hcursor⟩ := alike_feed
        (r := r.withArena r.arena.endMessage.compacted) hlimit (unread_close hwf)
        (Arena.messageComplete_compacted _) hgranted
      exact coincide_of_alike hclosed hfed halike (Arena.readCursor_compacted _) hcursor
    · have hfresh := fresh_create config
      have halike : Alike (r.after [.discard]) (create config).state := by
        refine ⟨hlimit, ?_, hfresh.messageComplete_eq⟩
        show (create config).state.arena.unread = r.arena.clear.unread
        rw [hfresh.unread_eq, Arena.unread_clear]
      exact coincide_of_alike (wellFormed_foldl hwf _) (wellFormed_after config []) halike rfl
        hfresh.readCursor_eq
  · intro hopen
    refine conform_of_alike hwf hclosed ⟨rfl, unread_close hwf, ?_⟩
    exact (Arena.messageComplete_compacted _).trans hopen.symm

/-- A reader that has read a null, and has a blob and a byte that no token starts with before it. -/
def behindNull : Reader :=
  (create { initialCapacity := 2 }).state.after [.feed [0xc0, 0xc4, 1, 7, 0xc1], .read .any]

/-- A reader with the same before it that has read nothing. -/
def withoutNull : Reader := (create { initialCapacity := 16 }).state.after [.feed [0xc4, 1, 7, 0xc1]]

/-- The two refuse the last byte at offsets that are one apart. -/
theorem messages_isolated_behindNull :
    ((withoutNull.after [.read .any]).shows (.read .any)).mapError (Failure.shift 1)
      = ((behindNull.after [.read .any]).shows (.read .any)).mapError (Failure.shift 0) ∧
    (behindNull.after [.read .any]).shows (.read .any) = .error (.fault (.unknownTag 0xc1 4)) ∧
    (withoutNull.after [.read .any]).shows (.read .any) = .error (.fault (.unknownTag 0xc1 3)) := by
  have hreachable : behindNull.Reachable := ⟨_, _, rfl⟩
  have hreachable' : withoutNull.Reachable := ⟨_, _, rfl⟩
  have hcalls : ∀ c ∈ [Call.read .any] ++ [.read .any], c.ofMessages = true := by decide
  have hgranted (r : Reader) : r.Granted ([.read .any] ++ [.read .any]) := by
    simp [Granted]
  have hunread : behindNull.arena.unread = [0xc4, 1, 7, 0xc1] := rfl
  have hunread' : withoutNull.arena.unread = [0xc4, 1, 7, 0xc1] := rfl
  have hopen : behindNull.arena.messageComplete = false := rfl
  have hopen' : withoutNull.arena.messageComplete = false := rfl
  have hconform := (messages_isolated hreachable).1 withoutNull hreachable'
    ⟨rfl, hunread'.trans hunread.symm, hopen'.trans hopen.symm⟩
  obtain ⟨_, hshows⟩ := hconform [.read .any] (.read .any) hcalls (hgranted _) (hgranted _)
  have hkept : behindNull.dropsIn [.read .any] = false := rfl
  have hcursor : behindNull.cursor = 1 := rfl
  have hcursor' : withoutNull.cursor = 0 := rfl
  rw [hkept, hcursor, hcursor'] at hshows
  exact ⟨hshows, rfl, rfl⟩

end Reader
end MessagePack
