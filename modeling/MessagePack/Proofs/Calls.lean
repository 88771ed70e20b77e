import MessagePack.Proofs.Reading
/-
  What a call on a reader can do. Each call is refused and changes nothing, or extends the committed bytes,
  or takes a token from their front, or ends, compacts or clears. What holds along every history follows from
  this one list.

  What is proved:
    1. `performs`: the list is complete, for every reader whose positions are in order.
    2. `wellFormed_after`: the positions are in order after every history.
-/
namespace MessagePack

/-- `a'` is `a` with `bytes` committed behind what was committed before, in a storage that may have grown. -/
structure Arena.Extends (a : Arena) (bytes : Bytes) (a' : Arena) : Prop where
  wellFormed : a'.WellFormed
  keeps : Keeps a a'
  grows : Grows a a'
  unread_eq : a'.unread = a.unread ++ bytes
  usedEnd_eq : a'.usedEnd = a.usedEnd + bytes.length
  readCursor_eq : a'.readCursor = a.readCursor
  messageComplete_eq : a'.messageComplete = a.messageComplete
  allocator_eq : a'.allocator = a.allocator

namespace Arena

theorem Extends.refl {a : Arena} (h : a.WellFormed) : a.Extends [] a :=
  ⟨h, Keeps.refl a, .inl ⟨rfl, rfl⟩, (List.append_nil _).symm, rfl, rfl, rfl, rfl⟩

/-- Room that is reserved and written into, but not committed, adds no byte. -/
theorem extends_reserve {a : Arena} (h : a.WellFormed) {n : Nat}
    (hgranted : (a.reserve n).outcome = .ok ()) (bytes : Bytes) :
    a.Extends [] ((a.reserve n).state.fill bytes) := by
  have hwf := wellFormed_reserve h n
  have hkeeps := keeps_reserve h n
  have hgrows := grows_reserve a n
  have hunread := unread_reserve h n
  have hallocator := a.allocator_reserve n
  obtain ⟨_, hend, hcursor, hcomplete⟩ := reserve_granted hgranted
  generalize (a.reserve n).state = a' at *
  have hfilled := keeps_fill hwf bytes
  have hcap := capacity_fill hwf bytes
  refine ⟨wellFormed_fill hwf bytes, hkeeps.trans hfilled, ?_, ?_, ?_, ?_, ?_, ?_⟩
  · rw [Grows, hcap, generation_fill]
    exact hgrows
  · rw [hfilled.unread_eq (usedEnd_fill a' bytes) (readCursor_fill a' bytes), hunread, List.append_nil]
  · rw [usedEnd_fill, hend]
    rfl
  · rw [readCursor_fill, hcursor]
  · rw [messageComplete_fill, hcomplete]
  · rw [allocator_fill, hallocator]

/-- A commit adds the bytes that stand at the front of the reservation. -/
theorem Extends.commit {a a' : Arena} (h : a.Extends [] a') {n : Nat} (hn : n ≤ a'.reserved) :
    a.Extends (a'.slice a'.usedEnd (a'.usedEnd + n)) (a'.commit n).state := by
  have hwf := wellFormed_commit h.wellFormed n
  have hkeeps := h.keeps.trans (keeps_commit a' n)
  have hunread := unread_commit h.wellFormed hn
  rw [h.unread_eq, List.append_nil] at hunread
  have hlen : (a'.slice a'.usedEnd (a'.usedEnd + n)).length = n := by
    have hreserved := h.wellFormed.reserved_le
    rw [length_slice]
    omega
  obtain ⟨hlt, _⟩ | ⟨_, hc⟩ := a'.commit_cases n
  · omega
  · rw [hc] at hwf hkeeps hunread ⊢
    have hend : a'.usedEnd + n = a.usedEnd + (a'.slice a'.usedEnd (a'.usedEnd + n)).length := by
      rw [hlen, h.usedEnd_eq]
      rfl
    exact ⟨hwf, hkeeps, h.grows, hunread, hend, h.readCursor_eq, h.messageComplete_eq, h.allocator_eq⟩

/-- Bytes that are reserved for, written and committed stand behind the others. -/
theorem extends_feed {a : Arena} (h : a.WellFormed) {bytes : Bytes}
    (hgranted : (a.reserve bytes.length).outcome = .ok ()) :
    a.Extends bytes (((a.reserve bytes.length).state.fill bytes).commit bytes.length).state := by
  have hwf := wellFormed_reserve h bytes.length
  have hfilled := extends_reserve h hgranted bytes
  have hfits := Nat.le_of_eq (reserve_granted hgranted).1.symm
  generalize (a.reserve bytes.length).state = a' at *
  have hcommitted := hfilled.commit (n := bytes.length) hfits
  have hbytes : (a'.fill bytes).slice (a'.fill bytes).usedEnd
      ((a'.fill bytes).usedEnd + bytes.length) = bytes := slice_fill hwf hfits
  rwa [hbytes] at hcommitted

end Arena

namespace Reader

/-! ## Feeding -/

/-- A feed is refused as a whole, or it is granted and its bytes stand behind the others. -/
theorem feed_cases {r : Reader} (h : r.arena.WellFormed) (bytes : Bytes) :
    (¬ r.arena.Fits bytes.length ∧ ∃ f, r.feed bytes = .fail f r) ∨
    (r.arena.Fits bytes.length ∧
      ∃ a es, r.feed bytes = ⟨.ok (), r.withArena a, es⟩ ∧ r.arena.Extends bytes a) := by
  unfold feed reserve
  cases hgranted : (r.arena.reserve bytes.length).outcome with
  | error f =>
    have hfits : ¬ r.arena.Fits bytes.length := by
      intro hfits
      rw [Arena.reserve_of_fits h hfits] at hgranted
      cases hgranted
    rw [Arena.reserve_refused hgranted]
    exact .inl ⟨hfits, f, rfl⟩
  | ok u =>
    have hfits := Arena.fits_of_reserve hgranted
    have hextends := Arena.extends_feed h hgranted
    have hreserved := (Arena.reserve_granted hgranted).1
    generalize r.arena.reserve bytes.length = reply at *
    obtain ⟨outcome, a, es⟩ := reply
    simp only at hgranted hreserved hextends
    subst hgranted
    -- All the room that was granted is committed, so the commit cannot be refused.
    obtain ⟨hlt, _⟩ | ⟨_, hc⟩ := (a.fill bytes).commit_cases bytes.length
    · rw [Arena.reserved_fill] at hlt
      omega
    · refine .inr ⟨hfits, ((a.fill bytes).commit bytes.length).state, es, ?_, hextends⟩
      show (Reply.mk (.ok ()) (r.withArena a) es).andThen _ = _
      simp only [Reply.andThen, commit, fill, withArena, hc, Reply.within, Reply.done,
        List.append_nil]

/-! ## Any call -/

/-- All that a call on a reader can do. -/
inductive Performs (r : Reader) : Call → Reply Reader Answer → Prop where
  /-- The call fails and leaves the reader as it was. -/
  | refused (c : Call) (f : Failure) (es : List Event) : Performs r c ⟨.error f, r, es⟩
  | looked (u : Upcoming) : Performs r .next (.done (.upcoming u) r)
  | lacking (call : ReadCall) (hopen : r.arena.messageComplete = false)
      (h : r.front = .ok .incomplete) : Performs r (.read call) (.done (.progress .needMoreData) r)
  | took (call : ReadCall) (v : Value Extent) (n : Nat) (hopen : r.arena.messageComplete = false)
      (h : r.front = .ok (.complete v n)) :
      Performs r (.read call)
        (.done (.progress (.decoded (v.map r.viewAt) n)) (r.withArena (r.arena.consume n)))
  | fed (bytes : Bytes) (a : Arena) (es : List Event) (h : r.arena.Extends bytes a) :
      Performs r (.feed bytes) ⟨.ok .done, r.withArena a, es⟩
  | reserved (n : Nat) (bytes shown : Bytes) (a : Arena) (es : List Event)
      (h : r.arena.Extends [] a) :
      Performs r (.reserve n bytes) ⟨.ok (.region shown), r.withArena a, es⟩
  | committed (n : Nat) (a : Arena)
      (h : r.arena.Extends (r.arena.slice r.arena.usedEnd (r.arena.usedEnd + n)) a) :
      Performs r (.commit n) (.done .done (r.withArena a))
  | ended : Performs r .endMessage (.done .done r.endMessage)
  | compacted (es : List Event) (h : r.arena.messageComplete = true) :
      Performs r .compact ⟨.ok .done, r.withArena r.arena.compacted, es⟩
  | discarded (es : List Event) : Performs r .discard ⟨.ok .done, r.withArena r.arena.clear, es⟩

theorem performs_next (r : Reader) : Performs r .next (r.perform .next) := by
  show Performs r .next (r.next.mapOutcome .upcoming)
  cases hended : r.arena.messageComplete with
  | true =>
    have hnext : r.next = .done .ended r := by simp [next, hended]
    rw [hnext]
    exact .looked _
  | false =>
    cases hu : r.arena.unread with
    | nil =>
      rw [next_of_nil hended hu]
      exact .looked _
    | cons b u =>
      rw [next_of_cons hended hu]
      cases Marker.ofByte? b with
      | none => exact .refused _ _ _
      | some m => exact .looked _

theorem performs_read {r : Reader} (h : r.arena.WellFormed) (call : ReadCall) :
    Performs r (.read call) (r.perform (.read call)) := by
  show Performs r (.read call) ((r.read call).mapOutcome .progress)
  obtain ⟨v, hread⟩ | ⟨hopen, hread⟩ := read_cases h call
  · rw [hread]
    exact .refused _ _ _
  · rw [hread]
    cases hfront : r.front with
    | error e => exact .refused _ _ _
    | ok scan =>
      cases scan with
      | incomplete => exact .lacking call hopen hfront
      | complete v n => exact .took call v n hopen hfront

theorem performs_feed {r : Reader} (h : r.arena.WellFormed) (bytes : Bytes) :
    Performs r (.feed bytes) (r.perform (.feed bytes)) := by
  show Performs r (.feed bytes) ((r.feed bytes).mapOutcome fun _ => .done)
  obtain ⟨_, f, hfeed⟩ | ⟨_, a, es, hfeed, hextends⟩ := feed_cases h bytes
  · rw [hfeed]
    exact .refused _ _ _
  · rw [hfeed]
    exact .fed bytes a es hextends

/-- A reservation as it is carried out. -/
theorem perform_reserve (r : Reader) (n : Nat) (bytes : Bytes) :
    r.perform (.reserve n bytes) = ((r.arena.reserve n).within r.withArena).andThen
      fun _ r => .done (.region r.arena.region) (r.fill bytes) := rfl

theorem performs_reserve {r : Reader} (h : r.arena.WellFormed) (n : Nat) (bytes : Bytes) :
    Performs r (.reserve n bytes) (r.perform (.reserve n bytes)) := by
  rw [perform_reserve]
  cases hgranted : (r.arena.reserve n).outcome with
  | error f =>
    rw [Arena.reserve_refused hgranted]
    exact .refused _ _ _
  | ok u =>
    have hextends := Arena.extends_reserve h hgranted bytes
    generalize r.arena.reserve n = reply at *
    obtain ⟨outcome, a, es⟩ := reply
    simp only at hgranted hextends
    subst hgranted
    have hperformed := Performs.reserved n bytes a.region _ (es ++ []) hextends
    exact hperformed

theorem performs_commit {r : Reader} (h : r.arena.WellFormed) (n : Nat) :
    Performs r (.commit n) (r.perform (.commit n)) := by
  show Performs r (.commit n) (((r.arena.commit n).within r.withArena).mapOutcome fun _ => .done)
  obtain ⟨_, hc⟩ | ⟨hn, hc⟩ := r.arena.commit_cases n
  · rw [hc]
    exact .refused _ _ _
  · have hextends := (Arena.Extends.refl h).commit hn
    rw [hc] at hextends ⊢
    exact .committed n _ hextends

theorem perform_compact_of_open {r : Reader} (h : r.arena.messageComplete = false) :
    r.perform .compact = .fail (.violation .unfinishedMessage) r := by
  show (r.arena.compact.within r.withArena).mapOutcome _ = _
  obtain ⟨_, hc⟩ | ⟨hended, _⟩ := r.arena.compact_cases
  · rw [hc]
    rfl
  · rw [h] at hended
    cases hended

theorem perform_compact_of_ended {r : Reader} (h : r.arena.messageComplete = true) :
    r.perform .compact = ⟨.ok .done, r.withArena r.arena.compacted,
      [.compacted r.arena.readCursor r.arena.remaining]⟩ := by
  show (r.arena.compact.within r.withArena).mapOutcome _ = _
  obtain ⟨hopen, _⟩ | ⟨_, hc⟩ := r.arena.compact_cases
  · rw [h] at hopen
    cases hopen
  · rw [hc]
    rfl

theorem performs_compact (r : Reader) : Performs r .compact (r.perform .compact) := by
  cases hended : r.arena.messageComplete with
  | false =>
    rw [perform_compact_of_open hended]
    exact .refused _ _ _
  | true =>
    rw [perform_compact_of_ended hended]
    exact .compacted _ hended

/-- Whatever is asked of a reader, it does one of the things above. -/
theorem performs {r : Reader} (h : r.arena.WellFormed) (c : Call) : Performs r c (r.perform c) := by
  cases c with
  | feed bytes => exact performs_feed h bytes
  | reserve n bytes => exact performs_reserve h n bytes
  | commit n => exact performs_commit h n
  | next => exact performs_next r
  | read call => exact performs_read h call
  | endMessage => exact .ended
  | compact => exact performs_compact r
  | discard => exact .discarded _

/-! ## Histories -/

theorem Performs.wellFormed {r : Reader} {c : Call} {reply : Reply Reader Answer}
    (hp : Performs r c reply) (h : r.arena.WellFormed) : reply.state.arena.WellFormed := by
  cases hp with
  | refused | looked | lacking => exact h
  | took call v n hopen hfront => exact Arena.wellFormed_consume h (le_remaining_of_front h hfront).2
  | fed bytes a es hextends => exact hextends.wellFormed
  | reserved n bytes shown a es hextends => exact hextends.wellFormed
  | committed n a hextends => exact hextends.wellFormed
  | ended => exact Arena.wellFormed_endMessage h
  | compacted es hended => exact Arena.wellFormed_compacted h
  | discarded es => exact Arena.wellFormed_clear h

theorem wellFormed_perform {r : Reader} (h : r.arena.WellFormed) (c : Call) :
    (r.perform c).state.arena.WellFormed := (performs h c).wellFormed h

/-- A reader keeps to the allocator that it started with. -/
theorem allocator_perform {r : Reader} (h : r.arena.WellFormed) (c : Call) :
    (r.perform c).state.arena.allocator = r.arena.allocator := by
  have hp := performs h c
  generalize r.perform c = reply at hp ⊢
  cases hp with
  | refused | looked | lacking | took | ended | discarded => rfl
  | fed _ _ _ hextends | reserved _ _ _ _ _ hextends | committed _ _ hextends => exact hextends.allocator_eq
  | compacted => exact Arena.allocator_compacted _

theorem wellFormed_foldl {r : Reader} (h : r.arena.WellFormed) (history : List Call) :
    (r.after history).arena.WellFormed := by
  induction history generalizing r with
  | nil => exact h
  | cons c history ih => exact ih (wellFormed_perform h c)

/-- A message that is ended can be dropped. -/
theorem after_close (r : Reader) :
    r.after [.endMessage, .compact] = r.withArena r.arena.endMessage.compacted := by
  show (r.endMessage.perform .compact).state = _
  rw [perform_compact_of_ended rfl]
  rfl

theorem arena_create (config : Config) :
    (create config).state.arena = (Arena.create config.initialCapacity config.allocator).state := by
  rw [create, Reply.state_within]

theorem fresh_create (config : Config) : (create config).state.arena.Fresh := by
  rw [arena_create]
  exact Arena.fresh_create config.initialCapacity config.allocator

theorem allocator_create (config : Config) : (create config).state.arena.allocator = config.allocator := by
  rw [arena_create]
  exact Arena.allocator_create _ _

/-- Whatever happens to a new reader, its positions stay in order. -/
theorem wellFormed_after (config : Config) (history : List Call) :
    ((create config).state.after history).arena.WellFormed := by
  apply wellFormed_foldl
  rw [arena_create]
  exact Arena.wellFormed_create config.initialCapacity config.allocator

/-- The readers that there can be: new ones, and these after some history. -/
def Reachable (r : Reader) : Prop :=
  ∃ config history, r = (create config).state.after history

theorem Reachable.wellFormed {r : Reader} (h : r.Reachable) : r.arena.WellFormed := by
  obtain ⟨config, history, hr⟩ := h
  rw [hr]
  exact wellFormed_after config history

end Reader
end MessagePack
