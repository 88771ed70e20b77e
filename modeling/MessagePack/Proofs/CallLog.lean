import MessagePack.Proofs.Growth
/-
  What the calls on a reader report. Events come from the arena and from the reader, and one call may go
  through several others that report on their own; still each call reports what it did, once, and nothing else.

  What is proved:
    1. `events_looking`: a call that asks for a token reports that it refuses one, and is silent otherwise.
    2. `events_making`: a call that asks for room reports that the storage has changed its size, and the sizes.
    3. `accounts`: the same for each of the other calls.
    4. `lastCapacity_after`: the size that was reported last is the size of the storage, along every history.
-/
namespace MessagePack

/-- The size of the storage that an event reports. -/
def Event.newCapacity? : Event → Option Nat
  | .grew _ new => some new
  | _ => none

/-- The size of the storage by a log, where it was `capacity` before. -/
def lastCapacity (capacity : Nat) (log : List Event) : Nat :=
  (log.filterMap Event.newCapacity?).getLast?.getD capacity

theorem lastCapacity_append (capacity : Nat) (log later : List Event) :
    lastCapacity capacity (log ++ later) = lastCapacity (lastCapacity capacity log) later := by
  unfold lastCapacity
  rw [List.filterMap_append, List.getLast?_append]
  cases (later.filterMap Event.newCapacity?).getLast? <;> rfl

theorem lastCapacity_of_silent {log : List Event} (h : log.filterMap Event.newCapacity? = [])
    (capacity : Nat) : lastCapacity capacity log = capacity := by
  unfold lastCapacity
  rw [h]
  rfl

/-- What is reported of a storage whose size was `old` and is `new`. -/
def resized (old new : Nat) : List Event :=
  if new = old then [] else [.grew old new]

theorem lastCapacity_resized (old new : Nat) : lastCapacity old (resized old new) = new := by
  unfold resized
  split
  · next hsame => exact hsame.symm
  · rfl

theorem resized_of_lt {old new : Nat} (h : old < new) : resized old new = [.grew old new] :=
  if_neg (Nat.ne_of_gt h)

/-! ## Storage -/

namespace Arena

theorem events_reserve (a : Arena) (n : Nat) :
    (a.reserve n).events = resized a.capacity (a.reserve n).state.capacity := by
  have hsame : resized a.capacity a.capacity = [] := if_pos rfl
  obtain ⟨_, hr⟩ | ⟨_, hr⟩ | ⟨hlt, _, hr⟩ := a.reserve_cases n
  · rw [hr]
    exact hsame.symm
  · rw [hr]
    exact hsame.symm
  · have hle := le_leastPowerOfTwo (a.usedEnd + n)
    have hcap : (a.enlarged (leastPowerOfTwo (a.usedEnd + n))).capacity
        = leastPowerOfTwo (a.usedEnd + n) := by
      rw [capacity_enlarged]
      omega
    rw [hr]
    show _ = resized a.capacity (a.enlarged (leastPowerOfTwo (a.usedEnd + n))).capacity
    rw [hcap, resized_of_lt (by omega)]

theorem events_create (capacity : Nat) (allocator : Allocator) :
    (create capacity allocator).events = resized 0 (create capacity allocator).state.capacity := by
  unfold create
  split
  · rfl
  · next hsome =>
    obtain ⟨_, hgrow⟩ | ⟨_, hgrow⟩ := (empty allocator).growTo_cases capacity
    · rw [hgrow]
      rfl
    · rw [hgrow]
      show _ = resized 0 ((empty allocator).enlarged capacity).capacity
      have hcap : ((empty allocator).enlarged capacity).capacity = capacity := by
        rw [capacity_enlarged]
        exact Nat.max_eq_right (Nat.zero_le _)
      rw [hcap, resized_of_lt (Nat.pos_of_ne_zero hsome)]
      rfl

end Arena

namespace Reader

/-! ## Calls -/

/-- What is reported of an outcome: the refusal of a token, if it is one, with the place of the token. -/
def refusal {α : Type} (r : Reader) : Except Failure α → List Event
  | .error (.fault e) => [.rejected r.cursor e]
  | _ => []

theorem events_next (r : Reader) : r.next.events = r.refusal r.next.outcome := by
  unfold next
  repeat' split
  all_goals rfl

theorem events_settle (r : Reader) (found : Except DecodeError (Scan (Value Extent))) :
    (r.settle found).events = r.refusal (r.settle found).outcome := by
  cases found with
  | error e => rfl
  | ok scan => cases scan <;> rfl

/-- A reading call looks at the token more than once, but it is reported once. -/
theorem events_read {r : Reader} (h : r.arena.WellFormed) (call : ReadCall) :
    (r.read call).events = r.refusal (r.read call).outcome := by
  -- A misuse ends the call before it looks; otherwise what it finds goes through one `settle`.
  obtain ⟨v, hread⟩ | ⟨_, hread⟩ := read_cases h call
  · rw [hread]
    rfl
  · rw [hread]
    exact r.events_settle r.front

theorem refusal_map {α β : Type} (r : Reader) (outcome : Except Failure α) (f : α → β) :
    r.refusal (outcome.map f) = r.refusal outcome := by
  cases outcome with
  | error failure => cases failure <;> rfl
  | ok a => rfl

/-- The calls that ask for a token. -/
inductive Call.Looking : Call → Prop where
  | next : Looking .next
  | read (call : ReadCall) : Looking (.read call)

theorem events_looking {r : Reader} (h : r.arena.WellFormed) {c : Call} (hc : c.Looking) :
    (r.perform c).events = r.refusal (r.perform c).outcome := by
  cases hc with
  | next =>
    show r.next.events = r.refusal (r.next.outcome.map _)
    rw [refusal_map, events_next]
  | read call =>
    show (r.read call).events = r.refusal ((r.read call).outcome.map _)
    rw [refusal_map, events_read h]

theorem events_feed {r : Reader} (h : r.arena.WellFormed) (bytes : Bytes) :
    (r.feed bytes).events = resized r.arena.capacity (r.feed bytes).state.arena.capacity := by
  have hwf := Arena.wellFormed_reserve h bytes.length
  have hevents := r.arena.events_reserve bytes.length
  unfold feed
  -- Only the room that is asked for is reported: filling it and committing to it are silent.
  cases hgranted : (r.reserve bytes.length).outcome with
  | error f =>
    rw [Reply.outcome_andThen_of_error hgranted]
    exact hevents
  | ok u =>
    rw [Reply.outcome_andThen_of_ok hgranted]
    have hcap : (((r.arena.reserve bytes.length).state.fill bytes).commit bytes.length).state.capacity
        = (r.arena.reserve bytes.length).state.capacity := by
      rw [Arena.capacity_commit, Arena.capacity_fill hwf]
    have hsilent : (((r.reserve bytes.length).state.fill bytes).commit bytes.length).events = [] := by
      obtain ⟨_, hc⟩ | ⟨_, hc⟩ := ((r.reserve bytes.length).state.fill bytes).arena.commit_cases bytes.length
      · simp [commit, hc]
      · simp [commit, hc]
    rw [hsilent, List.append_nil]
    show _ = resized _ (((r.arena.reserve bytes.length).state.fill bytes).commit bytes.length).state.capacity
    rw [hcap]
    exact hevents

theorem events_making {r : Reader} (h : r.arena.WellFormed) {c : Call} {n : Nat} (hroom : c.room? = some n) :
    (r.perform c).events = resized r.arena.capacity (r.perform c).state.arena.capacity := by
  cases c with
  | feed bytes => exact events_feed h bytes
  | reserve m bytes =>
    have hwf := Arena.wellFormed_reserve h m
    have hevents := r.arena.events_reserve m
    rw [perform_reserve]
    cases hgranted : (r.arena.reserve m).outcome with
    | error f =>
      have hlent : ((r.arena.reserve m).within r.withArena).outcome = .error f := hgranted
      rw [Reply.outcome_andThen_of_error hlent]
      exact hevents
    | ok u =>
      have hlent : ((r.arena.reserve m).within r.withArena).outcome = .ok u := hgranted
      rw [Reply.outcome_andThen_of_ok hlent]
      show (r.arena.reserve m).events ++ [] = resized _ ((r.arena.reserve m).state.fill bytes).capacity
      rw [List.append_nil, Arena.capacity_fill hwf]
      exact hevents
  | commit | next | read | endMessage | compact | discard => cases hroom

/-- What the log says about one call on a reader. -/
structure Accounts (r : Reader) : Prop where
  /-- A call that asks for a token reports its refusal; decoding, lacking bytes and the end are silent. -/
  looking : ∀ c : Call, c.Looking → (r.perform c).events = r.refusal (r.perform c).outcome
  /-- A call that asks for room reports that the size of the storage has changed. -/
  making : ∀ (c : Call) (n : Nat), c.room? = some n →
    (r.perform c).events = resized r.arena.capacity (r.perform c).state.arena.capacity
  /-- A message that is dropped is what lies before the cursor, and the rest is kept. -/
  compacting : (r.perform .compact).outcome = .ok .done → ∃ consumed leftover,
    (r.perform .compact).events = [.compacted consumed leftover] ∧
      consumed = r.cursor ∧ consumed + leftover = r.arena.usedEnd
  compacting_refused : ∀ f, (r.perform .compact).outcome = .error f → (r.perform .compact).events = []
  discarding : (r.perform .discard).events = [.discarded r.arena.usedEnd r.cursor]
  committing : ∀ n, (r.perform (.commit n)).events = []
  ending : (r.perform .endMessage).events = []

theorem events_commit (r : Reader) (n : Nat) : (r.perform (.commit n)).events = [] := by
  show (r.arena.commit n).events = []
  obtain ⟨_, hc⟩ | ⟨_, hc⟩ := r.arena.commit_cases n
  · rw [hc]
    rfl
  · rw [hc]
    rfl

theorem accounts {r : Reader} (h : r.arena.WellFormed) : r.Accounts := by
  have hcursor := h.cursor_le
  refine
    { looking := fun c hc => events_looking h hc
      making := fun c n hroom => events_making h hroom
      compacting := ?compacting
      compacting_refused := ?refused
      discarding := rfl
      committing := r.events_commit
      ending := rfl }
  case compacting =>
    intro hdone
    cases hended : r.arena.messageComplete with
    | false =>
      rw [perform_compact_of_open hended] at hdone
      cases hdone
    | true =>
      rw [perform_compact_of_ended hended]
      exact ⟨_, _, rfl, rfl, Nat.add_sub_cancel' hcursor⟩
  case refused =>
    intro f hf
    cases hended : r.arena.messageComplete with
    | false =>
      rw [perform_compact_of_open hended]
      rfl
    | true =>
      rw [perform_compact_of_ended hended] at hf
      cases hf

/-! ## Histories -/

/-- Everything that a history reports, the calls that fail included. -/
def log (r : Reader) : List Call → List Event
  | [] => []
  | c :: history => (r.perform c).events ++ (r.perform c).state.log history

/-- Only a call that asks for room reports a size. -/
theorem newCapacities_of_no_room {r : Reader} (h : r.arena.WellFormed) {c : Call} (hroom : c.room? = none) :
    (r.perform c).events.filterMap Event.newCapacity? = [] := by
  have haccounts := accounts h
  have hrefusal {α : Type} (outcome : Except Failure α) :
      (r.refusal outcome).filterMap Event.newCapacity? = [] := by
    cases outcome with
    | error f => cases f <;> rfl
    | ok a => rfl
  cases c with
  | feed bytes | reserve n bytes => cases hroom
  | next => rw [haccounts.looking .next .next, hrefusal]
  | read call => rw [haccounts.looking _ (.read call), hrefusal]
  | commit n => rw [haccounts.committing]; rfl
  | endMessage | discard => rfl
  | compact =>
    cases hended : r.arena.messageComplete with
    | false => rw [perform_compact_of_open hended]; rfl
    | true => rw [perform_compact_of_ended hended]; rfl

/-- The size that was reported last is the size of the storage. -/
theorem lastCapacity_perform {r : Reader} (h : r.arena.WellFormed) (c : Call) :
    lastCapacity r.arena.capacity (r.perform c).events = (r.perform c).state.arena.capacity := by
  cases hroom : c.room? with
  | some n => rw [events_making h hroom, lastCapacity_resized]
  | none =>
    rw [lastCapacity_of_silent (newCapacities_of_no_room h hroom), capacity_of_no_room h hroom]

theorem lastCapacity_after {r : Reader} (h : r.arena.WellFormed) (history : List Call) :
    lastCapacity r.arena.capacity (r.log history) = (r.after history).arena.capacity := by
  -- The size before a call is the one that the log so far ends with, so the reader changes along the history.
  induction history generalizing r with
  | nil => rfl
  | cons c history ih =>
    show lastCapacity r.arena.capacity ((r.perform c).events ++ (r.perform c).state.log history) = _
    rw [lastCapacity_append, lastCapacity_perform h]
    exact ih (wellFormed_perform h c)

/-- A new reader has reported its first storage. -/
theorem lastCapacity_log (config : Config) (history : List Call) :
    lastCapacity 0 ((create config).events ++ (create config).state.log history)
      = ((create config).state.after history).arena.capacity := by
  have hcreate : (create config).events = resized 0 (create config).state.arena.capacity := by
    rw [arena_create]
    exact Arena.events_create config.initialCapacity config.allocator
  rw [lastCapacity_append, hcreate, lastCapacity_resized]
  exact lastCapacity_after (wellFormed_after config []) history

end Reader
end MessagePack
