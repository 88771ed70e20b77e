import MessagePack.Proofs.Calls
/-
  Calls that come to nothing. A call on a reader fails, or lacks bytes, or only looks; or it does what it was
  made for. There is nothing in between: a call of the first kind leaves the whole reader as it was, with its
  storage, its positions and the reservation that is still open. So it can be made again, and a history reads
  as well without it.

  Which calls fail, and with what, is one table. It looks at the reader before the call and at nothing else.

  What is proved:
    1. `outcome_error_iff`: the table is right, for every reader whose positions are in order.
    2. `state_of_idle`: a call that comes to nothing changes nothing.
    3. `after_effective`: calls that come to nothing can be struck out of a history.
    4. `calls_atomic`: all this for every reader that there can be, and what a token that is taken changes.
-/
namespace MessagePack

/-! ## Refused storage -/

namespace Arena

/-- The size that storage is asked for in vain when `n` bytes are reserved: sizes end before it, or powers of
two do, or the allocator refuses it. -/
def denied? (a : Arena) (n : Nat) : Option Nat :=
  let needed := a.usedEnd + n
  if needed ≤ a.capacity then none
  else if wordMax < needed then some wordMax
  else if 0x8000000000000000 < needed then some needed
  else if a.allocator.provides (leastPowerOfTwo needed) then none
  else some (leastPowerOfTwo needed)

theorem reserve_of_denied {a : Arena} {n size : Nat} (hdenied : a.denied? n = some size) :
    a.reserve n = .fail (.fault (.allocationFailed size)) a := by
  unfold denied? at hdenied
  unfold reserve
  simp only at hdenied ⊢
  split at hdenied
  · cases hdenied
  · next hroom =>
    split at hdenied
    · next hword =>
      rw [if_pos hword]
      cases hdenied
      rfl
    · next hword =>
      rw [if_neg hword, if_neg hroom]
      split at hdenied
      · next hhalf =>
        rw [if_pos hhalf]
        cases hdenied
        rfl
      · next hhalf =>
        rw [if_neg hhalf]
        split at hdenied
        · cases hdenied
        · next hrefused =>
          obtain ⟨_, hgrow⟩ | ⟨hprovided, _⟩ := a.growTo_cases (leastPowerOfTwo (a.usedEnd + n))
          · rw [hgrow]
            cases hdenied
            rfl
          · exact absurd hprovided hrefused

theorem reserve_of_not_denied {a : Arena} (h : a.WellFormed) {n : Nat} (hdenied : a.denied? n = none) :
    (a.reserve n).outcome = .ok () := by
  apply reserve_of_fits h
  unfold denied? at hdenied
  simp only at hdenied
  split at hdenied
  · exact .inl ‹_›
  · split at hdenied
    · cases hdenied
    · split at hdenied
      · cases hdenied
      · split at hdenied
        · exact .inr ‹_›
        · cases hdenied

end Arena

namespace Reader

/-! ## Which calls fail -/

/-- The fault of a byte at the cursor that no token starts with. -/
def unknown? (r : Reader) : Option Failure :=
  match r.arena.unread with
  | [] => none
  | b :: _ => if Marker.ofByte? b = none then some (.fault (.unknownTag b r.cursor)) else none

/-- The failure that a call ends in, if it does. -/
def failure? (r : Reader) : Call → Option Failure
  | .feed bytes => (r.arena.denied? bytes.length).map fun size => .fault (.allocationFailed size)
  | .reserve n _ => (r.arena.denied? n).map fun size => .fault (.allocationFailed size)
  | .commit n =>
    if r.arena.reserved < n then some (.violation (.overcommitted n r.arena.reserved)) else none
  | .next => if r.arena.messageComplete then none else r.unknown?
  | .read call =>
    match r.misuse? call, r.front with
    | some v, _ => some (.violation v)
    | none, .error e => some (.fault e)
    | none, .ok _ => none
  | .compact => if r.arena.messageComplete then none else some (.violation .unfinishedMessage)
  | .endMessage => none
  | .discard => none

/-- An outcome that is as foretold: the failure, or a success where none is. -/
inductive Foretells {α : Type} : Option Failure → Except Failure α → Prop where
  | fails (f : Failure) : Foretells (some f) (.error f)
  | succeeds (a : α) : Foretells none (.ok a)

theorem foretells_feed {r : Reader} (h : r.arena.WellFormed) (bytes : Bytes) :
    Foretells (r.failure? (.feed bytes)) (r.perform (.feed bytes)).outcome := by
  show Foretells ((r.arena.denied? bytes.length).map _) ((r.feed bytes).mapOutcome _).outcome
  cases hdenied : r.arena.denied? bytes.length with
  | some size =>
    simp only [feed, reserve, Arena.reserve_of_denied hdenied]
    exact .fails _
  | none =>
    have hfits := Arena.fits_of_reserve (Arena.reserve_of_not_denied h hdenied)
    obtain ⟨hrefused, _⟩ | ⟨_, a, es, hfeed, _⟩ := feed_cases h bytes
    · exact absurd hfits hrefused
    · rw [hfeed]
      exact .succeeds _

theorem foretells_reserve {r : Reader} (h : r.arena.WellFormed) (n : Nat) (bytes : Bytes) :
    Foretells (r.failure? (.reserve n bytes)) (r.perform (.reserve n bytes)).outcome := by
  rw [perform_reserve, failure?]
  cases hdenied : r.arena.denied? n with
  | some size =>
    rw [Arena.reserve_of_denied hdenied]
    exact .fails _
  | none =>
    have hgranted := Arena.reserve_of_not_denied h hdenied
    generalize r.arena.reserve n = reply at hgranted ⊢
    obtain ⟨outcome, a, es⟩ := reply
    simp only at hgranted
    subst hgranted
    exact .succeeds _

theorem foretells_commit (r : Reader) (n : Nat) :
    Foretells (r.failure? (.commit n)) (r.perform (.commit n)).outcome := by
  show Foretells (if r.arena.reserved < n then _ else _)
    (((r.arena.commit n).within r.withArena).mapOutcome _).outcome
  obtain ⟨hlt, hc⟩ | ⟨hle, hc⟩ := r.arena.commit_cases n
  · rw [if_pos hlt, hc]
    exact .fails _
  · rw [if_neg (Nat.not_lt_of_le hle), hc]
    exact .succeeds _

theorem foretells_next (r : Reader) : Foretells (r.failure? .next) (r.perform .next).outcome := by
  show Foretells (if r.arena.messageComplete then none else r.unknown?) (r.next.mapOutcome _).outcome
  cases hended : r.arena.messageComplete with
  | true =>
    have hnext : r.next = .done .ended r := by simp [next, hended]
    rw [hnext]
    exact .succeeds _
  | false =>
    rw [if_neg Bool.false_ne_true, unknown?]
    cases hu : r.arena.unread with
    | nil =>
      rw [next_of_nil hended hu]
      exact .succeeds _
    | cons b u =>
      rw [next_of_cons hended hu]
      cases hm : Marker.ofByte? b with
      | none =>
        simp only [hm, if_true]
        exact .fails _
      | some m =>
        simp only [hm, reduceCtorEq, if_false]
        exact .succeeds _

theorem foretells_read {r : Reader} (h : r.arena.WellFormed) (call : ReadCall) :
    Foretells (r.failure? (.read call)) (r.perform (.read call)).outcome := by
  show Foretells (match r.misuse? call, r.front with
    | some v, _ => _
    | none, .error e => _
    | none, .ok _ => _) ((r.read call).mapOutcome _).outcome
  rw [read_eq h call]
  cases r.misuse? call with
  | some v => exact .fails _
  | none =>
    cases r.front with
    | error e => exact .fails _
    | ok scan =>
      cases scan with
      | incomplete => exact .succeeds _
      | complete v n => exact .succeeds _

theorem foretells_compact (r : Reader) :
    Foretells (r.failure? .compact) (r.perform .compact).outcome := by
  show Foretells (if r.arena.messageComplete then none else _) _
  cases hended : r.arena.messageComplete with
  | true =>
    rw [perform_compact_of_ended hended]
    exact .succeeds _
  | false =>
    rw [perform_compact_of_open hended]
    exact .fails _

theorem foretells {r : Reader} (h : r.arena.WellFormed) (c : Call) :
    Foretells (r.failure? c) (r.perform c).outcome := by
  cases c with
  | feed bytes => exact foretells_feed h bytes
  | reserve n bytes => exact foretells_reserve h n bytes
  | commit n => exact foretells_commit r n
  | next => exact foretells_next r
  | read call => exact foretells_read h call
  | endMessage => exact .succeeds _
  | compact => exact foretells_compact r
  | discard => exact .succeeds _

/-- A call fails exactly as the table says. -/
theorem outcome_error_iff {r : Reader} (h : r.arena.WellFormed) (c : Call) (f : Failure) :
    (r.perform c).outcome = .error f ↔ r.failure? c = some f := by
  have hforetells := foretells h c
  generalize r.failure? c = failure? at hforetells ⊢
  generalize (r.perform c).outcome = outcome at hforetells ⊢
  cases hforetells with
  | fails f' => simp
  | succeeds a => simp

/-! ## Calls that come to nothing -/

/-- Whether a call comes to nothing: it fails, lacks bytes, or only looks. -/
def idle (r : Reader) (c : Call) : Bool :=
  match c, (r.perform c).outcome with
  | .next, _ => true
  | _, .error _ => true
  | _, .ok (.progress .needMoreData) => true
  | _, _ => false

theorem idle_of_error {r : Reader} {c : Call} {f : Failure} (h : (r.perform c).outcome = .error f) :
    r.idle c = true := by
  unfold idle
  rw [h]
  cases c <;> rfl

theorem idle_of_lacking {r : Reader} {c : Call}
    (h : (r.perform c).outcome = .ok (.progress .needMoreData)) : r.idle c = true := by
  unfold idle
  rw [h]
  cases c <;> rfl

/-- A call that comes to nothing changes nothing. -/
theorem state_of_idle {r : Reader} (h : r.arena.WellFormed) {c : Call} (hidle : r.idle c = true) :
    (r.perform c).state = r := by
  have hp := performs h c
  unfold idle at hidle
  generalize r.perform c = reply at hp hidle ⊢
  cases hp with
  | refused | looked | lacking => rfl
  | took | fed | reserved | committed | ended | compacted | discarded => cases hidle

/-- A token that is taken moves the cursor, by its length and by nothing else. -/
theorem state_of_decoded {r : Reader} (h : r.arena.WellFormed) {call : ReadCall} {v : Value View}
    {n : Nat} (hread : (r.perform (.read call)).outcome = .ok (.progress (.decoded v n))) :
    0 < n ∧ n ≤ r.arena.remaining ∧ (r.perform (.read call)).state
      = { r with arena := { r.arena with readCursor := r.arena.readCursor + n } } := by
  have hp := performs h (.read call)
  generalize r.perform (.read call) = reply at hp hread ⊢
  cases hp with
  | refused | lacking => simp at hread
  | took call v' n' hopen hfront =>
    simp only [Reply.outcome_done, Except.ok.injEq, Answer.progress.injEq,
      Progress.decoded.injEq] at hread
    obtain ⟨_, hn⟩ := hread
    subst hn
    obtain ⟨hpos, hle⟩ := le_remaining_of_front h hfront
    exact ⟨hpos, hle, rfl⟩

/-- What is left of a history without the calls that come to nothing. -/
def effective (r : Reader) : List Call → List Call
  | [] => []
  | c :: history =>
    if r.idle c then r.effective history else c :: (r.perform c).state.effective history

/-- A history does the same without the calls that come to nothing. -/
theorem after_effective {r : Reader} (h : r.arena.WellFormed) (history : List Call) :
    r.after (r.effective history) = r.after history := by
  induction history generalizing r with
  | nil => rfl
  | cons c history ih =>
    have hrest := ih (wellFormed_perform h c)
    show r.after (if r.idle c then _ else _) = (r.perform c).state.after history
    cases hidle : r.idle c with
    | true =>
      rw [state_of_idle h hidle]
      exact ih h
    | false => exact hrest

/-! ## Every reader -/

/-- Calls do all that they are made for, or nothing. -/
structure Atomic (r : Reader) : Prop where
  fails_iff : ∀ c f, (r.perform c).outcome = .error f ↔ r.failure? c = some f
  failed : ∀ c f, (r.perform c).outcome = .error f → (r.perform c).state = r
  lacking : ∀ call, (r.perform (.read call)).outcome = .ok (.progress .needMoreData) →
    (r.perform (.read call)).state = r
  looked : (r.perform .next).state = r
  decoded : ∀ call v n, (r.perform (.read call)).outcome = .ok (.progress (.decoded v n)) →
    0 < n ∧ n ≤ r.arena.remaining ∧ (r.perform (.read call)).state
      = { r with arena := { r.arena with readCursor := r.arena.readCursor + n } }
  /-- Views show what they showed before a call that came to nothing. -/
  views_kept : ∀ c, r.idle c = true → ∀ v, (r.perform c).state.view v = r.view v
  /-- What was reserved before such a call can be committed after it. -/
  reservation_kept : ∀ c, r.idle c = true → ∀ n, n ≤ r.arena.reserved →
    ((r.perform c).state.perform (.commit n)).outcome = .ok .done
  effective_eq : ∀ history, r.after (r.effective history) = r.after history

/-- A commit within the reservation is accepted. -/
theorem commit_of_le {r : Reader} {n : Nat} (hn : n ≤ r.arena.reserved) :
    (r.perform (.commit n)).outcome = .ok .done := by
  show ((r.arena.commit n).within r.withArena).outcome.map (fun _ => Answer.done) = _
  obtain ⟨hlt, _⟩ | ⟨_, hc⟩ := r.arena.commit_cases n
  · omega
  · rw [hc]
    rfl

/-- Whatever a reader has been through, a call that fails, lacks bytes or only looks leaves the whole of it as
it was, and a call that takes a token moves the cursor and changes nothing else. -/
theorem calls_atomic {r : Reader} (hreachable : r.Reachable) : r.Atomic := by
  have h := hreachable.wellFormed
  refine
    { fails_iff := outcome_error_iff h
      failed := ?failed
      lacking := ?lacking
      looked := state_of_idle h rfl
      decoded := fun call v n => state_of_decoded h
      views_kept := ?views
      reservation_kept := ?reservation
      effective_eq := after_effective h }
  case failed =>
    intro c f hfails
    exact state_of_idle h (idle_of_error hfails)
  case lacking =>
    intro call hlacks
    exact state_of_idle h (idle_of_lacking hlacks)
  case views =>
    intro c hidle v
    rw [state_of_idle h hidle]
  case reservation =>
    intro c hidle n hn
    rw [state_of_idle h hidle]
    exact commit_of_le hn

/-- A reader with three bytes of a longer blob and four more bytes reserved. -/
def awaitingPayload : Reader :=
  (create { initialCapacity := 16 }).state.after [.feed [0xc4, 5, 7], .reserve 4 []]

/-- Refused growth of each kind, too large a commit, an early compaction and reads that get nothing leave the
reservation open: the commit behind them does what it would have done at once. -/
theorem calls_atomic_awaitingPayload :
    awaitingPayload.after [.reserve wordMax [], .reserve 0x8000000000000000 [],
      .reserve 0x4000000000000 [], .commit 5, .compact, .next, .read (.family .int), .read .any,
      .commit 4] = awaitingPayload.after [.commit 4] ∧
    ((awaitingPayload.perform .compact).state.perform (.commit 4)).outcome = .ok .done := by
  have hreachable : awaitingPayload.Reachable := ⟨_, _, rfl⟩
  have hatomic := calls_atomic hreachable
  refine ⟨?_, hatomic.reservation_kept .compact (by decide) 4 (by decide)⟩
  have heffective := hatomic.effective_eq [.reserve wordMax [], .reserve 0x8000000000000000 [],
      .reserve 0x4000000000000 [], .commit 5, .compact, .next, .read (.family .int), .read .any,
      .commit 4]
  rw [← heffective]
  rfl

end Reader
end MessagePack
