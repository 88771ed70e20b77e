import Mathlib.Algebra.Group.Nat.Defs
import Mathlib.Data.Nat.Size
import Mathlib.Order.Bounds.Defs
import MessagePack.Proofs.Atomicity
import MessagePack.Proofs.Checked
import MessagePack.Proofs.Room
/-
  How the storage grows, and what a reader can run into.

  The storage changes its size only when room is asked for that is not there, and is then as large as the
  least power of two that is enough. So each growth makes the capacity one binary digit longer at least, and
  as a capacity is a size of at most 64 digits there are no more than 64 growths, however long a reader is
  used. What was stored keeps its place, also where it was never committed, and what is new is zero.

  What is proved:
    1. `stores`: what any call does to the storage.
    2. `growths_add_size_le`: the growths of a history make the capacity that many digits longer.
    3. `violation_iff`: the misuses of a reader are four, and no other violation comes from it.
    4. `storage_safe`: all this along every history, the calls that fail included, and that no sum, difference
       or stretch of the storage is ever out of range.
-/
namespace MessagePack

/-- A string with other bytes written over it from `start` on. -/
def overwritten (s : Bytes) (start : Nat) (bytes : Bytes) : Bytes :=
  s.take start ++ bytes ++ s.drop (start + bytes.length)

theorem isLeast_leastPowerOfTwo (n : Nat) :
    IsLeast {p | n ≤ p ∧ ∃ k, p = 2 ^ k} (leastPowerOfTwo n) := by
  refine ⟨⟨le_leastPowerOfTwo n, exists_leastPowerOfTwo_eq n⟩, ?_⟩
  rintro p ⟨hp, k, rfl⟩
  exact leastPowerOfTwo_le hp

/-! ## Making room -/

namespace Arena

/-- What it does to the storage to make room for `n` bytes and to write into it. -/
structure Makes (a : Arena) (n : Nat) (written : Bytes) (a' : Arena) : Prop where
  capacity_eq : (a.usedEnd + n ≤ a.capacity ∧ a'.capacity = a.capacity) ∨
    (a.capacity < a.usedEnd + n ∧ a'.capacity = leastPowerOfTwo (a.usedEnd + n))
  stored_eq : a'.stored = overwritten (a.stored ++ List.replicate (a'.capacity - a.capacity) 0)
    a.usedEnd written

theorem Makes.capacity_le {a a' : Arena} {n : Nat} {written : Bytes} (h : a.Makes n written a') :
    a.capacity ≤ a'.capacity := by
  have hle := le_leastPowerOfTwo (a.usedEnd + n)
  obtain ⟨_, hcap⟩ | ⟨_, hcap⟩ := h.capacity_eq <;> omega

/-- Storage that is granted holds what it held, in its place, and zeros behind it. -/
theorem stored_reserve {a : Arena} {n : Nat} (h : (a.reserve n).outcome = .ok ()) :
    ((a.usedEnd + n ≤ a.capacity ∧ (a.reserve n).state.capacity = a.capacity) ∨
      (a.capacity < a.usedEnd + n ∧
        (a.reserve n).state.capacity = leastPowerOfTwo (a.usedEnd + n))) ∧
    (a.reserve n).state.stored
      = a.stored ++ List.replicate ((a.reserve n).state.capacity - a.capacity) 0 := by
  obtain ⟨_, hr⟩ | ⟨hroom, hr⟩ | ⟨hlt, _, hr⟩ := a.reserve_cases n
  · rw [hr] at h
    simp at h
  · rw [hr]
    refine ⟨.inl ⟨hroom, rfl⟩, ?_⟩
    show a.stored = a.stored ++ List.replicate (a.capacity - a.capacity) 0
    rw [Nat.sub_self, List.replicate_zero, List.append_nil]
  · rw [hr]
    have hle := le_leastPowerOfTwo (a.usedEnd + n)
    have hcap : (a.enlarged (leastPowerOfTwo (a.usedEnd + n))).capacity
        = leastPowerOfTwo (a.usedEnd + n) := by
      rw [capacity_enlarged]
      omega
    refine ⟨.inr ⟨hlt, hcap⟩, ?_⟩
    show (a.enlarged _).stored = a.stored ++ List.replicate ((a.enlarged _).capacity - a.capacity) 0
    rw [stored_enlarged, hcap]

theorem makes_reserve {a : Arena} (h : a.WellFormed) {n : Nat}
    (hgranted : (a.reserve n).outcome = .ok ()) (bytes : Bytes) :
    a.Makes n (bytes.take n) ((a.reserve n).state.fill bytes) := by
  have hwf := wellFormed_reserve h n
  obtain ⟨hcap, hstored⟩ := stored_reserve hgranted
  obtain ⟨hreserved, hend, _⟩ := reserve_granted hgranted
  generalize (a.reserve n).state = a' at *
  refine ⟨?_, ?_⟩
  · rw [capacity_fill hwf]
    exact hcap
  · rw [stored_fill, capacity_fill hwf, hreserved, hend, hstored]
    rfl

theorem makes_feed {a : Arena} (h : a.WellFormed) {bytes : Bytes}
    (hgranted : (a.reserve bytes.length).outcome = .ok ()) :
    a.Makes bytes.length bytes (((a.reserve bytes.length).state.fill bytes).commit bytes.length).state := by
  have hmakes := makes_reserve h hgranted bytes
  rw [List.take_length] at hmakes
  obtain ⟨_, hc⟩ | ⟨_, hc⟩ := ((a.reserve bytes.length).state.fill bytes).commit_cases bytes.length
  · rw [hc]
    exact hmakes
  · rw [hc]
    exact ⟨hmakes.capacity_eq, hmakes.stored_eq⟩

end Arena

namespace Reader

/-- How many bytes a call asks room for. -/
def Call.room? : Call → Option Nat
  | .feed bytes => some bytes.length
  | .reserve n _ => some n
  | _ => none

/-- What a call writes into the room that it is granted. -/
def Call.written : Call → Bytes
  | .feed bytes => bytes
  | .reserve n bytes => bytes.take n
  | _ => []

theorem makes_perform {r : Reader} (h : r.arena.WellFormed) {c : Call} {n : Nat}
    (hroom : c.room? = some n) :
    (r.perform c).state = r ∨ r.arena.Makes n c.written (r.perform c).state.arena := by
  cases c with
  | feed bytes =>
    cases hroom
    show (r.feed bytes).state = r ∨ r.arena.Makes bytes.length bytes (r.feed bytes).state.arena
    unfold feed reserve
    cases hgranted : (r.arena.reserve bytes.length).outcome with
    | error f =>
      rw [Arena.reserve_refused hgranted]
      exact .inl rfl
    | ok u =>
      have hlent : ((r.arena.reserve bytes.length).within r.withArena).outcome = .ok u := hgranted
      rw [Reply.outcome_andThen_of_ok hlent]
      exact .inr (Arena.makes_feed h hgranted)
  | reserve n bytes =>
    cases hroom
    rw [perform_reserve]
    cases hgranted : (r.arena.reserve n).outcome with
    | error f =>
      rw [Arena.reserve_refused hgranted]
      exact .inl rfl
    | ok u =>
      have hlent : ((r.arena.reserve n).within r.withArena).outcome = .ok u := hgranted
      rw [Reply.outcome_andThen_of_ok hlent]
      exact .inr (Arena.makes_reserve h hgranted bytes)
  | _ => cases hroom

/-- What a call does to the storage. -/
structure Stores (c : Call) (a a' : Arena) : Prop where
  capacity_le : a.capacity ≤ a'.capacity
  /-- The storage changes its size only where room is asked for that is not there. -/
  grown : a'.capacity ≠ a.capacity → ∃ n, c.room? = some n ∧ a.capacity < a.usedEnd + n ∧
    IsLeast {p | a.usedEnd + n ≤ p ∧ ∃ k, p = 2 ^ k} a'.capacity ∧
    a'.stored = overwritten (a.stored ++ List.replicate (a'.capacity - a.capacity) 0) a.usedEnd c.written

theorem stores_of_capacity_eq {a a' : Arena} (c : Call) (h : a'.capacity = a.capacity) :
    Stores c a a' := ⟨Nat.le_of_eq h.symm, fun hne => absurd h hne⟩

theorem stores_of_makes {a a' : Arena} {c : Call} {n : Nat} (hroom : c.room? = some n)
    (h : a.Makes n c.written a') : Stores c a a' := by
  refine ⟨h.capacity_le, ?_⟩
  intro hne
  obtain ⟨_, hcap⟩ | ⟨hlt, hcap⟩ := h.capacity_eq
  · exact absurd hcap hne
  · refine ⟨n, hroom, hlt, ?_, h.stored_eq⟩
    rw [hcap]
    exact isLeast_leastPowerOfTwo _

/-- Calls that ask for no room keep the size of the storage. -/
theorem capacity_of_no_room {r : Reader} (h : r.arena.WellFormed) {c : Call} (hroom : c.room? = none) :
    (r.perform c).state.arena.capacity = r.arena.capacity := by
  have hp := performs h c
  cases c with
  | feed bytes => cases hroom
  | reserve n bytes => cases hroom
  | commit n => exact Arena.capacity_commit r.arena n
  | compact =>
    generalize r.perform .compact = reply at hp ⊢
    cases hp with
    | refused => rfl
    | compacted es hended => exact Arena.capacity_compacted h
  | next | read call | endMessage | discard =>
    generalize r.perform _ = reply at hp ⊢
    cases hp <;> rfl

theorem stores {r : Reader} (h : r.arena.WellFormed) (c : Call) :
    Stores c r.arena (r.perform c).state.arena := by
  cases hroom : c.room? with
  | none => exact stores_of_capacity_eq c (capacity_of_no_room h hroom)
  | some n =>
    obtain hsame | hmakes := makes_perform h hroom
    · rw [hsame]
      exact stores_of_capacity_eq c rfl
    · exact stores_of_makes hroom hmakes

/-! ## Histories -/

/-- How many calls of a history enlarge the storage. -/
def growths (r : Reader) : List Call → Nat
  | [] => 0
  | c :: history =>
    (if r.arena.capacity < (r.perform c).state.arena.capacity then 1 else 0)
      + (r.perform c).state.growths history

/-- A power of two has more binary digits than any smaller number. -/
theorem size_lt_of_lt_pow {m k : Nat} (h : m < 2 ^ k) : m.size < Nat.size (2 ^ k) := by
  rw [Nat.size_pow]
  exact Nat.lt_succ_of_le (Nat.size_le.2 h)

/-- A growth makes the capacity one digit longer at least. -/
theorem Stores.size_lt {c : Call} {a a' : Arena} (h : Stores c a a') (hlt : a.capacity < a'.capacity) :
    a.capacity.size < a'.capacity.size := by
  obtain ⟨n, _, _, ⟨⟨_, k, hk⟩, _⟩, _⟩ := h.grown (Nat.ne_of_gt hlt)
  rw [hk] at hlt ⊢
  exact size_lt_of_lt_pow hlt

theorem growths_add_size_le {r : Reader} (h : r.arena.WellFormed) (history : List Call) :
    r.growths history + r.arena.capacity.size ≤ (r.after history).arena.capacity.size := by
  induction history generalizing r with
  | nil => exact Nat.le_of_eq (Nat.zero_add _)
  | cons c history ih =>
    have hrest := ih (wellFormed_perform h c)
    have hstores := stores h c
    have hlonger : (if r.arena.capacity < (r.perform c).state.arena.capacity then 1 else 0)
        + r.arena.capacity.size ≤ (r.perform c).state.arena.capacity.size := by
      split
      · next hlt =>
        have hdigit := hstores.size_lt hlt
        omega
      · have hsize := Nat.size_le_size hstores.capacity_le
        omega
    show _ + (r.perform c).state.growths history + _ ≤ ((r.perform c).state.after history).arena.capacity.size
    omega

theorem size_capacity_le {a : Arena} (h : a.WellFormed) : a.capacity.size ≤ 64 := by
  have hcap := h.capacity_le_max
  have hmax : int64Max < 2 ^ 64 := by decide
  apply Nat.size_le.2
  omega

/-- The capacity is the one of the beginning, or a power of two. -/
theorem capacity_after {r : Reader} (h : r.arena.WellFormed) (history : List Call) :
    (r.after history).arena.capacity = r.arena.capacity ∨
      ∃ k, (r.after history).arena.capacity = 2 ^ k := by
  induction history generalizing r with
  | nil => exact .inl rfl
  | cons c history ih =>
    obtain hrest | hpower := ih (wellFormed_perform h c)
    · by_cases hcap : (r.perform c).state.arena.capacity = r.arena.capacity
      · exact .inl (hrest.trans hcap)
      · obtain ⟨n, _, _, ⟨⟨_, k, hk⟩, _⟩, _⟩ := (stores h c).grown hcap
        exact .inr ⟨k, hrest.trans hk⟩
    · exact .inr hpower

/-! ## Misuse -/

/-- The misuses of a reader. -/
inductive Misuse (r : Reader) : Call → Violation → Prop where
  | overcommitted (n : Nat) (h : r.arena.reserved < n) :
      Misuse r (.commit n) (.overcommitted n r.arena.reserved)
  | unfinishedMessage (h : r.arena.messageComplete = false) : Misuse r .compact .unfinishedMessage
  | readAfterEnd (call : ReadCall) (h : r.arena.messageComplete = true) :
      Misuse r (.read call) (.readAfterEnd call)
  | wrongFamily (f : Family) (m : Marker) (hopen : r.arena.messageComplete = false)
      (hm : r.marker? = some m) (h : m.family ≠ f) :
      Misuse r (.read (.family f)) (.wrongFamily (.family f) m)

theorem misuse?_iff (r : Reader) (call : ReadCall) (v : Violation) :
    r.misuse? call = some v ↔ r.Misuse (.read call) v := by
  constructor
  · intro h
    unfold misuse? at h
    cases hended : r.arena.messageComplete with
    | true =>
      rw [if_pos hended] at h
      cases h
      exact .readAfterEnd call hended
    | false =>
      rw [hended, if_neg Bool.false_ne_true] at h
      cases call with
      | any => cases h
      | family f =>
        obtain ⟨m, hfilter, hv⟩ := Option.map_eq_some_iff.1 h
        obtain ⟨hm, hf⟩ := Option.filter_eq_some_iff.1 hfilter
        subst hv
        exact .wrongFamily f m hended hm (of_decide_eq_true hf)
  · intro h
    unfold misuse?
    cases h with
    | readAfterEnd call hended => rw [if_pos hended]
    | wrongFamily f m hopen hm hf => simp [hopen, hm, hf, Option.filter]

theorem misuse_of_failure? {r : Reader} {c : Call} {v : Violation}
    (h : r.failure? c = some (.violation v)) : r.Misuse c v := by
  cases c with
  | feed bytes =>
    obtain ⟨_, _, hfault⟩ := Option.map_eq_some_iff.1 h
    cases hfault
  | reserve n bytes =>
    obtain ⟨_, _, hfault⟩ := Option.map_eq_some_iff.1 h
    cases hfault
  | commit n =>
    unfold failure? at h
    simp only [Option.ite_none_right_eq_some, Option.some.injEq, Failure.violation.injEq] at h
    obtain ⟨hlt, hv⟩ := h
    subst hv
    exact .overcommitted n hlt
  | next =>
    unfold failure? unknown? at h
    simp only at h
    repeat' split at h
    all_goals simp at h
  | read call =>
    unfold failure? at h
    cases hmisuse : r.misuse? call with
    | some v' =>
      simp only [hmisuse, Option.some.injEq, Failure.violation.injEq] at h
      subst h
      exact (misuse?_iff r call v').1 hmisuse
    | none => cases hfront : r.front <;> simp [hmisuse, hfront] at h
  | endMessage => cases h
  | compact =>
    unfold failure? at h
    simp only [Option.ite_none_left_eq_some, Option.some.injEq, Failure.violation.injEq] at h
    obtain ⟨hopen, hv⟩ := h
    subst hv
    exact .unfinishedMessage (eq_false_of_ne_true hopen)
  | discard => cases h

theorem failure?_of_misuse {r : Reader} {c : Call} {v : Violation} (h : r.Misuse c v) :
    r.failure? c = some (.violation v) := by
  cases c with
  | read call =>
    have hmisuse := (misuse?_iff r call v).2 h
    simp only [failure?, hmisuse]
  | commit n =>
    cases h with
    | overcommitted n hlt => exact if_pos hlt
  | compact =>
    cases h with
    | unfinishedMessage hopen => simp [failure?, hopen]
  | _ => cases h

/-- A violation comes from a misuse, and every misuse is answered by one. -/
theorem violation_iff {r : Reader} (h : r.arena.WellFormed) (c : Call) (v : Violation) :
    (r.perform c).outcome = .error (.violation v) ↔ r.Misuse c v := by
  rw [outcome_error_iff h]
  exact ⟨misuse_of_failure?, failure?_of_misuse⟩

end Reader

/-! ## Arenas on their own -/

namespace Arena

/-- A call on an arena that belongs to no reader. -/
inductive Call where
  /-- Reserves `n` bytes and, if that is granted, writes `bytes` into the front of them. -/
  | reserve (n : Nat) (bytes : Bytes)
  | commit (written : Nat)
  | compact
  | clear
  deriving DecidableEq, Repr

/-- Carries out a call. -/
def perform (a : Arena) : Call → Reply Arena Reader.Answer
  | .reserve n bytes => (a.reserve n).andThen fun _ a => .done (.region a.region) (a.fill bytes)
  | .commit written => (a.commit written).mapOutcome fun _ => .done
  | .compact => a.compact.mapOutcome fun _ => .done
  | .clear => .done .done a.clear

/-- The arena after a history. Calls that fail are part of it. -/
def after (a : Arena) (history : List Call) : Arena :=
  history.foldl (fun a call => (a.perform call).state) a

theorem capacity_create {capacity : Nat} {allocator : Allocator}
    (h : (create capacity allocator).outcome = .ok ()) :
    (create capacity allocator).state.capacity = capacity := by
  unfold create at h ⊢
  split at h
  · next hzero => rw [if_pos hzero, hzero]; rfl
  · next hsome =>
    rw [if_neg hsome]
    obtain ⟨_, hgrow⟩ | ⟨_, hgrow⟩ := (empty allocator).growTo_cases capacity
    · rw [hgrow] at h
      cases h
    · rw [hgrow]
      show ((empty allocator).enlarged capacity).capacity = capacity
      rw [capacity_enlarged]
      exact Nat.max_eq_right (Nat.zero_le _)

end Arena

namespace Reader

/-- The call on a reader that does to its arena what a call on the arena alone does. -/
def Call.ofArena : Arena.Call → Call
  | .reserve n bytes => .reserve n bytes
  | .commit written => .commit written
  | .compact => .compact
  | .clear => .discard

theorem perform_ofArena (r : Reader) (c : Arena.Call) :
    (r.perform (.ofArena c)).outcome = (r.arena.perform c).outcome ∧
      (r.perform (.ofArena c)).state = r.withArena (r.arena.perform c).state := by
  cases c with
  | reserve n bytes =>
    rw [Call.ofArena, perform_reserve, Arena.perform]
    generalize r.arena.reserve n = reply
    obtain ⟨outcome, a, es⟩ := reply
    cases outcome with
    | error f => exact ⟨rfl, rfl⟩
    | ok u => exact ⟨rfl, rfl⟩
  | commit n => exact ⟨rfl, rfl⟩
  | compact => exact ⟨rfl, rfl⟩
  | clear => exact ⟨rfl, rfl⟩

/-- An arena on its own goes through what the arena of a reader goes through that is asked the same. -/
theorem after_ofArena (r : Reader) (history : List Arena.Call) :
    (r.after (history.map .ofArena)).arena = r.arena.after history := by
  induction history generalizing r with
  | nil => rfl
  | cons c history ih =>
    have hstate := (perform_ofArena r c).2
    show ((r.perform (.ofArena c)).state.after (history.map .ofArena)).arena
      = (r.arena.perform c).state.after history
    rw [ih, hstate]
    rfl

/-! ## Every history -/

/-- What can be relied on in a reader whose storage had `initial` bytes at first. -/
structure Safe (initial : Nat) (r : Reader) : Prop where
  cursor_le : r.arena.readCursor ≤ r.arena.usedEnd
  reserved_le : r.arena.usedEnd + r.arena.reserved ≤ r.arena.capacity
  capacity_eq : r.arena.capacity = initial ∨ ∃ k, r.arena.capacity = 2 ^ k
  stores : ∀ c, Stores c r.arena (r.perform c).state.arena
  /-- No check of a call fails. -/
  checked : ∀ c, r.perform? c = some (r.perform c)
  remaining_checked : r.arena.remaining? = some r.arena.remaining
  unread_checked : r.arena.unread? = some r.arena.unread
  view_checked : ∀ v, r.view? v = some (r.view v)
  /-- A violation comes from a misuse, and from nothing else. -/
  violation_iff : ∀ c v, (r.perform c).outcome = .error (.violation v) ↔ r.Misuse c v
  /-- An arena on its own answers as this one does. -/
  arena_outcome : ∀ c, (r.perform (.ofArena c)).outcome = (r.arena.perform c).outcome

/-- The storage of a new reader has the size that was asked for. -/
theorem capacity_create {config : Config} (h : (create config).outcome = .ok ()) :
    (create config).state.arena.capacity = config.initialCapacity := by
  rw [arena_create]
  exact Arena.capacity_create h

/-- Whatever is asked of a reader whose first storage was granted, failing calls included, its positions stay
in order and nothing it computes is out of range; its storage grows as it should, 64 times at most with the
first storage; and a call ends in a violation only if it is a misuse. The same goes for an arena on its own. -/
theorem storage_safe {config : Config} (hcreated : (create config).outcome = .ok ())
    (history : List Call) :
    Safe config.initialCapacity ((create config).state.after history) ∧
    (if config.initialCapacity = 0 then 0 else 1) + (create config).state.growths history ≤ 64 ∧
    ∀ calls : List Arena.Call, (Arena.create config.initialCapacity config.allocator).state.after calls
      = ((create config).state.after (calls.map .ofArena)).arena := by
  have hnew : (create config).state.arena.WellFormed := wellFormed_after config []
  have h := wellFormed_after config history
  have hcap := capacity_create hcreated
  refine ⟨?safe, ?growths, ?alone⟩
  case safe =>
    have hcapacity := capacity_after hnew history
    rw [hcap] at hcapacity
    exact
      { cursor_le := h.cursor_le
        reserved_le := h.reserved_le
        capacity_eq := hcapacity
        stores := stores h
        checked := perform?_eq h
        remaining_checked := Arena.remaining?_eq h
        unread_checked := Arena.unread?_eq h
        view_checked := view?_eq h
        violation_iff := violation_iff h
        arena_outcome := fun c => (perform_ofArena _ c).1 }
  case growths =>
    have hgrowths := growths_add_size_le hnew history
    have hlast := size_capacity_le h
    rw [hcap] at hgrowths
    -- A storage that was there from the start is a digit long at least.
    have hfirst : (if config.initialCapacity = 0 then 0 else 1) ≤ config.initialCapacity.size := by
      split
      · exact Nat.zero_le _
      · next hsome => exact Nat.size_pos.2 (Nat.pos_of_ne_zero hsome)
    omega
  case alone =>
    intro calls
    rw [after_ofArena, arena_create]

/-- A reader with two committed bytes in a storage of ten, a third one that is only written, and two calls
behind it that failed. -/
def outgrown : Reader :=
  (create { initialCapacity := 10 }).state.after
    [.feed [1, 2], .reserve 4 [3], .commit 9, .reserve wordMax []]

/-- A reservation that it has no room for keeps all three bytes in their places, and zeros follow. -/
theorem storage_safe_outgrown :
    (outgrown.perform (.reserve 20 [])).state.arena.stored = [1, 2, 3] ++ List.replicate 29 0 := by
  have hcreated : (create { initialCapacity := 10 }).outcome = .ok () := rfl
  have hsafe : Safe 10 outgrown := (storage_safe hcreated _).1
  obtain ⟨_, _, _, _, hstored⟩ := (hsafe.stores (.reserve 20 [])).grown (by decide)
  rw [hstored]
  rfl

end Reader
end MessagePack
