import MessagePack.Proofs.Delivery
/-
  Room: how far the storage grows for what is fed, and the histories in which no growth is refused.

  A feed that does not fit enlarges the storage to the least power of two that is enough. So the capacity tells
  how much has ever been held at once, and a history of feeds that is granted piece by piece could have been
  granted at once.

  What is proved:
    1. `capacity_feed`: a feed leaves the capacity as it is, or makes it that power of two.
    2. `fits_of_granted`: there is room for all that a granted delivery feeds.
-/
namespace MessagePack

/-- The capacity of `a'` is the one of `a`, or the least power of two that `n` more bytes need. -/
def Arena.RoomFor (a : Arena) (n : Nat) (a' : Arena) : Prop :=
  a'.capacity = a.capacity ∨
  (a'.capacity = leastPowerOfTwo (a.usedEnd + n) ∧ a.allocator.provides a'.capacity)

namespace Arena

theorem roomFor_reserve (a : Arena) (n : Nat) : a.RoomFor n (a.reserve n).state := by
  obtain ⟨_, hr⟩ | ⟨_, hr⟩ | ⟨hlt, hprovided, hr⟩ := a.reserve_cases n
  · rw [hr]
    exact .inl rfl
  · rw [hr]
    exact .inl rfl
  · rw [hr]
    have hcap : (a.enlarged (leastPowerOfTwo (a.usedEnd + n))).capacity
        = leastPowerOfTwo (a.usedEnd + n) := by
      have hle := le_leastPowerOfTwo (a.usedEnd + n)
      rw [capacity_enlarged]
      omega
    exact .inr ⟨hcap, Allocator.provides_of_le (Nat.le_of_eq hcap) hprovided⟩

theorem capacity_commit (a : Arena) (n : Nat) : (a.commit n).state.capacity = a.capacity := by
  obtain ⟨_, hc⟩ | ⟨_, hc⟩ := a.commit_cases n
  all_goals
    rw [hc]
    rfl

theorem RoomFor.capacity_le {a a' : Arena} {n : Nat} (h : a.RoomFor n a') :
    a'.capacity ≤ max a.capacity (leastPowerOfTwo (a.usedEnd + n)) := by
  obtain hcap | ⟨hcap, _⟩ := h
  · rw [hcap]
    exact Nat.le_max_left _ _
  · rw [hcap]
    exact Nat.le_max_right _ _

/-- Where room was made for the first part and the second part fits then, all fits. -/
theorem RoomFor.fits {a a' : Arena} {m n : Nat} (h : a.RoomFor m a')
    (hend : a'.usedEnd = a.usedEnd + m) (hallocator : a'.allocator = a.allocator) (hfits : a'.Fits n) :
    a.Fits (m + n) := by
  unfold Fits at hfits ⊢
  rw [hend, Nat.add_assoc, hallocator] at hfits
  obtain hroom | hlater := hfits
  · obtain hcap | ⟨hcap, hprovided⟩ := h
    · exact .inl (by omega)
    · -- The storage is a power of two already, so what it has room for needs no larger one.
      obtain ⟨k, hk⟩ := exists_leastPowerOfTwo_eq (a.usedEnd + m)
      have hleast : leastPowerOfTwo (a.usedEnd + (m + n)) ≤ Nat.pow 2 k :=
        leastPowerOfTwo_le (by omega)
      rw [← hk, ← hcap] at hleast
      exact .inr (Allocator.provides_of_le hleast hprovided)
  · exact .inr hlater

end Arena

namespace Reader

/-- What feeding does to the capacity, whether or not it is granted. -/
theorem capacity_feed {r : Reader} (h : r.arena.WellFormed) (bytes : Bytes) :
    r.arena.RoomFor bytes.length (r.feed bytes).state.arena := by
  have hwf := Arena.wellFormed_reserve h bytes.length
  have hroom := r.arena.roomFor_reserve bytes.length
  unfold feed
  cases hgranted : (r.reserve bytes.length).outcome with
  | error f =>
    rw [Reply.outcome_andThen_of_error hgranted]
    exact hroom
  | ok u =>
    rw [Reply.outcome_andThen_of_ok hgranted]
    have hcap : (((r.arena.reserve bytes.length).state.fill bytes).commit bytes.length).state.capacity
        = (r.arena.reserve bytes.length).state.capacity := by
      rw [Arena.capacity_commit, Arena.capacity_fill hwf]
    unfold Arena.RoomFor at hroom ⊢
    rw [← hcap] at hroom
    exact hroom

/-- No growth is refused: every feed of a history is granted. -/
def Granted (r : Reader) : List Call → Prop
  | [] => True
  | c :: history =>
    (∀ bytes, c = .feed bytes → (r.feed bytes).outcome = .ok ()) ∧ (r.perform c).state.Granted history

/-- What a call of a delivery does to the room there is. -/
theorem roomFor_perform {r : Reader} (h : r.arena.WellFormed) {c : Call} (hc : c.delivers = true)
    (hgranted : ∀ bytes, c = .feed bytes → (r.feed bytes).outcome = .ok ()) :
    r.arena.RoomFor c.fed.length (r.perform c).state.arena ∧
      (r.perform c).state.arena.usedEnd = r.arena.usedEnd + c.fed.length := by
  cases c with
  | feed bytes =>
    refine ⟨capacity_feed h bytes, ?_⟩
    obtain ⟨_, f, hfeed⟩ | ⟨_, a, es, hfeed, hextends⟩ := feed_cases h bytes
    · have hok := hgranted bytes rfl
      rw [hfeed] at hok
      cases hok
    · show (r.feed bytes).state.arena.usedEnd = _
      rw [hfeed]
      exact hextends.usedEnd_eq
  | next =>
    show r.arena.RoomFor 0 r.next.state.arena ∧ r.next.state.arena.usedEnd = r.arena.usedEnd
    rw [state_next]
    exact ⟨.inl rfl, rfl⟩
  | read call =>
    have hp := performs h (.read call)
    generalize r.perform (.read call) = reply at hp ⊢
    cases hp with
    | refused | lacking | took => exact ⟨.inl rfl, rfl⟩
  | _ => cases hc

/-- There is room for all that a granted delivery feeds. -/
theorem fits_of_granted {r : Reader} (h : r.arena.WellFormed) {history : List Call}
    (hdelivers : ∀ c ∈ history, c.delivers = true) (hgranted : r.Granted history) :
    r.arena.Fits (fedBy history).length := by
  induction history generalizing r with
  | nil => exact .inl h.usedEnd_le
  | cons c history ih =>
    obtain ⟨hfirst, hlater⟩ := hgranted
    obtain ⟨hc, hrest⟩ := List.forall_mem_cons.1 hdelivers
    obtain ⟨hroom, hend⟩ := roomFor_perform h hc hfirst
    have hfits := hroom.fits hend (allocator_perform h c) (ih (wellFormed_perform h c) hrest hlater)
    simpa [fedBy] using hfits

end Reader
end MessagePack
