import MessagePack.Arena
/-
  The storage of an arena as a list of bytes. Every call on an arena either leaves the committed bytes where
  they are, or moves the unread ones to the front, or drops all of them.

  What is proved:
    1. `wellFormed_reserve` and its like: the positions stay in order, whatever is asked of an arena.
    2. `keeps_reserve` and its like: nothing but compaction and clearing touches a committed byte.
    3. `unread_commit`, `unread_consume`, `unread_compacted`: what each call does to the unread bytes.
-/
namespace MessagePack

/-- Copying a string over another replaces as many bytes as it has, and adds what does not fit. -/
theorem toList_copySlice (source target : ByteArray) (start : Nat) :
    (source.copySlice 0 target start source.size).data.toList
      = target.data.toList.take start ++ source.data.toList
        ++ target.data.toList.drop (start + source.data.toList.length) := by
  rw [ByteArray.copySlice_eq_append, ByteArray.data_append, ByteArray.data_append]
  have hrest : (target.data.toList.drop (start + source.size)).take
      (target.size - (start + source.size)) = target.data.toList.drop (start + source.size) := by
    apply List.take_of_length_le
    rw [List.length_drop]
    exact Nat.le_refl _
  simp [hrest]

namespace Arena

/-- Everything that the storage holds. -/
def stored (a : Arena) : Bytes := a.storage.data.toList

/-- The order of the positions of an arena, whose storage is no larger than storage can be. -/
structure WellFormed (a : Arena) : Prop where
  cursor_le : a.readCursor ≤ a.usedEnd
  reserved_le : a.usedEnd + a.reserved ≤ a.capacity
  capacity_le_max : a.capacity ≤ int64Max

/-- What is committed in `a` stands at the same place in `a'`. -/
structure Keeps (a a' : Arena) : Prop where
  usedEnd_le : a.usedEnd ≤ a'.usedEnd
  stored_eq : a'.stored.take a.usedEnd = a.stored.take a.usedEnd

theorem length_stored (a : Arena) : a.stored.length = a.capacity := rfl

theorem WellFormed.at_generation {a : Arena} (h : a.WellFormed) (g : UInt64) :
    WellFormed { a with generation := g } := ⟨h.cursor_le, h.reserved_le, h.capacity_le_max⟩

theorem WellFormed.usedEnd_le {a : Arena} (h : a.WellFormed) : a.usedEnd ≤ a.capacity :=
  Nat.le_trans (Nat.le_add_right _ _) h.reserved_le

/-! ## Stretches of the storage -/

theorem slice_eq_stored (a : Arena) (first last : Nat) :
    a.slice first last = (a.stored.drop first).take (last - first) := slice_eq a first last

theorem slice_append (a : Arena) {first middle last : Nat} (h : first ≤ middle)
    (h' : middle ≤ last) : a.slice first middle ++ a.slice middle last = a.slice first last := by
  have hdrop : a.stored.drop middle = (a.stored.drop first).drop (middle - first) := by
    rw [List.drop_drop, Nat.add_sub_cancel' h]
  have hlen : last - first = (middle - first) + (last - middle) := by omega
  rw [slice_eq_stored, slice_eq_stored, slice_eq_stored, hdrop, hlen, List.take_add]

theorem length_unread {a : Arena} (h : a.WellFormed) : a.unread.length = a.remaining := by
  rw [unread, length_slice, Nat.min_eq_left h.usedEnd_le]
  rfl

/-- A stretch of the committed bytes, seen from the cursor. -/
theorem slice_unread {a : Arena} {offset length : Nat} (h : offset + length ≤ a.remaining) :
    a.slice (a.readCursor + offset) (a.readCursor + offset + length)
      = (a.unread.drop offset).take length := by
  unfold remaining at h
  rw [unread, slice_eq_stored, slice_eq_stored, List.drop_take, List.drop_drop, List.take_take]
  congr 1
  omega

namespace Keeps

variable {a b c : Arena}

theorem refl (a : Arena) : Keeps a a := ⟨Nat.le_refl _, rfl⟩

theorem trans (h : Keeps a b) (h' : Keeps b c) : Keeps a c := by
  refine ⟨Nat.le_trans h.usedEnd_le h'.usedEnd_le, ?_⟩
  have hmin : min a.usedEnd b.usedEnd = a.usedEnd := Nat.min_eq_left h.usedEnd_le
  calc c.stored.take a.usedEnd
      = (c.stored.take b.usedEnd).take a.usedEnd := by rw [List.take_take, hmin]
    _ = (b.stored.take b.usedEnd).take a.usedEnd := by rw [h'.stored_eq]
    _ = b.stored.take a.usedEnd := by rw [List.take_take, hmin]
    _ = a.stored.take a.usedEnd := h.stored_eq

theorem slice_eq (h : Keeps a b) (first : Nat) {last : Nat} (hlast : last ≤ a.usedEnd) :
    b.slice first last = a.slice first last := by
  -- Either slice can be cut from the committed part alone, and that is the same in both.
  have hcut (s : Bytes) : (s.drop first).take (last - first)
      = ((s.take a.usedEnd).drop first).take (last - first) := by
    rw [List.drop_take, List.take_take, Nat.min_eq_left (by omega)]
  rw [slice_eq_stored, slice_eq_stored, hcut b.stored, hcut a.stored, h.stored_eq]

theorem unread_eq (h : Keeps a b) (hend : b.usedEnd = a.usedEnd)
    (hcursor : b.readCursor = a.readCursor) : b.unread = a.unread := by
  rw [unread, unread, hend, hcursor]
  exact h.slice_eq _ (Nat.le_refl _)

end Keeps

/-! ## Enlarging and reserving -/

theorem wellFormed_empty (allocator : Allocator) : (empty allocator).WellFormed :=
  ⟨Nat.le_refl _, Nat.le_refl _, Nat.zero_le _⟩

/-- The arena with its storage enlarged, in a new generation. -/
def enlarged (a : Arena) (capacity : Nat) : Arena :=
  { a with
    storage := a.storage ++ zeros (capacity - a.capacity)
    generation := a.generation + 1 }

theorem growTo_cases (a : Arena) (capacity : Nat) :
    (¬ a.allocator.provides capacity ∧
      a.growTo capacity = .fail (.fault (.allocationFailed capacity)) a) ∨
    (a.allocator.provides capacity ∧
      a.growTo capacity = ⟨.ok (), a.enlarged capacity, [.grew a.capacity capacity]⟩) := by
  unfold growTo
  split
  · exact .inr ⟨‹_›, rfl⟩
  · exact .inl ⟨‹_›, rfl⟩

theorem stored_enlarged (a : Arena) (capacity : Nat) :
    (a.enlarged capacity).stored = a.stored ++ List.replicate (capacity - a.capacity) 0 := by
  simp [stored, enlarged, zeros]

theorem capacity_enlarged (a : Arena) (capacity : Nat) :
    (a.enlarged capacity).capacity = max a.capacity capacity := by
  rw [← length_stored, stored_enlarged, List.length_append, List.length_replicate, length_stored]
  omega

theorem wellFormed_enlarged {a : Arena} (h : a.WellFormed) {capacity : Nat}
    (hprovided : a.allocator.provides capacity) : (a.enlarged capacity).WellFormed := by
  have hcap := a.capacity_enlarged capacity
  have hreserved := h.reserved_le
  have hold := h.capacity_le_max
  have hnew := Allocator.le_of_provides hprovided
  refine ⟨h.cursor_le, ?_, by omega⟩
  show a.usedEnd + a.reserved ≤ (a.enlarged capacity).capacity
  omega

theorem wellFormed_growTo {a : Arena} (h : a.WellFormed) (capacity : Nat) :
    (a.growTo capacity).state.WellFormed := by
  obtain ⟨_, hgrow⟩ | ⟨hprovided, hgrow⟩ := a.growTo_cases capacity
  · rw [hgrow]
    exact h
  · rw [hgrow]
    exact wellFormed_enlarged h hprovided

theorem keeps_enlarged {a : Arena} (h : a.usedEnd ≤ a.capacity) (capacity : Nat) :
    Keeps a (a.enlarged capacity) := by
  refine ⟨Nat.le_refl _, ?_⟩
  rw [stored_enlarged]
  exact List.take_append_of_le_length h

/-- What a reservation can do: it is refused, or there is room for it, or room is made. -/
theorem reserve_cases (a : Arena) (n : Nat) :
    (∃ requested, a.reserve n = .fail (.fault (.allocationFailed requested)) a) ∨
    (a.usedEnd + n ≤ a.capacity ∧ a.reserve n = .done () { a with reserved := n }) ∨
    (a.capacity < a.usedEnd + n ∧ a.allocator.provides (leastPowerOfTwo (a.usedEnd + n)) ∧
      a.reserve n = ⟨.ok (), { a.enlarged (leastPowerOfTwo (a.usedEnd + n)) with reserved := n },
        [.grew a.capacity (leastPowerOfTwo (a.usedEnd + n))]⟩) := by
  unfold reserve
  simp only
  split
  · exact .inl ⟨_, rfl⟩
  · split
    · exact .inr (.inl ⟨‹_›, rfl⟩)
    · split
      · exact .inl ⟨_, rfl⟩
      · obtain ⟨_, hgrow⟩ | ⟨hprovided, hgrow⟩ := a.growTo_cases (leastPowerOfTwo (a.usedEnd + n))
        · exact .inl ⟨_, by rw [hgrow]; rfl⟩
        · refine .inr (.inr ⟨by omega, hprovided, ?_⟩)
          rw [hgrow]
          rfl

theorem keeps_reserve {a : Arena} (h : a.WellFormed) (n : Nat) : Keeps a (a.reserve n).state := by
  obtain ⟨_, hr⟩ | ⟨_, hr⟩ | ⟨_, _, hr⟩ := a.reserve_cases n
  · rw [hr]
    exact Keeps.refl a
  · rw [hr]
    exact ⟨Nat.le_refl _, rfl⟩
  · rw [hr]
    exact ⟨Nat.le_refl _, (keeps_enlarged h.usedEnd_le _).stored_eq⟩

theorem wellFormed_reserve {a : Arena} (h : a.WellFormed) (n : Nat) :
    (a.reserve n).state.WellFormed := by
  obtain ⟨_, hr⟩ | ⟨hroom, hr⟩ | ⟨_, hprovided, hr⟩ := a.reserve_cases n
  · rw [hr]
    exact h
  · rw [hr]
    exact ⟨h.cursor_le, hroom, h.capacity_le_max⟩
  · rw [hr]
    have henlarged := wellFormed_enlarged h hprovided
    have hcap := a.capacity_enlarged (leastPowerOfTwo (a.usedEnd + n))
    have hle := le_leastPowerOfTwo (a.usedEnd + n)
    refine ⟨h.cursor_le, ?_, henlarged.capacity_le_max⟩
    show a.usedEnd + n ≤ (a.enlarged _).capacity
    omega

/-- A reservation moves neither end of the unread bytes. -/
theorem unread_reserve {a : Arena} (h : a.WellFormed) (n : Nat) :
    (a.reserve n).state.unread = a.unread := by
  obtain ⟨_, hr⟩ | ⟨_, hr⟩ | ⟨_, _, hr⟩ := a.reserve_cases n
  · rw [hr]
    rfl
  · rw [hr]
    rfl
  · rw [hr]
    exact (keeps_enlarged h.usedEnd_le _).unread_eq rfl rfl

/-- The storage of `a'` is the one of `a`, or an enlarged one in the next generation. -/
def Grows (a a' : Arena) : Prop :=
  (a'.capacity = a.capacity ∧ a'.generation = a.generation) ∨
  (a.capacity < a'.capacity ∧ a'.generation = a.generation + 1)

theorem grows_reserve (a : Arena) (n : Nat) : Grows a (a.reserve n).state := by
  obtain ⟨_, hr⟩ | ⟨_, hr⟩ | ⟨hlt, _, hr⟩ := a.reserve_cases n
  · rw [hr]
    exact .inl ⟨rfl, rfl⟩
  · rw [hr]
    exact .inl ⟨rfl, rfl⟩
  · rw [hr]
    have hcap := a.capacity_enlarged (leastPowerOfTwo (a.usedEnd + n))
    have hle := le_leastPowerOfTwo (a.usedEnd + n)
    refine .inr ⟨?_, rfl⟩
    show a.capacity < (a.enlarged _).capacity
    omega

theorem allocator_reserve (a : Arena) (n : Nat) : (a.reserve n).state.allocator = a.allocator := by
  obtain ⟨_, hr⟩ | ⟨_, hr⟩ | ⟨_, _, hr⟩ := a.reserve_cases n
  all_goals
    rw [hr]
    rfl

/-- What a granted reservation leaves as it is, and how much it reserves. -/
theorem reserve_granted {a : Arena} {n : Nat} (h : (a.reserve n).outcome = .ok ()) :
    (a.reserve n).state.reserved = n ∧ (a.reserve n).state.usedEnd = a.usedEnd ∧
      (a.reserve n).state.readCursor = a.readCursor ∧
      (a.reserve n).state.messageComplete = a.messageComplete := by
  obtain ⟨_, hr⟩ | ⟨_, hr⟩ | ⟨_, _, hr⟩ := a.reserve_cases n
  · rw [hr] at h
    simp at h
  · rw [hr]
    exact ⟨rfl, rfl, rfl, rfl⟩
  · rw [hr]
    exact ⟨rfl, rfl, rfl, rfl⟩

theorem reserve_refused {a : Arena} {n : Nat} {f : Failure} (h : (a.reserve n).outcome = .error f) :
    a.reserve n = .fail f a := by
  obtain ⟨_, hr⟩ | ⟨_, hr⟩ | ⟨_, _, hr⟩ := a.reserve_cases n
  · rw [hr] at h ⊢
    simp only [Reply.outcome_fail, Except.error.injEq] at h
    rw [h]
  · rw [hr] at h
    simp at h
  · rw [hr] at h
    simp at h

/-! ## Room -/

/-- There is room for `n` bytes behind the committed ones, or as much storage as it takes can be had. -/
def Fits (a : Arena) (n : Nat) : Prop :=
  a.usedEnd + n ≤ a.capacity ∨ a.allocator.provides (leastPowerOfTwo (a.usedEnd + n))

/-- What can be had, or is there, is within every bound on sizes. -/
theorem Fits.le_max {a : Arena} (h : a.WellFormed) {n : Nat} (hfits : a.Fits n) :
    a.usedEnd + n ≤ int64Max := by
  rcases hfits with hroom | hprovided
  · exact Nat.le_trans hroom h.capacity_le_max
  · exact Nat.le_trans (le_leastPowerOfTwo _) (Allocator.le_of_provides hprovided)

theorem reserve_of_fits {a : Arena} (h : a.WellFormed) {n : Nat} (hfits : a.Fits n) :
    (a.reserve n).outcome = .ok () := by
  have hmax := hfits.le_max h
  have hword : int64Max ≤ wordMax := by decide
  have hhalf : int64Max ≤ 0x8000000000000000 := by decide
  unfold reserve
  simp only
  split
  · omega
  · split
    · rfl
    · split
      · omega
      · obtain ⟨hrefused, _⟩ | ⟨_, hgrow⟩ := a.growTo_cases (leastPowerOfTwo (a.usedEnd + n))
        · exact absurd (hfits.resolve_left ‹_›) hrefused
        · rw [hgrow]
          rfl

theorem fits_of_reserve {a : Arena} {n : Nat} (h : (a.reserve n).outcome = .ok ()) : a.Fits n := by
  obtain ⟨_, hr⟩ | ⟨hroom, _⟩ | ⟨_, hprovided, _⟩ := a.reserve_cases n
  · rw [hr] at h
    simp at h
  · exact .inl hroom
  · exact .inr hprovided

/-- Where all fits, the first part of it fits. -/
theorem Fits.first {a : Arena} {m n : Nat} (h : a.Fits (m + n)) : a.Fits m := by
  rcases h with hroom | hprovided
  · exact .inl (by omega)
  · have hmono : leastPowerOfTwo (a.usedEnd + m) ≤ leastPowerOfTwo (a.usedEnd + (m + n)) := by
      apply leastPowerOfTwo_mono
      omega
    exact .inr (Allocator.provides_of_le hmono hprovided)

/-- Where all fits, the second part of it fits behind the first. -/
theorem Fits.second {a a' : Arena} {m n : Nat} (h : a.Fits (m + n))
    (hend : a'.usedEnd = a.usedEnd + m) (hcap : a.capacity ≤ a'.capacity)
    (hallocator : a'.allocator = a.allocator) : a'.Fits n := by
  unfold Fits at h ⊢
  rw [hend, Nat.add_assoc, hallocator]
  rcases h with hroom | hprovided
  · exact .inl (Nat.le_trans hroom hcap)
  · exact .inr hprovided

theorem Grows.capacity_le {a a' : Arena} (h : Grows a a') : a.capacity ≤ a'.capacity := by
  obtain ⟨hcap, _⟩ | ⟨hcap, _⟩ := h
  · exact Nat.le_of_eq hcap.symm
  · exact Nat.le_of_lt hcap

/-! ## Writing and committing -/

theorem stored_fill (a : Arena) (bytes : Bytes) :
    (a.fill bytes).stored = a.stored.take a.usedEnd ++ bytes.take a.reserved
      ++ a.stored.drop (a.usedEnd + (bytes.take a.reserved).length) := by
  have h := toList_copySlice (bytes.take a.reserved).toByteArray a.storage a.usedEnd
  rw [List.data_toByteArray] at h
  exact h

@[simp] theorem usedEnd_fill (a : Arena) (bytes : Bytes) : (a.fill bytes).usedEnd = a.usedEnd := rfl
@[simp] theorem readCursor_fill (a : Arena) (bytes : Bytes) :
    (a.fill bytes).readCursor = a.readCursor := rfl
@[simp] theorem reserved_fill (a : Arena) (bytes : Bytes) : (a.fill bytes).reserved = a.reserved := rfl
@[simp] theorem messageComplete_fill (a : Arena) (bytes : Bytes) :
    (a.fill bytes).messageComplete = a.messageComplete := rfl
@[simp] theorem generation_fill (a : Arena) (bytes : Bytes) :
    (a.fill bytes).generation = a.generation := rfl
@[simp] theorem allocator_fill (a : Arena) (bytes : Bytes) :
    (a.fill bytes).allocator = a.allocator := rfl

theorem capacity_fill {a : Arena} (h : a.WellFormed) (bytes : Bytes) :
    (a.fill bytes).capacity = a.capacity := by
  have hle := h.reserved_le
  rw [← length_stored, stored_fill]
  simp only [List.length_append, List.length_take, List.length_drop, length_stored]
  omega

theorem keeps_fill {a : Arena} (h : a.WellFormed) (bytes : Bytes) : Keeps a (a.fill bytes) := by
  refine ⟨Nat.le_refl _, ?_⟩
  have hlen : (a.stored.take a.usedEnd).length = a.usedEnd :=
    List.length_take_of_le h.usedEnd_le
  rw [stored_fill, List.append_assoc, List.take_append_of_le_length (Nat.le_of_eq hlen.symm),
    List.take_of_length_le (Nat.le_of_eq hlen)]

theorem wellFormed_fill {a : Arena} (h : a.WellFormed) (bytes : Bytes) :
    (a.fill bytes).WellFormed := by
  have hcap := capacity_fill h bytes
  refine ⟨h.cursor_le, ?_, ?_⟩
  · rw [hcap]
    exact h.reserved_le
  · rw [hcap]
    exact h.capacity_le_max

/-- What was written into a reservation stands behind the committed bytes. -/
theorem slice_fill {a : Arena} (h : a.WellFormed) {bytes : Bytes}
    (hfits : bytes.length ≤ a.reserved) :
    (a.fill bytes).slice a.usedEnd (a.usedEnd + bytes.length) = bytes := by
  have hlen : (a.stored.take a.usedEnd).length = a.usedEnd :=
    List.length_take_of_le h.usedEnd_le
  rw [slice_eq_stored, stored_fill, List.take_of_length_le hfits, List.append_assoc,
    List.drop_left' hlen, Nat.add_sub_cancel_left, List.take_left' rfl]

theorem commit_cases (a : Arena) (n : Nat) :
    (a.reserved < n ∧ a.commit n = .fail (.violation (.overcommitted n a.reserved)) a) ∨
    (n ≤ a.reserved ∧ a.commit n =
      .done () { a with usedEnd := a.usedEnd + n, reserved := a.reserved - n }) := by
  unfold commit
  split
  · exact .inl ⟨‹_›, rfl⟩
  · exact .inr ⟨by omega, rfl⟩

theorem keeps_commit (a : Arena) (n : Nat) : Keeps a (a.commit n).state := by
  obtain ⟨_, hc⟩ | ⟨_, hc⟩ := a.commit_cases n
  · rw [hc]
    exact Keeps.refl a
  · rw [hc]
    exact ⟨Nat.le_add_right _ _, rfl⟩

theorem wellFormed_commit {a : Arena} (h : a.WellFormed) (n : Nat) :
    (a.commit n).state.WellFormed := by
  obtain ⟨_, hc⟩ | ⟨hn, hc⟩ := a.commit_cases n
  · rw [hc]
    exact h
  · rw [hc]
    have hcursor := h.cursor_le
    have hreserved := h.reserved_le
    refine ⟨?_, ?_, h.capacity_le_max⟩
    · show a.readCursor ≤ a.usedEnd + n
      omega
    · show a.usedEnd + n + (a.reserved - n) ≤ a.capacity
      omega

/-- Committing makes the next reserved bytes unread ones. -/
theorem unread_commit {a : Arena} (h : a.WellFormed) {n : Nat} (hn : n ≤ a.reserved) :
    (a.commit n).state.unread = a.unread ++ a.slice a.usedEnd (a.usedEnd + n) := by
  obtain ⟨hlt, _⟩ | ⟨_, hc⟩ := a.commit_cases n
  · omega
  · rw [hc]
    exact (a.slice_append h.cursor_le (Nat.le_add_right _ _)).symm

/-! ## Reading and ending a message -/

theorem wellFormed_consume {a : Arena} (h : a.WellFormed) {n : Nat} (hn : n ≤ a.remaining) :
    (a.consume n).WellFormed := by
  have hcursor := h.cursor_le
  refine ⟨?_, h.reserved_le, h.capacity_le_max⟩
  unfold remaining at hn
  show a.readCursor + n ≤ a.usedEnd
  omega

theorem keeps_consume (a : Arena) (n : Nat) : Keeps a (a.consume n) := ⟨Nat.le_refl _, rfl⟩

/-- The bytes that are consumed are the first of the unread ones. -/
theorem unread_consume {a : Arena} (h : a.WellFormed) {n : Nat} (hn : n ≤ a.remaining) :
    a.unread = a.slice a.readCursor (a.readCursor + n) ++ (a.consume n).unread := by
  have hcursor := h.cursor_le
  unfold remaining at hn
  exact (a.slice_append (Nat.le_add_right _ _) (by omega)).symm

theorem wellFormed_endMessage {a : Arena} (h : a.WellFormed) : a.endMessage.WellFormed :=
  ⟨h.cursor_le, h.reserved_le, h.capacity_le_max⟩

theorem keeps_endMessage (a : Arena) : Keeps a a.endMessage := ⟨Nat.le_refl _, rfl⟩

/-- The arena with the unread bytes moved to the front, in a new generation. -/
def compacted (a : Arena) : Arena :=
  { a with
    storage := (a.storage.extract a.readCursor a.usedEnd).copySlice 0 a.storage 0
      (a.storage.extract a.readCursor a.usedEnd).size
    usedEnd := a.remaining
    readCursor := 0
    reserved := 0
    messageComplete := false
    generation := a.generation + 1 }

theorem compact_cases (a : Arena) :
    (a.messageComplete = false ∧ a.compact = .fail (.violation .unfinishedMessage) a) ∨
    (a.messageComplete = true ∧
      a.compact = ⟨.ok (), a.compacted, [.compacted a.readCursor a.remaining]⟩) := by
  unfold compact
  split
  · exact .inr ⟨‹_›, rfl⟩
  · next hopen => exact .inl ⟨by simpa using hopen, rfl⟩

theorem stored_compacted (a : Arena) :
    a.compacted.stored = a.unread ++ a.stored.drop a.unread.length := by
  have h := toList_copySlice (a.storage.extract a.readCursor a.usedEnd) a.storage 0
  simp only [List.take_zero, List.nil_append, Nat.zero_add] at h
  exact h

theorem capacity_compacted {a : Arena} (h : a.WellFormed) :
    a.compacted.capacity = a.capacity := by
  have hle := h.usedEnd_le
  have hunread := length_unread h
  rw [← length_stored, stored_compacted, List.length_append, List.length_drop, length_stored,
    hunread]
  unfold remaining
  omega

theorem wellFormed_compacted {a : Arena} (h : a.WellFormed) : a.compacted.WellFormed := by
  have hle := h.usedEnd_le
  have hcap := capacity_compacted h
  refine ⟨Nat.zero_le _, ?_, ?_⟩
  · rw [hcap]
    show a.remaining + 0 ≤ a.capacity
    unfold remaining
    omega
  · rw [hcap]
    exact h.capacity_le_max

/-- Compaction moves the unread bytes and changes none of them. -/
theorem unread_compacted {a : Arena} (h : a.WellFormed) : a.compacted.unread = a.unread := by
  have hlen : a.compacted.usedEnd = a.unread.length := (length_unread h).symm
  rw [unread, slice_eq_stored, stored_compacted, hlen]
  exact List.take_left' rfl

@[simp] theorem usedEnd_compacted (a : Arena) : a.compacted.usedEnd = a.remaining := rfl
@[simp] theorem readCursor_compacted (a : Arena) : a.compacted.readCursor = 0 := rfl
@[simp] theorem messageComplete_compacted (a : Arena) : a.compacted.messageComplete = false := rfl
@[simp] theorem generation_compacted (a : Arena) : a.compacted.generation = a.generation + 1 := rfl

-- Otherwise every comparison of two readers would go into the copying of the bytes.
attribute [irreducible] compacted

@[simp] theorem allocator_compacted (a : Arena) : a.compacted.allocator = a.allocator := by
  unfold compacted
  rfl

theorem wellFormed_clear {a : Arena} (h : a.WellFormed) : a.clear.WellFormed :=
  ⟨Nat.le_refl _, Nat.zero_le _, h.capacity_le_max⟩

theorem unread_clear (a : Arena) : a.clear.unread = [] := by
  rw [unread, slice_eq_stored]
  rfl

theorem wellFormed_create (capacity : Nat) (allocator : Allocator) :
    (create capacity allocator).state.WellFormed := by
  unfold create
  split
  · exact wellFormed_empty allocator
  · exact (wellFormed_growTo (wellFormed_empty allocator) capacity).at_generation 0

theorem allocator_create (capacity : Nat) (allocator : Allocator) :
    (create capacity allocator).state.allocator = allocator := by
  unfold create
  split
  · rfl
  · obtain ⟨_, hgrow⟩ | ⟨_, hgrow⟩ := (empty allocator).growTo_cases capacity
    · rw [hgrow]
      rfl
    · rw [hgrow]
      rfl

/-- Where a new arena stands. -/
structure Fresh (a : Arena) : Prop where
  usedEnd_eq : a.usedEnd = 0
  readCursor_eq : a.readCursor = 0
  messageComplete_eq : a.messageComplete = false

theorem fresh_create (capacity : Nat) (allocator : Allocator) : (create capacity allocator).state.Fresh := by
  unfold create
  split
  · exact ⟨rfl, rfl, rfl⟩
  · obtain ⟨_, hgrow⟩ | ⟨_, hgrow⟩ := (empty allocator).growTo_cases capacity
    · rw [hgrow]
      exact ⟨rfl, rfl, rfl⟩
    · rw [hgrow]
      exact ⟨rfl, rfl, rfl⟩

theorem Fresh.unread_eq {a : Arena} (h : a.Fresh) : a.unread = [] := by
  rw [unread, h.usedEnd_eq, slice_eq_stored, Nat.zero_sub, List.take_zero]

end Arena
end MessagePack
