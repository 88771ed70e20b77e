import MessagePack.Arena
/-
  Readers: tokens taken from an arena, one call at a time. A call either takes a whole token, or says that
  more bytes are needed and takes nothing, or refuses the token and takes nothing. The same call can be
  made again once more bytes have been fed.

  A blob is not copied: the reader gives a view of it, which says where in the arena the payload lies and
  in which generation. A view resolves to its bytes only while the arena is in that generation.

  What is proved:
    1. `remaining_readValue_lt`: a call that takes a token leaves fewer unread bytes.
    2. `remaining_feed_le`: feeding adds no more unread bytes than it is given.
-/
namespace MessagePack

structure Config where
  /-- The storage that is there from the start. -/
  initialCapacity : Nat := 0x100000
  /-- The longest blob that is accepted; none for no limit. -/
  maxBlobLength : Option Nat := none
  /-- Where the storage comes from. -/
  allocator : Allocator := .standard

/-- Where a blob lies in an arena, and in which generation of it. -/
structure View where
  offset : Nat
  length : Nat
  generation : UInt64
  deriving DecidableEq, Repr

/-- The position behind the last byte of a view. -/
def View.stop (v : View) : Nat := v.offset + v.length

/-- What stands at the read cursor. -/
inductive Upcoming where
  | token (m : Marker)
  | needMoreData
  | ended
  deriving DecidableEq, Repr

/-- How a reading call ended. -/
inductive Progress (α : Type) where
  /-- A token of `consumed` bytes was taken. -/
  | decoded (value : α) (consumed : Nat)
  /-- The token is not all there; nothing was taken. -/
  | needMoreData
  deriving DecidableEq, Repr

/-- An arena and the rules for decoding from it. -/
structure Reader where
  arena : Arena
  config : Config

namespace Reader

/-- A reader without data, or the refusal of its first storage. -/
def create (config : Config) : Reply Reader Unit :=
  (Arena.create config.initialCapacity config.allocator).within fun arena => ⟨arena, config⟩

@[inline] def withArena (r : Reader) (arena : Arena) : Reader := { r with arena }

/-- Where the next token starts in the arena. -/
def cursor (r : Reader) : Nat := r.arena.readCursor

/-! ## Feeding -/

def reserve (r : Reader) (n : Nat) : Reply Reader Unit := (r.arena.reserve n).within r.withArena

def fill (r : Reader) (bytes : Bytes) : Reader := r.withArena (r.arena.fill bytes)

def commit (r : Reader) (written : Nat) : Reply Reader Unit :=
  (r.arena.commit written).within r.withArena

/-- Appends bytes: room is reserved for them, they are written there and committed. -/
def feed (r : Reader) (bytes : Bytes) : Reply Reader Unit :=
  (r.reserve bytes.length).andThen fun _ r' => (r'.fill bytes).commit bytes.length

/-! ## Reading -/

/-- Refuses the token at the cursor and reports the refusal. -/
def reject {α : Type} (r : Reader) (e : DecodeError) : Reply Reader α :=
  ⟨.error (.fault e), r, [.rejected r.cursor e]⟩

/-- Classifies the token at the cursor by its first byte. -/
def next (r : Reader) : Reply Reader Upcoming :=
  if r.arena.messageComplete then .done .ended r
  else match r.arena.window.lead with
    | [] => .done .needMoreData r
    | b :: _ =>
      match Marker.ofByte? b with
      | some m => .done (.token m) r
      | none => r.reject (.unknownTag b r.cursor)

/-- The marker at the cursor for a call that is about to take the token; none if no byte is there. -/
def peek (r : Reader) (call : ReadCall) : Reply Reader (Option Marker) :=
  if r.arena.messageComplete then .fail (.violation (.readAfterEnd call)) r
  else match r.arena.window.lead with
    | [] => .done none r
    | b :: _ =>
      match Marker.ofByte? b with
      | some m => .done (some m) r
      | none => r.reject (.unknownTag b r.cursor)

/-- The view of a payload that lies at an extent of the unread bytes. -/
def viewAt (r : Reader) (e : Extent) : View :=
  ⟨r.cursor + e.offset, e.length, r.arena.generation⟩

/-- Takes the token with marker `m` at the cursor, if it is all there. -/
def take (r : Reader) (m : Marker) : Reply Reader (Progress (Value View)) :=
  match m.scan r.config.maxBlobLength r.cursor r.arena.window with
  | .error e => r.reject e
  | .ok .incomplete => .done .needMoreData r
  | .ok (.complete v n) => .done (.decoded (v.map r.viewAt) n) (r.withArena (r.arena.consume n))

/-- Takes a token of a known family. The caller has seen the marker before: another family is a misuse. -/
def readFamily (r : Reader) (f : Family) : Reply Reader (Progress (Value View)) :=
  (r.peek (.family f)).andThen fun
    | none, r => .done .needMoreData r
    | some m, r =>
      if m.family = f then r.take m else .fail (.violation (.wrongFamily (.family f) m)) r

def readValue (r : Reader) : Reply Reader (Progress (Value View)) :=
  r.next.andThen fun
    | .ended, r => .fail (.violation (.readAfterEnd .any)) r
    | .needMoreData, r => .done .needMoreData r
    | .token m, r => r.readFamily m.family

/-- The bytes of a view, unless the arena has moved or forgotten them. -/
def view (r : Reader) (v : View) : Except DecodeError Bytes :=
  let stale := DecodeError.staleView v.generation r.arena.generation
  if v.generation ≠ r.arena.generation then .error stale
  else match r.arena.committed? v.offset v.length with
    | some bytes => .ok bytes
    | none => .error stale

/-- A value with the bytes of its blob in place of the view. -/
def resolve (r : Reader) : Value View → Except DecodeError (Value Bytes)
  | .nil => .ok .nil
  | .bool b => .ok (.bool b)
  | .int v => .ok (.int v)
  | .float x => .ok (.float x)
  | .bin v => (r.view v).map .bin

/-! ## Messages -/

/-- Declares the current message to be decoded to its end. -/
def endMessage (r : Reader) : Reader := r.withArena r.arena.endMessage

def compact (r : Reader) : Reply Reader Unit := r.arena.compact.within r.withArena

/-- Drops every buffered byte, as after a refused token whose end cannot be known. -/
def discard (r : Reader) : Reply Reader Unit :=
  ⟨.ok (), r.withArena r.arena.clear, [.discarded r.arena.usedEnd r.cursor]⟩

def close (r : Reader) : List Event := r.arena.close

/-! ## Progress -/

theorem state_next (r : Reader) : r.next.state = r := by
  unfold next
  repeat' split
  all_goals rfl

theorem state_peek (r : Reader) (call : ReadCall) : (r.peek call).state = r := by
  unfold peek
  repeat' split
  all_goals rfl

/-- A marker is seen only where there is a byte to read. -/
theorem remaining_pos_of_peek {r : Reader} {call : ReadCall} {m : Marker}
    (h : (r.peek call).outcome = .ok (some m)) : 0 < r.arena.remaining := by
  unfold peek at h
  split at h
  · simp at h
  · split at h
    · simp at h
    · rename_i hlead
      exact Arena.remaining_pos_of_lead hlead

theorem remaining_take_lt {r : Reader} {m : Marker} {v : Value View} {n : Nat}
    (hpos : 0 < r.arena.remaining) (h : (r.take m).outcome = .ok (.decoded v n)) :
    (r.take m).state.arena.remaining < r.arena.remaining := by
  unfold take at h ⊢
  split at h
  · simp [reject] at h
  · simp at h
  · rename_i hscan
    obtain ⟨h1, h2⟩ := Marker.scan_bounds (by simpa [Arena.window] using hpos) hscan
    simp only [Reply.state_done, withArena, Arena.consume, Arena.remaining, Arena.window] at *
    omega

theorem remaining_readFamily_lt {r : Reader} {f : Family} {v : Value View} {n : Nat}
    (h : (r.readFamily f).outcome = .ok (.decoded v n)) :
    (r.readFamily f).state.arena.remaining < r.arena.remaining := by
  unfold readFamily at h ⊢
  cases hp : (r.peek (.family f)).outcome with
  | error e => simp [Reply.outcome_andThen_of_error hp] at h
  | ok seen =>
    simp only [Reply.outcome_andThen_of_ok hp, state_peek] at h ⊢
    cases seen with
    | none => simp at h
    | some m =>
      simp only at h ⊢
      split at h
      · rename_i hf
        simp only [hf, if_true]
        exact remaining_take_lt (remaining_pos_of_peek hp) h
      · simp at h

/-- A call that takes a token leaves fewer unread bytes. -/
theorem remaining_readValue_lt {r : Reader} {v : Value View} {n : Nat}
    (h : r.readValue.outcome = .ok (.decoded v n)) :
    r.readValue.state.arena.remaining < r.arena.remaining := by
  unfold readValue at h ⊢
  cases hp : r.next.outcome with
  | error e => simp [Reply.outcome_andThen_of_error hp] at h
  | ok seen =>
    simp only [Reply.outcome_andThen_of_ok hp, state_next] at h ⊢
    cases seen with
    | token m => exact remaining_readFamily_lt h
    | needMoreData => simp at h
    | ended => simp at h

theorem state_take {r : Reader} {m : Marker}
    (h : ∀ v n, (r.take m).outcome ≠ .ok (.decoded v n)) : (r.take m).state = r := by
  unfold take at h ⊢
  split
  · rfl
  · rfl
  · rename_i v n hscan
    simp [hscan] at h

theorem state_readFamily {r : Reader} {f : Family}
    (h : ∀ v n, (r.readFamily f).outcome ≠ .ok (.decoded v n)) : (r.readFamily f).state = r := by
  unfold readFamily at h ⊢
  cases hp : (r.peek (.family f)).outcome with
  | error e => simp [Reply.outcome_andThen_of_error hp, state_peek]
  | ok seen =>
    simp only [Reply.outcome_andThen_of_ok hp, state_peek] at h ⊢
    cases seen with
    | none => rfl
    | some m =>
      simp only at h ⊢
      split
      · rename_i hf
        simp only [hf, if_true] at h
        exact state_take h
      · rfl

/-- A call that takes no token leaves the reader as it was. -/
theorem state_readValue {r : Reader}
    (h : ∀ v n, r.readValue.outcome ≠ .ok (.decoded v n)) : r.readValue.state = r := by
  unfold readValue at h ⊢
  cases hp : r.next.outcome with
  | error e => simp [Reply.outcome_andThen_of_error hp, state_next]
  | ok seen =>
    simp only [Reply.outcome_andThen_of_ok hp, state_next] at h ⊢
    cases seen with
    | token m => exact state_readFamily h
    | needMoreData => rfl
    | ended => rfl

theorem remaining_fill (r : Reader) (bytes : Bytes) :
    (r.fill bytes).arena.remaining = r.arena.remaining := rfl

/-- Feeding adds no more unread bytes than it is given. -/
theorem remaining_feed_le (r : Reader) (bytes : Bytes) :
    (r.feed bytes).state.arena.remaining ≤ r.arena.remaining + bytes.length := by
  have hreserve : (r.reserve bytes.length).state.arena.remaining = r.arena.remaining :=
    r.arena.remaining_reserve bytes.length
  unfold feed
  cases hr : (r.reserve bytes.length).outcome with
  | error e =>
    rw [Reply.outcome_andThen_of_error hr]
    simp only [hreserve]
    exact Nat.le_add_right _ _
  | ok u =>
    rw [Reply.outcome_andThen_of_ok hr]
    have hcommit := ((r.reserve bytes.length).state.fill bytes).arena.remaining_commit_le bytes.length
    rw [remaining_fill, hreserve] at hcommit
    exact hcommit

end Reader
end MessagePack
