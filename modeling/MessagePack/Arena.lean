import MessagePack.Allocator
import MessagePack.Reply
import MessagePack.Token
/-
  The arena: one stretch of storage in which received bytes wait until they are decoded.

      0            readCursor           usedEnd            capacity
      |-- consumed ----|------ unread -----|----- writable -----|

  Bytes arrive at `usedEnd`: a stretch behind it is reserved, written from outside and then committed, in one
  or several steps. Bytes leave at `readCursor`. When a message is over, the unread bytes are moved to the
  front. Storage is only ever enlarged, to a power of two, and keeps all its bytes then.

  Storage comes from an allocator, which an arena keeps for as long as it lives and which may refuse.

  Positions are offsets from the start of the storage. They keep their meaning until the storage is enlarged,
  compacted or cleared, and each of these starts a new generation.

  What is proved:
    1. `window_eq`: the window is the one on the unread bytes, although it is taken without copying them.
    2. `le_leastPowerOfTwo`, `leastPowerOfTwo_le`: the least power of two is what its name says.
-/
namespace MessagePack

/-- The least power of two that is not below `n`. -/
def leastPowerOfTwo (n : Nat) : Nat :=
  if n ≤ 1 then 1 else Nat.pow 2 ((n - 1).log2 + 1)

theorem le_leastPowerOfTwo (n : Nat) : n ≤ leastPowerOfTwo n := by
  unfold leastPowerOfTwo
  split
  · assumption
  · have : n - 1 < Nat.pow 2 ((n - 1).log2 + 1) := Nat.lt_log2_self
    omega

theorem leastPowerOfTwo_le {n k : Nat} (h : n ≤ Nat.pow 2 k) : leastPowerOfTwo n ≤ Nat.pow 2 k := by
  unfold leastPowerOfTwo
  split
  · exact Nat.one_le_two_pow
  · apply Nat.pow_le_pow_right (by decide)
    have hless : n - 1 < Nat.pow 2 k := by omega
    have : (n - 1).log2 < k := (Nat.log2_lt (by omega)).2 hless
    omega

theorem exists_leastPowerOfTwo_eq (n : Nat) : ∃ k, leastPowerOfTwo n = Nat.pow 2 k := by
  unfold leastPowerOfTwo
  split
  · exact ⟨0, rfl⟩
  · exact ⟨_, rfl⟩

theorem leastPowerOfTwo_mono {m n : Nat} (h : m ≤ n) : leastPowerOfTwo m ≤ leastPowerOfTwo n := by
  obtain ⟨k, hk⟩ := exists_leastPowerOfTwo_eq n
  have hle := le_leastPowerOfTwo n
  rw [hk] at hle ⊢
  exact leastPowerOfTwo_le (Nat.le_trans h hle)

/-- Storage that holds bytes between their arrival and their decoding. -/
structure Arena where
  storage : ByteArray
  usedEnd : Nat
  readCursor : Nat
  /-- How much of the last reservation is not committed yet. -/
  reserved : Nat
  messageComplete : Bool
  generation : UInt64
  allocator : Allocator

namespace Arena

def empty (allocator : Allocator := .standard) : Arena := ⟨.empty, 0, 0, 0, false, 0, allocator⟩

def capacity (a : Arena) : Nat := a.storage.size

def remaining (a : Arena) : Nat := a.usedEnd - a.readCursor

/-- The stored bytes from `first` up to, but not including, `last`. -/
def slice (a : Arena) (first last : Nat) : Bytes := (a.storage.extract first last).data.toList

/-- The committed bytes that are not consumed. -/
def unread (a : Arena) : Bytes := a.slice a.readCursor a.usedEnd

/-- What the storage shows where the next bytes may be written. -/
def region (a : Arena) : Bytes := a.slice a.usedEnd (a.usedEnd + a.reserved)

def window (a : Arena) : Window :=
  ⟨a.slice a.readCursor (min a.usedEnd (a.readCursor + 9)), a.remaining⟩

/-- The committed bytes of a stretch; none if it goes beyond them. -/
def committed? (a : Arena) (first length : Nat) : Option Bytes :=
  if a.usedEnd < first + length then none else some (a.slice first (first + length))

def zeros (n : Nat) : ByteArray := ⟨Array.replicate n 0⟩

/-- Enlarges the storage to `capacity` bytes, if they can be had. All old bytes keep their place; the new ones
are zero. -/
def growTo (a : Arena) (capacity : Nat) : Reply Arena Unit :=
  if a.allocator.provides capacity then
    ⟨.ok (),
      { a with
        storage := a.storage ++ zeros (capacity - a.capacity)
        generation := a.generation + 1 },
      [.grew a.capacity capacity]⟩
  else
    .fail (.fault (.allocationFailed capacity)) a

/-- An arena with `capacity` bytes of storage. It is in generation 0 whatever it took to get there. -/
def create (capacity : Nat) (allocator : Allocator := .standard) : Reply Arena Unit :=
  if capacity = 0 then .done () (empty allocator)
  else
    let r := (empty allocator).growTo capacity
    { r with state := { r.state with generation := 0 } }

/-- Makes room for `n` bytes behind the committed ones. The storage is enlarged, if need be, to the least
power of two that is enough. An earlier reservation is given up. -/
def reserve (a : Arena) (n : Nat) : Reply Arena Unit :=
  let needed := a.usedEnd + n
  if wordMax < needed then
    .fail (.fault (.allocationFailed wordMax)) a
  else if needed ≤ a.capacity then
    .done () { a with reserved := n }
  else if 0x8000000000000000 < needed then
    .fail (.fault (.allocationFailed needed)) a
  else
    (a.growTo (leastPowerOfTwo needed)).andThen fun _ a' => .done () { a' with reserved := n }

/-- Writes bytes into the front of the reserved region, as many of them as it has room for. -/
def fill (a : Arena) (bytes : Bytes) : Arena :=
  let source := (bytes.take a.reserved).toByteArray
  { a with storage := source.copySlice 0 a.storage a.usedEnd source.size }

/-- Declares that the next `written` bytes of the reservation hold data. -/
def commit (a : Arena) (written : Nat) : Reply Arena Unit :=
  if a.reserved < written then
    .fail (.violation (.overcommitted written a.reserved)) a
  else
    .done () { a with usedEnd := a.usedEnd + written, reserved := a.reserved - written }

def consume (a : Arena) (n : Nat) : Arena := { a with readCursor := a.readCursor + n }

def endMessage (a : Arena) : Arena := { a with messageComplete := true }

/-- Drops the finished message and moves the bytes behind it to the front. -/
def compact (a : Arena) : Reply Arena Unit :=
  if a.messageComplete then
    let consumed := a.readCursor
    let leftover := a.remaining
    let kept := a.storage.extract a.readCursor a.usedEnd
    ⟨.ok (),
      { a with
        storage := kept.copySlice 0 a.storage 0 kept.size
        usedEnd := leftover
        readCursor := 0
        reserved := 0
        messageComplete := false
        generation := a.generation + 1 },
      [.compacted consumed leftover]⟩
  else
    .fail (.violation .unfinishedMessage) a

def clear (a : Arena) : Arena :=
  { a with
    usedEnd := 0
    readCursor := 0
    reserved := 0
    messageComplete := false
    generation := a.generation + 1 }

def close (a : Arena) : List Event := [.released a.capacity]

theorem slice_eq (a : Arena) (first last : Nat) :
    a.slice first last = (a.storage.data.toList.drop first).take (last - first) := by
  simp [slice, ByteArray.data_extract]

theorem length_slice (a : Arena) (first last : Nat) :
    (a.slice first last).length = min last a.capacity - first := by
  have hcap : a.capacity = a.storage.data.toList.length := rfl
  rw [slice_eq, List.length_take, List.length_drop, hcap]
  omega

theorem lead_eq_take (a : Arena) : a.window.lead = a.unread.take 9 := by
  simp only [window, unread, slice_eq, List.take_take]
  congr 1
  omega

/-- The window is the one on the unread bytes, as long as what was committed is stored. -/
theorem window_eq {a : Arena} (h : a.usedEnd ≤ a.capacity) : a.window = .ofBytes a.unread := by
  have hlead : a.window.lead = a.unread.take 9 := a.lead_eq_take
  have hcount : a.window.count = a.unread.length := by
    rw [unread, length_slice, Nat.min_eq_left h]
    rfl
  cases hw : a.window
  simp_all [Window.ofBytes]

/-- Where the window shows a byte, there is one to read. -/
theorem remaining_pos_of_lead {a : Arena} {b : UInt8} {rest : Bytes}
    (h : a.window.lead = b :: rest) : 0 < a.remaining := by
  have hlen : a.window.lead.length = rest.length + 1 := by rw [h]; rfl
  simp only [window, length_slice] at hlen
  unfold remaining
  omega

theorem remaining_growTo (a : Arena) (capacity : Nat) :
    (a.growTo capacity).state.remaining = a.remaining := by
  unfold growTo
  split <;> rfl

/-- A reservation moves neither end of the unread bytes. -/
theorem remaining_reserve (a : Arena) (n : Nat) : (a.reserve n).state.remaining = a.remaining := by
  unfold reserve
  simp only
  repeat' split
  · rfl
  · rfl
  · rfl
  · cases hg : (a.growTo (leastPowerOfTwo (a.usedEnd + n))).outcome with
    | error e => simp [Reply.outcome_andThen_of_error hg, remaining_growTo]
    | ok u =>
      rw [Reply.outcome_andThen_of_ok hg]
      exact remaining_growTo a _

theorem remaining_commit_le (a : Arena) (n : Nat) :
    (a.commit n).state.remaining ≤ a.remaining + n := by
  unfold commit remaining
  split
  · simp
  · simp only [Reply.state_done]
    omega

/-- Compaction keeps the unread bytes, so it keeps their number. -/
theorem remaining_compact (a : Arena) : a.compact.state.remaining = a.remaining := by
  unfold compact
  split <;> simp [remaining]

end Arena
end MessagePack
