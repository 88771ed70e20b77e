import MessagePack.Value
import MessagePack.DecodeError
/-
  Tokens: the scan that decides what stands at the front of the unread bytes.

  A header is at most nine bytes long, so a scan looks at the first nine bytes and, for a blob, at how many
  bytes there are; the payload itself is never looked at. A token is taken whole or not at all: a scan that
  lacks a byte says so, and a later scan starts again from the front.

  The length of a blob is checked as soon as its header is there, before any of the payload has come.

  What is proved:
    1. `scan_bounds`: a complete token is at least one byte long and no longer than what there is.
-/
namespace MessagePack

/-- What a scan sees of the unread bytes: the first nine at most, and how many there are in all. -/
structure Window where
  lead : Bytes
  count : Nat
  deriving DecidableEq, Repr

namespace Window

/-- The window on a byte string. -/
def ofBytes (u : Bytes) : Window := ⟨u.take 9, u.length⟩

/-- The field of width `w` behind the marker, as an unsigned number. -/
def field (win : Window) (w : Width) : Nat := ofBigEndian ((win.lead.drop 1).take w.bytes)

end Window

/-- A place among the unread bytes, counted from the first of them. -/
structure Extent where
  offset : Nat
  length : Nat
  deriving DecidableEq, Repr

/-- How far the token at the front has come. -/
inductive Scan (α : Type) where
  /-- The whole token is there, `length` bytes of it. -/
  | complete (value : α) (length : Nat)
  /-- Bytes of the token are still to come. -/
  | incomplete
  deriving DecidableEq, Repr

namespace Marker

/-- A number field of width `w` behind the marker: nothing is read before all of it is there. -/
def scanField {α : Type} (w : Width) (win : Window)
    (value : Nat → Except DecodeError α) : Except DecodeError (Scan α) :=
  if win.count < 1 + w.bytes then .ok .incomplete
  else match value (win.field w) with
    | .error e => .error e
    | .ok v => .ok (.complete v (1 + w.bytes))

/-- A blob with a length field of width `w`: the limit is checked before the payload is asked for. -/
def scanBlob {α : Type} (w : Width) (limit : Option Nat) (offset : Nat) (win : Window)
    (value : Extent → α) : Except DecodeError (Scan α) :=
  if win.count < 1 + w.bytes then .ok .incomplete
  else
    let length := win.field w
    match limit.filter (· < length) with
    | some most => .error (.blobTooLarge length most offset)
    | none =>
      if win.count < 1 + w.bytes + length then .ok .incomplete
      else .ok (.complete (value ⟨1 + w.bytes, length⟩) (1 + w.bytes + length))

/-- The scan of the token with marker `m` that starts at `offset`. -/
def scan (m : Marker) (limit : Option Nat) (offset : Nat) (win : Window) :
    Except DecodeError (Scan (Value Extent)) :=
  match m with
  | nil => .ok (.complete .nil 1)
  | false => .ok (.complete (.bool Bool.false) 1)
  | true => .ok (.complete (.bool Bool.true) 1)
  | fixint v => .ok (.complete (.int v.toNat) 1)
  | negFixint v => .ok (.complete (.int v.toInt) 1)
  | uint w => scanField w win fun field =>
    if int64Max < field then .error (.uint64Overflow field offset) else .ok (.int field)
  | sint w => scanField w win fun field => .ok (.int (w.signed field))
  | float32 => scanField .w32 win fun field => .ok (.float (Binary32.widen ⟨UInt32.ofNat field⟩))
  | float64 => scanField .w64 win fun field => .ok (.float ⟨UInt64.ofNat field⟩)
  | bin8 => scanBlob .w8 limit offset win .bin
  | bin16 => scanBlob .w16 limit offset win .bin
  | bin32 => scanBlob .w32 limit offset win .bin

theorem scanField_bounds {α : Type} {w : Width} {win : Window}
    {value : Nat → Except DecodeError α} {v : α} {n : Nat}
    (h : scanField w win value = .ok (.complete v n)) : 0 < n ∧ n ≤ win.count := by
  unfold scanField at h
  split at h
  · simp at h
  · split at h
    · simp at h
    · simp only [Except.ok.injEq, Scan.complete.injEq] at h
      omega

theorem scanBlob_bounds {α : Type} {w : Width} {limit : Option Nat} {offset : Nat} {win : Window}
    {value : Extent → α} {v : α} {n : Nat}
    (h : scanBlob w limit offset win value = .ok (.complete v n)) : 0 < n ∧ n ≤ win.count := by
  unfold scanBlob at h
  simp only at h
  repeat' split at h
  all_goals first
    | simp at h; done
    | (simp only [Except.ok.injEq, Scan.complete.injEq] at h; omega)

/-- A complete token has a byte at least, and all its bytes are there. -/
theorem scan_bounds {m : Marker} {limit : Option Nat} {offset : Nat} {win : Window}
    {v : Value Extent} {n : Nat} (hcount : 0 < win.count)
    (h : m.scan limit offset win = .ok (.complete v n)) : 0 < n ∧ n ≤ win.count := by
  cases m with
  | nil | «false» | «true» | fixint _ | negFixint _ =>
    simp only [scan, Except.ok.injEq, Scan.complete.injEq] at h
    omega
  | uint w | sint w | float32 | float64 =>
    rw [scan] at h
    exact scanField_bounds h
  | bin8 | bin16 | bin32 =>
    rw [scan] at h
    exact scanBlob_bounds h

end Marker
end MessagePack
