import MessagePack.Proofs.Recognition
/-
  Looking and taking. What stands at the cursor is classified by `next`, and once more by every call that
  takes a token; which decoder takes it is decided by the family of the marker, and once more by the decoder,
  which knows its own markers. These decisions agree in every state.

  What is proved:
    1. `decode_of_family`, `decode_of_other`: a decoder knows the markers of its family and no others.
    2. `readFamily_eq_decodeWith`: a call for a family goes by the decoder of that family and its own table.
    3. `reads_agree`: in every state there can be, `next` and all the calls that take a token give the same
       account of it, and a call for the right family is the call for whatever comes.
-/
namespace MessagePack

/-! ## One decoder for each family -/

namespace Marker

/-- What a decoder makes of the token before it; none for a marker that is not one of its own. -/
abbrev Decoded := Option (Except DecodeError (Scan (Value Extent)))

def decodeNil : Marker → Decoded
  | nil => some (.ok (.complete .nil 1))
  | _ => none

def decodeBool : Marker → Decoded
  | false => some (.ok (.complete (.bool Bool.false) 1))
  | true => some (.ok (.complete (.bool Bool.true) 1))
  | _ => none

def decodeInt (m : Marker) (offset : Nat) (win : Window) : Decoded :=
  match m with
  | fixint v => some (.ok (.complete (.int v.toNat) 1))
  | negFixint v => some (.ok (.complete (.int v.toInt) 1))
  | uint w => some (scanField w win fun field =>
      if int64Max < field then .error (.uint64Overflow field offset) else .ok (.int field))
  | sint w => some (scanField w win fun field => .ok (.int (w.signed field)))
  | _ => none

def decodeFloat (m : Marker) (win : Window) : Decoded :=
  match m with
  | float32 => some (scanField .w32 win fun field =>
      .ok (.float (Binary32.widen ⟨UInt32.ofNat field⟩)))
  | float64 => some (scanField .w64 win fun field => .ok (.float ⟨UInt64.ofNat field⟩))
  | _ => none

def decodeBin (m : Marker) (limit : Option Nat) (offset : Nat) (win : Window) : Decoded :=
  m.lengthField.map fun w => scanBlob w limit offset win .bin

/-- The decoder of a family at a token with marker `m`. -/
def decode (f : Family) (m : Marker) (limit : Option Nat) (offset : Nat) (win : Window) : Decoded :=
  match f with
  | .nil => m.decodeNil
  | .bool => m.decodeBool
  | .int => m.decodeInt offset win
  | .float => m.decodeFloat win
  | .bin => m.decodeBin limit offset win

variable {f : Family} {m : Marker} {limit : Option Nat} {offset : Nat} {win : Window}

/-- A decoder knows the markers of its family, and makes of their tokens what the scan makes of them. -/
theorem decode_of_family (h : m.family = f) :
    decode f m limit offset win = some (m.scan limit offset win) := by
  subst h
  cases m <;> rfl

/-- A marker of another family is not in the decoder's table. -/
theorem decode_of_other (h : m.family ≠ f) : decode f m limit offset win = none := by
  cases f with
  | nil | bool | int | float | bin =>
    cases m with
    | nil | «false» | «true» | fixint _ | negFixint _ | uint _ | sint _ | float32 | float64
    | bin8 | bin16 | bin32 => first | rfl | exact absurd rfl h

end Marker

namespace Reader

/-- What a call for a family makes of the answer of its decoder. -/
def conclude (r : Reader) (f : Family) (m : Marker) :
    Marker.Decoded → Reply Reader (Progress (Value View))
  | none => .fail (.violation (.wrongFamily (.family f) m)) r
  | some answer => r.settle answer

/-- A call for a family in its own words: it peeks, hands the marker to the decoder of the family, and leaves
it to the decoder's table whether the call was a misuse. -/
def decodeWith (r : Reader) (f : Family) : Reply Reader (Progress (Value View)) :=
  (r.peek (.family f)).andThen fun
    | none, r => .done .needMoreData r
    | some m, r => r.conclude f m (Marker.decode f m r.config.maxBlobLength r.cursor r.arena.window)

theorem take_eq_settle (r : Reader) (m : Marker) :
    r.take m = r.settle (m.scan r.config.maxBlobLength r.cursor r.arena.window) := by
  unfold take
  generalize m.scan r.config.maxBlobLength r.cursor r.arena.window = answer
  cases answer with
  | error e => rfl
  | ok found => cases found <;> rfl

/-- The family of the marker and the table of the decoder lead to the same call. -/
theorem readFamily_eq_decodeWith (r : Reader) (f : Family) : r.readFamily f = r.decodeWith f := by
  unfold readFamily decodeWith
  congr 1
  funext seen r
  cases seen with
  | none => rfl
  | some m =>
    by_cases hfamily : m.family = f
    · simp only [hfamily, if_true, Marker.decode_of_family hfamily, conclude]
      exact r.take_eq_settle m
    · simp only [hfamily, if_false, Marker.decode_of_other hfamily, conclude]

/-! ## The states of a reader -/

/-- Behind the end of a message a call that takes a token is a misuse, whatever is buffered. -/
theorem read_of_ended {r : Reader} (hended : r.arena.messageComplete = true) (call : ReadCall) :
    r.read call = .fail (.violation (.readAfterEnd call)) r := by
  cases call with
  | family f => exact readFamily_of_ended hended f
  | any => exact readValue_of_ended hended

theorem misuse?_eq_none {r : Reader} (hopen : r.arena.messageComplete = false)
    (hmarker : r.marker? = none) (call : ReadCall) : r.misuse? call = none := by
  cases call with
  | family f => simp [misuse?, hopen, hmarker]
  | any => simp [misuse?, hopen]

/-- Where no marker is in sight every call that takes a token is the same call. -/
theorem read_of_unmarked {r : Reader} (h : r.arena.WellFormed)
    (hopen : r.arena.messageComplete = false) (hmarker : r.marker? = none) (call : ReadCall) :
    r.read call = r.settle r.front := by
  rw [read_eq h call, misuse?_eq_none hopen hmarker call]

theorem read_of_nil {r : Reader} (h : r.arena.WellFormed) (hopen : r.arena.messageComplete = false)
    (hu : r.arena.unread = []) (call : ReadCall) : r.read call = .done .needMoreData r := by
  have hmarker : r.marker? = none := by simp [marker?, hu]
  rw [read_of_unmarked h hopen hmarker call, front_of_nil hu]
  rfl

theorem read_of_unsupported {r : Reader} (h : r.arena.WellFormed)
    (hopen : r.arena.messageComplete = false) {b : UInt8} {u : Bytes} (hu : r.arena.unread = b :: u)
    (hb : Marker.ofByte? b = none) (call : ReadCall) :
    r.read call = r.reject (.unknownTag b r.cursor) := by
  have hmarker : r.marker? = none := by simp [marker?, hu, hb]
  rw [read_of_unmarked h hopen hmarker call, front_of_cons hu, hb]
  rfl

theorem next_of_ended {r : Reader} (hended : r.arena.messageComplete = true) :
    r.next = .done .ended r := by
  simp [next, hended]

/-! ## Agreement -/

/-- `next` and the calls that take a token agree about the token with marker `m`: a call for another family
is a misuse, even if the token is not all there, and a call for its family is the call for whatever comes. -/
structure Coherent (r : Reader) (m : Marker) : Prop where
  next_eq : r.next = .done (.token m) r
  readFamily_of_ne : ∀ f, f ≠ m.family →
    r.readFamily f = .fail (.violation (.wrongFamily (.family f) m)) r
  readFamily_family : r.readFamily m.family = r.readValue

theorem agree_of_marker {r : Reader} (h : r.arena.WellFormed)
    (hopen : r.arena.messageComplete = false) {b : UInt8} {u : Bytes} (hu : r.arena.unread = b :: u)
    {m : Marker} (hb : Marker.ofByte? b = some m) : r.Coherent m := by
  have hmarker : r.marker? = some m := by simp [marker?, hu, hb]
  refine ⟨?_, ?_, ?_⟩
  · rw [next_of_cons hopen hu, hb]
  · intro f hf
    exact readFamily_of_other hopen hmarker hf.symm
  · rw [readValue_eq h hopen]
    apply readFamily_eq h hopen
    intro m' hm'
    rw [hmarker] at hm'
    rw [Option.some.inj hm']

/-- In every state there can be `next` and all the calls that take a token agree: at the end of a message, where
nothing is buffered, before a byte that starts no token, and before a token. Each call goes by the table of its
own decoder. -/
theorem reads_agree {r : Reader} (hreachable : r.Reachable) :
    (r.arena.messageComplete = true →
      r.next = .done .ended r ∧
      ∀ call, r.read call = .fail (.violation (.readAfterEnd call)) r) ∧
    (r.arena.messageComplete = false → r.arena.unread = [] →
      r.next = .done .needMoreData r ∧ ∀ call, r.read call = .done .needMoreData r) ∧
    (∀ b u, r.arena.messageComplete = false → r.arena.unread = b :: u → Unsupported b →
      r.next = r.reject (.unknownTag b r.cursor) ∧
      ∀ call, r.read call = r.reject (.unknownTag b r.cursor)) ∧
    (∀ b u, r.arena.messageComplete = false → r.arena.unread = b :: u → ¬ Unsupported b →
      ∃ m, Marker.ofByte? b = some m ∧ m.toByte = b ∧ r.Coherent m) ∧
    ∀ f, r.readFamily f = r.decodeWith f := by
  have h := hreachable.wellFormed
  refine ⟨?ended, ?nothing, ?unsupported, ?token, r.readFamily_eq_decodeWith⟩
  case ended =>
    intro hended
    exact ⟨next_of_ended hended, read_of_ended hended⟩
  case nothing =>
    intro hopen hu
    exact ⟨next_of_nil hopen hu, read_of_nil h hopen hu⟩
  case unsupported =>
    intro b u hopen hu hunsupported
    have hb : Marker.ofByte? b = none := (unsupported_iff b).1 hunsupported
    refine ⟨?_, read_of_unsupported h hopen hu hb⟩
    rw [next_of_cons hopen hu, hb]
  case token =>
    intro b u hopen hu hsupported
    obtain ⟨m, hb⟩ : ∃ m, Marker.ofByte? b = some m := by
      apply Option.ne_none_iff_exists'.1
      intro hnone
      exact hsupported ((unsupported_iff b).2 hnone)
    exact ⟨m, hb, Marker.toByte_ofByte? hb, agree_of_marker h hopen hu hb⟩

/-- A reader before two of the three bytes of an integer. -/
def beforePartOfInteger : Reader :=
  (create { initialCapacity := 16 }).state.after [.feed [0xcd, 1]]

/-- An integer that is not all there is still no blob; a call for an integer waits for the rest of it, as a call
for whatever comes does. -/
theorem reads_agree_partOfInteger :
    beforePartOfInteger.next = .done (.token (.uint .w16)) beforePartOfInteger ∧
    beforePartOfInteger.readFamily .bin
      = .fail (.violation (.wrongFamily (.family .bin) (.uint .w16))) beforePartOfInteger ∧
    beforePartOfInteger.readFamily .int = beforePartOfInteger.readValue ∧
    beforePartOfInteger.readValue = .done .needMoreData beforePartOfInteger ∧
    ∀ call, beforePartOfInteger.endMessage.read call
      = .fail (.violation (.readAfterEnd call)) beforePartOfInteger.endMessage := by
  have hbefore := reads_agree (r := beforePartOfInteger) ⟨_, _, rfl⟩
  have hbehind := reads_agree (r := beforePartOfInteger.endMessage)
    ⟨{ initialCapacity := 16 }, [.feed [0xcd, 1], .endMessage], rfl⟩
  obtain ⟨m, hm, _, hagree⟩ := hbefore.2.2.2.1 0xcd [1] rfl rfl (by decide)
  obtain rfl : m = .uint .w16 := (Option.some.inj hm).symm
  refine ⟨hagree.next_eq, hagree.readFamily_of_ne .bin (by decide), hagree.readFamily_family, ?_,
    (hbehind.1 rfl).2⟩
  rfl

end Reader
end MessagePack
