import MessagePack.DecodeError
import MessagePack.Marker
/-
  Replies: what a call on a buffer, a reader or a walk leaves behind. A reply holds the outcome, the state
  after the call and the events that the call reported, also when the call failed, so that nothing about a
  failed call is left open.

  A call fails in one of two ways. A fault lies in the input or in a resource, and the caller is expected to
  handle it. A violation is a misuse of the calls, such as reading on after the end of a message.
-/
namespace MessagePack

/-- The calls that take a token: one of a known family, or whatever comes. -/
inductive ReadCall where
  | family (f : Family)
  | any
  deriving DecidableEq, Repr

/-- The name that messages give to a reading call. -/
def ReadCall.name : ReadCall → String
  | family .nil => "read_nil"
  | family .bool => "read_bool"
  | family .int => "read_int"
  | family .float => "read_float"
  | family .bin => "read_bin"
  | any => "read_value"

inductive Violation where
  /-- More bytes committed than were reserved. -/
  | overcommitted (written reserved : Nat)
  /-- A message dropped before it was ended. -/
  | unfinishedMessage
  /-- A token asked for after the end of the message. -/
  | readAfterEnd (call : ReadCall)
  /-- A token of another family than the one asked for. -/
  | wrongFamily (call : ReadCall) (marker : Marker)
  /-- A sum of offsets beyond `wordMax`. -/
  | offsetOverflow
  /-- A walk that finds a message ended which it should have dropped. -/
  | endedMessageLeft
  /-- Room asked for that no string of bytes can have. -/
  | capacityOverflow
  deriving DecidableEq, Repr

def Violation.message : Violation → String
  | overcommitted written reserved => s!"commit of {written} bytes exceeds the {reserved} reserved"
  | unfinishedMessage => "compact_for_next_message called before the message was complete"
  | readAfterEnd call => s!"{call.name} called after end_message"
  | wrongFamily call marker =>
    s!"{call.name} called on a {marker.name} token; observe the tag with next() first"
  | offsetOverflow => "attempt to add with overflow"
  | endedMessageLeft =>
    "internal error: entered unreachable code: messages are compacted as soon as they end"
  | capacityOverflow => "capacity overflow"

inductive Failure where
  | fault (error : DecodeError)
  | violation (v : Violation)
  deriving DecidableEq, Repr

def Failure.message : Failure → String
  | fault e => e.message
  | violation v => v.message

/-- The same failure with the offset of a fault counted from a point `base` bytes earlier. -/
def Failure.shift (base : Nat) : Failure → Failure
  | fault e => fault (e.shift base)
  | violation v => violation v

/-- What is reported while bytes are buffered and decoded. -/
inductive Event where
  | grew (old new : Nat)
  /-- A finished message was dropped and the bytes behind it moved to the front. -/
  | compacted (consumed leftover : Nat)
  | released (capacity : Nat)
  | rejected (offset : Nat) (error : DecodeError)
  | discarded (dropped position : Nat)
  | messageClosed (messages consumed base : Nat)
  | inputCutOff (offset buffered : Nat)
  deriving DecidableEq, Repr

/-- An event as a line of the log: its level, where it comes from, and its fields. -/
def Event.line : Event → String
  | grew old new => s!"TRACE mpk_decoder::arena: grew scratch arena from={old} to={new}"
  | compacted consumed leftover =>
    s!"TRACE mpk_decoder::arena: compacted scratch arena for next message consumed={consumed} leftover={leftover}"
  | released capacity => s!"TRACE mpk_decoder::arena: released scratch arena capacity={capacity}"
  | rejected offset error =>
    s!"DEBUG mpk_decoder::reader: rejecting malformed token offset={offset} error={error.message}"
  | discarded dropped position =>
    s!"DEBUG mpk_decoder::reader: discarding buffered message dropped={dropped} at={position}"
  | messageClosed messages consumed base =>
    s!"DEBUG mpk::walk: message closed messages={messages} consumed={consumed} base={base}"
  | inputCutOff offset buffered =>
    s!"DEBUG mpk::walk: input ended inside a token offset={offset} buffered={buffered}"

/-- The outcome of a call, the state after it, and what it reported. -/
structure Reply (σ α : Type) where
  outcome : Except Failure α
  state : σ
  events : List Event

namespace Reply

variable {σ τ α β : Type}

/-- A call that succeeds in silence. -/
def done (a : α) (s : σ) : Reply σ α := ⟨.ok a, s, []⟩

/-- A call that fails in silence and leaves the state as it is. -/
def fail (f : Failure) (s : σ) : Reply σ α := ⟨.error f, s, []⟩

/-- Goes on after success; after a failure nothing more is done. -/
@[inline] def andThen (r : Reply σ α) (next : α → σ → Reply σ β) : Reply σ β :=
  match r.outcome with
  | .error f => ⟨.error f, r.state, r.events⟩
  | .ok a =>
    let r' := next a r.state
    ⟨r'.outcome, r'.state, r.events ++ r'.events⟩

/-- The same reply seen from a state that contains the first one. -/
@[inline] def within (r : Reply σ α) (embed : σ → τ) : Reply τ α :=
  ⟨r.outcome, embed r.state, r.events⟩

/-- The same reply with another answer. -/
@[inline] def mapOutcome (r : Reply σ α) (f : α → β) : Reply σ β :=
  ⟨r.outcome.map f, r.state, r.events⟩

@[simp] theorem outcome_done (a : α) (s : σ) : (done a s).outcome = .ok a := rfl
@[simp] theorem state_done (a : α) (s : σ) : (done a s).state = s := rfl
@[simp] theorem events_done (a : α) (s : σ) : (done a s).events = [] := rfl
@[simp] theorem outcome_fail (f : Failure) (s : σ) : (fail f s : Reply σ α).outcome = .error f := rfl
@[simp] theorem state_fail (f : Failure) (s : σ) : (fail f s : Reply σ α).state = s := rfl
@[simp] theorem events_fail (f : Failure) (s : σ) : (fail f s : Reply σ α).events = [] := rfl
@[simp] theorem outcome_within (r : Reply σ α) (embed : σ → τ) :
    (r.within embed).outcome = r.outcome := rfl
@[simp] theorem state_within (r : Reply σ α) (embed : σ → τ) :
    (r.within embed).state = embed r.state := rfl
@[simp] theorem events_within (r : Reply σ α) (embed : σ → τ) :
    (r.within embed).events = r.events := rfl

theorem outcome_andThen_of_error {r : Reply σ α} {f : Failure} (h : r.outcome = .error f)
    (next : α → σ → Reply σ β) : r.andThen next = ⟨.error f, r.state, r.events⟩ := by
  simp only [andThen, h]

theorem outcome_andThen_of_ok {r : Reply σ α} {a : α} (h : r.outcome = .ok a)
    (next : α → σ → Reply σ β) :
    r.andThen next =
      ⟨(next a r.state).outcome, (next a r.state).state, r.events ++ (next a r.state).events⟩ := by
  simp only [andThen, h]

end Reply
end MessagePack
