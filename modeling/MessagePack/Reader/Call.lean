import MessagePack.Reader
/-
  Calls: everything that can be asked of a reader, as values, so that a history of a reader is a list. Bytes
  that are written into a reserved region from outside belong to the call that reserves it.

  What is proved:
    1. `after_append`: a history in two parts is the second part after the first.
-/
namespace MessagePack
namespace Reader

/-- A call on a reader. -/
inductive Call where
  | feed (bytes : Bytes)
  /-- Reserves `n` bytes and, if that is granted, writes `bytes` into the front of them. -/
  | reserve (n : Nat) (bytes : Bytes)
  | commit (written : Nat)
  | next
  | read (call : ReadCall)
  | endMessage
  | compact
  | discard
  deriving DecidableEq, Repr

/-- What a call that succeeds answers. -/
inductive Answer where
  | done
  /-- What the reserved region showed when it was handed out. -/
  | region (bytes : Bytes)
  | upcoming (u : Upcoming)
  | progress (p : Progress (Value View))
  deriving DecidableEq, Repr

/-- Takes a token of a known family, or whatever comes. -/
def read (r : Reader) : ReadCall → Reply Reader (Progress (Value View))
  | .family f => r.readFamily f
  | .any => r.readValue

/-- Carries out a call. -/
def perform (r : Reader) : Call → Reply Reader Answer
  | .feed bytes => (r.feed bytes).mapOutcome fun _ => .done
  | .reserve n bytes => (r.reserve n).andThen fun _ r => .done (.region r.arena.region) (r.fill bytes)
  | .commit written => (r.commit written).mapOutcome fun _ => .done
  | .next => r.next.mapOutcome .upcoming
  | .read call => (r.read call).mapOutcome .progress
  | .endMessage => .done .done r.endMessage
  | .compact => r.compact.mapOutcome fun _ => .done
  | .discard => r.discard.mapOutcome fun _ => .done

/-- The reader after a history. Calls that fail are part of it. -/
def after (r : Reader) (history : List Call) : Reader :=
  history.foldl (fun r call => (r.perform call).state) r

theorem after_append (r : Reader) (first second : List Call) :
    r.after (first ++ second) = (r.after first).after second := by
  simp [after]

end Reader
end MessagePack
