import MessagePack.Binary
import MessagePack.Marker
/-
  Values, as tokens denote them. The type of a blob's payload is a parameter: right after decoding it is a
  place in a buffer, and once copied out it is the bytes themselves.
-/
namespace MessagePack

/-- A value whose blobs are described by `β`. -/
inductive Value (β : Type) where
  | nil
  | bool (b : Bool)
  | int (v : Int)
  | float (x : Binary64)
  | bin (payload : β)
  deriving DecidableEq, Repr

namespace Value

variable {β γ : Type}

/-- The same value with its blob described in another way. -/
def map (f : β → γ) : Value β → Value γ
  | nil => nil
  | bool b => bool b
  | int v => int v
  | float x => float x
  | bin p => bin (f p)

def family : Value β → Family
  | nil => .nil
  | bool _ => .bool
  | int _ => .int
  | float _ => .float
  | bin _ => .bin

@[simp] theorem family_map (f : β → γ) (v : Value β) : (v.map f).family = v.family := by
  cases v <;> rfl

end Value
end MessagePack
