import MessagePack.Command.Arguments
import MessagePack.Command.Report
import MessagePack.Item
/-
  Encoding a file: a JSON array becomes the tokens of its elements. The output is only created when all of it
  is known, so a failure leaves what is there as it is.

  What is proved:
    1. `items_of_plan`: a plan is made of the items that the input spells.
-/
namespace MessagePack

/-- What reads the input of an encoding: a reader of documents, and one of the hexadecimal texts in them. -/
structure Decoders where
  items? : String → Option (List Item)
  hex : Bytes → Except Hex.Error Bytes

/-- The readers that commands run with. -/
def Decoders.standard : Decoders := ⟨Item.parseAll?, Hex.decode⟩

namespace Encode

/-- What is going to be written, and for how many values. -/
structure Plan where
  bytes : Bytes
  values : Nat
  deriving DecidableEq, Repr

/-- Why nothing is written. -/
inductive Refusal where
  | notText
  | notItems
  | rejected (r : Item.Rejection)
  deriving DecidableEq, Repr

/-- The wording of a refusal of the input at a path. -/
def Refusal.message (path : String) : Refusal → String
  | notText => Report.cannotRead path "stream did not contain valid UTF-8"
  | notItems => s!"{path} is not a JSON array of values"
  | rejected r => r.message

/-- What the input makes; nothing is written if any of it is refused. -/
def plan (decoders : Decoders) (input : Bytes) : Except Refusal Plan :=
  match String.fromUTF8? input.toByteArray with
  | none => .error .notText
  | some text =>
    match decoders.items? text with
    | none => .error .notItems
    | some items =>
      match Item.encodeAll decoders.hex items with
      | .error r => .error (.rejected r)
      | .ok bytes => .ok ⟨bytes, items.length⟩

/-- A plan is made of the items that the input spells. -/
theorem items_of_plan {decoders : Decoders} {input : Bytes} {p : Plan} (h : plan decoders input = .ok p) :
    ∃ text items, String.fromUTF8? input.toByteArray = some text ∧ decoders.items? text = some items ∧
      Item.encodeAll decoders.hex items = .ok p.bytes ∧ p.values = items.length := by
  unfold plan at h
  split at h
  · cases h
  next text htext =>
    split at h
    · cases h
    next items hitems =>
      split at h
      · cases h
      next bytes hbytes =>
        cases h
        exact ⟨text, items, htext, hitems, hbytes, rfl⟩

/-- The report on a plan that was carried out. -/
def written (o : Arguments.EncodeOptions) (p : Plan) : Report :=
  let s := Report.plural p.values
  ⟨[s!"Wrote {p.bytes.length} bytes ({p.values} value{s}) to {o.output}"], none⟩

/-- The report on an output that could not be created. -/
def cannotCreate (o : Arguments.EncodeOptions) (e : FileError) : Report :=
  .failed s!"cannot create {o.output}: {e.message}"

end Encode
end MessagePack
