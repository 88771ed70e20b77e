import MessagePack.ChunkedDecoding
import MessagePack.Proofs.Calls
import MessagePack.Proofs.Tokenisation
/-
  Reading on until no token comes. A reader that is drained gives the tokens of its unread bytes, and stops
  where and why their tokenisation stops.

  What is proved:
    1. `drains`: the readings, the last answer and the reader at the end, all from the tokenisation.
-/
namespace MessagePack

/-- A reading whose blob has been resolved. -/
def Reading.resolved (k : Reading (Value Bytes)) : Reading (Except DecodeError (Value Bytes)) :=
  ⟨.ok k.value, k.consumed⟩

/-- The answer of the reading call that takes no token. -/
def Tokenisation.ending (t : Tokenisation) : Except Failure (Progress (Value View)) :=
  match t.refusal with
  | some e => .error (.fault e)
  | none => .ok .needMoreData

theorem consumedBy_resolved (tokens : List (Reading (Value Bytes))) :
    consumedBy (tokens.map Reading.resolved) = consumedBy tokens := by
  induction tokens with
  | nil => rfl
  | cons k tokens ih => exact congrArg (k.consumed + ·) ih

/-- A reader read until no token came. -/
structure Drained where
  /-- What was read, each blob resolved right after its token was taken. -/
  readings : List (Reading (Except DecodeError (Value Bytes)))
  /-- The last answer, which took no token. -/
  ending : Except Failure (Progress (Value View))
  reader : Reader

/-- What was drained, with one more reading before it. -/
def Drained.behind (d : Drained) (reading : Reading (Except DecodeError (Value Bytes))) : Drained :=
  { d with readings := reading :: d.readings }

namespace Reader

/-- Takes whatever comes until no token comes. -/
def drain (r : Reader) : Drained :=
  match h : r.readValue with
  | ⟨.ok (.decoded v n), r', _⟩ =>
    have := remaining_lt_of_readValue h
    r'.drain.behind ⟨r'.resolve v, n⟩
  | ⟨ending, r', _⟩ => ⟨[], ending, r'⟩
termination_by r.arena.remaining

/-! ## One read -/

theorem drain_of_decoded {r r' : Reader} {v : Value View} {n : Nat} {es : List Event}
    (h : r.readValue = ⟨.ok (.decoded v n), r', es⟩) :
    r.drain = r'.drain.behind ⟨r'.resolve v, n⟩ := by
  rw [drain]
  split <;> simp_all

theorem drain_of_error {r : Reader} {f : Failure} {es : List Event}
    (h : r.readValue = ⟨.error f, r, es⟩) : r.drain = ⟨[], .error f, r⟩ := by
  rw [drain]
  split <;> simp_all

theorem drain_of_needMoreData {r : Reader} {es : List Event}
    (h : r.readValue = ⟨.ok .needMoreData, r, es⟩) : r.drain = ⟨[], .ok .needMoreData, r⟩ := by
  rw [drain]
  split <;> simp_all

/-! ## The whole -/

/-- The tokens that a reader has before it. -/
def tokenisation (r : Reader) : Tokenisation :=
  tokenise r.config.maxBlobLength r.cursor r.arena.unread

theorem unread_consumed {r : Reader} (h : r.arena.WellFormed) {n : Nat} (hn : n ≤ r.arena.remaining) :
    (r.arena.consume n).unread = r.arena.unread.drop n := by
  have hsplit := Arena.unread_consume h hn
  have hlen : (r.arena.slice r.arena.readCursor (r.arena.readCursor + n)).length = n := by
    have hused := h.usedEnd_le
    unfold Arena.remaining at hn
    have hcursor := h.cursor_le
    rw [Arena.length_slice]
    omega
  rw [hsplit, List.drop_left' hlen]

/-- After a token was taken, the others are still before the reader. -/
theorem tokenisation_of_front {r : Reader} (h : r.arena.WellFormed) {v : Value Extent} {n : Nat}
    (hfront : r.front = .ok (.complete v n)) :
    r.tokenisation = (r.withArena (r.arena.consume n)).tokenisation.behind
      [⟨v.map (·.within r.arena.unread), n⟩] := by
  have hn := (le_remaining_of_front h hfront).2
  have hnext : (r.withArena (r.arena.consume n)).tokenisation
      = tokenise r.config.maxBlobLength (r.cursor + n) (r.arena.unread.drop n) := by
    rw [← unread_consumed h hn]
    rfl
  rw [hnext]
  exact tokenise_of_complete hfront

/-- What draining a reader has to give. -/
structure Drains (r : Reader) (t : Tokenisation) (d : Drained) : Prop where
  readings_eq : d.readings = t.tokens.map Reading.resolved
  ending_eq : d.ending = t.ending
  reader_eq : d.reader = r.withArena (r.arena.consume (consumedBy t.tokens))

theorem drains (r : Reader) (h : r.arena.WellFormed) (hopen : r.arena.messageComplete = false) :
    Drains r r.tokenisation r.drain := by
  have hfinding := finding h hopen
  generalize hread : r.readValue = reply at hfinding
  cases hfinding with
  | refused e hfront =>
    have ht : r.tokenisation = ⟨[], r.arena.unread, some e⟩ := tokenise_of_error hfront
    rw [ht, drain_of_error hread]
    exact ⟨rfl, rfl, rfl⟩
  | lacking hfront =>
    have ht : r.tokenisation = ⟨[], r.arena.unread, none⟩ := tokenise_of_incomplete hfront
    rw [ht, drain_of_needMoreData hread]
    exact ⟨rfl, rfl, rfl⟩
  | found v n hfront =>
    have hn := (le_remaining_of_front h hfront).2
    have hwf : (r.withArena (r.arena.consume n)).arena.WellFormed := Arena.wellFormed_consume h hn
    have hless : (r.withArena (r.arena.consume n)).arena.remaining < r.arena.remaining :=
      remaining_lt_of_readValue hread
    -- The recursion is the one of `drain`: behind the token fewer bytes are unread.
    obtain ⟨hreadings, hending, hreader⟩ := drains (r.withArena (r.arena.consume n)) hwf hopen
    rw [tokenisation_of_front h hfront, drain_of_decoded hread, resolve_settled h hfront]
    generalize (r.withArena (r.arena.consume n)).tokenisation = t at *
    refine ⟨?_, hending, ?_⟩
    · show _ :: (r.withArena (r.arena.consume n)).drain.readings = _
      rw [hreadings]
      rfl
    · have hsum : consumedBy (t.behind [⟨v.map (·.within r.arena.unread), n⟩]).tokens
          = n + consumedBy t.tokens := by
        rw [Tokenisation.consumedBy_behind, consumedBy_single]
      show (r.withArena (r.arena.consume n)).drain.reader = _
      rw [hreader, hsum]
      simp only [withArena, Arena.consume, Nat.add_assoc]
termination_by r.arena.remaining

end Reader
end MessagePack
