import MessagePack.Chunks
import MessagePack.Reader
/-
  Decoding a byte string that arrives in pieces: tokens are read until one is not all there, then the next
  piece is fed, until there is no further piece.

  What is proved:
    1. `remaining_lt_of_readValue`, and the count of pieces: every round takes a token or uses up a piece, so
       the decoding comes to an end.
-/
namespace MessagePack

/-- What a decoding found: the values, and how many bytes were left that make no whole token. -/
structure Decoded where
  values : List (Value Bytes)
  leftover : Nat
  deriving DecidableEq, Repr

/-- A decoding that is over, with the work that it took. -/
structure Decoding where
  outcome : Except Failure Decoded
  /-- How many times a token was asked for. -/
  reads : Nat
  /-- How many pieces were fed. -/
  feeds : Nat

/-- A reader with so little storage that it has to grow early. So little is never refused. -/
def Reader.small : Reader := (Reader.create { initialCapacity := 16 }).state

theorem Reader.remaining_lt_of_readValue {r r' : Reader} {v : Value View} {n : Nat}
    {es : List Event} (h : r.readValue = ⟨.ok (.decoded v n), r', es⟩) :
    r'.arena.remaining < r.arena.remaining := by
  have := Reader.remaining_readValue_lt (r := r) (v := v) (n := n) (by rw [h])
  rwa [h] at this

namespace Decoding

/-- Decodes what is in the reader and in the pieces, after some values, reads and feeds. The values so far
come in reverse. -/
def continueFrom (r : Reader) (pieces : List Bytes) (values : List (Value Bytes))
    (reads feeds : Nat) : Decoding :=
  match h : r.readValue with
  | ⟨.error f, _, _⟩ => ⟨.error f, reads + 1, feeds⟩
  | ⟨.ok (.decoded v _), r', _⟩ =>
    match r'.resolve v with
    | .error e => ⟨.error (.fault e), reads + 1, feeds⟩
    | .ok value =>
      have := Reader.remaining_lt_of_readValue h
      continueFrom r' pieces (value :: values) (reads + 1) feeds
  | ⟨.ok .needMoreData, r', _⟩ =>
    match pieces with
    | [] => ⟨.ok ⟨values.reverse, r'.arena.remaining⟩, reads + 1, feeds⟩
    | piece :: pieces =>
      match r'.feed piece with
      | ⟨.error f, _, _⟩ => ⟨.error f, reads + 1, feeds + 1⟩
      | ⟨.ok (), r', _⟩ => continueFrom r' pieces values (reads + 1) (feeds + 1)
termination_by (pieces.length, r.arena.remaining)

/-- Decodes a byte string in the given pieces. -/
def ofPieces (pieces : List Bytes) : Decoding := continueFrom .small pieces [] 0 0

/-- Decodes a byte string cut at the given positions. -/
def withCuts (bytes : Bytes) (cuts : List Nat) : Decoding := ofPieces (split bytes cuts)

/-- Decodes a byte string in pieces of one length. A length of zero counts as one. -/
def inChunks (bytes : Bytes) (length : Nat) : Decoding :=
  withCuts bytes (evenCuts (max length 1) bytes.length)

end Decoding
end MessagePack
