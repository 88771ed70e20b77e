import MessagePack.Chunks
import MessagePack.Text.Hex
/-
  Hex dumps: a byte string in rows of sixteen bytes. A row shows the offset of its first byte, the bytes in
  hexadecimal, and the bytes as characters where they can be seen.
-/
namespace MessagePack
namespace HexDump

def rowLength : Nat := 16

def columnWidth : Nat := 48

/-- Whether a byte is the code of a visible ASCII character. -/
def isGraphic (b : UInt8) : Bool := 0x21 ≤ b && b ≤ 0x7E

/-- A byte as a character; a point stands for one that cannot be seen. -/
def visible (b : UInt8) : Char := if isGraphic b then Char.ofNat b.toNat else '.'

/-- The three columns of the row that starts at `offset`. -/
def row (offset : Nat) (bytes : Bytes) : List Char :=
  List.replicate 12 ' ' ++ Hex.number 4 offset
    ++ ' ' :: ' ' :: (Hex.spaced bytes).rightpad columnWidth ' '
    ++ ' ' :: ' ' :: bytes.map visible

/-- The rows of a byte string; none for an empty one. -/
def rows (data : Bytes) : List (List Char) :=
  (chunksOf rowLength (by decide) data).zipIdx.map fun (bytes, i) => row (rowLength * i) bytes

end HexDump
end MessagePack
