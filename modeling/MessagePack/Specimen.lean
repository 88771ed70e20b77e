import MessagePack.Writer
/-
  A specimen: a message with a token of every kind and of many widths.
-/
namespace MessagePack

def specimenEntries : List Entry :=
  [ .nil, .bool true, .integer 7, .integer (-5), .integer 200, .integer (-1000), .integer 70000
  , .integer (-3000000000), .float32 ⟨0x3FC00000⟩, .float64 ⟨0xBFD0000000000000⟩
  , .blob "sensor-42".toUTF8.data.toList, .blob (List.replicate 300 0xAB) ]

/-- The writer after the given entries; an entry that is refused adds nothing. -/
def Writer.ofEntries (entries : List Entry) : Writer :=
  entries.foldl (fun w entry => (w.put entry).2) .empty

def specimen : Bytes := (Writer.ofEntries specimenEntries).bytes

end MessagePack
