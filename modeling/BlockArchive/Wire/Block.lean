import BlockArchive.Block
import BlockArchive.Time.Notation
import BlockArchive.Wire.Record

/-!
# Written blocks

## Main definitions

- `Instant.ofJson?`, `Instant.toJson`: a time, which is a text
- `Block.ofJson?`, `Block.toJson`: a block
-/

namespace BlockArchive

namespace Instant

/-- The instant that the document stands for. -/
def ofJson? (j : Json) : Option Instant :=
  j.str?.bind read?

/-- The instant as it is written. -/
def toJson (t : Instant) : Json :=
  .str t.text

end Instant

namespace Block

/-- The block that the document stands for. -/
def ofJson? (j : Json) : Option Block := do
  let record ← Record.ofJson? 3 j
  return {
    blockchainId := ← record.required ⟨0, "blockchain_id"⟩ Json.int64?
    height := ← record.required ⟨1, "height"⟩ Json.int64?
    time := ← record.required ⟨2, "time_stamp"⟩ Instant.ofJson? }

/-- The block as it is written. -/
def toJson (block : Block) : Json :=
  .obj [("blockchain_id", .ofInt64 block.blockchainId), ("height", .ofInt64 block.height),
    ("time_stamp", block.time.toJson)]

end Block

end BlockArchive
