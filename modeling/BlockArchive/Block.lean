import BlockArchive.Chain
import BlockArchive.Time.Instant

/-!
# Blocks

One height of a chain, as it is handed over to be archived. A block whose time is not known carries
the beginning of the year 1 and is only a placeholder for its height.

## Main definitions

- `Block`: a height of a chain and its time
- `Block.IsPlaceholder`: the block's time is not known
- `Block.onSchedule?`, `Block.placeholder`: blocks of a chain that keeps an even pace
-/

namespace BlockArchive

/-- One height of a chain. -/
structure Block where
  /-- The key under which the chain is stored. -/
  blockchainId : Int64
  height : Int64
  /-- The time that the chain gives to the block. -/
  time : Instant
deriving DecidableEq

namespace Block

/-- The time of the block is not known. -/
def IsPlaceholder (block : Block) : Prop :=
  block.time = Instant.zero

instance (block : Block) : Decidable block.IsPlaceholder :=
  inferInstanceAs (Decidable (_ = _))

/-- The key under which the block's chain is stored. -/
def chain (block : Block) : Id :=
  block.blockchainId.toInt

/-- The block that stands for a height whose time is not known. -/
def placeholder (blockchainId height : Int64) : Block :=
  { blockchainId, height, time := Instant.zero }

/-- Seconds from 1970-01-01T00:00:00Z to height zero of the chain that keeps an even pace. -/
def genesisSeconds : Int := 1700000000

/-- Seconds from one height to the next on the chain that keeps an even pace. -/
def paceSeconds : Int := 6

/-- The block at a height of the chain that keeps an even pace, if its time can be written. -/
def onSchedule? (blockchainId height : Int64) : Option Block :=
  (Instant.ofUnixSeconds? (genesisSeconds + height.toInt * paceSeconds)).map fun time =>
    { blockchainId, height, time }

end Block

end BlockArchive
