import BlockArchive.Session
import BlockArchive.Store.Reading

/-!
# Gaps

Which heights of a chain still have to be seen to. A height counts as indexed by a pipeline when a
block is stored at it with the flag of the pipeline and with a time that is known; a placeholder
counts as nothing.

## Main definitions

- `BlockRow.IsIndexed`: the block counts for a pipeline
- `Store.highestIndexed`: the highest block of a chain that counts
- `gapScanRange`: the heights that are looked through for one that is missing
- `firstMissing`: the least of them at which no block counts
- `Store.blocksFrom`: the dated blocks of a chain from a height on

## Design notes

The heights that are looked through reach past the highest indexed one, so the search cannot end for
want of range while a height below it is missing. Heights are words of 64 bits, and none lies above
the greatest of them.
-/

namespace BlockArchive

namespace BlockRow

/-- The flag of a pipeline. -/
def flag (row : BlockRow) : Pipeline → Bool
  | .txs => row.txIndexed
  | .events => row.eventsIndexed

/-- The block counts as seen to by a pipeline. -/
def IsIndexed (row : BlockRow) (pipeline : Pipeline) : Prop :=
  row.flag pipeline = true ∧ row.IsDated

instance (row : BlockRow) (pipeline : Pipeline) : Decidable (row.IsIndexed pipeline) :=
  inferInstanceAs (Decidable (_ ∧ _))

end BlockRow

/-- The next height, or the height itself where there is none. -/
def nextHeight (height : Int64) : Int64 :=
  if height = Int64.maxValue then height else height + 1

/-- The heights from `start` to `stop`, stretched to the one after the highest indexed. -/
def gapScanRange (start stop : Int64) (highest : Option Int64) : Int64 × Int64 :=
  match highest with
  | some height => if stop < nextHeight height then (start, nextHeight height) else (start, stop)
  | none => (start, stop)

/-- The first of `count` heights from `height` on that is not indexed. -/
def firstUnindexed? (indexed : Int64 → Bool) (height : Int64) : Nat → Option Int64
  | 0 => none
  | count + 1 =>
    if indexed height then firstUnindexed? indexed (height + 1) count else some height

namespace Store

/-- A block of the chain counts for a pipeline at a height. -/
def IndexedAt (s : Store) (pipeline : Pipeline) (chain : Id) (height : Int64) : Prop :=
  ∃ entry ∈ s.blocks.entries,
    entry.row.chain = chain ∧ entry.row.height = height ∧ entry.row.IsIndexed pipeline

instance (s : Store) (pipeline : Pipeline) (chain : Id) (height : Int64) :
    Decidable (s.IndexedAt pipeline chain height) :=
  inferInstanceAs (Decidable (∃ _ ∈ _, _))

/-- The highest row of a chain that counts for a pipeline. -/
def highestIndexed? (s : Store) (pipeline : Pipeline) (chain : Id) : Option (Entry BlockRow) :=
  (s.blocks.entries.filter fun entry =>
    entry.row.chain = chain ∧ entry.row.IsIndexed pipeline).maxOn? fun entry => entry.row.height

/-- The highest block of a chain that counts for a pipeline, as it is read back. -/
def highestIndexed (s : Store) (pipeline : Pipeline) (chain : Id) :
    Except Failure (Option (Entry BlockRow)) :=
  TableName.blocks.readOption (s.highestIndexed? pipeline chain)

/-- The least height from `start` to `stop` at which no transactions are indexed. -/
def firstMissing? (s : Store) (chain : Id) (start stop : Int64) : Option Int64 :=
  firstUnindexed? (fun height => s.IndexedAt .txs chain height) start
    (stop.toInt + 1 - start.toInt).toNat

/-- The dated rows of a chain from `start` on, up to `stop` if there is an end, in ascending order
of the heights. -/
def datedBlocks (s : Store) (chain : Id) (start : Int64) (stop : Option Int64) :
    List (Entry BlockRow) :=
  (s.blocks.entries.filter fun entry =>
    entry.row.chain = chain ∧ start ≤ entry.row.height ∧ entry.row.IsDated ∧
      stop.all fun bound => entry.row.height ≤ bound).mergeSort
    fun a b => a.row.height ≤ b.row.height

/-- The dated blocks of a chain from `start` on, up to `stop` if there is an end, as they are read
back in ascending order of the heights. -/
def blocksFrom (s : Store) (chain : Id) (start : Int64) (stop : Option Int64) :
    Except Failure (List (Entry BlockRow)) :=
  TableName.blocks.readAll (s.datedBlocks chain start stop)

end Store

/-- The least height of the stretched range at which no transactions are indexed, or the start of
the range if there is none. -/
def firstMissing (chain : Id) (start stop : Int64) : WriteM Int64 := do
  let store := (← get).store
  let highest ← WriteM.ofExcept (store.highestIndexed .txs chain)
  let range := gapScanRange start stop (highest.map fun entry => entry.row.height)
  match store.firstMissing? chain range.1 range.2 with
  | some height => return height
  | none =>
    WriteM.log (.nothingMissing chain range.1 range.2)
    return range.1

end BlockArchive
