import BlockArchive.Registry

/-!
# Heights to be tried again

A height at which a pipeline failed is marked, once however often it fails, until that pipeline has
seen to the height. Each pipeline has markers of its own.

## Main definitions

- `Store.markers`: the markers of a pipeline
- `addMarker`, `clearMarker`: a marker comes and goes
- `markFailed`: marks a height of a chain, which is registered if it is not yet
- `Store.failedHeights`: the markers of a chain in the order of the heights
-/

namespace BlockArchive

/-- The markers of a pipeline. -/
def Store.markers (s : Store) : Pipeline → Table MarkerRow
  | .txs => s.failedBlocks
  | .events => s.failedEventBlocks

/-- Marks a height, unless it is marked. -/
def addMarker (pipeline : Pipeline) (marker : MarkerRow) : StoreM Unit :=
  match pipeline with
  | .txs => Store.insertAbsent .failedBlocks [marker]
  | .events => Store.insertAbsent .failedEventBlocks [marker]

/-- Takes the mark from a height, if it is marked. -/
def clearMarker (pipeline : Pipeline) (marker : MarkerRow) : StoreM Unit :=
  match pipeline with
  | .txs => Store.delete .failedBlocks fun entry => entry.row = marker
  | .events => Store.delete .failedEventBlocks fun entry => entry.row = marker

/-- Marks a height of a chain as one that a pipeline has to try again. -/
def markFailed (pipeline : Pipeline) (chain : Chain) (height : Int64) : WriteM Unit := do
  let chainId ← WriteM.transaction do
    let chainId ← registerChain chain
    WriteM.query (addMarker pipeline { height, chain := chainId })
    return chainId
  WriteM.log (.markedFailed pipeline chainId height)

/-- The markers of a pipeline on a chain, in ascending order of the heights. -/
def Store.failedHeights (s : Store) (pipeline : Pipeline) (chain : Id) : List (Entry MarkerRow) :=
  ((s.markers pipeline).entries.filter fun entry => entry.row.chain = chain).mergeSort
    fun a b => a.row.height ≤ b.row.height

end BlockArchive
