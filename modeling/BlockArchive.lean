import BlockArchive.Block
import BlockArchive.Chain
import BlockArchive.Config
import BlockArchive.Denom
import BlockArchive.Failure
import BlockArchive.Gap
import BlockArchive.Json.Basic
import BlockArchive.Json.Reader
import BlockArchive.Json.Writer
import BlockArchive.Log
import BlockArchive.Lookup
import BlockArchive.Marker
import BlockArchive.Persist.Block
import BlockArchive.Persist.Placement
import BlockArchive.Persist.Rows
import BlockArchive.Reference.Data
import BlockArchive.Reference.Kind
import BlockArchive.Reference.Resolved
import BlockArchive.Registry
import BlockArchive.Removal
import BlockArchive.Schema.Basic
import BlockArchive.Schema.Row
import BlockArchive.Schema.Statement
import BlockArchive.Session
import BlockArchive.Setup
import BlockArchive.Step
import BlockArchive.Store.Basic
import BlockArchive.Store.Cut
import BlockArchive.Store.Reading
import BlockArchive.Store.Statement
import BlockArchive.Store.Table
import BlockArchive.Text.Blank
import BlockArchive.Text.Numeral
import BlockArchive.Time.Calendar
import BlockArchive.Time.Instant
import BlockArchive.Time.Notation
import BlockArchive.Time.Timestamp
import BlockArchive.Tx.Basic
import BlockArchive.Tx.Unique
import BlockArchive.Wire.Block
import BlockArchive.Wire.Config
import BlockArchive.Wire.Log
import BlockArchive.Wire.Record
import BlockArchive.Wire.Reference
import BlockArchive.Wire.Registry
import BlockArchive.Wire.Store
import BlockArchive.Wire.Tx
import BlockArchive.Proofs.Store.Batch
import BlockArchive.Proofs.Store.Cut
import BlockArchive.Proofs.Store.Sound
import BlockArchive.Proofs.Reachable
import BlockArchive.Proofs.Integrity
import BlockArchive.Proofs.Frame
import BlockArchive.Proofs.Changes
import BlockArchive.Proofs.Denoms
import BlockArchive.Proofs.Effects
import BlockArchive.Proofs.GeneratedIds
import BlockArchive.Proofs.Batches
import BlockArchive.Proofs.Ordered
import BlockArchive.Proofs.DenomUnits
import BlockArchive.Proofs.Unseen
import BlockArchive.Proofs.AnyOrder
import BlockArchive.Proofs.Renaming
import BlockArchive.Proofs.Splitting
import BlockArchive.Proofs.Gap
import BlockArchive.Proofs.Progress
import BlockArchive.Proofs.Crawl
import BlockArchive.Proofs.Isolation
import BlockArchive.Proofs.Subtree
import BlockArchive.Proofs.Marking
import BlockArchive.Proofs.Overlay
import BlockArchive.Proofs.Persist.Below
import BlockArchive.Proofs.Persist.Refinement
import BlockArchive.Proofs.Persist.Repeat
import BlockArchive.Proofs.Persist.Unrelated
import BlockArchive.Proofs.Persist.Reordering
import BlockArchive.Proofs.Persist.Made
import BlockArchive.Proofs.Persist.Flattening
import BlockArchive.Proofs.Persist.Log
import BlockArchive.Proofs.RegisteredTexts
import BlockArchive.Proofs.History.Identity
import BlockArchive.Proofs.History.Block
import BlockArchive.Proofs.History.Marker
import BlockArchive.Proofs.History.Reference
import BlockArchive.Proofs.History.Chain
import BlockArchive.Proofs.Placeholder
import BlockArchive.Proofs.Pipelines
import BlockArchive.Proofs.LastCounts
import BlockArchive.Proofs.DatedBlocks
import BlockArchive.Proofs.Text.Numeral
import BlockArchive.Proofs.Time.Calendar
import BlockArchive.Proofs.Time.Notation
import BlockArchive.Proofs.Json.Notation
import BlockArchive.Proofs.Wire.Omission
import BlockArchive.Proofs.Wire.RoundTrip
