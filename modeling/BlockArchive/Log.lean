import BlockArchive.Block
import BlockArchive.Failure

/-!
# Log records

What is told about a step while it is carried out.

## Main definitions

- `Stage`: the parts of a step that stores a block
- `Pipeline`: the two ways in which a height is indexed
- `LogEvent`: one record
- `LogEvent.level`, `LogEvent.message`: how a record is shown
-/

namespace BlockArchive

/-- The parts of a step that stores what is known about a block. -/
inductive Stage where
  /-- The height is no longer to be tried again. -/
  | clearFailedBlock
  | block
  | signerAddresses
  | txes
  /-- The texts that messages, events and attributes share. -/
  | referenceData
  /-- The messages, events and attributes. -/
  | messages
  /-- The events of the height are no longer to be tried again. -/
  | clearFailedEventBlock
  /-- The block whose own events are indexed. -/
  | eventsIndexedBlock
deriving DecidableEq, Repr

/-- What people call the stage. -/
def Stage.label : Stage → String
  | clearFailedBlock => "clear failed block"
  | block => "block"
  | signerAddresses => "signer addresses"
  | txes => "txes"
  | referenceData => "reference data"
  | messages => "messages"
  | clearFailedEventBlock => "clear failed event block"
  | eventsIndexedBlock => "events indexed block"

/-- The two ways in which a height is indexed, each of which may fail by itself. -/
inductive Pipeline where
  | txs
  /-- The events of the block itself. -/
  | events
deriving DecidableEq, Repr

/-- How much a record matters. -/
inductive LogLevel where
  | debug
  | info
  | warn
  | error
deriving DecidableEq, Repr

/-- One record of the log. -/
inductive LogEvent where
  /-- The time of a block is not known. -/
  | placeholder (height : Int64)
  /-- Of `txs` transactions only `unique` have a hash that no later one has. -/
  | repeatedHashes (txs unique : Nat)
  /-- Fees are left out. -/
  | droppedFees (fees : Nat) (height : Int64)
  | upsertedAddresses (addresses : Nat) (height : Int64)
  | upsertedTxes (txes : Nat) (height : Int64)
  | upsertedMessages (messages : Nat)
  | upsertedEvents (events : Nat)
  | upsertedAttributes (attributes : Nat)
  | persisted (block : Block) (txes : Nat)
  /-- The events of a block are known to be indexed. -/
  | markedEvents (block : Block)
  /-- A stage has failed. -/
  | failedStage (stage : Stage) (block : Block) (cause : Failure)
  /-- A height is to be tried again. -/
  | markedFailed (pipeline : Pipeline) (chain : Id) (height : Int64)
  /-- A chain could not be stored. -/
  | failedChain (chainId : String) (cause : Failure)
  /-- No height from `start` to `stop` is missing. -/
  | nothingMissing (chain : Id) (start stop : Int64)
  | upsertedDenoms (denoms : Nat)
  | upsertedIbcDenoms (denoms : Nat)
  /-- The archive is ready for use. -/
  | ready (poolSize : UInt32) (chain : Option Id)
deriving DecidableEq

namespace LogEvent

/-- How much the record matters. -/
def level : LogEvent → LogLevel
  | placeholder .. | upsertedAddresses .. | upsertedTxes .. | upsertedMessages ..
  | upsertedEvents .. | upsertedAttributes .. | nothingMissing .. => .debug
  | persisted .. | markedEvents .. | markedFailed .. | upsertedDenoms .. | upsertedIbcDenoms ..
  | ready .. => .info
  | repeatedHashes .. | droppedFees .. => .warn
  | failedStage .. | failedChain .. => .error

/-- What the record says. -/
def message : LogEvent → String
  | placeholder .. => "Block has no timestamp, gap scans skip it"
  | repeatedHashes .. => "Decoded block repeats tx hashes, keeping the last of each"
  | droppedFees .. => "Fees are not persisted, dropping them"
  | upsertedAddresses .. => "Upserted signer addresses"
  | upsertedTxes .. => "Upserted txes"
  | upsertedMessages .. => "Upserted messages"
  | upsertedEvents .. => "Upserted message events"
  | upsertedAttributes .. => "Upserted message event attributes"
  | persisted .. => "Persisted block"
  | markedEvents .. => "Marked block events as indexed"
  | failedStage .. => "Failed to persist block"
  | markedFailed .txs .. => "Marked block as failed"
  | markedFailed .events .. => "Marked block events as failed"
  | failedChain .. => "Error getting/creating chain"
  | nothingMissing .. => "No missing block in range"
  | upsertedDenoms .. => "Upserted denoms"
  | upsertedIbcDenoms .. => "Upserted IBC denoms"
  | ready .. => "Cosmindex is set up"

end LogEvent

end BlockArchive
