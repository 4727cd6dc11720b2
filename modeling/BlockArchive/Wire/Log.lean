import BlockArchive.Json.Basic
import BlockArchive.Log

/-!
# Written log records

A record is written as its level, what it says and its fields.

## Main definitions

- `LogEvent.fields`: the fields of a record by name
- `LogEvent.toJson`: a record
-/

namespace BlockArchive

/-- The level as it is written. -/
def LogLevel.label : LogLevel → String
  | debug => "DEBUG"
  | info => "INFO"
  | warn => "WARN"
  | error => "ERROR"

namespace LogEvent

/-- The fields that name a block. -/
def blockFields (block : Block) : List (String × Json) :=
  [("blockchain_id", .ofInt64 block.blockchainId), ("height", .ofInt64 block.height)]

/-- The fields of the record by name. -/
def fields : LogEvent → List (String × Json)
  | placeholder height => [("height", .ofInt64 height)]
  | repeatedHashes txs unique => [("txs", .ofNat txs), ("unique_txs", .ofNat unique)]
  | droppedFees fees height => [("fees", .ofNat fees), ("height", .ofInt64 height)]
  | upsertedAddresses addresses height =>
    [("addresses", .ofNat addresses), ("height", .ofInt64 height)]
  | upsertedTxes txes height => [("txes", .ofNat txes), ("height", .ofInt64 height)]
  | upsertedMessages messages => [("messages", .ofNat messages)]
  | upsertedEvents events => [("message_events", .ofNat events)]
  | upsertedAttributes attributes => [("message_event_attributes", .ofNat attributes)]
  | persisted block txes => blockFields block ++ [("txes", .ofNat txes)]
  | markedEvents block => blockFields block
  | failedStage stage block cause =>
    ("stage", .str stage.label) :: blockFields block ++ [("error", .str cause.message)]
  | markedFailed _ chain height => [("blockchain_id", .int chain), ("height", .ofInt64 height)]
  | failedChain chainId cause => [("chain_id", .str chainId), ("error", .str cause.message)]
  | nothingMissing chain start stop =>
    [("blockchain_id", .int chain), ("start", .ofInt64 start), ("end", .ofInt64 stop)]
  | upsertedDenoms denoms => [("denoms", .ofNat denoms)]
  | upsertedIbcDenoms denoms => [("ibc_denoms", .ofNat denoms)]
  | ready poolSize chain =>
    [("pool_size", .ofNat poolSize.toNat),
      ("blockchain_id", .str (match chain with
        | some id => "Some(" ++ toString id ++ ")"
        | none => "None"))]

/-- The record as it is written. -/
def toJson (event : LogEvent) : Json :=
  .arr [.str event.level.label, .str event.message, .obj event.fields]

end LogEvent

end BlockArchive
