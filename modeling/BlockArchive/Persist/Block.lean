import BlockArchive.Marker
import BlockArchive.Persist.Rows
import BlockArchive.Reference.Data
import BlockArchive.Store.Cut
import BlockArchive.Tx.Unique

/-!
# Storing a block

A block is stored with all that lies below it, in the order in which the rows refer to each other:
the block, the addresses of the signers, the transactions, the texts that they share, the messages,
the events and the attributes. Each level is told the ids of the one before. The whole is one
transaction, so a block that cannot be stored leaves nothing behind.

## Main definitions

- `persistBy`: stores a block with its transactions, by statements that a carrier carries out
- `persist`: stores a block with its transactions
- `markEventsIndexed`: stores that the events of a block itself have been indexed

## Design notes

Storing what is stored already changes no row. The two ways in which a height is indexed keep a flag
each, and neither of them touches the flag or the marker of the other.

The rows of a level are one batch, which is cut into as many statements as it needs. The levels
below the transactions are made from maps that hold a row once, and so are the addresses and the
transactions. The texts are taken from maps whose keys need not be the texts, so a text may come
twice, and then it matters whether it does so within one statement.
-/

namespace BlockArchive

/-- The row of a block that one of the pipelines has seen to. -/
def Block.row (block : Block) (pipeline : Pipeline) : BlockRow where
  height := block.height
  chain := block.chain
  time := block.time.toTimestamp
  txIndexed := pipeline = .txs
  eventsIndexed := pipeline = .events

/-- The marker of the block's height. -/
def Block.marker (block : Block) : MarkerRow where
  height := block.height
  chain := block.chain

namespace Persist

/-- Stores the texts that the transactions of a block bring along, in the order of their keys, and
tells the ids of the texts. -/
def storeReferencesBy (carry : Carrier) (data : ReferenceData) : StoreM ResolvedReferences := do
  let messageTypes ← carry.all .messageTypes data.messageTypes.values
  let eventTypes ← carry.all .eventTypes data.eventTypes.values
  let attributeKeys ← carry.all .attributeKeys data.attributeKeys.values
  return .ofEntries messageTypes eventTypes attributeKeys

/-- Stores the addresses of the signers and tells their ids. -/
def storeAddressesBy (carry : Carrier) (data : ReferenceData) :
    StoreM (Std.ExtTreeMap String Id) := do
  let addresses ← carry.all .addresses data.signers.toList
  return Entry.idsBy (fun address => address) addresses

/-- Stores the transactions of a stored block and tells how they are stored. -/
def storeTxesBy (carry : Carrier) (block : Id) (addresses : Std.ExtTreeMap String Id)
    (txs : List Tx) : WriteM (List (Entry TxRow)) := do
  let rows ← WriteM.ofExcept (txRows block addresses txs)
  WriteM.query (carry.all .txes rows)

/-- Stores what lies below the transactions. -/
def storeMessagesBy (carry : Carrier) (txes : Std.ExtTreeMap String Id) (refs : ResolvedReferences)
    (txs : List Tx) : WriteM Unit := do
  let ids : ParentIds := { txes }
  let messages ← WriteM.query (carry.all .messages (← WriteM.ofExcept (messageRows ids refs txs)))
  let ids := { ids with messages := Entry.idsBy MessageRow.slot messages }
  WriteM.log (.upsertedMessages ids.messages.size)
  let events ← WriteM.query (carry.all .events (← WriteM.ofExcept (eventRows ids refs txs)))
  let ids := { ids with events := Entry.idsBy EventRow.slot events }
  WriteM.log (.upsertedEvents ids.events.size)
  let attributes ←
    WriteM.query (carry.all .attributes (← WriteM.ofExcept (attributeRows ids refs txs)))
  WriteM.log (.upsertedAttributes attributes.length)

/-- Writes that the time of the block is not known, if it is not. -/
def noteUnknownTime (block : Block) : WriteM Unit :=
  if block.IsPlaceholder then WriteM.log (.placeholder block.height) else pure ()

/-- Writes that hashes are repeated, if any is. -/
def warnOfRepeatedHashes (txs unique : List Tx) : WriteM Unit :=
  if unique.length ≠ txs.length then
    WriteM.log (.repeatedHashes txs.length unique.length)
  else pure ()

/-- Writes that fees are left out, if there are any. -/
def warnOfDroppedFees (block : Block) (txs : List Tx) : WriteM Unit :=
  let fees := txs.flatMap fun tx => tx.fees
  if fees.isEmpty then pure () else WriteM.log (.droppedFees fees.length block.height)

/-- Stores what lies below a stored block, stage by stage. -/
def storeBelowBy (carry : Carrier) (block : Block) (txs : List Tx) (blockId : Id) :
    WriteM Unit := do
  noteUnknownTime block
  let unique := Tx.uniqueByHash txs
  warnOfRepeatedHashes txs unique
  warnOfDroppedFees block unique
  let data := ReferenceData.collect unique
  let addresses ← WriteM.stage .signerAddresses block (WriteM.query (storeAddressesBy carry data))
  WriteM.log (.upsertedAddresses addresses.size block.height)
  let txes ← WriteM.stage .txes block (storeTxesBy carry blockId addresses unique)
  WriteM.log (.upsertedTxes txes.length block.height)
  let refs ← WriteM.stage .referenceData block (WriteM.query (storeReferencesBy carry data))
  WriteM.stage .messages block (storeMessagesBy carry (Entry.idsBy TxRow.hash txes) refs unique)

/-- Stores a block and all that lies below it, stage by stage. -/
def stagesBy (carry : Carrier) (block : Block) (txs : List Tx) : WriteM Unit := do
  WriteM.stage .clearFailedBlock block (WriteM.query (clearMarker .txs block.marker))
  let blockId ← WriteM.stage .block block (WriteM.query (carry.one .blocks (block.row .txs)))
  storeBelowBy carry block txs blockId

end Persist

/-- Stores a block with its transactions. Of transactions with one hash the last is stored; fees are
not stored. -/
def persistBy (carry : Carrier) (block : Block) (txs : List Tx) : WriteM Unit := do
  WriteM.transaction (Persist.stagesBy carry block txs)
  WriteM.log (.persisted block txs.length)

/-! ## By the statements of the store -/

namespace Persist

/-- Stores the texts that the transactions of a block bring along, and tells their ids. -/
def storeReferences : ReferenceData → StoreM ResolvedReferences :=
  storeReferencesBy Store.upsert

/-- Stores the addresses of the signers and tells their ids. -/
def storeAddresses : ReferenceData → StoreM (Std.ExtTreeMap String Id) :=
  storeAddressesBy Store.upsert

/-- Stores the transactions of a stored block and tells how they are stored. -/
def storeTxes : Id → Std.ExtTreeMap String Id → List Tx → WriteM (List (Entry TxRow)) :=
  storeTxesBy Store.upsert

/-- Stores what lies below the transactions. -/
def storeMessages : Std.ExtTreeMap String Id → ResolvedReferences → List Tx → WriteM Unit :=
  storeMessagesBy Store.upsert

/-- Stores what lies below a stored block, stage by stage. -/
def storeBelow : Block → List Tx → Id → WriteM Unit :=
  storeBelowBy Store.upsert

/-- Stores a block and all that lies below it, stage by stage. -/
def stages : Block → List Tx → WriteM Unit :=
  stagesBy Store.upsert

end Persist

/-- Stores a block with its transactions. -/
def persist : Block → List Tx → WriteM Unit :=
  persistBy Store.upsert

/-- Stores that the events of a block itself have been indexed. -/
def markEventsIndexed (block : Block) : WriteM Unit := do
  WriteM.transaction do
    WriteM.stage .clearFailedEventBlock block (WriteM.query (clearMarker .events block.marker))
    let _ ← WriteM.stage .eventsIndexedBlock block
      (WriteM.query (Store.upsertOne .blocks (block.row .events)))
  WriteM.log (.markedEvents block)

end BlockArchive
