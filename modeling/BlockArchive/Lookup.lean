import BlockArchive.Store.Reading
import BlockArchive.Store.Statement

/-!
# Lookups

Rows of the store by what identifies them, and the rows that belong to another in the order of their
places.

## Main definitions

- `Store.findChain?`, `Store.findBlock`, `Store.findTx?`, `Store.findDenom?`, `Store.findIbcDenom?`:
  one row
- `Store.txesOf`, `Store.messagesOf`, `Store.eventsOf`, `Store.attributesOf`, `Store.unitsOf`: the
  rows below another
- `Store.findAddresses`: the stored ones of a list of addresses
-/

namespace BlockArchive.Store

/-- The chain of a text. -/
def findChain? (s : Store) (chainId : String) : Option (Entry Chain) :=
  s.chains.find? Chain.chainId chainId

/-- The block of a chain at a height, be it a placeholder, as it is read back. -/
def findBlock (s : Store) (chain : Id) (height : Int64) :
    Except Failure (Option (Entry BlockRow)) :=
  TableName.blocks.readOption (s.blocks.find? BlockRow.slot ⟨chain, height⟩)

/-- The transaction of a hash. -/
def findTx? (s : Store) (hash : String) : Option (Entry TxRow) :=
  s.txes.find? TxRow.hash hash

/-- The transactions of a block in the order of their hashes. -/
def txesOf (s : Store) (block : Id) : List (Entry TxRow) :=
  (s.txes.entries.filter fun entry => entry.row.block = block).mergeSort
    fun a b => a.row.hash ≤ b.row.hash

/-- The messages of a transaction in their order. -/
def messagesOf (s : Store) (tx : Id) : List (Entry MessageRow) :=
  (s.messages.entries.filter fun entry => entry.row.tx = tx).mergeSort
    fun a b => a.row.index ≤ b.row.index

/-- The events of a message in their order. -/
def eventsOf (s : Store) (message : Id) : List (Entry EventRow) :=
  (s.events.entries.filter fun entry => entry.row.message = message).mergeSort
    fun a b => a.row.index ≤ b.row.index

/-- The attributes of an event in their order. -/
def attributesOf (s : Store) (event : Id) : List (Entry AttributeRow) :=
  (s.attributes.entries.filter fun entry => entry.row.event = event).mergeSort
    fun a b => a.row.index ≤ b.row.index

/-- The message types of a text, of which there is one at most. -/
def messageTypesOf (s : Store) (text : String) : List (Entry String) :=
  s.messageTypes.entries.filter fun entry => entry.row = text

/-- The denomination of a smallest unit. -/
def findDenom? (s : Store) (base : String) : Option (Entry Denom) :=
  s.denoms.find? Denom.base base

/-- The units of a denomination by their powers of ten, and of one power by their ids. -/
def unitsOf (s : Store) (denom : Id) : List (Entry DenomUnitRow) :=
  (s.denomUnits.entries.filter fun entry => entry.row.denom = denom).mergeSort
    fun a b => a.row.exponent ≤ b.row.exponent

/-- The denomination that came over IBC with a hash. -/
def findIbcDenom? (s : Store) (hash : String) : Option (Entry IbcDenom) :=
  s.ibcDenoms.find? IbcDenom.hash hash

/-- The stored addresses among those asked for, in ascending order. -/
def findAddresses (s : Store) (asked : List String) : Except Failure (List (Entry String)) :=
  if ∃ address ∈ asked, HasZero address then
    .error (.query .zeroByte)
  else
    .ok ((s.addresses.entries.filter fun entry => entry.row ∈ asked).mergeSort
      fun a b => a.row ≤ b.row)

end BlockArchive.Store
