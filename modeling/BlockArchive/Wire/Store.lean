import BlockArchive.Json.Basic
import BlockArchive.Store.Reading

/-!
# Written rows

A row is written as the list of its columns, the id before all others.

## Main definitions

- `TableName.rowToJson`: the columns of a row
- `Entry.toJson`: a stored row
- `Store.dump`: all rows by table; a table without rows is left out
-/

namespace BlockArchive

namespace TableName

/-- The columns of a row after the id. -/
def rowToJson : (n : TableName) → n.Row → List Json
  | chains, row => [.str row.chainId, .str row.name]
  | blocks, row =>
    [.ofInt64 row.height, .int row.chain, .str row.time.text, .bool row.txIndexed,
      .bool row.eventsIndexed]
  | addresses, row => [.str row]
  | txes, row =>
    [.str row.hash, .int row.code.toInt, .int row.block, .ofOption .int row.signer]
  | messageTypes, row => [.str row]
  | messages, row => [.int row.tx, .int row.messageType, .ofInt64 row.index]
  | eventTypes, row => [.str row]
  | events, row => [.int row.message, .int row.eventType, .ofInt64 row.index]
  | attributeKeys, row => [.str row]
  | attributes, row => [.int row.event, .int row.key, .ofInt64 row.index, .str row.value]
  | failedBlocks, row => [.ofInt64 row.height, .int row.chain]
  | failedEventBlocks, row => [.ofInt64 row.height, .int row.chain]
  | denoms, row => [.str row.base, .str row.name, .str row.symbol]
  | denomUnits, row => [.int row.denom, .ofInt64 row.exponent, .str row.name]
  | ibcDenoms, row => [.str row.hash, .str row.path, .str row.baseDenom]

end TableName

/-- A stored row as it is written. -/
def Entry.toJson (n : TableName) (entry : Entry n.Row) : Json :=
  .arr (.int entry.id :: n.rowToJson entry.row)

/-- The rows of the tables that have any, by table and in ascending order of the ids, if all of them
can be read back. -/
def Store.dump (s : Store) : Except Failure Json := do
  let tables ← TableName.all.mapM fun n => do
    return (n.name, (← n.readAll (s.get n).entries).map (Entry.toJson n))
  return .obj ((tables.filter fun table => !table.2.isEmpty).map fun table =>
    (table.1, .arr table.2))

end BlockArchive
