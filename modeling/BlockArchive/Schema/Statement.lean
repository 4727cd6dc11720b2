import BlockArchive.Schema.Basic

/-!
# Statements of the schema

The statements that create the tables and their indexes where they are not there yet. Every table
comes with the index that keeps its keys unique, and a table comes after those it refers to.

## Main definitions

- `Column`, `TableName.columns`: the columns of a table besides the id
- `TableName.keyIndex`: the index that keeps the keys of a table unique
- `SchemaStatement`, `SchemaStatement.text`: a statement and how it is written
- `schemaStatements`: all of them in their order
-/

namespace BlockArchive

/-- What a column holds. -/
inductive ColumnType where
  | text
  /-- A whole number of 32 bits. -/
  | integer
  /-- A whole number of 64 bits. -/
  | bigint
  /-- A truth value, false unless it is given. -/
  | flag
  | time
deriving DecidableEq, Repr

/-- A column of a table. -/
structure Column where
  /-- The name, in quotes where it has to be. -/
  name : String
  type : ColumnType
  /-- Every row has a value in the column. -/
  required : Bool := true
  /-- The table whose ids the column holds. -/
  target : Option TableName := none
deriving DecidableEq, Repr

namespace Column

/-- A column that holds the id of a row of another table. -/
def ref (name : String) (target : TableName) : Column :=
  { name, type := .bigint, target := some target }

/-- The column as it is declared. -/
def text (column : Column) : String :=
  column.name ++
    (match column.type with
      | .text => " TEXT"
      | .integer => " INTEGER"
      | .bigint => " BIGINT"
      | .flag => " BOOLEAN"
      | .time => " TIMESTAMPTZ") ++
    (if column.required then " NOT NULL" else "") ++
    (match column.target with
      | some target => " REFERENCES " ++ target.name ++ "(id)"
      | none => "") ++
    (if column.type = .flag then " DEFAULT FALSE" else "")

end Column

/-- An index of a table. -/
structure Index where
  /-- The name without the table before it and the word `index` after it. -/
  label : String
  columns : List String
  /-- No two rows agree in all the columns. -/
  unique : Bool := true
deriving DecidableEq, Repr

namespace TableName

/-- The columns of the table besides the id. -/
def columns : TableName → List Column
  | chains => [⟨"chain_id", .text, true, none⟩, ⟨"name", .text, true, none⟩]
  | blocks =>
    [⟨"height", .bigint, true, none⟩, .ref "blockchain_id" chains,
      ⟨"time_stamp", .time, true, none⟩, ⟨"tx_indexed", .flag, true, none⟩,
      ⟨"block_events_indexed", .flag, true, none⟩]
  | addresses => [⟨"address", .text, true, none⟩]
  | txes =>
    [⟨"hash", .text, true, none⟩, ⟨"code", .integer, true, none⟩, .ref "block_id" blocks,
      { Column.ref "signer_address_id" addresses with required := false }]
  | messageTypes => [⟨"message_type", .text, true, none⟩]
  | messages =>
    [.ref "tx_id" txes, .ref "message_type_id" messageTypes,
      ⟨"message_index", .bigint, true, none⟩]
  | eventTypes => [⟨"event_type", .text, true, none⟩]
  | events =>
    [.ref "message_id" messages, .ref "message_event_type_id" eventTypes,
      ⟨"\"index\"", .bigint, true, none⟩]
  | attributeKeys => [⟨"key", .text, true, none⟩]
  | attributes =>
    [.ref "message_event_id" events, .ref "message_event_attribute_key_id" attributeKeys,
      ⟨"\"index\"", .bigint, true, none⟩, ⟨"value", .text, true, none⟩]
  | failedBlocks => [⟨"height", .bigint, true, none⟩, .ref "blockchain_id" chains]
  | failedEventBlocks => [⟨"height", .bigint, true, none⟩, .ref "blockchain_id" chains]
  | denoms =>
    [⟨"base", .text, true, none⟩, ⟨"name", .text, true, none⟩, ⟨"symbol", .text, true, none⟩]
  | denomUnits =>
    [.ref "denom_id" denoms, ⟨"exponent", .bigint, true, none⟩, ⟨"name", .text, true, none⟩]
  | ibcDenoms =>
    [⟨"hash", .text, true, none⟩, ⟨"path", .text, true, none⟩, ⟨"base_denom", .text, true, none⟩]

/-- The index that keeps the keys of the table unique. -/
def keyIndex : TableName → Index
  | chains => { label := "chain_id", columns := ["chain_id"] }
  | blocks => { label := "chain_height", columns := ["blockchain_id", "height"] }
  | addresses => { label := "address", columns := ["address"] }
  | txes => { label := "hash", columns := ["hash"] }
  | messageTypes => { label := "message_type", columns := ["message_type"] }
  | messages => { label := "tx_message_index", columns := ["tx_id", "message_index"] }
  | eventTypes => { label := "event_type", columns := ["event_type"] }
  | events => { label := "message_index", columns := ["message_id", "\"index\""] }
  | attributeKeys => { label := "key", columns := ["key"] }
  | attributes => { label := "event_index", columns := ["message_event_id", "\"index\""] }
  | failedBlocks => { label := "chain_height", columns := ["blockchain_id", "height"] }
  | failedEventBlocks => { label := "chain_height", columns := ["blockchain_id", "height"] }
  | denoms => { label := "base", columns := ["base"] }
  | denomUnits => { label := "denom_name", columns := ["denom_id", "name"] }
  | ibcDenoms => { label := "hash", columns := ["hash"] }

/-- The indexes of the table that only make it quicker. -/
def otherIndexes : TableName → List Index
  | txes => [{ label := "block_id", columns := ["block_id"], unique := false }]
  | _ => []

end TableName

/-- A statement that creates a part of the schema, unless it is there. -/
inductive SchemaStatement where
  | createTable (n : TableName)
  | createIndex (n : TableName) (index : Index)
deriving DecidableEq, Repr

/-- The statement as it is written. -/
def SchemaStatement.text : SchemaStatement → String
  | createTable n =>
    "CREATE TABLE IF NOT EXISTS " ++ n.name ++ " ( " ++
      ", ".intercalate ("id BIGSERIAL PRIMARY KEY" :: n.columns.map Column.text) ++ " )"
  | createIndex n index =>
    "CREATE " ++ (if index.unique then "UNIQUE " else "") ++ "INDEX IF NOT EXISTS " ++ n.name ++
      "_" ++ index.label ++ "_index ON " ++ n.name ++ "(" ++ ", ".intercalate index.columns ++ ")"

/-- The statements that create the schema, in their order. -/
def schemaStatements : List SchemaStatement :=
  TableName.all.flatMap fun n =>
    .createTable n :: (n.keyIndex :: n.otherIndexes).map (.createIndex n)

end BlockArchive
