import BlockArchive.Denom
import BlockArchive.Schema.Row

/-!
# The schema

The tables of the archive and, for each of them, what a row of it is, which part of a row no other
row may share, what becomes of a stored row when that part is offered again, and which rows of other
tables it refers to.

## Main definitions

- `TableName`, `TableName.Row`: the tables and their rows
- `TableName.key`: the part of a row that is unique in its table
- `TableName.refresh`: the stored row after a row with its key has been offered
- `TableName.references`: the rows that a row refers to
- `TableName.texts`: the texts that a row holds

## Main statements

- `TableName.key_refresh`: a refreshed row keeps its key
-/

namespace BlockArchive

/-- The tables, each after those that its rows refer to. -/
inductive TableName where
  | chains
  | blocks
  /-- The addresses of signers. -/
  | addresses
  | txes
  /-- The texts that say which action a message is. -/
  | messageTypes
  | messages
  /-- The texts that say what an event is about. -/
  | eventTypes
  | events
  /-- The texts that name attributes. -/
  | attributeKeys
  | attributes
  /-- The heights whose transactions could not be stored. -/
  | failedBlocks
  /-- The heights whose own events could not be indexed. -/
  | failedEventBlocks
  | denoms
  | denomUnits
  /-- The denominations that came over IBC. -/
  | ibcDenoms
deriving DecidableEq, Repr

/-- The part of a row that no other row of its table may share. -/
inductive Key where
  | text (s : String)
  /-- A place below another row. -/
  | slot (slot : Slot)
  /-- A name below another row. -/
  | named (parent : Id) (name : String)
deriving DecidableEq, Repr

namespace Key

/-- Which of the kinds of keys it is. -/
def kind : Key → Nat
  | text _ => 0
  | slot _ => 1
  | named _ _ => 2

/-- The place that a key is, or else the parent of a name. -/
def place : Key → Slot
  | text _ => ⟨0, 0⟩
  | slot spot => spot
  | named parent _ => ⟨parent, 0⟩

/-- The characters of a key. -/
def characters : Key → String
  | text s => s
  | slot _ => ""
  | named _ name => name

/-- Keys are compared by their kinds, then by the places and then by the characters. -/
instance : Ord Key where
  compare := compareLex (compareOn kind) (compareLex (compareOn place) (compareOn characters))

instance : Std.TransOrd Key :=
  inferInstanceAs (Std.TransCmp
    (compareLex (compareOn kind) (compareLex (compareOn place) (compareOn characters))))

instance : Std.LawfulEqOrd Key where
  eq_of_compare {a b} h := by
    have h : (compare a.kind b.kind).then
        ((compare a.place b.place).then (compare a.characters b.characters)) = .eq := h
    obtain ⟨hkind, hrest⟩ := Ordering.then_eq_eq.1 h
    obtain ⟨hplace, hcharacters⟩ := Ordering.then_eq_eq.1 hrest
    have hkind : a.kind = b.kind := Std.LawfulEqOrd.eq_of_compare hkind
    have hplace : a.place = b.place := Std.LawfulEqOrd.eq_of_compare hplace
    have hcharacters : a.characters = b.characters := Std.LawfulEqOrd.eq_of_compare hcharacters
    cases a <;> cases b
    case text.text => exact congrArg text hcharacters
    case slot.slot => exact congrArg slot hplace
    case named.named =>
      rw [named.injEq]
      exact ⟨congrArg Slot.parent hplace, hcharacters⟩
    all_goals exact nomatch hkind

end Key

/-- A row of another table that a row refers to. -/
structure Reference where
  /-- The column that refers to it. -/
  column : String
  target : TableName
  /-- The key of the other row. -/
  id : Id
deriving DecidableEq, Repr

namespace TableName

/-- All tables. -/
def all : List TableName :=
  [chains, blocks, addresses, txes, messageTypes, messages, eventTypes, events, attributeKeys,
    attributes, failedBlocks, failedEventBlocks, denoms, denomUnits, ibcDenoms]

theorem mem_all (n : TableName) : n ∈ all := by
  cases n <;> decide

/-- What a row of the table is. -/
@[reducible] def Row : TableName → Type
  | chains => Chain
  | blocks => BlockRow
  | addresses => String
  | txes => TxRow
  | messageTypes => String
  | messages => MessageRow
  | eventTypes => String
  | events => EventRow
  | attributeKeys => String
  | attributes => AttributeRow
  | failedBlocks => MarkerRow
  | failedEventBlocks => MarkerRow
  | denoms => Denom
  | denomUnits => DenomUnitRow
  | ibcDenoms => IbcDenom

/-- The name of the table in the store. -/
def name : TableName → String
  | chains => "chains"
  | blocks => "blocks"
  | addresses => "addresses"
  | txes => "txes"
  | messageTypes => "message_types"
  | messages => "messages"
  | eventTypes => "message_event_types"
  | events => "message_events"
  | attributeKeys => "message_event_attribute_keys"
  | attributes => "message_event_attributes"
  | failedBlocks => "failed_blocks"
  | failedEventBlocks => "failed_event_blocks"
  | denoms => "denoms"
  | denomUnits => "denom_units"
  | ibcDenoms => "ibc_denoms"

/-- The part of a row that is unique in its table. -/
def key : (n : TableName) → n.Row → Key
  | chains, row => .text row.chainId
  | blocks, row => .slot row.slot
  | addresses, row => .text row
  | txes, row => .text row.hash
  | messageTypes, row => .text row
  | messages, row => .slot row.slot
  | eventTypes, row => .text row
  | events, row => .slot row.slot
  | attributeKeys, row => .text row
  | attributes, row => .slot row.slot
  | failedBlocks, row => .slot row.slot
  | failedEventBlocks, row => .slot row.slot
  | denoms, row => .text row.base
  | denomUnits, row => .named row.denom row.name
  | ibcDenoms, row => .text row.hash

/-- The stored row after a row with its key has been offered. A block takes the new time and keeps
what has been indexed; chains, texts, markers and units stay as they are; everything else is
replaced. -/
def refresh : (n : TableName) → (stored offered : n.Row) → n.Row
  | chains, stored, _ => stored
  | blocks, stored, offered =>
    { stored with
      time := offered.time
      txIndexed := stored.txIndexed || offered.txIndexed
      eventsIndexed := stored.eventsIndexed || offered.eventsIndexed }
  | addresses, stored, _ => stored
  | txes, _, offered => offered
  | messageTypes, stored, _ => stored
  | messages, _, offered => offered
  | eventTypes, stored, _ => stored
  | events, _, offered => offered
  | attributeKeys, stored, _ => stored
  | attributes, _, offered => offered
  | failedBlocks, stored, _ => stored
  | failedEventBlocks, stored, _ => stored
  | denoms, _, offered => offered
  | denomUnits, stored, _ => stored
  | ibcDenoms, _, offered => offered

/-- The rows of other tables that a row refers to. -/
def references : (n : TableName) → n.Row → List Reference
  | blocks, row => [⟨"blockchain_id", chains, row.chain⟩]
  | txes, row =>
    ⟨"block_id", blocks, row.block⟩ ::
      row.signer.toList.map fun signer => ⟨"signer_address_id", addresses, signer⟩
  | messages, row =>
    [⟨"tx_id", txes, row.tx⟩, ⟨"message_type_id", messageTypes, row.messageType⟩]
  | events, row =>
    [⟨"message_id", messages, row.message⟩, ⟨"message_event_type_id", eventTypes, row.eventType⟩]
  | attributes, row =>
    [⟨"message_event_id", events, row.event⟩,
      ⟨"message_event_attribute_key_id", attributeKeys, row.key⟩]
  | failedBlocks, row => [⟨"blockchain_id", chains, row.chain⟩]
  | failedEventBlocks, row => [⟨"blockchain_id", chains, row.chain⟩]
  | denomUnits, row => [⟨"denom_id", denoms, row.denom⟩]
  | chains, _ | addresses, _ | messageTypes, _ | eventTypes, _ | attributeKeys, _ | denoms, _
  | ibcDenoms, _ => []

/-- The texts that a row holds. -/
def texts : (n : TableName) → n.Row → List String
  | chains, row => [row.chainId, row.name]
  | addresses, row => [row]
  | txes, row => [row.hash]
  | messageTypes, row => [row]
  | eventTypes, row => [row]
  | attributeKeys, row => [row]
  | attributes, row => [row.value]
  | denoms, row => [row.base, row.name, row.symbol]
  | denomUnits, row => [row.name]
  | ibcDenoms, row => [row.hash, row.path, row.baseDenom]
  | blocks, _ | messages, _ | events, _ | failedBlocks, _ | failedEventBlocks, _ => []

/-- A refreshed row keeps its key. -/
theorem key_refresh : (n : TableName) → (stored offered : n.Row) → n.key offered = n.key stored →
    n.key (n.refresh stored offered) = n.key stored
  | txes, _, _, h | messages, _, _, h | events, _, _, h | attributes, _, _, h | denoms, _, _, h
  | ibcDenoms, _, _, h => h
  | chains, _, _, _ | blocks, _, _, _ | addresses, _, _, _ | messageTypes, _, _, _
  | eventTypes, _, _, _ | attributeKeys, _, _, _ | failedBlocks, _, _, _
  | failedEventBlocks, _, _, _ | denomUnits, _, _, _ => rfl

end TableName

end BlockArchive
