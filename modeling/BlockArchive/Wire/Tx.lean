import BlockArchive.Tx.Basic
import BlockArchive.Wire.Record

/-!
# Written transactions

Lists and reference texts may be left out where they are empty, and so may a signer or a payer who
is not known.

## Main definitions

- `Tx.ofJson?`, `Tx.toJson`: a transaction
- `Message.ofJson?`, `Event.ofJson?`, `Attribute.ofJson?`, `Fee.ofJson?`: its parts
- `TextMap.ofJson?`, `TextMap.toJson`: reference texts by key

## Design notes

The texts of a kind have no order of their own. They are written in ascending order of their keys,
which is one of the orders in which they may be written, and are read in any order.
-/

namespace BlockArchive

namespace Fee

/-- The fee that the document stands for. -/
def ofJson? (j : Json) : Option Fee := do
  let record ← Record.ofJson? 3 j
  return {
    amount := ← record.required ⟨0, "amount"⟩ Json.str?
    denom := ← record.required ⟨1, "denom"⟩ Json.str?
    payer := ← record.optional ⟨2, "payer_address"⟩ Json.str? }

/-- The fee as it is written. -/
def toJson (fee : Fee) : Json :=
  .obj [("amount", .str fee.amount), ("denom", .str fee.denom),
    ("payer_address", .ofOption .str fee.payer)]

end Fee

namespace Attribute

/-- The attribute that the document stands for. -/
def ofJson? (j : Json) : Option Attribute := do
  let record ← Record.ofJson? 3 j
  return {
    key := ← record.required ⟨0, "key"⟩ Json.str?
    index := ← record.required ⟨1, "index"⟩ Json.int64?
    value := ← record.required ⟨2, "value"⟩ Json.str? }

/-- The attribute as it is written. -/
def toJson (detail : Attribute) : Json :=
  .obj [("key", .str detail.key), ("index", .ofInt64 detail.index), ("value", .str detail.value)]

end Attribute

namespace Event

/-- The event that the document stands for. -/
def ofJson? (j : Json) : Option Event := do
  let record ← Record.ofJson? 3 j
  return {
    eventType := ← record.required ⟨0, "event_type"⟩ Json.str?
    index := ← record.required ⟨1, "index"⟩ Json.int64?
    attributes := ← record.defaulted ⟨2, "attributes"⟩ (Json.list? Attribute.ofJson?) [] }

/-- The event as it is written. -/
def toJson (event : Event) : Json :=
  .obj [("event_type", .str event.eventType), ("index", .ofInt64 event.index),
    ("attributes", .arr (event.attributes.map Attribute.toJson))]

end Event

namespace Message

/-- The message that the document stands for. -/
def ofJson? (j : Json) : Option Message := do
  let record ← Record.ofJson? 3 j
  return {
    messageType := ← record.required ⟨0, "message_type"⟩ Json.str?
    index := ← record.required ⟨1, "message_index"⟩ Json.int64?
    events := ← record.defaulted ⟨2, "events"⟩ (Json.list? Event.ofJson?) [] }

/-- The message as it is written. -/
def toJson (message : Message) : Json :=
  .obj [("message_type", .str message.messageType), ("message_index", .ofInt64 message.index),
    ("events", .arr (message.events.map Event.toJson))]

end Message

namespace TextMap

/-- The text of a record whose only part is `name`. -/
def textOfJson? (name : String) (j : Json) : Option String := do
  let record ← Record.ofJson? 1 j
  record.required ⟨0, name⟩ Json.str?

/-- The texts by key that the document stands for, each text in a record with the part `name`. -/
def ofJson? (name : String) : Json → Option TextMap
  | .obj fields => do
    let texts ← fields.mapM fun field => (textOfJson? name field.2).map fun text => (field.1, text)
    return Std.ExtTreeMap.ofList texts
  | _ => none

/-- The texts by key as they are written, each text in a record with the part `name`. -/
def toJson (name : String) (texts : TextMap) : Json :=
  .obj (texts.toList.map fun entry => (entry.1, .obj [(name, .str entry.2)]))

end TextMap

namespace Tx

/-- The transaction that the document stands for. -/
def ofJson? (j : Json) : Option Tx := do
  let record ← Record.ofJson? 8 j
  return {
    hash := ← record.required ⟨0, "hash"⟩ Json.str?
    code := ← record.required ⟨1, "code"⟩ Json.int32?
    signer := ← record.defaulted ⟨2, "signer_address"⟩ (Json.nullable? Json.str?) none
    fees := ← record.defaulted ⟨3, "fees"⟩ (Json.list? Fee.ofJson?) []
    messages := ← record.defaulted ⟨4, "messages"⟩ (Json.list? Message.ofJson?) []
    messageTypes := ← record.defaulted ⟨5, "unique_message_types"⟩
      (TextMap.ofJson? "message_type") ∅
    eventTypes := ← record.defaulted ⟨6, "unique_message_event_types"⟩
      (TextMap.ofJson? "event_type") ∅
    attributeKeys := ← record.defaulted ⟨7, "unique_message_attribute_keys"⟩
      (TextMap.ofJson? "key") ∅ }

/-- The transaction as it is written. -/
def toJson (tx : Tx) : Json :=
  .obj [("hash", .str tx.hash), ("code", .int tx.code.toInt),
    ("signer_address", .ofOption .str tx.signer), ("fees", .arr (tx.fees.map Fee.toJson)),
    ("messages", .arr (tx.messages.map Message.toJson)),
    ("unique_message_types", TextMap.toJson "message_type" tx.messageTypes),
    ("unique_message_event_types", TextMap.toJson "event_type" tx.eventTypes),
    ("unique_message_attribute_keys", TextMap.toJson "key" tx.attributeKeys)]

end Tx

end BlockArchive
