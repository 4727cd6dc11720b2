import BlockArchive.Reference.Data
import BlockArchive.Store.Table
import BlockArchive.Wire.Record

/-!
# Written reference data

Texts by key are written as a list of pairs in ascending order of the keys, and addresses as a list
in ascending order.

## Main definitions

- `TextMap.pairsToJson`: texts by key
- `Entry.textOfJson?`: a stored text with its id
- `ReferenceData.toJson`: the texts and addresses of a list of transactions
-/

namespace BlockArchive

/-- The texts by key as a list of pairs, each text in a record with the part `name`. -/
def TextMap.pairsToJson (name : String) (texts : TextMap) : Json :=
  .arr (texts.toList.map fun entry => .arr [.str entry.1, .obj [(name, .str entry.2)]])

/-- The stored text that the document stands for. -/
def Entry.textOfJson? (j : Json) : Option (Entry String) := do
  let record ← Record.ofJson? 2 j
  let id ← record.required ⟨0, "id"⟩ Json.int64?
  let text ← record.required ⟨1, "name"⟩ Json.str?
  return ⟨id.toInt, text⟩

/-- The reference data as it is written, and whether there is none. -/
def ReferenceData.toJson (data : ReferenceData) : Json :=
  .obj [
    ("message_types", TextMap.pairsToJson "message_type" data.messageTypes),
    ("message_event_types", TextMap.pairsToJson "event_type" data.eventTypes),
    ("message_event_attribute_keys", TextMap.pairsToJson "key" data.attributeKeys),
    ("signer_addresses", .arr (data.signers.toList.map .str)),
    ("is_default", .bool (data = ∅))]

end BlockArchive
