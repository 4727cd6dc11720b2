import BlockArchive.Failure
import BlockArchive.Store.Table

/-!
# Resolved references

The ids of the shared texts that a block brings along, as they are known once the texts are stored.
A text is looked up as it is written in its row, whatever key it was brought along by.

## Main definitions

- `ResolvedReferences`: the ids of stored texts, by kind
- `ResolvedReferences.ofEntries`: the ids of the texts of stored rows
- `ResolvedReferences.id`: the id of a text, or the failure that it was never registered
-/

namespace BlockArchive

/-- The ids of stored texts, by kind. -/
structure ResolvedReferences where
  messageTypes : Std.ExtTreeMap String Id := ∅
  eventTypes : Std.ExtTreeMap String Id := ∅
  attributeKeys : Std.ExtTreeMap String Id := ∅
deriving DecidableEq

namespace ResolvedReferences

/-- The ids of the texts of stored rows; of equal texts the last counts. -/
def ofEntries (messageTypes eventTypes attributeKeys : List (Entry String)) :
    ResolvedReferences where
  messageTypes := Entry.idsBy (fun text => text) messageTypes
  eventTypes := Entry.idsBy (fun text => text) eventTypes
  attributeKeys := Entry.idsBy (fun text => text) attributeKeys

/-- The ids of the texts of a kind. -/
def ids (refs : ResolvedReferences) : ReferenceKind → Std.ExtTreeMap String Id
  | .messageType => refs.messageTypes
  | .eventType => refs.eventTypes
  | .attributeKey => refs.attributeKeys

/-- The id of a text of a kind. -/
def id (refs : ResolvedReferences) (kind : ReferenceKind) (text : String) : Except Failure Id :=
  match (refs.ids kind)[text]? with
  | some id => .ok id
  | none => .error (.unregisteredReference kind text)

end ResolvedReferences

end BlockArchive
