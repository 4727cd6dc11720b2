/-!
# Kinds of reference texts

Messages, events and attributes do not carry their type or name themselves: they refer to texts that
are stored once and shared.

## Main definitions

- `ReferenceKind`: what a shared text stands for
-/

namespace BlockArchive

/-- What a shared text stands for. -/
inductive ReferenceKind where
  /-- Which action a message is. -/
  | messageType
  /-- What an event is about. -/
  | eventType
  /-- The name of an attribute. -/
  | attributeKey
deriving DecidableEq, Repr

/-- What people call the kind. -/
def ReferenceKind.label : ReferenceKind → String
  | messageType => "message type"
  | eventType => "message event type"
  | attributeKey => "message event attribute key"

end BlockArchive
