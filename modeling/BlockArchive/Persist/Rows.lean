import BlockArchive.Persist.Placement
import BlockArchive.Reference.Resolved
import BlockArchive.Tx.Basic

/-!
# Rows of a decoded block

The rows that stand for the transactions of a block and for what lies below them. A row names its
parent and the text it uses by their ids, so the rows of one level can be made only when the level
above has been stored.

## Main definitions

- `ParentIds`: the ids of what has been stored so far
- `txRows`: the rows of the transactions
- `candidatesBelow`: what lies below a parent whose id is looked up
- `messageRows`, `eventRows`, `attributeRows`: the rows of each level below them, in the order of
  their places
-/

namespace BlockArchive

/-- Looks up an id that the store has given, or fails for want of it. -/
def generatedId {κ : Type} [Ord κ] [Std.TransOrd κ] (ids : Std.ExtTreeMap κ Id) (key : κ)
    (entity text : String) : Except Failure Id :=
  match ids[key]? with
  | some id => .ok id
  | none => .error (.missingGeneratedKey entity text)

/-- The row of a transaction of a stored block, with the address of the signer in place of the
text. -/
def txRow (block : Id) (addresses : Std.ExtTreeMap String Id) (tx : Tx) : Except Failure TxRow := do
  let signer ← tx.signer.mapM fun address => generatedId addresses address "address" address
  return { hash := tx.hash, code := tx.code, block, signer }

/-- The rows of the transactions of a stored block. -/
def txRows (block : Id) (addresses : Std.ExtTreeMap String Id) (txs : List Tx) :
    Except Failure (List TxRow) :=
  txs.mapM (txRow block addresses)

/-- The ids of the rows of a block that have been stored so far. -/
structure ParentIds where
  /-- The ids of the transactions by hash. -/
  txes : Std.ExtTreeMap String Id := ∅
  /-- The ids of the messages by place. -/
  messages : Std.ExtTreeMap Slot Id := ∅
  /-- The ids of the events by place. -/
  events : Std.ExtTreeMap Slot Id := ∅

namespace ParentIds

/-- The id of a transaction. -/
def tx (ids : ParentIds) (tx : Tx) : Except Failure Id :=
  generatedId ids.txes tx.hash "tx" tx.hash

/-- The id of a message of a transaction. -/
def message (ids : ParentIds) (tx : Tx) (message : Message) : Except Failure Id := do
  let slot : Slot := ⟨← ids.tx tx, message.index⟩
  generatedId ids.messages slot "message" slot.text

/-- The id of an event of a message of a transaction. -/
def event (ids : ParentIds) (tx : Tx) (message : Message) (event : Event) : Except Failure Id := do
  let slot : Slot := ⟨← ids.message tx message, event.index⟩
  generatedId ids.events slot "message event" slot.text

end ParentIds

/-- The candidates below a parent, given its id. The id is looked up first, so where it is missing
that is all there is, also for a parent that has nothing below it. -/
def candidatesBelow {ρ : Type} (parent : Except Failure Id) (children : Id → List (Candidate ρ)) :
    List (Candidate ρ) :=
  match parent with
  | .ok id => children id
  | .error failure => [.error failure]

/-- The messages of the transactions, each below its transaction. -/
def messageCandidates (ids : ParentIds) (refs : ResolvedReferences) (txs : List Tx) :
    List (Candidate MessageRow) :=
  txs.flatMap fun tx =>
    candidatesBelow (ids.tx tx) fun txId =>
      tx.messages.map fun message => do
        return {
          tx := txId
          messageType := ← refs.id .messageType message.messageType
          index := message.index }

/-- The events of the transactions, each below its message. -/
def eventCandidates (ids : ParentIds) (refs : ResolvedReferences) (txs : List Tx) :
    List (Candidate EventRow) :=
  txs.flatMap fun tx =>
    candidatesBelow (ids.tx tx) fun _ =>
      tx.messages.flatMap fun message =>
        candidatesBelow (ids.message tx message) fun messageId =>
          message.events.map fun event => do
            return {
              message := messageId
              eventType := ← refs.id .eventType event.eventType
              index := event.index }

/-- The attributes of the transactions, each below its event. -/
def attributeCandidates (ids : ParentIds) (refs : ResolvedReferences) (txs : List Tx) :
    List (Candidate AttributeRow) :=
  txs.flatMap fun tx =>
    candidatesBelow (ids.tx tx) fun _ =>
      tx.messages.flatMap fun message =>
        candidatesBelow (ids.message tx message) fun _ =>
          message.events.flatMap fun event =>
            candidatesBelow (ids.event tx message event) fun eventId =>
              event.attributes.map fun detail => do
                return {
                  event := eventId
                  key := ← refs.id .attributeKey detail.key
                  index := detail.index
                  value := detail.value }

/-- The rows of the messages, in the order of their places. -/
def messageRows (ids : ParentIds) (refs : ResolvedReferences) (txs : List Tx) :
    Except Failure (List MessageRow) :=
  placeAll "message" MessageRow.slot (messageCandidates ids refs txs)

/-- The rows of the events, in the order of their places. -/
def eventRows (ids : ParentIds) (refs : ResolvedReferences) (txs : List Tx) :
    Except Failure (List EventRow) :=
  placeAll "message event" EventRow.slot (eventCandidates ids refs txs)

/-- The rows of the attributes, in the order of their places. -/
def attributeRows (ids : ParentIds) (refs : ResolvedReferences) (txs : List Tx) :
    Except Failure (List AttributeRow) :=
  placeAll "message event attribute" AttributeRow.slot (attributeCandidates ids refs txs)

end BlockArchive
