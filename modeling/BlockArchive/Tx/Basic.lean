import Std.Data.ExtTreeMap

/-!
# Decoded transactions

A transaction with its messages, their events and the events' attributes, and with the reference
texts it brings along: the message types, event types and attribute keys that its messages use,
which many transactions share.

## Main definitions

- `Tx`, `Message`, `Event`, `Attribute`, `Fee`: a transaction and its parts
- `Tx.new`: a transaction made of messages, with every text that they use registered
- `Tx.addMessage`, `Tx.withFees`: a transaction with one more message, or with other fees

## Design notes

The reference texts are kept by a key. A transaction made by `Tx.new` registers each text under
itself; one that is read from elsewhere may hold any text under any key.
-/

namespace BlockArchive

/-- Reference texts by key. -/
abbrev TextMap := Std.ExtTreeMap String String

/-- What a transaction pays. -/
structure Fee where
  /-- How much, as it is written on the chain. -/
  amount : String
  denom : String
  /-- Who pays, if someone other than the signer may. -/
  payer : Option String
deriving DecidableEq, Repr

/-- A named value of an event. -/
structure Attribute where
  key : String
  /-- The place among the attributes of the event. -/
  index : Int64
  value : String
deriving DecidableEq, Repr

/-- Something that happened while a message was carried out. -/
structure Event where
  eventType : String
  /-- The place among the events of the message. -/
  index : Int64
  attributes : List Attribute
deriving DecidableEq, Repr

/-- One action of a transaction. -/
structure Message where
  messageType : String
  /-- The place among the messages of the transaction. -/
  index : Int64
  events : List Event
deriving DecidableEq, Repr

/-- A transaction with the reference texts that it brings along. -/
structure Tx where
  /-- The hash, which no other transaction of any chain has. -/
  hash : String
  code : Int32
  /-- Who signed, if the signer is known. -/
  signer : Option String
  fees : List Fee
  messages : List Message
  messageTypes : TextMap
  eventTypes : TextMap
  attributeKeys : TextMap
deriving DecidableEq

namespace Message

/-- The event types that the message uses, in order. -/
def eventTypes (message : Message) : List String :=
  message.events.map (·.eventType)

/-- The attribute keys that the message uses, in order. -/
def attributeKeys (message : Message) : List String :=
  message.events.flatMap fun event => event.attributes.map (·.key)

end Message

namespace Tx

/-- The texts with `text` registered under itself, unless something is registered there. -/
def register (texts : TextMap) (text : String) : TextMap :=
  texts.insertIfNew text text

/-- The transaction with one more message, and with the texts that the message uses. -/
def addMessage (tx : Tx) (message : Message) : Tx :=
  { tx with
    messages := tx.messages ++ [message]
    messageTypes := register tx.messageTypes message.messageType
    eventTypes := message.eventTypes.foldl register tx.eventTypes
    attributeKeys := message.attributeKeys.foldl register tx.attributeKeys }

/-- The transaction that has these messages and brings along every text that they use. -/
def new (hash : String) (code : Int32) (signer : Option String) (messages : List Message) : Tx :=
  messages.foldl addMessage
    { hash, code, signer, fees := [], messages := [], messageTypes := ∅, eventTypes := ∅,
      attributeKeys := ∅ }

/-- The transaction with `fees` in place of the fees it had. -/
def withFees (tx : Tx) (fees : List Fee) : Tx :=
  { tx with fees }

end Tx

end BlockArchive
