import BlockArchive.Proofs.Survivors
import BlockArchive.Proofs.View

/-!
# Laying a block over what a store tells

What storing a block does, told without ids. The surviving transactions take the places of those
with their hashes; what lies below them is laid over what lay there, index by index, so that older
messages, events and attributes stay where the block brings none.

## Main definitions

- `overlay`: entities laid over what was there
- `Tx.over`: a transaction laid over the one with its hash
- `View.persist`: a block laid over what a store tells
-/

namespace BlockArchive

/-- Entities laid over what was there: each takes the place of its index, given what was there. -/
def overlay {α ν : Type} (index : α → Int64) (put : Option ν → α → ν) (members : List α)
    (old : Int64 → Option ν) : Int64 → Option ν := fun i =>
  match members.find? fun a => index a = i with
  | some a => some (put (old i) a)
  | none => old i

/-- An attribute takes the place of the old one. -/
def Attribute.over (_ : Option AttributeView) (detail : Attribute) : AttributeView where
  key := detail.key
  value := detail.value

/-- An event takes the place of the old one, whose attributes are laid over. -/
def Event.over (old : Option EventView) (event : Event) : EventView where
  eventType := event.eventType
  attributes := overlay Attribute.index Attribute.over event.attributes fun index =>
    old.bind fun view => view.attributes index

/-- A message takes the place of the old one, whose events are laid over. -/
def Message.over (old : Option MessageView) (message : Message) : MessageView where
  messageType := message.messageType
  events := overlay Event.index Event.over message.events fun index =>
    old.bind fun view => view.events index

/-- A transaction takes the place of the old one, whose messages are laid over. -/
def Tx.over (chain : String) (height : Int64) (old : Option TxView) (tx : Tx) : TxView where
  code := tx.code
  chain := chain
  height := height
  signer := tx.signer
  messages := overlay Message.index Message.over tx.messages fun index =>
    old.bind fun view => view.messages index

/-- A block of a chain laid over what a store tells: its marker goes; it has the new time and its
transactions have been stored, while it is kept whether its own events have been indexed; the last
transaction of each hash is laid over; and the addresses of the signers and the texts that the
survivors bring along are added. -/
def View.persist (view : View) (chain : String) (block : Block) (txs : List Tx) : View :=
  { view with
    blocks := fun chainId height =>
      if chainId = chain ∧ height = block.height then
        some {
          time := block.time.toTimestamp
          txIndexed := true
          eventsIndexed := (view.blocks chainId height).any (·.eventsIndexed) }
      else view.blocks chainId height
    marked := fun pipeline chainId height =>
      view.marked pipeline chainId height &&
        !decide (pipeline = .txs ∧ chainId = chain ∧ height = block.height)
    addresses := fun address =>
      view.addresses address || (Tx.uniqueByHash txs).any fun tx => tx.signer = some address
    texts := fun kind text =>
      view.texts kind text ||
        decide (text ∈ (ReferenceData.collect (Tx.uniqueByHash txs)).texts kind)
    txes := fun hash =>
      match Tx.last? txs hash with
      | some tx => some (tx.over chain block.height (view.txes hash))
      | none => view.txes hash }

end BlockArchive
