import BlockArchive.Lookup
import BlockArchive.Session

/-!
# Removal of a chain

A chain goes with its markers and its blocks, with the transactions that are in those blocks now,
and with all that lies below them. What is shared stays: addresses, message types, event types and
attribute keys.

## Main definitions

- `Store.deleteChain`: the statements that take a chain out, the rows that refer to others first
- `removeChain`: the whole of it as one step
-/

namespace BlockArchive

namespace Table

variable {ρ : Type}

/-- The ids of the rows that are wanted. -/
def idsWhere (t : Table ρ) (wanted : ρ → Bool) : List Id :=
  (t.entries.filter fun entry => wanted entry.row).map (·.id)

end Table

namespace Store

/-- Takes out the chain of a text with all that belongs to it, if the chain is there. -/
def deleteChain (chainId : String) : StoreM Unit := do
  let s ← getThe Store
  match s.findChain? chainId with
  | none => return
  | some chain =>
    let blocks := s.blocks.idsWhere fun row => row.chain = chain.id
    let txes := s.txes.idsWhere fun row => row.block ∈ blocks
    let messages := s.messages.idsWhere fun row => row.tx ∈ txes
    let events := s.events.idsWhere fun row => row.message ∈ messages
    delete .attributes fun entry => entry.row.event ∈ events
    delete .events fun entry => entry.id ∈ events
    delete .messages fun entry => entry.id ∈ messages
    delete .txes fun entry => entry.id ∈ txes
    delete .blocks fun entry => entry.id ∈ blocks
    delete .failedBlocks fun entry => entry.row.chain = chain.id
    delete .failedEventBlocks fun entry => entry.row.chain = chain.id
    delete .chains fun entry => entry.id = chain.id

end Store

/-- Takes out a chain with all that belongs to it. -/
def removeChain (chainId : String) : WriteM Unit :=
  WriteM.transaction (WriteM.query (Store.deleteChain chainId))

end BlockArchive
