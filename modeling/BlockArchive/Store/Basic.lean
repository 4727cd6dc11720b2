import BlockArchive.Failure
import BlockArchive.Store.Table

/-!
# The store

The tables of the archive, taken together.

## Main definitions

- `Store`: the tables
- `Store.get`, `Store.set`: one of the tables
- `Store.rollback`: the rows before a step, with the ids that are left after it

## Main statements

- `Store.get_set_self`, `Store.get_set_of_ne`: setting a table changes this table only
- `Store.ext_get`: stores with the same tables are the same
-/

namespace BlockArchive

/-- The tables of the archive. -/
structure Store where
  chains : Table Chain := ∅
  blocks : Table BlockRow := ∅
  addresses : Table String := ∅
  txes : Table TxRow := ∅
  messageTypes : Table String := ∅
  messages : Table MessageRow := ∅
  eventTypes : Table String := ∅
  events : Table EventRow := ∅
  attributeKeys : Table String := ∅
  attributes : Table AttributeRow := ∅
  failedBlocks : Table MarkerRow := ∅
  failedEventBlocks : Table MarkerRow := ∅
  denoms : Table Denom := ∅
  denomUnits : Table DenomUnitRow := ∅
  ibcDenoms : Table IbcDenom := ∅
deriving DecidableEq

namespace Store

instance : EmptyCollection Store := ⟨{}⟩

/-- The table of a name. -/
def get (s : Store) : (n : TableName) → Table n.Row
  | .chains => s.chains
  | .blocks => s.blocks
  | .addresses => s.addresses
  | .txes => s.txes
  | .messageTypes => s.messageTypes
  | .messages => s.messages
  | .eventTypes => s.eventTypes
  | .events => s.events
  | .attributeKeys => s.attributeKeys
  | .attributes => s.attributes
  | .failedBlocks => s.failedBlocks
  | .failedEventBlocks => s.failedEventBlocks
  | .denoms => s.denoms
  | .denomUnits => s.denomUnits
  | .ibcDenoms => s.ibcDenoms

/-- The store with another table under a name. -/
def set (s : Store) : (n : TableName) → Table n.Row → Store
  | .chains, t => { s with chains := t }
  | .blocks, t => { s with blocks := t }
  | .addresses, t => { s with addresses := t }
  | .txes, t => { s with txes := t }
  | .messageTypes, t => { s with messageTypes := t }
  | .messages, t => { s with messages := t }
  | .eventTypes, t => { s with eventTypes := t }
  | .events, t => { s with events := t }
  | .attributeKeys, t => { s with attributeKeys := t }
  | .attributes, t => { s with attributes := t }
  | .failedBlocks, t => { s with failedBlocks := t }
  | .failedEventBlocks, t => { s with failedEventBlocks := t }
  | .denoms, t => { s with denoms := t }
  | .denomUnits, t => { s with denomUnits := t }
  | .ibcDenoms, t => { s with ibcDenoms := t }

/-- The rows of `before` with the ids that are left in `after`. -/
def rollback (before after : Store) : Store where
  chains := before.chains.rollback after.chains
  blocks := before.blocks.rollback after.blocks
  addresses := before.addresses.rollback after.addresses
  txes := before.txes.rollback after.txes
  messageTypes := before.messageTypes.rollback after.messageTypes
  messages := before.messages.rollback after.messages
  eventTypes := before.eventTypes.rollback after.eventTypes
  events := before.events.rollback after.events
  attributeKeys := before.attributeKeys.rollback after.attributeKeys
  attributes := before.attributes.rollback after.attributes
  failedBlocks := before.failedBlocks.rollback after.failedBlocks
  failedEventBlocks := before.failedEventBlocks.rollback after.failedEventBlocks
  denoms := before.denoms.rollback after.denoms
  denomUnits := before.denomUnits.rollback after.denomUnits
  ibcDenoms := before.ibcDenoms.rollback after.ibcDenoms

@[simp] theorem get_set_self (s : Store) (n : TableName) (t : Table n.Row) :
    (s.set n t).get n = t := by
  cases n <;> rfl

@[simp] theorem get_set_of_ne (s : Store) {n m : TableName} (t : Table n.Row) (h : m ≠ n) :
    (s.set n t).get m = s.get m := by
  cases n <;> cases m <;> first | rfl | exact absurd rfl h

@[simp] theorem get_rollback (before after : Store) (n : TableName) :
    (before.rollback after).get n = (before.get n).rollback (after.get n) := by
  cases n <;> rfl

theorem ext_get {s t : Store} (h : ∀ n, s.get n = t.get n) : s = t := by
  cases s; cases t
  simp only [mk.injEq]
  exact ⟨h .chains, h .blocks, h .addresses, h .txes, h .messageTypes, h .messages, h .eventTypes,
    h .events, h .attributeKeys, h .attributes, h .failedBlocks, h .failedEventBlocks, h .denoms,
    h .denomUnits, h .ibcDenoms⟩

@[simp] theorem get_empty (n : TableName) : (∅ : Store).get n = ∅ := by
  cases n <;> rfl

end Store

end BlockArchive
