import BlockArchive.Chain
import BlockArchive.Time.Timestamp

/-!
# Rows

What the store keeps in a row, apart from the key of the row itself. A row refers to another by its
key. Chains, denominations and plain texts are kept as they are and have no type of their own here.

## Main definitions

- `BlockRow`, `TxRow`, `MessageRow`, `EventRow`, `AttributeRow`: a block and what lies below it
- `MarkerRow`: a height that has to be tried again
- `DenomUnitRow`: a unit of a stored denomination
- `Slot`: the place of a row among the rows that share its parent

## Design notes

Slots are ordered by the parent and then by the index, which is the order in which rows are written.
-/

namespace BlockArchive

/-- A stored block. -/
structure BlockRow where
  height : Int64
  chain : Id
  time : Timestamp
  /-- The transactions of the block have been stored. -/
  txIndexed : Bool
  /-- The events of the block itself have been indexed. -/
  eventsIndexed : Bool
deriving DecidableEq, Repr

/-- A stored transaction. -/
structure TxRow where
  hash : String
  code : Int32
  block : Id
  /-- The address of the signer, if the signer is known. -/
  signer : Option Id
deriving DecidableEq, Repr

/-- A stored message. -/
structure MessageRow where
  tx : Id
  /-- The text that says which action it is. -/
  messageType : Id
  /-- The place among the messages of the transaction. -/
  index : Int64
deriving DecidableEq, Repr

/-- A stored event. -/
structure EventRow where
  message : Id
  /-- The text that says what happened. -/
  eventType : Id
  /-- The place among the events of the message. -/
  index : Int64
deriving DecidableEq, Repr

/-- A stored attribute. -/
structure AttributeRow where
  event : Id
  /-- The text that names it. -/
  key : Id
  /-- The place among the attributes of the event. -/
  index : Int64
  value : String
deriving DecidableEq, Repr

/-- A height that failed and has to be tried again. -/
structure MarkerRow where
  height : Int64
  chain : Id
deriving DecidableEq, Repr

/-- A stored unit of a denomination. -/
structure DenomUnitRow where
  denom : Id
  /-- The power of ten. -/
  exponent : Int64
  name : String
deriving DecidableEq, Repr

/-- The place of a row among those that share its parent. -/
structure Slot where
  parent : Id
  /-- The place below the parent. -/
  index : Int64
deriving DecidableEq, Repr

namespace Slot

instance : Ord Slot where
  compare := compareLex (compareOn parent) (compareOn index)

instance : Std.TransOrd Slot :=
  inferInstanceAs (Std.TransCmp (compareLex (compareOn parent) (compareOn index)))

instance : Std.LawfulEqOrd Slot where
  eq_of_compare {a b} h := by
    have h : (compare a.parent b.parent).then (compare a.index b.index) = .eq := h
    obtain ⟨parents, indexes⟩ := Ordering.then_eq_eq.1 h
    cases a; cases b
    cases Std.LawfulEqOrd.eq_of_compare parents
    cases Std.LawfulEqOrd.eq_of_compare indexes
    rfl

end Slot

namespace BlockRow

/-- The chain and the height, of which there is one block. -/
def slot (row : BlockRow) : Slot :=
  ⟨row.chain, row.height⟩

/-- The time of the stored block is known. -/
def IsDated (row : BlockRow) : Prop :=
  row.time ≠ Timestamp.zero

instance (row : BlockRow) : Decidable row.IsDated :=
  inferInstanceAs (Decidable (_ ≠ _))

end BlockRow

/-- The chain and the height, of which there is one marker. -/
def MarkerRow.slot (row : MarkerRow) : Slot :=
  ⟨row.chain, row.height⟩

/-- The place below the transaction. -/
def MessageRow.slot (row : MessageRow) : Slot :=
  ⟨row.tx, row.index⟩

/-- The place below the message. -/
def EventRow.slot (row : EventRow) : Slot :=
  ⟨row.message, row.index⟩

/-- The place below the event. -/
def AttributeRow.slot (row : AttributeRow) : Slot :=
  ⟨row.event, row.index⟩

end BlockArchive
