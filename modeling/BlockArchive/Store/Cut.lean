import BlockArchive.Schema.Statement
import BlockArchive.Store.Statement

/-!
# Batches of any length

A statement can carry only so many values, so a batch is cut into parts that are sent one after the
other, each in a statement of its own. What the statements tell is taken together.

## Main definitions

- `cut`: a batch in parts of a given length
- `TableName.statements`: the parts in which a batch for a table is sent
- `Carrier.all`: carries out a batch
- `Store.upsertAll`: stores a batch of any length

## Main statements

- `flatten_cut`: the parts hold the rows of the batch in their order
- `length_le_of_mem_cut`: no part is too long
- `cut_append`: the rows that fill a statement are the first part

## Design notes

A statement sees two rows of one key in its own part only. So a batch that has them in different
parts is carried out, and the later row refreshes the earlier one.
-/

namespace BlockArchive

/-- The batch in parts of `size` rows, of which the last one may have fewer. -/
def cut {α : Type} (size : Nat) : List α → List (List α)
  | [] => []
  | row :: rest => (row :: rest.take (size - 1)) :: cut size (rest.drop (size - 1))
termination_by rows => rows.length
decreasing_by
  rw [List.length_drop, List.length_cons]
  omega

section Cut

variable {α : Type} {size : Nat}

theorem cut_nil : cut size ([] : List α) = [] := by
  rw [cut]

theorem cut_cons (row : α) (rest : List α) :
    cut size (row :: rest) = (row :: rest.take (size - 1)) :: cut size (rest.drop (size - 1)) := by
  rw [cut]

/-- The parts hold the rows of the batch, in their order. -/
theorem flatten_cut (size : Nat) (rows : List α) : (cut size rows).flatten = rows := by
  induction rows using cut.induct size with
  | case1 => rw [cut_nil, List.flatten_nil]
  | case2 row rest ih =>
    rw [cut_cons, List.flatten_cons, ih, List.cons_append, List.take_append_drop]

theorem sublist_of_mem_cut {rows part : List α} (h : part ∈ cut size rows) :
    part.Sublist rows := by
  have hsub := List.sublist_flatten_of_mem h
  rwa [flatten_cut] at hsub

/-- No part has more rows than it may have. -/
theorem length_le_of_mem_cut {rows part : List α} (hsize : 0 < size) (h : part ∈ cut size rows) :
    part.length ≤ size := by
  induction rows using cut.induct size with
  | case1 =>
    rw [cut_nil] at h
    cases h
  | case2 row rest ih =>
    rw [cut_cons, List.mem_cons] at h
    rcases h with rfl | h
    · rw [List.length_cons, List.length_take]
      omega
    · exact ih h

/-- The rows that fill a statement are the first part. -/
theorem cut_append {front : List α} (hne : front ≠ []) (hfront : front.length = size)
    (back : List α) : cut size (front ++ back) = front :: cut size back := by
  cases front with
  | nil => exact absurd rfl hne
  | cons row rest =>
    have hsize : size - 1 = rest.length := by
      rw [← hfront, List.length_cons, Nat.add_sub_cancel]
    rw [List.cons_append, cut_cons, hsize, List.take_left, List.drop_left]

end Cut

/-- The most values that a statement can carry. -/
def maxValues : Nat := 65535

namespace TableName

/-- The most rows that a statement can carry: a row has a value for each column besides the id. -/
def rowsPerStatement (n : TableName) : Nat :=
  maxValues / n.columns.length

/-- The parts in which a batch is sent. -/
def statements (n : TableName) (rows : List n.Row) : List (List n.Row) :=
  cut n.rowsPerStatement rows

theorem flatten_statements (n : TableName) (rows : List n.Row) :
    (n.statements rows).flatten = rows :=
  flatten_cut _ rows

end TableName

/-- Carries out a batch statement by statement, and tells how its rows are stored. -/
def Carrier.all (carry : Carrier) (n : TableName) (rows : List n.Row) :
    StoreM (List (Entry n.Row)) := do
  let told ← (n.statements rows).mapM (carry n)
  return told.flatten

namespace Store

/-- Stores a batch of rows and tells how they are stored. -/
abbrev upsertAll : Carrier :=
  Carrier.all upsert

end Store

end BlockArchive
