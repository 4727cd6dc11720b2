import BlockArchive.Store.Basic

/-!
# Reading rows back

A query tells the rows it has found only if all of them can be read back. Every row can but a block
whose time lies past the years of an instant.

## Main definitions

- `TableName.unreadable?`: why a stored row cannot be read back
- `TableName.readAll`, `TableName.readOption`: the rows that a query has found
-/

namespace BlockArchive.TableName

/-- Why a stored row cannot be read back. -/
def unreadable? : (n : TableName) → n.Row → Option QueryError
  | blocks, row => if row.time.IsReadable then none else some .timeTooLarge
  | _, _ => none

/-- A row that a query has found. -/
def read (n : TableName) (entry : Entry n.Row) : Except Failure (Entry n.Row) :=
  match n.unreadable? entry.row with
  | some cause => .error (.query cause)
  | none => .ok entry

/-- The rows that a query has found. -/
def readAll (n : TableName) (entries : List (Entry n.Row)) : Except Failure (List (Entry n.Row)) :=
  entries.mapM n.read

/-- The row that a query has found, if it has found any. -/
def readOption (n : TableName) (entry : Option (Entry n.Row)) :
    Except Failure (Option (Entry n.Row)) :=
  entry.mapM n.read

end BlockArchive.TableName
