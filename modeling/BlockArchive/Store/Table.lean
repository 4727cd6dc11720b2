import BlockArchive.Chain
import Std.Data.ExtTreeMap
import Std.Data.ExtTreeSet

/-!
# Tables

Rows by id. A table gives every row that is offered to it the next id, whether the row is new or
takes the place of one that is there, so an id is never given twice.

## Main definitions

- `Entry`: a stored row with its id
- `Table`: the rows of a table and the id that comes next
- `Table.settle`: what becomes of a row that is offered
- `Table.offer`, `Table.offerAll`: offering one row, or many one after the other
- `Table.offerBatch`: offering rows all at once
- `Table.remove`, `Table.skip`: taking rows out, or ids away
- `firstRepeat?`: the place of the first key of a batch that occurs in it before

## Design notes

Which part of a row is its key, and what becomes of a stored row whose key is offered again, are
parameters: a table does not know what it holds.

Rows that are offered all at once meet the rows that were there before any of them was, and not each
other. That is why their keys have to differ.
-/

namespace BlockArchive

/-- A stored row and its id. -/
structure Entry (ρ : Type) where
  /-- The key by which other rows refer to the row. -/
  id : Id
  row : ρ
deriving DecidableEq, Repr

/-- The ids of stored rows by a part of the row; of rows that share it, the last counts. -/
def Entry.idsBy {ρ κ : Type} [Ord κ] [Std.TransOrd κ] (part : ρ → κ) (entries : List (Entry ρ)) :
    Std.ExtTreeMap κ Id :=
  Std.ExtTreeMap.ofList (entries.map fun entry => (part entry.row, entry.id))

/-- The place of the first key that is among those seen or occurs before, if the first of them has
the place given. -/
def firstRepeatFrom? {κ : Type} [Ord κ] [Std.TransOrd κ] (seen : Std.ExtTreeSet κ) (place : Nat) :
    List κ → Option Nat
  | [] => none
  | key :: rest =>
    if key ∈ seen then some place else firstRepeatFrom? (seen.insert key) (place + 1) rest

/-- The place of the first key that occurs before. -/
def firstRepeat? {κ : Type} [Ord κ] [Std.TransOrd κ] (keys : List κ) : Option Nat :=
  firstRepeatFrom? ∅ 0 keys

/-- The rows of a table. -/
structure Table (ρ : Type) where
  rows : Std.ExtTreeMap Id ρ := ∅
  /-- The id that is given next. -/
  nextId : Id := 1

namespace Table

variable {ρ κ : Type}

instance [DecidableEq ρ] : DecidableEq (Table ρ) := fun a b =>
  decidable_of_iff (a.rows = b.rows ∧ a.nextId = b.nextId) (by cases a; cases b; simp)

instance : EmptyCollection (Table ρ) := ⟨{}⟩

@[ext] theorem ext {s t : Table ρ} (rows : s.rows = t.rows) (nextId : s.nextId = t.nextId) :
    s = t := by
  cases s; cases t; cases rows; cases nextId; rfl

/-- The rows with their ids, in ascending order of the ids. -/
def entries (t : Table ρ) : List (Entry ρ) :=
  t.rows.toList.map fun row => ⟨row.1, row.2⟩

/-- The stored row that has a key. -/
def find? [DecidableEq κ] (t : Table ρ) (key : ρ → κ) (k : κ) : Option (Entry ρ) :=
  t.entries.find? fun entry => key entry.row = k

/-- The table after `count` ids have been taken for nothing. -/
def skip (t : Table ρ) (count : Nat) : Table ρ :=
  { t with nextId := t.nextId + count }

/-- The rows of `before` with the ids that are left in `after`. -/
def rollback (before after : Table ρ) : Table ρ :=
  { before with nextId := after.nextId }

/-- The table without the rows that are to go. -/
def remove (t : Table ρ) (doomed : Entry ρ → Bool) : Table ρ :=
  { t with rows := t.rows.filter fun id row => !doomed ⟨id, row⟩ }

variable [DecidableEq κ]

/-- What becomes of a row that is offered and takes the id. Where a stored row has its key, that row
is refreshed and keeps its own id; otherwise the row is stored under the id it took. -/
def settle (t : Table ρ) (key : ρ → κ) (refresh : ρ → ρ → ρ) (id : Id) (row : ρ) : Entry ρ :=
  match t.find? key (key row) with
  | some stored => ⟨stored.id, refresh stored.row row⟩
  | none => ⟨id, row⟩

omit [DecidableEq κ] in
/-- The table with a row that has settled, for which an id has been taken. -/
def put (t : Table ρ) (entry : Entry ρ) : Table ρ where
  rows := t.rows.insert entry.id entry.row
  nextId := t.nextId + 1

/-- Offers a row, which takes the next id. -/
def offer (t : Table ρ) (key : ρ → κ) (refresh : ρ → ρ → ρ) (row : ρ) : Entry ρ × Table ρ :=
  let entry := t.settle key refresh t.nextId row
  (entry, t.put entry)

/-- Offers rows one after the other. -/
def offerAll (t : Table ρ) (key : ρ → κ) (refresh : ρ → ρ → ρ) :
    List ρ → List (Entry ρ) × Table ρ
  | [] => ([], t)
  | row :: rest =>
    let first := t.offer key refresh row
    let others := first.2.offerAll key refresh rest
    (first.1 :: others.1, others.2)

/-- Offers rows all at once: each of them settles in the table as it is before. -/
def offerBatch (t : Table ρ) (key : ρ → κ) (refresh : ρ → ρ → ρ) (rows : List ρ) :
    List (Entry ρ) × Table ρ :=
  let told := rows.zipIdx.map fun (row, place) => t.settle key refresh (t.nextId + place) row
  (told, told.foldl put t)

@[simp] theorem nextId_offer (t : Table ρ) (key : ρ → κ) (refresh : ρ → ρ → ρ) (row : ρ) :
    (t.offer key refresh row).2.nextId = t.nextId + 1 := rfl

/-- Every row that is offered takes an id. -/
theorem nextId_offerAll (t : Table ρ) (key : ρ → κ) (refresh : ρ → ρ → ρ) (rows : List ρ) :
    (t.offerAll key refresh rows).2.nextId = t.nextId + rows.length := by
  induction rows generalizing t with
  | nil => simp [offerAll]
  | cons row rest ih =>
    simp only [offerAll, ih, nextId_offer, List.length_cons, Int.natCast_succ]
    exact (Int.add_assoc ..).trans (congrArg _ (Int.add_comm ..))

end Table

end BlockArchive
