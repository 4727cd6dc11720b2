import BlockArchive.Store.Basic

/-!
# Statements

The statements by which the store changes. Each of them does all that it says or changes no row; the
ids that it took before it was refused stay taken.

## Main definitions

- `StoreM`: changes of the store that may be refused
- `Store.upsert`: stores rows, refreshing those whose keys are stored
- `Store.insertAbsent`: stores the rows whose keys are not stored
- `Store.delete`: takes rows out
- `Carrier`: what carries out a statement
- `Store.upsertOne`: stores one row and tells its id

## Design notes

A row whose texts or time cannot be stored is refused before the statement takes any id. A statement
with two rows of one key is refused at the second of them, and a row that refers to nothing when all
rows have been taken. There is a bound on the rows of one statement, so a batch of rows is cut into
several of them (see `BlockArchive.Store.Cut`); here no statement knows of the others.

What the steps send is told apart from what becomes of it: each step is written with the carrier of
its statements left open, and the step of the archive is the one that `Store.upsert` carries out.
-/

namespace BlockArchive

/-- Changes of the store that may be refused. -/
abbrev StoreM := EStateM QueryError Store

/-- The character U+0000 occurs in the text. -/
def HasZero (s : String) : Prop :=
  '\x00' ∈ s.toList

instance (s : String) : Decidable (HasZero s) :=
  inferInstanceAs (Decidable (_ ∈ _))

namespace TableName

/-- Why a row cannot be sent to the store at all. -/
def refusal? (n : TableName) (row : n.Row) : Option QueryError :=
  if ∃ s ∈ n.texts row, HasZero s then some .zeroByte
  else
    match n, row with
    | .blocks, row => if row.time.InRange then none else some .timeOutOfRange
    | _, _ => none

end TableName

namespace Store

/-- The row that a reference points at is there. -/
def Resolves (s : Store) (ref : Reference) : Prop :=
  ref.id ∈ (s.get ref.target).rows

instance (s : Store) (ref : Reference) : Decidable (s.Resolves ref) :=
  inferInstanceAs (Decidable (_ ∈ _))

/-- The first reference of the rows that points at nothing. -/
def missingReferent? (s : Store) (n : TableName) (entries : List (Entry n.Row)) :
    Option QueryError :=
  (entries.flatMap fun entry => n.references entry.row).findSome? fun ref =>
    if s.Resolves ref then none else some (.missingReferent n ref.column)

/-- The first reference of any row to a row of `n` that is not there. -/
def stillReferred? (s : Store) (n : TableName) : Option QueryError :=
  TableName.all.findSome? fun m =>
    ((s.get m).entries.flatMap fun entry => m.references entry.row).findSome? fun ref =>
      if ref.target = n ∧ ¬ s.Resolves ref then some (.stillReferred n m ref.column) else none

/-- Stores rows and tells how they are stored. A row whose key is stored refreshes the stored row;
any other row is new. -/
def upsert (n : TableName) (rows : List n.Row) : StoreM (List (Entry n.Row)) := fun s =>
  match rows.findSome? n.refusal? with
  | some cause => .error cause s
  | none =>
    match firstRepeat? (rows.map n.key) with
    | some place => .error .repeatedKey (s.set n ((s.get n).skip (place + 1)))
    | none =>
      let offered := (s.get n).offerBatch n.key n.refresh rows
      let after := s.set n offered.2
      match after.missingReferent? n offered.1 with
      | some cause => .error cause (s.set n ((s.get n).skip rows.length))
      | none => .ok offered.1 after

/-- Stores the rows whose keys are not stored, and leaves stored rows alone. -/
def insertAbsent (n : TableName) (rows : List n.Row) : StoreM Unit := fun s =>
  match rows.findSome? n.refusal? with
  | some cause => .error cause s
  | none =>
    let offered := (s.get n).offerAll n.key (fun stored _ => stored) rows
    let after := s.set n offered.2
    match after.missingReferent? n offered.1 with
    | some cause => .error cause (s.set n ((s.get n).skip rows.length))
    | none => .ok () after

/-- Takes rows out, unless one of them is still referred to. -/
def delete (n : TableName) (doomed : Entry n.Row → Bool) : StoreM Unit := fun s =>
  let after := s.set n ((s.get n).remove doomed)
  match after.stillReferred? n with
  | some cause => .error cause s
  | none => .ok () after

end Store

/-- What carries out a statement that stores rows in a table, and tells how they are stored. -/
abbrev Carrier := (n : TableName) → List n.Row → StoreM (List (Entry n.Row))

/-- Sends one row and tells its id. -/
def Carrier.one (carry : Carrier) (n : TableName) (row : n.Row) : StoreM Id := do
  match ← carry n [row] with
  | entry :: _ => return entry.id
  | [] => throw .notFound

/-- Stores one row and tells its id. -/
def Store.upsertOne : (n : TableName) → n.Row → StoreM Id :=
  Carrier.one Store.upsert

end BlockArchive
