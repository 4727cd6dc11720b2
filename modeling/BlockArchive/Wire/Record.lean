import BlockArchive.Json.Basic

/-!
# Written records

A record is written as an object with a field for each of its parts. It may also be written as the
list of the parts in their order, the last ones left out where they have a default.

## Main definitions

- `Record`: the parts of a record as they are written
- `Record.ofJson?`: the record that a document is
- `Record.required`, `Record.optional`, `Record.defaulted`: how a part is read

## Design notes

Parts that a reader does not ask for are passed over when they are named, but a list may not have
more parts than the record.
-/

namespace BlockArchive

/-- The parts of a record as they are written. -/
inductive Record where
  /-- The parts by name. -/
  | named (fields : List (String × Json))
  /-- The parts in their order. -/
  | listed (values : List Json)

/-- Where a part stands: its place in the order, and its name. -/
structure Part where
  /-- The place, from zero. -/
  place : Nat
  name : String

namespace Record

variable {α : Type}

/-- The record of at most `size` parts that the document is. -/
def ofJson? (size : Nat) : Json → Option Record
  | .obj fields => some (.named fields)
  | .arr values => if values.length ≤ size then some (.listed values) else none
  | _ => none

/-- What is written for a part, if anything is. -/
def get? (record : Record) (part : Part) : Option Json :=
  match record with
  | .named fields => fields.lookup part.name
  | .listed values => values[part.place]?

/-- A part that has to be written. -/
def required (record : Record) (part : Part) (read : Json → Option α) : Option α :=
  (record.get? part).bind read

/-- A part that is `default` where nothing is written. -/
def defaulted (record : Record) (part : Part) (read : Json → Option α) (default : α) : Option α :=
  match record.get? part with
  | none => some default
  | some j => read j

/-- A part that may be missing, or `null`, where the parts are named. -/
def optional (record : Record) (part : Part) (read : Json → Option α) : Option (Option α) :=
  match record, record.get? part with
  | .named _, none => some none
  | _, none => none
  | _, some j => j.nullable? read

end Record

end BlockArchive
