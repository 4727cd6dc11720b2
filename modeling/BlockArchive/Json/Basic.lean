import Std.Data.ExtTreeSet

/-!
# JSON documents

A document keeps the fields of an object in the order in which they came. Whole numbers are told
apart from numbers that are written with a fraction or an exponent, since only the former stand for
a count, an index or a key.

## Main definitions

- `Json`: a document
- `Json.get?`: the value of a field
- `Json.lastOfEach`: the fields of an object that may repeat a name
- `Json.int64?`, `Json.int32?`, `Json.uint32?`, `Json.uint64?`: the machine word that a document is
-/

namespace BlockArchive

/-- A JSON document. -/
inductive Json where
  | null
  | bool (b : Bool)
  /-- A number written as an optional sign and digits; `-0` is not one of them. -/
  | int (n : Int)
  /-- Any other number, as it is written. -/
  | decimal (text : String)
  | str (s : String)
  | arr (items : List Json)
  /-- Documents by name; no name occurs twice. -/
  | obj (fields : List (String × Json))
deriving Inhabited

namespace Json

/-- Puts fields before `later`, given the latest first; those whose names have been seen are left
out. -/
def lastOfEachBefore (later : List (String × Json)) (seen : Std.ExtTreeSet String) :
    List (String × Json) → List (String × Json)
  | [] => later
  | field :: earlier =>
    if field.1 ∈ seen then lastOfEachBefore later seen earlier
    else lastOfEachBefore (field :: later) (seen.insert field.1) earlier

/-- The fields in the order in which they came, given the latest first. Of those with one name only
the last is left. -/
def lastOfEach (fields : List (String × Json)) : List (String × Json) :=
  lastOfEachBefore [] ∅ fields

/-- The value of the field `name`, if the document is an object that has one. -/
def get? (j : Json) (name : String) : Option Json :=
  match j with
  | .obj fields => fields.lookup name
  | _ => none

/-- The text that the document is. -/
def str? : Json → Option String
  | .str s => some s
  | _ => none

/-- The truth value that the document is. -/
def bool? : Json → Option Bool
  | .bool b => some b
  | _ => none

/-- The list that the document is, each item read by `read`. -/
def list? {α : Type} (read : Json → Option α) : Json → Option (List α)
  | .arr items => items.mapM read
  | _ => none

/-- A value that may be `null`, otherwise read by `read`. -/
def nullable? {α : Type} (read : Json → Option α) : Json → Option (Option α)
  | .null => some none
  | j => (read j).map some

/-- The whole number that the document is, if it lies between the bounds. -/
def intBetween? (lo hi : Int) : Json → Option Int
  | .int n => if lo ≤ n ∧ n ≤ hi then some n else none
  | _ => none

/-- The signed 64-bit word that the document is. -/
def int64? (j : Json) : Option Int64 :=
  (j.intBetween? Int64.minValue.toInt Int64.maxValue.toInt).map Int64.ofInt

/-- The signed 32-bit word that the document is. -/
def int32? (j : Json) : Option Int32 :=
  (j.intBetween? Int32.minValue.toInt Int32.maxValue.toInt).map Int32.ofInt

/-- The unsigned 32-bit word that the document is. -/
def uint32? (j : Json) : Option UInt32 :=
  (j.intBetween? 0 (UInt32.size - 1)).map fun n => UInt32.ofNat n.toNat

/-- The unsigned 64-bit word that the document is. -/
def uint64? (j : Json) : Option UInt64 :=
  (j.intBetween? 0 (UInt64.size - 1)).map fun n => UInt64.ofNat n.toNat

/-- The document of a signed 64-bit word. -/
def ofInt64 (n : Int64) : Json :=
  .int n.toInt

/-- The document of a count. -/
def ofNat (n : Nat) : Json :=
  .int n

/-- The document of a value that may be missing. -/
def ofOption {α : Type} (write : α → Json) : Option α → Json
  | none => .null
  | some a => write a

/-- A word that is written as a number is read back. -/
@[simp] theorem int64?_ofInt64 (n : Int64) : (ofInt64 n).int64? = some n := by
  have lo := n.minValue_le_toInt
  have hi := n.toInt_le
  simp only [ofInt64, int64?, intBetween?]
  rw [if_pos ⟨lo, hi⟩]
  simp

end Json

end BlockArchive
