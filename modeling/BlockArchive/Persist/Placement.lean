import BlockArchive.Failure
import BlockArchive.Schema.Row
import Std.Data.ExtTreeMap

/-!
# Placement

Messages, events and attributes are written in the order of their places, which is seldom the order
in which a block lists them. Each candidate for a place either has a row or a reason why it can have
none; the candidates are gone through as the block lists them, and the first that fails or finds its
place taken ends the search.

## Main definitions

- `Candidate`: a row that wants a place, or the reason why there is none
- `placeAll`: the rows in the order of their places
-/

namespace BlockArchive

/-- A row that wants a place, or the reason why there is none. -/
abbrev Candidate (ρ : Type) := Except Failure ρ

/-- How a place is written. -/
def Slot.text (slot : Slot) : String :=
  toString slot.parent ++ "/" ++ toString slot.index.toInt

/-- Puts a candidate in its place, which must be free. -/
def place {ρ : Type} (entity : String) (slot : ρ → Slot) (placed : Std.ExtTreeMap Slot ρ)
    (candidate : Candidate ρ) : Except Failure (Std.ExtTreeMap Slot ρ) := do
  let row ← candidate
  if slot row ∈ placed then
    throw (.duplicateIndex entity (slot row).text)
  return placed.insert (slot row) row

/-- The rows of the candidates in ascending order of their places. -/
def placeAll {ρ : Type} (entity : String) (slot : ρ → Slot) (candidates : List (Candidate ρ)) :
    Except Failure (List ρ) :=
  (candidates.foldlM (place entity slot) ∅).map fun placed => placed.values

end BlockArchive
