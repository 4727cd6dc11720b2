import BlockArchive.Time.Calendar

/-!
# Instants

A moment of UTC to the nanosecond. Seconds are counted from 0001-01-01T00:00:00Z as if every day had
86400 of them, and a leap second is told apart by a mark on the last second of its minute.

## Main definitions

- `Instant`: a moment of UTC within the years that can be written
- `Instant.zero`: 0001-01-01T00:00:00Z, the time of a block whose time is not known
- `Instant.ofParts?`: the moment with a count of seconds, a fraction and a leap mark
- `Instant.ofUnixSeconds?`: the moment a number of seconds after 1970-01-01T00:00:00Z

## Design notes

The bounds and the place of a leap second are fields of the structure, so that every instant can be
written as a text and no operation has to ask.
-/

namespace BlockArchive

/-- A moment of UTC. -/
structure Instant where
  /-- Seconds since 0001-01-01T00:00:00Z, leap seconds not counted. -/
  second : Int
  /-- Nanoseconds into the second. -/
  nano : Nat
  /-- The moment lies in the leap second that follows `second`. -/
  leap : Bool
  /-- The fraction is less than a second. -/
  nano_lt : nano < 1000000000
  /-- A leap second ends its minute. -/
  second_mod_of_leap : leap = true → second % 60 = 59
  /-- The year is at least -262143. -/
  le_second : Date.daysBeforeYear (-262143) * 86400 ≤ second
  /-- The year is at most 262142. -/
  second_lt : second < Date.daysBeforeYear 262143 * 86400
deriving DecidableEq

namespace Instant

/-- The moment with these parts, or `none` if they do not fit together or lie outside the years of
an instant. -/
def ofParts? (second : Int) (nano : Nat) (leap : Bool) : Option Instant :=
  if h : nano < 1000000000 ∧ (leap = true → second % 60 = 59) ∧
      Date.daysBeforeYear (-262143) * 86400 ≤ second ∧
      second < Date.daysBeforeYear 262143 * 86400 then
    some ⟨second, nano, leap, h.1, h.2.1, h.2.2.1, h.2.2.2⟩
  else none

/-- The beginning of the year 1, which stands for a time that is not known. -/
def zero : Instant where
  second := 0
  nano := 0
  leap := false
  nano_lt := by decide
  second_mod_of_leap := by decide
  le_second := by decide
  second_lt := by decide

/-- Seconds from 0001-01-01T00:00:00Z to 1970-01-01T00:00:00Z. -/
def unixEpoch : Int :=
  Date.dayNumber { year := 1970, month := 1, day := 1 } * 86400

/-- The moment `seconds` after 1970-01-01T00:00:00Z. -/
def ofUnixSeconds? (seconds : Int) : Option Instant :=
  ofParts? (unixEpoch + seconds) 0 false

instance : Inhabited Instant := ⟨zero⟩

@[ext] theorem ext {s t : Instant} (second : s.second = t.second) (nano : s.nano = t.nano)
    (leap : s.leap = t.leap) : s = t := by
  cases s; cases t; cases second; cases nano; cases leap; rfl

theorem ofParts?_eq_some_iff {second : Int} {nano : Nat} {leap : Bool} {t : Instant} :
    ofParts? second nano leap = some t ↔
      t.second = second ∧ t.nano = nano ∧ t.leap = leap := by
  unfold ofParts?
  split
  · next h =>
    constructor
    · intro e; cases e; exact ⟨rfl, rfl, rfl⟩
    · rintro ⟨rfl, rfl, rfl⟩; rfl
  · next h =>
    constructor
    · intro e; cases e
    · rintro ⟨rfl, rfl, rfl⟩
      exact absurd ⟨t.nano_lt, t.second_mod_of_leap, t.le_second, t.second_lt⟩ h

end Instant

end BlockArchive
