import BlockArchive.Time.Notation

/-!
# Stored times

The store keeps a time as a whole number of microseconds counted from 2000-01-01T00:00:00Z. What is
less than a microsecond is cut off towards that moment, so an earlier time moves up and a later one
down. A leap second is kept as the second after it.

## Main definitions

- `Timestamp`: a stored time
- `Instant.toTimestamp`: the stored form of an instant
- `Timestamp.zero`: the stored form of the time that is not known
- `Timestamp.InRange`: the store can hold the time
- `Timestamp.IsReadable`: the time is that of an instant, and so can be read back

## Design notes

The leap second at the very end of the years of an instant is kept as the second after it, which is
no instant any more: the store holds it, but nobody can read it back.
-/

namespace BlockArchive

/-- A time as the store keeps it. -/
structure Timestamp where
  /-- Microseconds since 2000-01-01T00:00:00Z. -/
  micros : Int
deriving DecidableEq, Repr

namespace Timestamp

/-- Seconds from 0001-01-01T00:00:00Z to 2000-01-01T00:00:00Z. -/
def epoch : Int :=
  Date.dayNumber { year := 2000, month := 1, day := 1 } * 86400

/-- The first moment that the store can hold, -4713-11-24T00:00:00Z. -/
def earliest : Timestamp :=
  ⟨(Date.dayNumber { year := -4713, month := 11, day := 24 } * 86400 - epoch) * 1000000⟩

/-- The store can hold the time. -/
def InRange (t : Timestamp) : Prop :=
  earliest.micros ≤ t.micros

instance (t : Timestamp) : Decidable t.InRange :=
  inferInstanceAs (Decidable (_ ≤ _))

/-- The stored time is that of an instant. -/
def IsReadable (t : Timestamp) : Prop :=
  t.micros < (Date.daysBeforeYear 262143 * 86400 - epoch) * 1000000

instance (t : Timestamp) : Decidable t.IsReadable :=
  inferInstanceAs (Decidable (_ < _))

/-- The stored time as it is written. -/
def text (t : Timestamp) : String :=
  String.ofList
    (TimeText.write (t.micros / 1000000 + epoch) ((t.micros % 1000000).toNat * 1000) false)

end Timestamp

/-- The stored form of an instant. -/
def Instant.toTimestamp (t : Instant) : Timestamp :=
  let second := t.second + if t.leap then 1 else 0
  ⟨Int.tdiv ((second - Timestamp.epoch) * 1000000000 + t.nano) 1000⟩

/-- The stored form of the time that is not known. -/
def Timestamp.zero : Timestamp :=
  Instant.zero.toTimestamp

example : Timestamp.earliest.micros = -211813488000000000 := by decide

example : (Instant.read? "0000-12-31T23:59:59.9999999Z").map Instant.toTimestamp =
    some Timestamp.zero := by decide +kernel

example : (Instant.read? "+262142-12-31T23:59:60Z").map (fun t => decide t.toTimestamp.IsReadable) =
    some false := by decide +kernel

end BlockArchive
