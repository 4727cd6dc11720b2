import BlockArchive.Text.Blank
import BlockArchive.Text.Numeral
import BlockArchive.Time.Instant

/-!
# Written times

Times are written in the RFC 3339 form: UTC, with as many of 3, 6 or 9 decimals as are needed, and a
sign before years outside 0 to 9999. Reading is more lenient than writing: blanks may stand before
each number, before the marks between numbers, before the offset and at the end, numbers may have
fewer digits, and the date and the time may be parted by a space.

## Main definitions

- `Instant.text`: an instant as it is written
- `Instant.read?`: the instant that a text stands for
- `TimeText.write`: the text of any count of seconds since 0001-01-01T00:00:00Z

## Design notes

Both the date as written and the date in UTC have to lie in the years of an instant.
-/

namespace BlockArchive

namespace TimeText

/-- A year: four digits, or a sign and at least four outside 0 to 9999. -/
def writeYear (year : Int) : List Char :=
  if 0 ≤ year ∧ year ≤ 9999 then Numeral.fixed 4 year.toNat
  else (if year < 0 then '-' else '+') :: Numeral.atLeast 4 year.natAbs

/-- A fraction of a second, given in nanoseconds, with the fewest of 0, 3, 6 or 9 decimals. -/
def writeFraction (nano : Nat) : List Char :=
  if nano = 0 then []
  else if nano % 1000000 = 0 then '.' :: Numeral.fixed 3 (nano / 1000000)
  else if nano % 1000 = 0 then '.' :: Numeral.fixed 6 (nano / 1000)
  else '.' :: Numeral.fixed 9 nano

/-- The moment `second` seconds and `nano` nanoseconds after 0001-01-01T00:00:00Z, or as far into
the leap second after it. -/
def write (second : Int) (nano : Nat) (leap : Bool) : List Char :=
  let date := Date.ofDayNumber (second / 86400)
  let time := (second % 86400).toNat
  writeYear date.year ++ '-' :: Numeral.fixed 2 date.month ++ '-' :: Numeral.fixed 2 date.day ++
    'T' :: Numeral.fixed 2 (time / 3600) ++ ':' :: Numeral.fixed 2 (time / 60 % 60) ++
    ':' :: Numeral.fixed 2 (time % 60 + if leap then 1 else 0) ++ writeFraction nano ++ ['Z']

/-- A reader takes what it needs from the start of a text and leaves the rest. -/
abbrev Reader (α : Type) := StateT (List Char) Option α

/-- An unsigned number of at most `most` digits, after any blanks. -/
def number (most : Nat) : Reader Nat := fun cs =>
  Numeral.read? most (Text.skipBlanks cs)

/-- The given mark, after any blanks. -/
def mark (c : Char) : Reader Unit := fun cs =>
  match Text.skipBlanks cs with
  | [] => none
  | d :: rest => if d = c then some ((), rest) else none

/-- A year after any blanks: up to four digits, or a sign and any number of them. -/
def year : Reader Int := fun cs =>
  match Text.skipBlanks cs with
  | '-' :: rest => (Numeral.read? rest.length rest).map fun p => (-(p.1 : Int), p.2)
  | '+' :: rest => (Numeral.read? rest.length rest).map fun p => ((p.1 : Int), p.2)
  | cs => (Numeral.read? 4 cs).map fun p => ((p.1 : Int), p.2)

/-- A date of the calendar. -/
def date : Reader Date := do
  let year ← year
  mark '-'
  let month ← number 2
  mark '-'
  let day ← number 2
  let date : Date := { year, month, day }
  if date.Exists then return date else failure

/-- What parts a date from a time: one of `T`, `t` and a space. -/
def separator : Reader Unit := fun
  | 'T' :: rest | 't' :: rest | ' ' :: rest => some ((), rest)
  | _ => none

/-- A fraction of a second in nanoseconds, zero if there is none; digits beyond nine are cut off. -/
def fraction : Reader Nat := fun
  | '.' :: rest =>
    let digits := rest.takeWhile Char.isDigit
    if digits.isEmpty then none
    else some (Numeral.value ((digits ++ List.replicate 9 '0').take 9), rest.drop digits.length)
  | cs => some (0, cs)

/-- What may stand between the hours and the minutes of an offset: colons and blanks. -/
def isOffsetGap (c : Char) : Bool :=
  c == ':' || Text.isBlank c

/-- Two digits that stand for less than `bound`. -/
def twoDigits (bound : Nat) : Reader Nat := fun
  | c :: d :: rest =>
    let n := Numeral.value [c, d]
    if c.isDigit && d.isDigit && n < bound then some (n, rest) else none
  | _ => none

/-- A signed distance from UTC in seconds, less than a day; the sign may be the true minus. -/
def distance : Reader Int := do
  let sign : Int ← fun
    | '+' :: rest => some (1, rest)
    | '-' :: rest | '\u2212' :: rest => some (-1, rest)
    | _ => none
  let hours ← twoDigits 24
  modify (·.dropWhile isOffsetGap)
  let minutes ← twoDigits 60
  return sign * (hours * 3600 + minutes * 60)

/-- An offset from UTC in seconds: `Z`, the letters `UTC`, both in either case, or a distance. -/
def offset : Reader Int := fun cs =>
  match Text.skipBlanks cs with
  | 'Z' :: rest | 'z' :: rest => some (0, rest)
  | cs =>
    if (cs.take 3).map Char.toUpper = ['U', 'T', 'C'] then some (0, cs.drop 3) else distance cs

/-- A date, a time of day and an offset, as an instant. -/
def instant : Reader Instant := do
  let date ← date
  separator
  let hour ← number 2
  mark ':'
  let minute ← number 2
  mark ':'
  let second ← number 2
  let nano ← fraction
  let offset ← offset
  unless hour ≤ 23 ∧ minute ≤ 59 ∧ second ≤ 60 do failure
  let leap := second == 60
  let wall := date.dayNumber * 86400 + (hour * 3600 + minute * 60 + if leap then 59 else second)
  -- the date as written has to lie in the years of an instant, and so has the date in UTC
  let _ ← Instant.ofParts? wall nano leap
  Instant.ofParts? (wall - offset) nano leap

end TimeText

namespace Instant

/-- The instant as it is written. -/
def text (t : Instant) : String :=
  String.ofList (TimeText.write t.second t.nano t.leap)

/-- The instant that the text stands for. Nothing but blanks may follow it. -/
def read? (s : String) : Option Instant := do
  let (t, rest) ← TimeText.instant s.toList
  if rest.all Text.isBlank then some t else none

example : zero.text = "0001-01-01T00:00:00Z" := by decide +kernel

example : (read? "2016-12-31 23:59:60.50 +00:30").map text = some "2016-12-31T23:29:60.500Z" := by
  decide +kernel

end Instant

end BlockArchive
