/-!
# Decimal numerals

Unsigned numbers in decimal, written with a set number of digits and read back. Both directions work
on lists of characters, so that a reader can go on with what is left.

## Main definitions

- `Numeral.fixed`: the lowest digits of a number, as many as asked for
- `Numeral.atLeast`: all digits of a number, with zeros in front up to a width
- `Numeral.value`: the number that a list of digits stands for
- `Numeral.read?`: the number that a text starts with
-/

namespace BlockArchive.Numeral

/-- The character of a digit below ten. -/
def digitChar (d : Nat) : Char :=
  Char.ofNat ('0'.toNat + d)

/-- The number that a digit stands for. -/
def digitValue (c : Char) : Nat :=
  c.toNat - '0'.toNat

/-- The `width` lowest digits of `n`, the highest of them first. -/
def fixed : Nat → Nat → List Char
  | 0, _ => []
  | width + 1, n => fixed width (n / 10) ++ [digitChar (n % 10)]

/-- How many digits `n` has. -/
def digitCount (n : Nat) : Nat :=
  if n < 10 then 1 else digitCount (n / 10) + 1

/-- All digits of `n`, with zeros in front if there are fewer than `width`. -/
def atLeast (width n : Nat) : List Char :=
  fixed (max width (digitCount n)) n

/-- The number that the digits stand for, the highest of them first. -/
def value (digits : List Char) : Nat :=
  digits.foldl (fun n c => 10 * n + digitValue c) 0

/-- Reads the number that a text starts with, from at least one and at most `most` digits, and gives
back the rest of the text. -/
def read? (most : Nat) (cs : List Char) : Option (Nat × List Char) :=
  let digits := (cs.take most).takeWhile Char.isDigit
  if digits.isEmpty then none else some (value digits, cs.drop digits.length)

@[simp] theorem length_fixed (width n : Nat) : (fixed width n).length = width := by
  induction width generalizing n with
  | zero => rfl
  | succ width ih => simp [fixed, ih]

example : fixed 3 45 = ['0', '4', '5'] := by decide

example : read? 2 ['0', '7', '5', 'x'] = some (7, ['5', 'x']) := by decide

end BlockArchive.Numeral
