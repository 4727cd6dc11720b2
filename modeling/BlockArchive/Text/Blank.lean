/-!
# Blank characters

A character is blank when it has the Unicode property White_Space. The property holds of 25
characters and has not changed since U+180E lost it.

## Main definitions

- `Text.isBlank`: the property of one character
- `Text.skipBlanks`: a text without the blanks it starts with
- `Text.allBlank`: a text that has nothing but blanks
-/

namespace BlockArchive.Text

/-- The code points of the blank characters: closed ranges, ascending and apart. -/
def blankRanges : List (Nat × Nat) :=
  [(0x09, 0x0D), (0x20, 0x20), (0x85, 0x85), (0xA0, 0xA0), (0x1680, 0x1680), (0x2000, 0x200A),
    (0x2028, 0x2029), (0x202F, 0x202F), (0x205F, 0x205F), (0x3000, 0x3000)]

/-- Whether the character has the property White_Space. -/
def isBlank (c : Char) : Bool :=
  blankRanges.any fun range => range.1 ≤ c.toNat && c.toNat ≤ range.2

/-- The text after the blanks it starts with. -/
def skipBlanks (cs : List Char) : List Char :=
  cs.dropWhile isBlank

/-- Whether nothing is left of the text once the blanks around it are cut off. -/
def allBlank (s : String) : Bool :=
  s.toList.all isBlank

/-- The table has 25 characters. -/
example : (blankRanges.map fun range => range.2 + 1 - range.1).sum = 25 := by decide

end BlockArchive.Text
