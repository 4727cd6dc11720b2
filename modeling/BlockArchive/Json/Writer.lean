import BlockArchive.Json.Basic

/-!
# Writing JSON

A document is written on one line, without spaces. Of the characters of a text, the quote, the
backslash and the control characters are escaped, by a letter where there is one for the character
and otherwise by their code.

## Main definitions

- `Json.render`: the text of a document
-/

namespace BlockArchive

namespace JsonText

/-- The hexadecimal digit of a number below sixteen. -/
def hexDigit (d : Nat) : Char :=
  if d < 10 then Char.ofNat ('0'.toNat + d) else Char.ofNat ('a'.toNat + d - 10)

/-- The letter that stands for a character after a backslash. -/
def letterFor? (c : Char) : Option Char :=
  match c with
  | '"' => some '"'
  | '\\' => some '\\'
  | '\x08' => some 'b'
  | '\x0c' => some 'f'
  | '\n' => some 'n'
  | '\r' => some 'r'
  | '\t' => some 't'
  | _ => none

/-- A character as it stands inside a text. -/
def writeChar (c : Char) : String :=
  match letterFor? c with
  | some letter => String.ofList ['\\', letter]
  | none =>
    if c.toNat < 0x20 then
      String.ofList ['\\', 'u', '0', '0', hexDigit (c.toNat / 16), hexDigit (c.toNat % 16)]
    else String.singleton c

/-- A text with the quotes around it. -/
def writeString (s : String) : String :=
  "\"" ++ s.foldl (fun written c => written ++ writeChar c) "" ++ "\""

end JsonText

namespace Json

mutual

/-- The text of a document. -/
def render : Json → String
  | .null => "null"
  | .bool b => if b then "true" else "false"
  | .int n => toString n
  | .decimal text => text
  | .str s => JsonText.writeString s
  | .arr items => "[" ++ renderItems items ++ "]"
  | .obj fields => "\x7b" ++ renderFields fields ++ "\x7d"

/-- The items of a list, with commas between them. -/
def renderItems : List Json → String
  | [] => ""
  | [j] => j.render
  | j :: rest => j.render ++ "," ++ renderItems rest

/-- The fields of an object, with commas between them. -/
def renderFields : List (String × Json) → String
  | [] => ""
  | [(name, j)] => JsonText.writeString name ++ ":" ++ j.render
  | (name, j) :: rest => JsonText.writeString name ++ ":" ++ j.render ++ "," ++ renderFields rest

end

end Json

end BlockArchive
