import BlockArchive.Json.Basic
import BlockArchive.Text.Numeral

/-!
# Reading JSON

A text is read in one pass, a character at a time, by a machine that keeps the containers it has
opened on a stack. Of a name that an object repeats the last value counts.

## Main definitions

- `Json.read?`: the document that a text stands for
- `JsonText.State`: the containers that are open, and what the machine is in the middle of
- `JsonText.step`: what one character does

## Design notes

The machine's memory is the recursion of the grammar laid out as data, so reading is a fold over the
characters and needs no bound on the depth of a document.
-/

namespace BlockArchive

namespace JsonText

/-- A container that is open. -/
inductive Frame where
  /-- A list with its items so far, the latest first. -/
  | list (items : List Json)
  /-- An object with its fields so far, the latest first, between two of them. -/
  | object (fields : List (String × Json))
  /-- An object with its fields so far, inside the field `name`. -/
  | field (fields : List (String × Json)) (name : String)

/-- What the machine expects or is in the middle of. Texts, numbers and words are kept with their
latest character first. -/
inductive Mode where
  /-- A value has to follow. -/
  | value
  /-- A value or the end of a list that has just been opened. -/
  | firstItem
  | name
  /-- The name of a field or the end of an object that has just been opened. -/
  | firstName
  | colon
  /-- A comma or the end of a container. -/
  | next
  /-- Inside a text. -/
  | text (chars : List Char)
  /-- After a backslash inside a text. -/
  | escape (chars : List Char)
  /-- Inside the four digits of a UTF-16 unit, `left` of them missing; `high` is a first half. -/
  | unit (chars : List Char) (high : Option Nat) (left : Nat) (code : Nat)
  /-- After the first half of a pair of units. -/
  | pair (chars : List Char) (high : Nat)
  /-- After the backslash of the second half of a pair. -/
  | pairEscape (chars : List Char) (high : Nat)
  | number (chars : List Char)
  | word (chars : List Char)
  | done (j : Json)

/-- The machine between two characters. -/
structure State where
  /-- The open containers, the innermost first. -/
  stack : List Frame := []
  /-- What the machine expects or is in the middle of. -/
  mode : Mode := .value

/-- The characters that may stand between the parts of a document. -/
def isSpace (c : Char) : Bool :=
  c == ' ' || c == '\t' || c == '\n' || c == '\r'

/-- The characters of numbers. -/
def isNumberChar (c : Char) : Bool :=
  c.isDigit || c == '-' || c == '+' || c == '.' || c == 'e' || c == 'E'

/-- The fraction and the exponent of a number, both of which may be missing, and nothing else. -/
def isNumberTail (cs : List Char) : Bool :=
  let exponent (cs : List Char) : Bool :=
    match cs with
    | [] => true
    | e :: rest =>
      let digits := match rest with
        | '+' :: digits | '-' :: digits => digits
        | digits => digits
      (e == 'e' || e == 'E') && !digits.isEmpty && digits.all Char.isDigit
  match cs with
  | '.' :: rest => (rest.takeWhile Char.isDigit).length > 0 && exponent (rest.dropWhile Char.isDigit)
  | cs => exponent cs

/-- The number that the characters stand for. -/
def number? (cs : List Char) : Option Json :=
  let negative := cs.head? == some '-'
  let unsigned := if negative then cs.drop 1 else cs
  let digits := unsigned.takeWhile Char.isDigit
  let tail := unsigned.dropWhile Char.isDigit
  let n : Int := Numeral.value digits
  if digits.isEmpty || (digits.head? == some '0' && digits.length > 1) || !isNumberTail tail then none
  else if !tail.isEmpty || (negative && n == 0) then some (.decimal (String.ofList cs))
  else some (.int (if negative then -n else n))

/-- The document that a literal word stands for. -/
def word? (cs : List Char) : Option Json :=
  if cs = "null".toList then some .null
  else if cs = "true".toList then some (.bool true)
  else if cs = "false".toList then some (.bool false)
  else none

/-- Puts a complete value where it belongs. -/
def place (stack : List Frame) (j : Json) : Option State :=
  match stack with
  | [] => some ⟨[], .done j⟩
  | .list items :: outer => some ⟨.list (j :: items) :: outer, .next⟩
  | .field fields name :: outer => some ⟨.object ((name, j) :: fields) :: outer, .next⟩
  | .object _ :: _ => none

/-- Puts a complete text where it belongs: as the name of a field, or as a value. -/
def placeText (stack : List Frame) (chars : List Char) : Option State :=
  let s := String.ofList chars.reverse
  match stack with
  | .object fields :: outer => some ⟨.field fields s :: outer, .colon⟩
  | stack => place stack (.str s)

/-- The start of a value. -/
def startValue (stack : List Frame) (c : Char) : Option State :=
  if c = '"' then some ⟨stack, .text []⟩
  else if c = '[' then some ⟨.list [] :: stack, .firstItem⟩
  else if c = '\x7b' then some ⟨.object [] :: stack, .firstName⟩
  else if c.isDigit || c == '-' then some ⟨stack, .number [c]⟩
  else if c.isAlpha then some ⟨stack, .word [c]⟩
  else none

/-- The end of the innermost container. -/
def close (stack : List Frame) (c : Char) : Option State :=
  match stack with
  | .list items :: outer => if c = ']' then place outer (.arr items.reverse) else none
  | .object fields :: outer =>
    if c = '\x7d' then place outer (.obj (Json.lastOfEach fields)) else none
  | _ => none

/-- A character between the parts of a document. -/
def stepBetween (s : State) (c : Char) : Option State :=
  if isSpace c then some s
  else
    match s.mode with
    | .value => startValue s.stack c
    | .firstItem => if c = ']' then close s.stack c else startValue s.stack c
    | .name => if c = '"' then some ⟨s.stack, .text []⟩ else none
    | .firstName =>
      if c = '\x7d' then close s.stack c else if c = '"' then some ⟨s.stack, .text []⟩ else none
    | .colon => if c = ':' then some ⟨s.stack, .value⟩ else none
    | .next =>
      if c = ',' then
        match s.stack with
        | .list _ :: _ => some ⟨s.stack, .value⟩
        | .object _ :: _ => some ⟨s.stack, .name⟩
        | _ => none
      else close s.stack c
    | _ => none

/-- The character that a letter after a backslash stands for. -/
def escaped? (c : Char) : Option Char :=
  match c with
  | '"' => some '"'
  | '\\' => some '\\'
  | '/' => some '/'
  | 'b' => some '\x08'
  | 'f' => some '\x0c'
  | 'n' => some '\n'
  | 'r' => some '\r'
  | 't' => some '\t'
  | _ => none

/-- The value of a hexadecimal digit. -/
def hexDigit? (c : Char) : Option Nat :=
  if c.isDigit then some (c.toNat - '0'.toNat)
  else if 'a' ≤ c ∧ c ≤ 'f' then some (c.toNat - 'a'.toNat + 10)
  else if 'A' ≤ c ∧ c ≤ 'F' then some (c.toNat - 'A'.toNat + 10)
  else none

/-- A complete UTF-16 unit: a character, the first half of one, or the second half. -/
def stepUnit (stack : List Frame) (chars : List Char) (high : Option Nat) (code : Nat) :
    Option State :=
  match high with
  | some high =>
    if 0xDC00 ≤ code ∧ code ≤ 0xDFFF then
      let c := Char.ofNat (0x10000 + (high - 0xD800) * 0x400 + (code - 0xDC00))
      some ⟨stack, .text (c :: chars)⟩
    else none
  | none =>
    if 0xD800 ≤ code ∧ code ≤ 0xDBFF then some ⟨stack, .pair chars code⟩
    else if 0xDC00 ≤ code ∧ code ≤ 0xDFFF then none
    else some ⟨stack, .text (Char.ofNat code :: chars)⟩

/-- What one character does; `none` if it cannot stand there. -/
def step (s : State) (c : Char) : Option State :=
  match s.mode with
  | .text chars =>
    if c = '"' then placeText s.stack chars
    else if c = '\\' then some ⟨s.stack, .escape chars⟩
    else if c.toNat < 0x20 then none
    else some ⟨s.stack, .text (c :: chars)⟩
  | .escape chars =>
    if c = 'u' then some ⟨s.stack, .unit chars none 4 0⟩
    else (escaped? c).map fun e => ⟨s.stack, .text (e :: chars)⟩
  | .unit chars high left code => do
    let digit ← hexDigit? c
    let code := code * 16 + digit
    if left ≤ 1 then stepUnit s.stack chars high code
    else some ⟨s.stack, .unit chars high (left - 1) code⟩
  | .pair chars high => if c = '\\' then some ⟨s.stack, .pairEscape chars high⟩ else none
  | .pairEscape chars high => if c = 'u' then some ⟨s.stack, .unit chars (some high) 4 0⟩ else none
  | .number chars =>
    if isNumberChar c then some ⟨s.stack, .number (c :: chars)⟩
    else do
      let s ← place s.stack (← number? chars.reverse)
      match s.mode with
      | .done _ => if isSpace c then some s else none
      | _ => stepBetween s c
  | .word chars =>
    if c.isAlpha then some ⟨s.stack, .word (c :: chars)⟩
    else do
      let s ← place s.stack (← word? chars.reverse)
      match s.mode with
      | .done _ => if isSpace c then some s else none
      | _ => stepBetween s c
  | .done _ => if isSpace c then some s else none
  | _ => stepBetween s c

/-- The document, if the machine has read all of one. -/
def finish (s : State) : Option Json :=
  match s.stack, s.mode with
  | [], .done j => some j
  | [], .number chars => number? chars.reverse
  | [], .word chars => word? chars.reverse
  | _, _ => none

end JsonText

/-- The document that the text stands for. -/
def Json.read? (s : String) : Option Json :=
  (s.toList.foldlM JsonText.step ({} : JsonText.State)).bind JsonText.finish

end BlockArchive
