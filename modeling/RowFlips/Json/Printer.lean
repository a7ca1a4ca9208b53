import RowFlips.Json.Basic
import RowFlips.Text.Hex

/-!
# Writing JSON texts

Reports are written with a line for each element or member, two more spaces of indentation at each
depth. In strings, quotes, backslashes and control characters are escaped.
-/

namespace RowFlips.Json

/-- A character as it stands in a string. -/
def escaped (c : Char) : List Char :=
  if c = '"' then ['\\', '"']
  else if c = '\\' then ['\\', '\\']
  else if c = '\x08' then ['\\', 'b']
  else if c = '\x0c' then ['\\', 'f']
  else if c = '\n' then ['\\', 'n']
  else if c = '\r' then ['\\', 'r']
  else if c = '\t' then ['\\', 't']
  else if c.toNat < 0x20 then '\\' :: 'u' :: Hex.padded 4 c.toNat
  else [c]

/-- A string between quotes; the empty one if it has no text. -/
def quoted (s : Option String) : List Char :=
  '"' :: ((s.getD "").toList.flatMap escaped ++ ['"'])

/-- A new line indented for a depth. -/
def newLine (depth : Nat) : List Char := '\n' :: List.replicate (2 * depth) ' '

mutual

/-- The value as a report writes it at a depth. -/
def lines (depth : Nat) : Json → List Char
  | null => ['n', 'u', 'l', 'l']
  | bool true => ['t', 'r', 'u', 'e']
  | bool false => ['f', 'a', 'l', 's', 'e']
  | number literal => literal
  | string text => quoted text
  | array [] => ['[', ']']
  | array (v :: vs) =>
    '[' :: newLine (depth + 1) ++ lines (depth + 1) v ++ elementLines (depth + 1) vs ++
      newLine depth ++ [']']
  | object [] => ['\x7b', '\x7d']
  | object ((name, v) :: ms) =>
    '\x7b' :: newLine (depth + 1) ++ quoted name ++ [':', ' '] ++ lines (depth + 1) v ++
      memberLines (depth + 1) ms ++ newLine depth ++ ['\x7d']

/-- Further elements of an array, each after a comma. -/
def elementLines (depth : Nat) : List Json → List Char
  | [] => []
  | v :: vs => ',' :: newLine depth ++ lines depth v ++ elementLines depth vs

/-- Further members of an object, each after a comma. -/
def memberLines (depth : Nat) : List (Option String × Json) → List Char
  | [] => []
  | (name, v) :: ms =>
    ',' :: newLine depth ++ quoted name ++ [':', ' '] ++ lines depth v ++ memberLines depth ms

end

/-- The value as a report writes it. -/
def report (v : Json) : String := String.ofList (lines 0 v)

end RowFlips.Json
