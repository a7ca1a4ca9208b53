import RowFlips.Text.Decimal

/-!
# JSON values

A number is kept as it is written, since what it may stand for depends on who reads it. A string
may be written with escapes that leave half a surrogate pair alone; it is then a string without a
text, which may be passed over but not used.
-/

namespace RowFlips

/-- A JSON value. -/
inductive Json where
  | null
  | bool (b : Bool)
  /-- A number as it is written. -/
  | number (literal : List Char)
  /-- A string, with its text if it has one. -/
  | string (text : Option String)
  | array (elements : List Json)
  /-- An object with its members in the order written, names repeated if they are. -/
  | object (members : List (Option String × Json))
deriving Inhabited

namespace Json

/-! ### Making values -/

/-- The string of a text. -/
def str (s : String) : Json := string (some s)

/-- The number of a natural number. -/
def nat (n : Nat) : Json := number (Nat.toDigits 10 n)

/-- The object with the given members. -/
def record (members : List (String × Json)) : Json :=
  object (members.map fun (name, value) => (some name, value))

/-! ### Using values -/

/-- The natural number below `bound` that a value is: written with digits only. -/
def natBelow? (bound : Nat) : Json → Option Nat
  | number literal => Decimal.valueBelow? bound literal
  | _ => none

/-- The member of each of the names: by name in an object, where members of other names are passed
over, or by place in an array. `none` if the value is neither, a name is repeated, a member has a
name without a text, or the array is longer than the names. -/
def fields? (names : List String) : Json → Option (List (Option Json))
  | array elements =>
    if elements.length ≤ names.length then
      some (elements.map some ++ List.replicate (names.length - elements.length) none)
    else none
  | object members =>
    if members.all fun m => m.1.isSome then
      names.mapM fun name =>
        match members.filter fun m => m.1 = some name with
        | [] => some none
        | [m] => some (some m.2)
        | _ => none
    else none
  | _ => none

end Json

end RowFlips
