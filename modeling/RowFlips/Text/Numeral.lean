/-!
# Numerals

A numeral is one or more digits of a base; leading zeros do not change its value. Numerals are
read below a bound, and reading stops where the bound is passed: further digits could only make
the number greater.
-/

namespace RowFlips.Text

/-- The number that digits continue when `n` stands before them; `none` if a character is not a
digit, or the number is not below `bound`. -/
def continuedBelow? (digit? : Char → Option Nat) (base bound n : Nat) : List Char → Option Nat
  | [] => some n
  | c :: cs =>
    match digit? c with
    | none => none
    | some d =>
      if base * n + d < bound then continuedBelow? digit? base bound (base * n + d) cs else none

/-- The value of a numeral that lies below `bound`; `none` for no digits and for anything else. -/
def numeralBelow? (digit? : Char → Option Nat) (base bound : Nat) (cs : List Char) : Option Nat :=
  if cs.isEmpty then none else continuedBelow? digit? base bound 0 cs

end RowFlips.Text
