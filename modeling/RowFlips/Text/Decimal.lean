import RowFlips.Text.Numeral

/-!
# Decimal numerals

The digits are those of ASCII.
-/

namespace RowFlips.Decimal

/-- The value of a decimal digit. -/
def digit? (c : Char) : Option Nat := if c.isDigit then some (c.toNat - '0'.toNat) else none

/-- The value of a numeral that lies below `bound`; `none` for anything else. -/
def valueBelow? (bound : Nat) (cs : List Char) : Option Nat :=
  Text.numeralBelow? digit? 10 bound cs

end RowFlips.Decimal
