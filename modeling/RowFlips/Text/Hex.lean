import RowFlips.Text.Numeral

/-!
# Hexadecimal numerals

Numbers are written with lower-case digits and read with digits of either case.
-/

namespace RowFlips.Hex

/-- The value of a hexadecimal digit. -/
def digit? (c : Char) : Option Nat :=
  if '0' ≤ c ∧ c ≤ '9' then some (c.toNat - '0'.toNat)
  else if 'a' ≤ c ∧ c ≤ 'f' then some (c.toNat - 'a'.toNat + 10)
  else if 'A' ≤ c ∧ c ≤ 'F' then some (c.toNat - 'A'.toNat + 10)
  else none

/-- The character is a hexadecimal digit. -/
def isDigit (c : Char) : Bool := (digit? c).isSome

/-- The value of a numeral that lies below `bound`; `none` for anything else. -/
def valueBelow? (bound : Nat) (cs : List Char) : Option Nat :=
  Text.numeralBelow? digit? 16 bound cs

/-- The digits of `n`, without leading zeros. -/
def digits (n : Nat) : List Char := Nat.toDigits 16 n

/-- The digits of `n` after as many zeros as it takes to fill `width` places. -/
def padded (width n : Nat) : List Char := (digits n).leftpad width '0'

end RowFlips.Hex
