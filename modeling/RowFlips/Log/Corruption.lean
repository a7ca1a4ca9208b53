import RowFlips.Flip

/-!
# Corrupted bytes

A log tells what hammering did to a row byte by byte: the offset of the byte from the victim
address, the byte read back and the byte that had been written. The offset splits into a number of
columns and a byte of the column's cell.
-/

namespace RowFlips

/-- A byte that was read back other than it was written. -/
structure Corruption where
  /-- The offset of the byte from the victim address. -/
  offset : UInt32
  /-- The byte read back. -/
  got : UInt8
  /-- The byte written. -/
  expected : UInt8
deriving DecidableEq, Repr, Inhabited

namespace Corruption

/-- The bits that went from 0 to 1. -/
def pullup (c : Corruption) : UInt8 := ~~~c.expected &&& c.got

/-- The bits that went from 1 to 0. -/
def pulldown (c : Corruption) : UInt8 := c.expected &&& ~~~c.got

/-- The corruption as logs show it. -/
def text (c : Corruption) : List Char :=
  Hex.padded 4 c.offset.toNat ++ '|' :: Hex.padded 2 c.got.toNat ++
    '|' :: Hex.padded 2 c.expected.toNat

instance : ToString Corruption := ⟨fun c => String.ofList c.text⟩

end Corruption

/-- The flips that two masks record for one byte of a cell: first those from 0 to 1, then those
from 1 to 0, each lowest bit first. -/
def maskFlips (addr : Address) (cellByte : UInt32) (pullup pulldown : UInt8) : List Flip :=
  let flip (direction : Direction) (b : Fin 8) : Flip :=
    ⟨addr, cellByte * 8 + UInt32.ofNat b, direction⟩
  (setBits pullup).map (flip .up) ++ (setBits pulldown).map (flip .down)

end RowFlips
