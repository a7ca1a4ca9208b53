/-!
# Configuration

The parameters of reading, writing and looking up, with their defaults.
-/

namespace RowFlips

/-- How to answer a lookup of a row that no attack of a table hammered first. -/
inductive Extrapolation where
  /-- Not at all. -/
  | none
  /-- By a row of a range in the same bank, the range repeated endlessly. -/
  | perBank
  /-- The same, with only as many rows of the range as the greatest power of two not above its
  length. -/
  | perBankTrunc
  /-- By a row of a range in the same bank, a window of a power of two rows around the range
  repeated endlessly. -/
  | perBankFit
deriving DecidableEq, Repr, Inhabited

/-- The parameters of reading, writing and looking up. -/
structure Config where
  /-- The bytes of a cell; 0 counts as 1. -/
  cellSize : UInt32 := 8
  /-- The byte that the first line of an attack's text form takes as written. -/
  baseline : UInt8 := 0xff
  /-- How many rows apart the targets of a binary table are; that of its first attack if none. -/
  distance : Option UInt32 := Option.none
  /-- How lookups are answered off the hammered rows. -/
  mode : Extrapolation := .none
deriving DecidableEq, Repr, Inhabited

end RowFlips
