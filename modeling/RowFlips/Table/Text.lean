import RowFlips.Log.Encoding
import RowFlips.Log.Reader
import RowFlips.Table

/-!
# Tables as text

A table is stored as the log that its attacks would have left, a line for each run. Any log reads
as a table.
-/

namespace RowFlips.Table

/-- The lines that record an attack. -/
def attackText (baseline : UInt8) (a : Attack) : List Char :=
  (a.runs baseline).flatMap fun r => r.text ++ ['\n']

/-- The table as text. -/
def text (config : Config) (t : Table) : List Char :=
  t.attacks.flatMap (attackText config.baseline)

/-- The table as the bytes of a text file. -/
def toText (config : Config) (t : Table) : Text.Bytes := Text.encode (t.text config)

/-- The table that a log tells of. -/
def ofLog (config : Config) (content : Text.Bytes) : Except Error Table := do
  let attacks ← (Reader.ofContent config none content).attacks
  pure (ofAttacks attacks)

end RowFlips.Table
