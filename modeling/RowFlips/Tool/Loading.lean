import RowFlips.Config.Stored
import RowFlips.Table.Text
import RowFlips.Tool.Input

/-!
# What tools load

Every tool first loads its configuration, and most then load tables from logs. Loading touches
nothing, so a tool that fails while loading leaves no trace.
-/

namespace RowFlips.Input

/-- The configuration in an input, or the default without one. -/
def config : Option Input → Except Failure Config
  | none => .ok {}
  | some i => i.read.bind fun content => (Config.ofFile content).mapError .error

/-- The table that the log in an input tells of. -/
def table (config : Config) (i : Input) : Except Failure Table :=
  i.read.bind fun content => (Table.ofLog config content).mapError .error

end RowFlips.Input
