import RowFlips.Json.Forms
import RowFlips.Json.Printer
import RowFlips.Table.Diff
import RowFlips.Tool.Command
import RowFlips.Tool.Loading

/-!
# Tools on tables

Three tools load tables from logs: one finds what they have in common, one parts two of them, and
one counts.
-/

namespace RowFlips

/-! ### Common flips -/

namespace CommonArgs

/-- What the tables have in common, and the configuration. -/
def result (a : CommonArgs Input) : Except Failure (Config × Table) := do
  let config ← Input.config a.config
  let tables ← a.profiles.mapM (Input.table config)
  pure (config, Table.common tables)

/-- The path stands for the standard output: it is a dash, which slashes and dots may follow. -/
def isDash (path : String) : Bool :=
  match Directory.parts path with
  | "-" :: parts => parts.all fun part => part = "" ∨ part = "."
  | _ => false

/-- Loads all tables, then writes what they have in common. -/
def script (a : CommonArgs Input) : Script :=
  .needing a.result fun (config, t) =>
    if isDash a.output then ⟨[.print (String.ofList (t.text config))], none⟩
    else ⟨[.writeText a.output (t.text config)], none⟩

end CommonArgs

/-! ### Comparison -/

namespace CompareArgs

/-- The parts of the two tables, and the configuration. -/
def result (a : CompareArgs Input) : Except Failure (Config × Parts Table) := do
  let config ← Input.config a.config
  let left ← a.left.table config
  let right ← a.right.table config
  pure (config, left.diff right)

/-- Writes a part to a file and says how large it is. -/
def save (config : Config) (path : String) (t : Table) : List Action :=
  [.writeText path (t.text config),
    .print (path ++ ": " ++ toString t.size ++ " hammers, " ++ toString t.numFlips ++ " flips\n")]

/-- Loads two tables, then writes their parts to three files. -/
def script (a : CompareArgs Input) : Script :=
  .needing a.result fun (config, parts) =>
    ⟨save config (a.stem ++ ".a-only") parts.left ++
      save config (a.stem ++ ".common") parts.common ++
      save config (a.stem ++ ".b-only") parts.right, none⟩

end CompareArgs

/-! ### Counts -/

namespace StatsArgs

/-- The counts of a file as text. -/
def summary (file : String) (stats : Table.Stats) : String :=
  let hammers := toString stats.hammers
  "Stats for " ++ file ++ ":\nHammers: " ++ hammers ++ "\nw/flips: " ++
    Text.alignRight hammers.length (toString stats.withFlips) ++ "\nTotal Bit Flips: " ++
    toString stats.totalFlips ++ "\n"

/-- Loads the files one after the other and prints the counts of each. -/
def scriptFrom (config : Config) : List Input → Script
  | [] => ⟨[], none⟩
  | file :: files =>
    .needing (file.table config) fun t =>
      (scriptFrom config files).after (.print (summary file.name t.stats))

/-- The counts of a file as a JSON value. -/
def entry (config : Config) (file : Input) : Except Failure Json :=
  (file.table config).map fun t =>
    .record [("file", .str file.name), ("stats", t.stats.toJson)]

/-- Loads all files, then prints their counts as one JSON report of the given date. -/
def jsonScript (date : String) (config : Config) (files : List Input) : Script :=
  .needing (files.mapM (entry config)) fun entries =>
    let report := (Json.record [("date", .str date), ("data", .array entries)]).report
    ⟨[.print (report ++ "\n")], none⟩

/-- Prints the counts of files. -/
def script (date : String) (a : StatsArgs Input) : Script :=
  .needing (Input.config a.config) fun config =>
    if a.asJson then jsonScript date config a.files else scriptFrom config a.files

end StatsArgs

end RowFlips
