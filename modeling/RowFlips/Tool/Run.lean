import RowFlips.Tool.Compile
import RowFlips.Tool.Query
import RowFlips.Tool.Render
import RowFlips.Tool.Tables

/-!
# Running tools

A tool with arguments that are not understood does nothing and ends with status 2.
-/

namespace RowFlips

/-- What the tool does with its inputs, if it has the date for reports. -/
def Command.script (date : String) : Command Input → Script
  | compile args => args.script
  | common args => args.script
  | stats args => args.script date
  | render args => args.script
  | compare args => args.script
  | query args => args.script

/-- What is said about arguments that are not understood. -/
def usageMessage : String := "error: the arguments are not understood\n"

/-- The command with the inputs that its sources give. -/
def Command.openIn (d : Directory) (stdin : Text.Bytes) (command : Command Source) :
    Command Input :=
  ((command.mapM (Source.openIn d)).run stdin).1

/-- What a tool leaves behind that is run in a directory. -/
def Tool.run (tool : Tool) (args : List String) (d : Directory) (stdin : Text.Bytes)
    (date : String) : Outcome :=
  match Command.parse? tool args with
  | none => ⟨2, [], usageMessage, d⟩
  | some command => ((command.openIn d stdin).script date).perform d

/-- A tool with arguments that are understood performs its script. -/
theorem Tool.run_eq_perform {tool : Tool} {args : List String} {d : Directory}
    {stdin : Text.Bytes} {date : String} {command : Command Source} {inputs : Command Input}
    (hparse : Command.parse? tool args = some command)
    (hopen : command.openIn d stdin = inputs) :
    tool.run args d stdin date = (inputs.script date).perform d := by
  rw [run, hparse, ← hopen]

end RowFlips
