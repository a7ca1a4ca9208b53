import RowFlips.Tool.Command
import RowFlips.Tool.Loading

/-!
# Showing a log

Every line that tells of an attack is shown by itself, up to the first line that cannot be read.
-/

namespace RowFlips

namespace RenderArgs

/-- Prints the report of each line in turn, after `lineNumber` lines. -/
def scriptFrom (config : Config) (lineNumber : Nat) : List Text.Bytes → Script
  | [] => ⟨[], none⟩
  | raw :: lines =>
    match Line.read config.cellSize none raw with
    | .error (.file fault) => .fail (.error (.file fault))
    | .error e => .fail (.atLine (lineNumber + 1) e)
    | .ok none => scriptFrom config (lineNumber + 1) lines
    | .ok (some a) =>
      (scriptFrom config (lineNumber + 1) lines).after (.print (a.report ++ "\n"))

/-- Prints the report of each line of a log in turn. -/
def script (a : RenderArgs Input) : Script :=
  .needing (Input.config a.config) fun config =>
    .needing a.profile.read fun content => scriptFrom config 0 (Text.lines content)

end RenderArgs

end RowFlips
