import RowFlips.Attack
import RowFlips.Log.Run
import RowFlips.Log.Token

/-!
# Lines of a log

A line names one or more target addresses, then a colon, then victim addresses, each followed by
its corruptions. Blank lines and lines that start with `#` say nothing.
-/

namespace RowFlips

namespace Run

/-- The targets named by tokens that are all addresses. -/
def targetsOf : List Token → Except Malformed (List Address)
  | [] => .ok []
  | .address a :: ts => (targetsOf ts).map (a :: ·)
  | .corruption c :: _ => .error (.corruptionAmongTargets c)

/-- The last victim named, and whether a corruption of it followed. -/
inductive Current where
  /-- No victim was named yet. -/
  | none
  /-- A victim was just named. -/
  | named (victim : Address)
  /-- A victim was named, and a corruption of it followed. -/
  | corrupted (victim : Address)

/-- The corruptions named by tokens, each with the last victim named before it. -/
def corruptionsOf : Current → List Token → Except Malformed (List (Address × Corruption))
  | .named v, [] => .error (.victimWithoutCorruptions v)
  | _, [] => .ok []
  | .named v, .address _ :: _ => .error (.victimWithoutCorruptions v)
  | _, .address a :: ts => corruptionsOf (.named a) ts
  | .none, .corruption c :: _ => .error (.corruptionWithoutVictim c)
  | .named v, .corruption c :: ts => (corruptionsOf (.corrupted v) ts).map ((v, c) :: ·)
  | .corrupted v, .corruption c :: ts => (corruptionsOf (.corrupted v) ts).map ((v, c) :: ·)

/-- The run that the texts before and after the colon of a line stand for. -/
def parseSides (before after : List Char) : Except Malformed Run := do
  let targets ← targetsOf (← Token.tokens before)
  if targets.isEmpty then throw .noTarget
  let found ← corruptionsOf .none (← Token.tokens after)
  pure (ofFound targets found)

/-- The run that a line stands for. The first colon parts its sides. -/
def parse (line : List Char) : Except Malformed Run :=
  match line.dropWhile (· != ':') with
  | _ :: after => parseSides (line.takeWhile (· != ':')) after
  | [] => .error .missingColon

end Run

namespace Line

/-- The line says nothing: it is blank or a comment. -/
def isSkipped (line : List Char) : Bool :=
  match Text.trimStart line with
  | [] => true
  | c :: _ => c == '#'

/-- The targets of a run, which must be as far apart as `distance` says if it is given. -/
def targets (distance : Option Int) (r : Run) : Except Error Targets :=
  match Targets.ofList? r.targets with
  | none => .error (.targets none (.count r.targets.length))
  | some t =>
    match distance with
    | some d => if t.distance = d then .ok t else .error (.targets none (.distance t d))
    | none => .ok t

/-- The attack that a line tells of, if cells hold `cellSize` bytes. -/
def attack (cellSize : UInt32) (distance : Option Int) (line : List Char) :
    Except Error Attack := do
  let run ← (Run.parse line).mapError (Error.parse 0)
  let targets ← targets distance run
  let flips ← (run.flips cellSize).mapError (Error.parse 0)
  pure ⟨targets, SortedSet.ofList flips⟩

end Line

end RowFlips
