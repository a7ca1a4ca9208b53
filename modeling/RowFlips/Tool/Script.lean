import RowFlips.Tool.Directory

/-!
# What tools do

A tool reads files and then decides what to print and what to write: a script. Actions follow each
other until one fails, and a tool that fails still leaves what it had done until then.
-/

namespace RowFlips

open Text (Bytes)

/-- Why a tool fails. -/
inductive Failure where
  /-- An error of the library. -/
  | error (e : Error)
  /-- An error on a line of the log that a report was made of. -/
  | atLine (line : Nat) (e : Error)
  /-- A distance of targets that no log can have. -/
  | distanceTooLarge
deriving DecidableEq

/-- What a tool says when it fails. -/
def Failure.report : Failure → String
  | error e => "Error: " ++ e.message ++ "\n"
  | atLine line e => "Error: line " ++ toString line ++ "\n\nCaused by:\n    " ++ e.message ++ "\n"
  | distanceTooLarge => "Error: number too large to fit in target type\n"

/-- A step of a tool that others can see. -/
inductive Action where
  | print (text : String)
  /-- Writes a text to where a path leads. -/
  | writeText (path : String) (text : List Char)
  /-- Writes a file that is given its size first. -/
  | writeSized (path : String) (content : Bytes)
deriving DecidableEq

/-- What a tool does: its actions in order, and the failure that it ends with if it fails. -/
structure Script where
  /-- The actions in order. -/
  actions : List Action
  /-- Why the tool fails after them. -/
  failure : Option Failure
deriving DecidableEq

namespace Script

/-- The script of a tool that fails at once. -/
def fail (f : Failure) : Script := ⟨[], some f⟩

/-- The script with an action before it. -/
def after (a : Action) (s : Script) : Script := { s with actions := a :: s.actions }

/-- The script of a tool that first needs something, and does nothing without it. -/
def needing {α : Type} (x : Except Failure α) (script : α → Script) : Script :=
  match x with
  | .error f => fail f
  | .ok a => script a

end Script

/-- What a tool leaves behind. -/
structure Outcome where
  /-- The exit status: 0, or 1 for a failure, or 2 for arguments that are not understood. -/
  status : Nat
  /-- The texts that were printed, in order. -/
  printed : List String
  /-- What was said on the stream for errors. -/
  stderr : String
  /-- The directory afterwards. -/
  directory : Directory

namespace Outcome

/-- The standard output. -/
def stdout (o : Outcome) : String := String.join o.printed

/-- The outcome with a text printed before. -/
def printing (text : String) (o : Outcome) : Outcome := { o with printed := text :: o.printed }

/-- The outcome with a text on the stream for errors before. -/
def reporting (text : String) (o : Outcome) : Outcome := { o with stderr := text ++ o.stderr }

/-- The outcome of a tool that ends, with a failure or without. -/
def ending (d : Directory) : Option Failure → Outcome
  | none => ⟨0, [], "", d⟩
  | some f => ⟨1, [], f.report, d⟩

end Outcome

/-- The outcome of actions followed by an end. -/
def performFrom (d : Directory) (failure : Option Failure) : List Action → Outcome
  | [] => .ending d failure
  | .print text :: as => (performFrom d failure as).printing text
  | .writeText path text :: as =>
    match d.writeText path text with
    | .error fault => .ending d (some (.error (.file fault)))
    | .ok w => ((performFrom w.directory failure as).printing w.printed).reporting w.reported
  | .writeSized path content :: as =>
    match d.writeSized path content with
    | .error fault => .ending d (some (.error (.file fault)))
    | .ok d => performFrom d failure as

/-- The outcome of a script in a directory. -/
def Script.perform (d : Directory) (s : Script) : Outcome := performFrom d s.failure s.actions

end RowFlips
