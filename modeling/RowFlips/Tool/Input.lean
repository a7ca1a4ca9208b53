import RowFlips.Tool.Script

/-!
# What tools read

The arguments of a tool name sources. Before the tool does anything, each source gives an input,
in the order in which the tool reads them. The standard input is taken whole by the first source
that leads to it, and later ones find it at its end.
-/

namespace RowFlips

open Text (Bytes)

/-- Where a tool reads from. -/
inductive Source where
  | path (path : String)
  | standardInput
deriving DecidableEq, Repr

/-- What a source gives. -/
structure Input where
  /-- What the arguments call the source. -/
  name : String
  /-- What it leads to. -/
  node : Except FileFault Node

namespace Input

/-- The input that takes what is left of the standard input. -/
def takeStandardInput (name : String) : StateM Bytes Input := do
  let content ← getModify fun _ => []
  pure ⟨name, .ok (.file content)⟩

/-- The content of the input. -/
def read (i : Input) : Except Failure Bytes :=
  (i.node.bind Node.content).mapError fun fault => .error (.file fault)

end Input

/-- What the source gives in a directory. -/
def Source.openIn (d : Directory) : Source → StateM Bytes Input
  | standardInput => Input.takeStandardInput "-"
  | path name =>
    match d.openPath name with
    | .ok (.device .standardInput) => Input.takeStandardInput name
    | node => pure ⟨name, node⟩

end RowFlips
