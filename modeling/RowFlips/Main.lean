import Std.Time
import RowFlips.Tool.Run

/-!
# The command line

The first argument names a tool, and the others are its own. This module only opens the sources
that the tool reads, lets the library decide what to do, and does it.
-/

namespace RowFlips

/-- The cause of a failure to read or write. The system's error number may come negated. -/
def FileFault.ofError : IO.Error → FileFault
  | .inappropriateType _ code _ => if code = 20 ∨ code = -20 then .notDirectory else .isDirectory
  | .permissionDenied .. => .denied
  | .invalidArgument _ code _ | .resourceExhausted _ code _ =>
    if code = 36 ∨ code = -36 then .nameTooLong
    else if code = 28 ∨ code = -28 then .noSpace
    else .notSizable
  | _ => .missing

/-- What a path leads to. -/
def openPath (path : String) : IO (Except FileFault Node) := do
  try
    return .ok (.file (← IO.FS.readBinFile path).toList)
  catch e =>
    match FileFault.ofError e with
    | .isDirectory => return .ok .directory
    | fault => return .error fault

/-- The bytes left in a stream, behind those read already. -/
partial def readAll (stream : IO.FS.Stream) (done : ByteArray) : IO ByteArray := do
  let bytes ← stream.read 65536
  if bytes.isEmpty then return done else readAll stream (done ++ bytes)

/-- What a source gives. -/
def Source.openFile : Source → IO Input
  | .standardInput => do
    let bytes ← readAll (← IO.getStdin) ByteArray.empty
    return ⟨"-", .ok (.file bytes.toList)⟩
  | .path name => do return ⟨name, ← openPath name⟩

/-- The local date and time to the nanosecond, with the offset of its zone. -/
def currentDate : IO String := do
  return (← Std.Time.DateTime.now).format "uuuu-MM-dd'T'HH:mm:ss.SSSSSSSSSxxx"

/-- Writes to where a path leads, after setting the size of the file there if it is `sized`. -/
def writePath (path : String) (sized : Bool) (content : Text.Bytes) :
    IO (Except FileFault Unit) := do
  try
    let handle ← IO.FS.Handle.mk path .write
    if sized then handle.truncate
    handle.write content.toByteArray
    handle.flush
    return .ok ()
  catch e =>
    return .error (.ofError e)

/-- Says why the tool fails, if it does, and gives the exit status. -/
def finish : Option Failure → IO UInt32
  | none => return 0
  | some f => do
    (← IO.getStderr).putStr f.report
    return 1

/-- Does the actions in order, up to the first that fails, and gives the exit status. -/
def execute (failure : Option Failure) : List Action → IO UInt32
  | [] => finish failure
  | .print text :: actions => do
    let stdout ← IO.getStdout
    stdout.putStr text
    stdout.flush
    execute failure actions
  | .writeText path text :: actions => do
    match ← writePath path false (Text.encode text) with
    | .error fault => finish (some (.error (.file fault)))
    | .ok () => execute failure actions
  | .writeSized path content :: actions => do
    match ← writePath path true content with
    | .error fault => finish (some (.error (.file fault)))
    | .ok () => execute failure actions

/-- Runs a tool. -/
def runCommand (command : Command Source) : IO UInt32 := do
  let command ← command.mapM Source.openFile
  let script := command.script (← currentDate)
  execute script.failure script.actions

end RowFlips

/-- Runs the tool that the first argument names, with the other arguments. -/
def main (args : List String) : IO UInt32 := do
  match RowFlips.Command.ofArguments? args with
  | none =>
    (← IO.getStderr).putStr RowFlips.usageMessage
    return 2
  | some command => RowFlips.runCommand command
