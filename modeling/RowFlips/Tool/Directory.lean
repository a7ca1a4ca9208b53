import RowFlips.Error
import RowFlips.Text.Bytes

/-!
# Directories

A directory is what the tools read and write, as a value: files and further directories, each
found by the names on the way to it. Paths may also lead out of it. The way to a directory above
starts with one `..` for each step up, and the way from the root of all directories starts with a
slash. How far below the root a directory lies and what else lies at the root is different on each
machine, and part of the value; the devices are the same on all.
-/

namespace RowFlips

open Text (Bytes)

/-- What is read and written like a file without being one. -/
inductive Device where
  /-- Takes everything and gives nothing. -/
  | null
  /-- Has no space for anything. -/
  | full
  | standardInput
  | standardOutput
  | standardError
deriving DecidableEq, Repr

/-- What a name stands for. -/
inductive Node where
  | file (content : Bytes)
  | directory
  | device (device : Device)
deriving DecidableEq

/-- What there is to read. A device has nothing of its own. -/
def Node.content : Node → Except FileFault Bytes
  | file content => .ok content
  | directory => .error .isDirectory
  | device _ => .ok []

/-! ### Outside -/

/-- What lies outside of the directory that the tools run in. -/
structure Outside where
  /-- How many directories lie above it. -/
  depth : Nat
  /-- The names of the directories that lie at the root. -/
  atRoot : List String

namespace Outside

/-- What lies outside of a directory in one of those at the root of a usual system. -/
def usual : Outside where
  depth := 2
  atRoot :=
    ["bin", "boot", "dev", "etc", "home", "lib", "media", "mnt", "opt", "proc", "root", "run",
      "sbin", "srv", "sys", "tmp", "usr", "var"]

/-- The standard stream of a number. -/
def stream? : String → Option Device
  | "0" => some .standardInput
  | "1" => some .standardOutput
  | "2" => some .standardError
  | _ => none

/-- What names lead to outside of the directory that the tools run in. -/
def node? (outside : Outside) : List String → Option Node
  | ["/"] => some .directory
  | ["/", name] => if name ∈ outside.atRoot then some .directory else none
  | ["/", "dev", "null"] => some (.device .null)
  | ["/", "dev", "full"] => some (.device .full)
  | ["/", "dev", "stdin"] => some (.device .standardInput)
  | ["/", "dev", "stdout"] => some (.device .standardOutput)
  | ["/", "dev", "stderr"] => some (.device .standardError)
  | ["/", "dev", "fd"] => some .directory
  | ["/", "dev", "fd", number] => (stream? number).map .device
  | ["/", "proc", "self"] => some .directory
  | ["/", "proc", "self", "fd"] => some .directory
  | ["/", "proc", "self", "fd", number] => (stream? number).map .device
  | names => if names.all (· == "..") then some .directory else none

/-- The names that lead one directory up from where `names` lead. There is nothing above the
root. -/
def up (outside : Outside) (names : List String) : List String :=
  if names = ["/"] then names
  else if names.all (· == "..") then
    if names.length + 1 < outside.depth then ".." :: names else ["/"]
  else names.dropLast

end Outside

/-! ### Paths -/

/-- A directory with everything below it. -/
structure Directory where
  /-- Each file and directory by the names on the way to it. -/
  entries : List (List String × Node)
  /-- What lies outside of it. -/
  outside : Outside

namespace Directory

/-- The parts of a path between its slashes. -/
def parts (path : String) : List String :=
  (path.toList.splitOnP (· == '/')).map String.ofList

/-- What the names lead to, the directory itself for no names. -/
def node? (d : Directory) (names : List String) : Option Node :=
  match d.entries.find? fun e => e.1 = names with
  | some (_, node) => some node
  | none => d.outside.node? names

/-- The names that lead where the part of a path after those in `names` leads. -/
def step (d : Directory) (names : List String) (part : String) : Except FileFault (List String) :=
  match d.node? names with
  | none => .error .missing
  | some (.file _) | some (.device _) => .error .notDirectory
  | some .directory =>
    if part = "" ∨ part = "." then .ok names
    else if part = ".." then .ok (d.outside.up names)
    else if 255 < part.utf8ByteSize then .error .nameTooLong
    else .ok (names ++ [part])

/-- The names that lead where parts of a path lead, whether there is something of the last name or
not. -/
def follow (d : Directory) (path : String) (parts : List String) :
    Except FileFault (List String) :=
  if 4096 ≤ path.utf8ByteSize then .error .nameTooLong
  else if path.isEmpty then .error .missing
  else parts.foldlM d.step (if path.startsWith "/" then ["/"] else [])

/-- The names that lead where a path leads. -/
def resolve (d : Directory) (path : String) : Except FileFault (List String) :=
  d.follow path (parts path)

/-- What a path leads to. -/
def openPath (d : Directory) (path : String) : Except FileFault Node := do
  match d.node? (← d.resolve path) with
  | none => throw .missing
  | some node => pure node

/-- What there is to read where a path leads. -/
def read (d : Directory) (path : String) : Except FileFault Bytes := do
  (← d.openPath path).content

/-! ### Writing -/

/-- The directory with a node in the place of what the names led to. -/
def put (d : Directory) (names : List String) (node : Node) : Directory :=
  { d with entries := (names, node) :: d.entries.filter fun e => e.1 ≠ names }

/-- The path without the slashes at its end. -/
def trimSlashes (path : String) : String :=
  String.ofList (path.toList.reverse.dropWhile (· == '/')).reverse

/-- The parts of a path that lead to the directory which its last name is in, that directory
itself being the last of them. -/
def partsAbove (path : String) : List String := (parts (trimSlashes path)).dropLast ++ ["."]

/-- Where what is written goes. -/
inductive Sink where
  /-- To the file that the names lead to. -/
  | file (names : List String)
  | device (device : Device)

/-- Where what is written to a path goes. A path with a slash at its end can only be that of a
directory, whatever its last name is. -/
def sink (d : Directory) (path : String) : Except FileFault Sink := do
  if path.endsWith "/" then
    let _ ← d.follow path (partsAbove path)
    throw .isDirectory
  let names ← d.resolve path
  match d.node? names with
  | some .directory => throw .isDirectory
  | some (.device device) => pure (.device device)
  | _ => pure (.file names)

/-- What writing leaves behind. -/
structure Written where
  /-- The directory afterwards. -/
  directory : Directory
  /-- What was written to the standard output. -/
  printed : String := ""
  /-- What was written to the stream for errors. -/
  reported : String := ""

/-- What writing a text to a path leaves behind: a file, in the place of one that was there, or
what a device makes of the text. -/
def writeText (d : Directory) (path : String) (text : List Char) : Except FileFault Written := do
  match ← d.sink path with
  | .file names => pure { directory := d.put names (.file (Text.encode text)) }
  | .device .full => if text.isEmpty then pure { directory := d } else throw .noSpace
  | .device .standardOutput => pure { directory := d, printed := String.ofList text }
  | .device .standardError => pure { directory := d, reported := String.ofList text }
  | .device .null | .device .standardInput => pure { directory := d }

/-- The directory with a file where a path leads, in the place of a file that was there. The file
is given its size before its content, so it can only be a file. -/
def writeSized (d : Directory) (path : String) (content : Bytes) :
    Except FileFault Directory := do
  match ← d.sink path with
  | .file names => pure (d.put names (.file content))
  | .device _ => throw .notSizable

/-- The directory with the given files, and an empty directory where no content is given. -/
def ofList (files : List (String × Option Bytes)) (outside : Outside := .usual) : Directory :=
  files.foldl (fun d (path, content) =>
    let names := parts path
    let node := match content with
      | some content => Node.file content
      | none => .directory
    let above := (List.range (names.length - 1)).map fun i => names.take (i + 1)
    (above.foldl (fun d names => d.put names .directory) d).put names node) ⟨[], outside⟩

end Directory

end RowFlips
