import RowFlips.Config
import RowFlips.Log.Token
import RowFlips.Text.Decimal
import RowFlips.Tool.Arguments
import RowFlips.Tool.Input

/-!
# Command lines

Each tool has arguments of its own. All take the option `--config` with the path of a
configuration. A command line names the sources that a tool reads; a tool is run on the inputs
that they give. So the arguments are for any type of what is read.
-/

namespace RowFlips

/-- The tools. -/
inductive Tool where
  /-- Makes an image of a log. -/
  | compile
  /-- Finds the flips that several logs have in common. -/
  | common
  /-- Counts the attacks and flips of logs. -/
  | stats
  /-- Shows a log to a human reader. -/
  | render
  /-- Parts the flips of two logs. -/
  | compare
  /-- Looks up rows in an image. -/
  | query
deriving DecidableEq, Repr

/-- The tool of a name. -/
def Tool.ofName? : String → Option Tool
  | "compile" => some compile
  | "common" => some common
  | "stats" => some stats
  | "render" => some render
  | "compare" => some compare
  | "query" => some query
  | _ => none

/-- The arguments of `compile`. -/
structure CompileArgs (ι : Type) where
  profile : ι
  output : String
  config : Option ι
  distance : Option UInt32

/-- The arguments of `common`. -/
structure CommonArgs (ι : Type) where
  profiles : List ι
  /-- The file to write; a dash is the standard output. -/
  output : String
  config : Option ι

/-- The arguments of `stats`. -/
structure StatsArgs (ι : Type) where
  files : List ι
  /-- The counts are written as one JSON report. -/
  asJson : Bool
  config : Option ι

/-- The arguments of `render`. -/
structure RenderArgs (ι : Type) where
  profile : ι
  config : Option ι

/-- The arguments of `compare`. -/
structure CompareArgs (ι : Type) where
  left : ι
  right : ι
  /-- What the names of the files to write start with. -/
  stem : String
  config : Option ι

/-- The arguments of `query`. -/
structure QueryArgs (ι : Type) where
  table : ι
  addresses : List Address
  mode : Option Extrapolation
  config : Option ι

/-- A tool with its arguments. -/
inductive Command (ι : Type) where
  | compile (args : CompileArgs ι)
  | common (args : CommonArgs ι)
  | stats (args : StatsArgs ι)
  | render (args : RenderArgs ι)
  | compare (args : CompareArgs ι)
  | query (args : QueryArgs ι)

namespace Command

/-- The command with what `f` makes of each thing it reads, in the order in which it reads them:
the configuration first, then the others as they stand in the arguments. -/
def mapM {m : Type → Type} [Monad m] {ι κ : Type} (f : ι → m κ) : Command ι → m (Command κ)
  | compile a => do
    let config ← a.config.mapM f
    let profile ← f a.profile
    pure (compile { profile, output := a.output, config, distance := a.distance })
  | common a => do
    let config ← a.config.mapM f
    let profiles ← a.profiles.mapM f
    pure (common { profiles, output := a.output, config })
  | stats a => do
    let config ← a.config.mapM f
    let files ← a.files.mapM f
    pure (stats { files, asJson := a.asJson, config })
  | render a => do
    let config ← a.config.mapM f
    let profile ← f a.profile
    pure (render { profile, config })
  | compare a => do
    let config ← a.config.mapM f
    let left ← f a.left
    let right ← f a.right
    pure (compare { left, right, stem := a.stem, config })
  | query a => do
    let config ← a.config.mapM f
    let table ← f a.table
    pure (query { table, addresses := a.addresses, mode := a.mode, config })

/-! ### Values -/

/-- A path, which must not be empty. -/
def path? (s : String) : Option String := if s = "" then none else some s

/-- The source at a path. -/
def source? (s : String) : Option Source := (path? s).map .path

/-- The source at a path, or the standard input for a dash. -/
def sourceOrDash? (s : String) : Option Source :=
  if s = "-" then some .standardInput else source? s

/-- A decimal number of 32 bits; a sign is allowed if the number is not negative. -/
def number? (s : String) : Option UInt32 :=
  let value := match s.toList with
    | '+' :: cs => Decimal.valueBelow? UInt32.size cs
    | '-' :: cs => Decimal.valueBelow? 1 cs
    | cs => Decimal.valueBelow? UInt32.size cs
  value.map UInt32.ofNat

/-- A way to extrapolate. -/
def mode? : String → Option Extrapolation
  | "none" => some .none
  | "per-bank" => some .perBank
  | "per-bank-trunc" => some .perBankTrunc
  | "per-bank-fit" => some .perBankFit
  | _ => none

/-- An address. -/
def address? (s : String) : Option Address := (Address.parse s.toList).toOption

/-- The value of an option, read if it is given; `none` if it is given and cannot be read. -/
def option? {α : Type} (a : Arguments) (name : String) (read? : String → Option α) :
    Option (Option α) :=
  match a.value? name with
  | none => some none
  | some value => (read? value).map some

/-! ### Tools -/

/-- The option that every tool has. -/
def configOption : CommandOption := ⟨"config", none, true⟩

/-- The options of a tool. -/
def options : Tool → List CommandOption
  | .compile => [configOption, ⟨"distance", none, true⟩]
  | .common => [configOption, ⟨"output", some 'o', true⟩]
  | .stats => [configOption, ⟨"json", none, false⟩]
  | .render => [configOption]
  | .compare => [configOption, ⟨"prefix", none, true⟩]
  | .query => [configOption, ⟨"extrap", none, true⟩]

/-- The arguments of `compile`. -/
def compileArgs? (a : Arguments) : Option (CompileArgs Source) := do
  let [profile, output] := a.others | none
  let profile ← source? profile
  let output ← path? output
  let config ← option? a "config" source?
  let distance ← option? a "distance" number?
  pure { profile, output, config, distance }

/-- The arguments of `common`. -/
def commonArgs? (a : Arguments) : Option (CommonArgs Source) := do
  let profiles ← a.others.mapM source?
  if profiles.isEmpty then none
  let config ← option? a "config" source?
  let output ← option? a "output" path?
  pure { profiles, output := output.getD "-", config }

/-- The arguments of `stats`. -/
def statsArgs? (a : Arguments) : Option (StatsArgs Source) := do
  let files ← a.others.mapM source?
  if files.isEmpty then none
  let config ← option? a "config" source?
  pure { files, asJson := (a.value? "json").isSome, config }

/-- The arguments of `render`. -/
def renderArgs? (a : Arguments) : Option (RenderArgs Source) := do
  let [profile] ← a.others.mapM sourceOrDash? | none
  let config ← option? a "config" source?
  pure { profile, config }

/-- The arguments of `compare`. -/
def compareArgs? (a : Arguments) : Option (CompareArgs Source) := do
  let [left, right] ← a.others.mapM source? | none
  let config ← option? a "config" source?
  let stem ← option? a "prefix" path?
  pure { left, right, stem := stem.getD "diff", config }

/-- The arguments of `query`. -/
def queryArgs? (a : Arguments) : Option (QueryArgs Source) := do
  let table :: rest := a.others | none
  let table ← source? table
  let addresses ← rest.mapM address?
  if addresses.isEmpty then none
  let config ← option? a "config" source?
  let mode ← option? a "extrap" mode?
  pure { table, addresses, mode, config }

/-- The tool with the arguments given; `none` if they are not understood. -/
def parse? (tool : Tool) (args : List String) : Option (Command Source) := do
  let a ← Arguments.parse? (options tool) args
  match tool with
  | .compile => (compileArgs? a).map compile
  | .common => (commonArgs? a).map common
  | .stats => (statsArgs? a).map stats
  | .render => (renderArgs? a).map render
  | .compare => (compareArgs? a).map compare
  | .query => (queryArgs? a).map query

/-- The tool that the first argument names, with the other arguments. -/
def ofArguments? : List String → Option (Command Source)
  | [] => none
  | name :: args => (Tool.ofName? name).bind fun tool => parse? tool args

end Command

end RowFlips
