import RowFlips.Config
import RowFlips.Error
import RowFlips.Json.Parser
import RowFlips.Text.Bytes

/-!
# Stored configurations

A configuration is stored as a JSON object that names the parameters it sets, or as an array of
the first few of them.
-/

namespace RowFlips

/-- The name of a way to extrapolate. -/
def Extrapolation.name : Extrapolation → String
  | none => "none"
  | perBank => "per_bank"
  | perBankTrunc => "per_bank_trunc"
  | perBankFit => "per_bank_fit"

/-- The way to extrapolate of a name. -/
def Extrapolation.ofName? (name : String) : Option Extrapolation :=
  [none, perBank, perBankTrunc, perBankFit].find? fun mode => mode.name == name

/-- The way to extrapolate that a value gives: by its name, or by an object with the name and a
null. -/
def Extrapolation.ofJson? : Json → Option Extrapolation
  | .string (some name) => ofName? name
  | .object [(some name, .null)] => ofName? name
  | _ => Option.none

namespace Config

/-- The names of the parameters in their order. -/
def fieldNames : List String := ["cell_size", "baseline", "distance", "extrap"]

/-- The distance that a value gives, which may be none. -/
def distanceOfJson? : Json → Option (Option UInt32)
  | .null => some none
  | v => (v.natBelow? UInt32.size).map fun n => some (.ofNat n)

/-- A parameter: what `read?` makes of its value, or its default if there is no value. -/
def parameter {α : Type} (read? : Json → Option α) (default : α) : Option Json → Option α
  | none => some default
  | some v => read? v

/-- The configuration that a value gives. -/
def ofJson? (v : Json) : Option Config := do
  let [cellSize, baseline, distance, mode] ← v.fields? fieldNames | none
  let cellSize ← parameter (fun v => (v.natBelow? UInt32.size).map UInt32.ofNat) 8 cellSize
  let baseline ← parameter (fun v => (v.natBelow? UInt8.size).map UInt8.ofNat) 0xff baseline
  let distance ← parameter distanceOfJson? none distance
  let mode ← parameter Extrapolation.ofJson? .none mode
  pure { cellSize, baseline, distance, mode }

/-- The configuration that a file holds. -/
def ofFile (content : Text.Bytes) : Except Error Config :=
  match Text.decode? content with
  | none => .error (.file .notText)
  | some text =>
    match (Json.parse? text).bind ofJson? with
    | none => .error .config
    | some config => .ok config

end Config

end RowFlips
