import RowFlips.Image.Codec
import RowFlips.Image.Lookup
import RowFlips.Tool.Command
import RowFlips.Tool.Loading

/-!
# Looking up rows in an image

The way to extrapolate is that of the command line, else that of the configuration.
-/

namespace RowFlips

namespace QueryArgs

/-- The image to look in, and the way to extrapolate. -/
def result (a : QueryArgs Input) : Except Failure (Image × Extrapolation) := do
  let config ← Input.config a.config
  let content ← a.table.read
  let img ← (Image.decode content).mapError fun fault => Failure.error (.image fault)
  pure (img, a.mode.getD config.mode)

/-- What is printed for an address. -/
def answer (q : Address) : Option Image.Hit → String
  | none => toString q ++ ": no data\n"
  | some hit =>
    let origin :=
      if hit.isExtrapolated then
        ": extrapolated from row " ++ toString (q.addRows (-hit.rowOffset)).row.toNat
      else ":"
    toString q ++ origin ++ "\n" ++
      String.join (hit.flips.map fun f => Attack.flipReport f ++ "\n")

/-- Loads an image, then prints what it tells of each address. -/
def script (a : QueryArgs Input) : Script :=
  .needing a.result fun (img, mode) =>
    ⟨a.addresses.map fun q => .print (answer q (img.lookup? q mode)), none⟩

end QueryArgs

end RowFlips
