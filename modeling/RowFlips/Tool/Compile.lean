import RowFlips.Image.Build
import RowFlips.Image.Codec
import RowFlips.Tool.Command
import RowFlips.Tool.Loading

/-!
# Making an image of a log

The distance of the targets is that of the command line, else that of the configuration, else that
of the first attack.
-/

namespace RowFlips

namespace CompileArgs

/-- The distance as a log is checked for it, which must be in the range of 32 bit signed numbers. -/
def checkedDistance : Option UInt32 → Except Failure (Option Int)
  | none => .ok none
  | some d => if d.toNat < 1 <<< 31 then .ok (some d.toNat) else .error .distanceTooLarge

/-- The image to write. -/
def image (a : CompileArgs Input) : Except Failure Image := do
  let config ← Input.config a.config
  let distance := a.distance.or config.distance
  let node ← a.profile.node.mapError fun fault => Failure.error (.file fault)
  let checked ← checkedDistance distance
  let content ← node.content.mapError fun fault => Failure.error (.file fault)
  let attacks ← (Reader.ofContent config checked content).attacks.mapError .error
  (Image.ofTable (Table.ofAttacks attacks) distance).mapError .error

/-- The counts that are printed. -/
def summary (img : Image) : String :=
  "Ranges: " ++ toString img.ranges.length ++ "\nHammers: " ++ toString img.hammerings.length ++
    "\nFlips: " ++ toString img.records.length ++ "\n"

/-- Loads a log, prints the counts of its image and writes it. -/
def script (a : CompileArgs Input) : Script :=
  .needing a.image fun img => ⟨[.print (summary img), .writeSized a.output img.toFile], none⟩

end CompileArgs

end RowFlips
