import RowFlips.Attack
import RowFlips.ByteMask
import RowFlips.Log.Run

/-!
# Attacks as runs

An attack is written as runs. Against a byte that was written, only bits that had the value they
flipped from can show, so the flips are divided between a run against the baseline byte and a run
against its complement.
-/

namespace RowFlips

/-- What the flips of a byte make of it, if they show at all. -/
def ByteMask.corruption? (m : ByteMask) (expected : UInt8) : Option Corruption :=
  let got := (expected ||| (m.pullup &&& ~~~expected)) &&& ~~~(m.pulldown &&& expected)
  if got = expected then none else some ⟨m.cellByte, got, expected⟩

namespace Attack

/-- The run with every flip of the attack that shows in a memory full of `expected`. -/
def runAgainst (a : Attack) (expected : UInt8) : Run :=
  .ofFound a.targets.toList (a.flips.byteMasks.filterMap fun m =>
    (m.corruption? expected).map (m.addr, ·))

/-- The runs that record the attack: one against the baseline and one against its complement. A
run without victims is left out, but the baseline's only if the other remains. -/
def runs (a : Attack) (baseline : UInt8) : List Run :=
  let primary := a.runAgainst baseline
  let inverse := a.runAgainst (~~~baseline)
  if inverse.isEmpty then [primary]
  else if primary.isEmpty then [inverse]
  else [primary, inverse]

end Attack

end RowFlips
