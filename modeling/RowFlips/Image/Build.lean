import RowFlips.Error
import RowFlips.Image.Basic
import RowFlips.Table

/-!
# Making images

Attacks become an image one after the other. Each becomes a hammering, and those on consecutive
rows of one bank and column share a range. All must have their targets the same number of rows
apart: as many as asked for, or as those of the first attack. The ranges are sorted at the end.
-/

namespace RowFlips

namespace Image

/-- An image in the making. -/
structure Builder where
  /-- How many rows apart targets must be, as soon as that is known. -/
  distance : Option UInt32
  /-- The range that the next attack may still add to, with the first target of its last
  attack. -/
  open? : Option (Range × Address)
  /-- The ranges before that. -/
  closed : Array Range
  /-- The hammerings. -/
  hammerings : Array Hammering
  /-- The flip records. -/
  records : Array Record

/-- A count as its 32 bit field holds it. -/
def count32 (what : Counted) (n : Nat) : Except ImageFault UInt32 :=
  if n < UInt32.size then .ok (.ofNat n) else .error (.tooMany what n)

/-- The record of a byte mask. -/
def Record.ofMask (m : ByteMask) : Except ImageFault Record :=
  if m.cellByte.toNat < UInt16.size then .ok ⟨m.addr, m.cellByte.toUInt16, m.pullup, m.pulldown⟩
  else .error (.cellByte m.cellByte)

/-- How far apart the targets of a table are that has `t` for its first targets. -/
def distanceOf (t : Targets) : Except TargetFault UInt32 :=
  if t.distance < 0 then .error (.negative t) else .ok (.ofNat t.distance.toNat)

namespace Builder

/-- Nothing yet. -/
def start (distance : Option UInt32) : Builder := ⟨distance, none, #[], #[], #[]⟩

/-- The distance of the targets `t`, which must be the one known if there is one, and must lead
from the first target to the second. -/
def checkTargets (b : Builder) (t : Targets) : Except TargetFault UInt32 := do
  let distance ← match b.distance with
    | some d => pure d
    | none => distanceOf t
  if t.first.addRows? distance.toNat = some t.second then pure distance
  else throw (.inconsistent t distance)

/-- The builder with its range lengthened by one attack on `first`, or with a new range for it. -/
def extend (b : Builder) (first : Address) : Except ImageFault Builder :=
  match b.open? with
  | some (r, last) =>
    if last.addRows? 1 = some first then
      .ok { b with open? := some ({ r with count := r.count + 1 }, first) }
    else
      (count32 .hammerings b.hammerings.size).map fun i =>
        { b with closed := b.closed.push r, open? := some (⟨first, 1, i⟩, first) }
  | none =>
    (count32 .hammerings b.hammerings.size).map fun i =>
      { b with open? := some (⟨first, 1, i⟩, first) }

/-- The builder with a hammering for the flips added. -/
def addFlips (b : Builder) (flips : FlipSet) : Except ImageFault Builder := do
  let records ← flips.byteMasks.mapM Record.ofMask
  let count ← count32 .flipRecords records.length
  let first ← count32 .flipRecords b.records.size
  pure { b with
    hammerings := b.hammerings.push ⟨count, first⟩
    records := b.records ++ records }

/-- The builder with an attack added. -/
def add (b : Builder) (a : Attack) : Except Error Builder := do
  let distance ← (b.checkTargets a.targets).mapError (Error.targets none)
  let b ← (b.extend a.targets.first).mapError Error.image
  let b ← (b.addFlips a.flips).mapError Error.image
  pure { b with distance := some distance }

/-- The ranges in the order they were opened. -/
def ranges (b : Builder) : List Range :=
  b.closed.toList ++ (b.open?.map Prod.fst).toList

/-- The finished image; its distance is 0 if nothing gave one. -/
def finish (b : Builder) : Except ImageFault Image := do
  let _ ← count32 .flipRecords b.records.size
  pure ⟨b.distance.getD 0, sortOn Range.start b.ranges, b.hammerings.toList, b.records.toList⟩

end Builder

/-- The image of attacks in the given order, with their targets as far apart as `distance` says,
or as those of the first attack. -/
def ofAttacks (attacks : List Attack) (distance : Option UInt32) : Except Error Image := do
  let b ← attacks.foldlM Builder.add (Builder.start distance)
  b.finish.mapError Error.image

/-- The image of a table. -/
def ofTable (t : Table) (distance : Option UInt32) : Except Error Image :=
  ofAttacks t.attacks distance

/-- The table that the image stands for; `none` if an index lies outside its table. -/
def toTable? (img : Image) : Option Table := img.attacks?.map Table.ofAttacks

end Image

end RowFlips
