import RowFlips.Image.Basic
import RowFlips.Json.Basic
import RowFlips.Table

/-!
# JSON forms

How addresses, attacks, tables and images are given to other programs.
-/

namespace RowFlips

/-- The address as an object. -/
def Address.toJson (a : Address) : Json :=
  .record [("chan", .nat a.chan.toNat), ("dimm", .nat a.dimm.toNat), ("rank", .nat a.rank.toNat),
    ("bank", .nat a.bank.toNat), ("row", .nat a.row.toNat), ("col", .nat a.col.toNat)]

/-- The address that a value gives: an object with all six fields, or an array of them. -/
def Address.ofJson? (v : Json) : Option Address := do
  let fields ← v.fields? ["chan", "dimm", "rank", "bank", "row", "col"]
  let [some chan, some dimm, some rank, some bank, some row, some col] := fields | none
  let chan ← chan.natBelow? UInt8.size
  let dimm ← dimm.natBelow? UInt8.size
  let rank ← rank.natBelow? UInt8.size
  let bank ← bank.natBelow? UInt8.size
  let row ← row.natBelow? UInt16.size
  let col ← col.natBelow? UInt16.size
  pure ⟨.ofNat chan, .ofNat dimm, .ofNat rank, .ofNat bank, .ofNat row, .ofNat col⟩

/-- The direction by name. -/
def Direction.toJson : Direction → Json
  | up => .str "ZeroToOne"
  | down => .str "OneToZero"

/-- The flip as an object. -/
def Flip.toJson (f : Flip) : Json :=
  .record [("addr", f.addr.toJson), ("bit", .nat f.bit.toNat), ("direction", f.direction.toJson)]

/-- The targets as an object. -/
def Targets.toJson (t : Targets) : Json :=
  .record [("first", t.first.toJson), ("second", t.second.toJson)]

/-- The attack as an object. -/
def Attack.toJson (a : Attack) : Json :=
  .record [("targets", a.targets.toJson), ("flips", .array (a.flips.toList.map Flip.toJson))]

/-- The table as an object. -/
def Table.toJson (t : Table) : Json := .record [("attacks", .array (t.attacks.map Attack.toJson))]

/-- The counts as an object. -/
def Table.Stats.toJson (s : Table.Stats) : Json :=
  .record [("hammers", .nat s.hammers), ("with_flips", .nat s.withFlips),
    ("total_flips", .nat s.totalFlips)]

namespace Image

/-- The range as an object. -/
def Range.toJson (r : Range) : Json :=
  .record [("start", r.start.toJson), ("num_hammers", .nat r.count.toNat),
    ("ham_idx", .nat r.first.toNat)]

/-- The hammering as an object. -/
def Hammering.toJson (h : Hammering) : Json :=
  .record [("num_flips", .nat h.count.toNat), ("flip_idx", .nat h.first.toNat)]

/-- The flip record as an object. -/
def Record.toJson (r : Record) : Json :=
  .record [("location", r.addr.toJson), ("cell_byte", .nat r.cellByte.toNat),
    ("pullup", .nat r.pullup.toNat), ("pulldown", .nat r.pulldown.toNat)]

/-- The image as an object. -/
def toJson (img : Image) : Json :=
  .record [("dist", .nat img.distance.toNat), ("ranges", .array (img.ranges.map Range.toJson)),
    ("hammers", .array (img.hammerings.map Hammering.toJson)),
    ("flips", .array (img.records.map Record.toJson))]

end Image

end RowFlips
