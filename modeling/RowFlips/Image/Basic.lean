import RowFlips.Attack
import RowFlips.ByteMask

/-!
# Binary images of tables

An image holds a table for consumers that index it directly. Targets are not stored attack by
attack: a range stands for attacks on consecutive rows, and all attacks of an image have their
second target the same number of rows after their first. A hammering stands for one attack and
names its flip records, and a flip record holds the flips in one byte of a cell.

Ranges name their hammerings, and hammerings their flip records, by index. An index may lie
outside its table, so taking what it names may fail.
-/

namespace RowFlips

namespace Image

/-- Attacks on consecutive rows of one bank, in one column. -/
structure Range where
  /-- The first target of the first attack. -/
  start : Address
  /-- The number of attacks. -/
  count : UInt32
  /-- The index of the first attack's hammering. -/
  first : UInt32
deriving DecidableEq, Repr, Inhabited

/-- The flips of one attack. -/
structure Hammering where
  /-- The number of flip records. -/
  count : UInt32
  /-- The index of the first flip record. -/
  first : UInt32
deriving DecidableEq, Repr, Inhabited

/-- The flips in one byte of a cell. -/
structure Record where
  /-- The cell that holds the byte. -/
  addr : Address
  /-- The number of the byte in its cell. -/
  cellByte : UInt16
  /-- The bits that went from 0 to 1. -/
  pullup : UInt8
  /-- The bits that went from 1 to 0. -/
  pulldown : UInt8
deriving DecidableEq, Repr, Inhabited

/-- The flips that the record holds. -/
def Record.flips (r : Record) : List Flip :=
  maskFlips r.addr r.cellByte.toUInt32 r.pullup r.pulldown

end Image

/-- The binary form of a table. -/
structure Image where
  /-- How many rows the second target of an attack lies above the first. -/
  distance : UInt32
  /-- The ranges. -/
  ranges : List Image.Range
  /-- The hammerings. -/
  hammerings : List Image.Hammering
  /-- The flip records. -/
  records : List Image.Record
deriving DecidableEq, Repr, Inhabited

namespace Image

/-- The `count` elements from index `first` on; `none` if the array does not have them all. -/
def slice? {α : Type} (a : Array α) (first count : UInt32) : Option (List α) :=
  if first.toNat + count.toNat ≤ a.size then
    some (a.extract first.toNat (first.toNat + count.toNat)).toList
  else none

/-- A slice is taken exactly if it ends within the list. -/
theorem slice?_toArray {α : Type} (l : List α) (first count : UInt32) :
    slice? l.toArray first count =
      if first.toNat + count.toNat ≤ l.length then
        some ((l.drop first.toNat).take count.toNat)
      else none := by
  simp [slice?]

/-- The flip records that a hammering names. -/
def Hammering.records? (records : Array Record) (h : Hammering) : Option (List Record) :=
  slice? records h.first h.count

/-- The attack that a hammering on `first` stands for. -/
def Hammering.attack? (distance : UInt32) (records : Array Record) (first : Address)
    (h : Hammering) : Option Attack :=
  (h.records? records).map fun records =>
    ⟨⟨first, first.addRows distance.toNat⟩, SortedSet.ofList (records.flatMap Record.flips)⟩

/-- The attacks that a range stands for. -/
def Range.attacks? (distance : UInt32) (hammerings : Array Hammering) (records : Array Record)
    (r : Range) : Option (List Attack) := do
  let hs ← slice? hammerings r.first r.count
  hs.zipIdx.mapM fun (h, i) => h.attack? distance records (r.start.addRows i)

/-- All attacks, range by range. -/
def attacks? (img : Image) : Option (List Attack) :=
  let hammerings := img.hammerings.toArray
  let records := img.records.toArray
  (img.ranges.mapM (Range.attacks? img.distance hammerings records)).map List.flatten

/-- Every index lies in its table, and every table is small enough for a 32 bit count. -/
structure WellFormed (img : Image) : Prop where
  ranges_lt : img.ranges.length < UInt32.size
  hammerings_lt : img.hammerings.length < UInt32.size
  records_lt : img.records.length < UInt32.size
  range_le : ∀ r ∈ img.ranges, r.first.toNat + r.count.toNat ≤ img.hammerings.length
  hammering_le : ∀ h ∈ img.hammerings, h.first.toNat + h.count.toNat ≤ img.records.length

end Image

end RowFlips
