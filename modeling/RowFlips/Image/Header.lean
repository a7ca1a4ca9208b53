import RowFlips.Error
import RowFlips.Image.Checked
import RowFlips.Image.Word

/-!
# Headers of binary images

An image file starts with a header of 56 bytes: a magic number, the row distance, the size of the
file, and the offset and number of records of each table. Tables start at multiples of 128. The
layout has a variant in `Checked` that checks each of its steps.
-/

namespace RowFlips.Image

open Text (Bytes)

/-- The number that every image file starts with. -/
def magic : UInt32 := 0xf11b7ab1

/-- What the offset of every table is a multiple of. -/
def alignment : UInt64 := 128

/-- The bytes of a header. -/
def headerSize : UInt64 := 56

/-- What the start of an image file says. -/
structure Header where
  /-- The magic number. -/
  magic : UInt32
  /-- How many rows the second target of an attack lies above the first. -/
  distance : UInt32
  /-- The size of the file. -/
  size : UInt64
  /-- Where the ranges start. -/
  rangeOffset : UInt64
  /-- Where the hammerings start. -/
  hammeringOffset : UInt64
  /-- Where the flip records start. -/
  flipOffset : UInt64
  /-- The number of ranges. -/
  numRanges : UInt32
  /-- The number of hammerings. -/
  numHammerings : UInt32
  /-- The number of flip records. -/
  numFlips : UInt32
deriving DecidableEq, Repr

namespace Header

/-- Where a table starts. -/
def offset (h : Header) : Section → UInt64
  | .range => h.rangeOffset
  | .hammering => h.hammeringOffset
  | .flip => h.flipOffset

/-- The number of records of a table. -/
def count (h : Header) : Section → UInt32
  | .range => h.numRanges
  | .hammering => h.numHammerings
  | .flip => h.numFlips

/-- The end of a table of `count` records that starts at `offset`. -/
def tableEnd (table : Section) (offset : UInt64) (count : UInt32) : UInt64 :=
  offset + count.toUInt64 * UInt64.ofNat table.recordSize

/-- The header of a file with tables of the given lengths, each as near to the start as the ones
before it allow. -/
def layout (distance numRanges numHammerings numFlips : UInt32) : Header :=
  let rangeOffset := alignUp headerSize alignment
  let hammeringOffset := alignUp (tableEnd .range rangeOffset numRanges) alignment
  let flipOffset := alignUp (tableEnd .hammering hammeringOffset numHammerings) alignment
  { magic := Image.magic, distance, size := tableEnd .flip flipOffset numFlips,
    rangeOffset, hammeringOffset, flipOffset, numRanges, numHammerings, numFlips }

end Header

namespace Checked

/-- `Header.tableEnd`, with every step checked. -/
def tableEnd (table : Section) (offset : UInt64) (count : UInt32) : Except Trap UInt64 := do
  let bytes ← mul64 count.toUInt64 (UInt64.ofNat table.recordSize)
  add64 offset bytes

/-- Where the table after another starts, with every step checked. -/
def nextOffset (table : Section) (offset : UInt64) (count : UInt32) : Except Trap UInt64 := do
  let stop ← tableEnd table offset count
  alignUp stop alignment

/-- `Header.layout`, with every step checked. -/
def layout (distance numRanges numHammerings numFlips : UInt32) : Except Trap Header := do
  let rangeOffset ← alignUp headerSize alignment
  let hammeringOffset ← nextOffset .range rangeOffset numRanges
  let flipOffset ← nextOffset .hammering hammeringOffset numHammerings
  let size ← tableEnd .flip flipOffset numFlips
  pure { magic := Image.magic, distance, size, rangeOffset, hammeringOffset, flipOffset,
         numRanges, numHammerings, numFlips }

end Checked

namespace Header

/-- The header as bytes; the last four are not used. -/
def encode (h : Header) : Bytes :=
  word 4 h.magic.toNat ++ word 4 h.distance.toNat ++ word 8 h.size.toNat ++
    word 8 h.rangeOffset.toNat ++ word 8 h.hammeringOffset.toNat ++ word 8 h.flipOffset.toNat ++
    word 4 h.numRanges.toNat ++ word 4 h.numHammerings.toNat ++ word 4 h.numFlips.toNat ++ word 4 0

/-- The header that the bytes at the front store; `none` if they are too few. -/
def take? (b : Bytes) : Option Header := do
  let (magic, b) ← takeWord? 4 b
  let (distance, b) ← takeWord? 4 b
  let (size, b) ← takeWord? 8 b
  let (rangeOffset, b) ← takeWord? 8 b
  let (hammeringOffset, b) ← takeWord? 8 b
  let (flipOffset, b) ← takeWord? 8 b
  let (numRanges, b) ← takeWord? 4 b
  let (numHammerings, b) ← takeWord? 4 b
  let (numFlips, b) ← takeWord? 4 b
  let _ ← takeWord? 4 b
  pure ⟨.ofNat magic, .ofNat distance, .ofNat size, .ofNat rangeOffset, .ofNat hammeringOffset,
    .ofNat flipOffset, .ofNat numRanges, .ofNat numHammerings, .ofNat numFlips⟩

/-- Refuses a table that is misaligned, overlaps the header or ends after the file. -/
def checkTable (h : Header) (table : Section) : Except ImageFault Unit :=
  if (h.offset table).toNat % alignment.toNat ≠ 0 ∨ h.offset table < headerSize then
    .error (.misaligned table (h.offset table))
  else if h.size.toNat < (h.offset table).toNat + (h.count table).toNat * table.recordSize then
    .error (.pastEnd table (h.count table) (h.offset table) h.size)
  else .ok ()

/-- The header of an image file. -/
def decode (b : Bytes) : Except ImageFault Header :=
  match take? b with
  | none => .error (.tooShort b.length)
  | some h => do
    if h.magic ≠ Image.magic then throw (.badMagic h.magic)
    if h.size.toNat ≠ b.length then throw (.sizeMismatch h.size b.length)
    h.checkTable .range
    h.checkTable .hammering
    h.checkTable .flip
    pure h

end Header

end RowFlips.Image
