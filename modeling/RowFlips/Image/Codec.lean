import RowFlips.Image.Basic
import RowFlips.Image.Header

/-!
# Image files

Each table of an image is stored record after record. The bytes between the tables have no
meaning and are written as zeros.
-/

namespace RowFlips

open Text (Bytes)

namespace Image

/-! ### Records -/

/-- An address as bytes. -/
def addressBytes (a : Address) : Bytes :=
  [a.chan, a.dimm, a.rank, a.bank] ++ word 2 a.row.toNat ++ word 2 a.col.toNat

/-- The address stored at the front, and what follows it. -/
def takeAddress? : Bytes → Option (Address × Bytes)
  | chan :: dimm :: rank :: bank :: b => do
    let (row, b) ← takeWord? 2 b
    let (col, b) ← takeWord? 2 b
    pure (⟨chan, dimm, rank, bank, .ofNat row, .ofNat col⟩, b)
  | _ => none

/-- A range as bytes. -/
def Range.encode (r : Range) : Bytes :=
  addressBytes r.start ++ word 4 r.count.toNat ++ word 4 r.first.toNat

/-- The range stored at the front, and what follows it. -/
def Range.take? (b : Bytes) : Option (Range × Bytes) := do
  let (start, b) ← takeAddress? b
  let (count, b) ← takeWord? 4 b
  let (first, b) ← takeWord? 4 b
  pure (⟨start, .ofNat count, .ofNat first⟩, b)

/-- A hammering as bytes. -/
def Hammering.encode (h : Hammering) : Bytes := word 4 h.count.toNat ++ word 4 h.first.toNat

/-- The hammering stored at the front, and what follows it. -/
def Hammering.take? (b : Bytes) : Option (Hammering × Bytes) := do
  let (count, b) ← takeWord? 4 b
  let (first, b) ← takeWord? 4 b
  pure (⟨.ofNat count, .ofNat first⟩, b)

/-- A flip record as bytes. -/
def Record.encode (r : Record) : Bytes :=
  addressBytes r.addr ++ word 2 r.cellByte.toNat ++ [r.pullup, r.pulldown]

/-- The flip record stored at the front, and what follows it. -/
def Record.take? (b : Bytes) : Option (Record × Bytes) := do
  let (addr, b) ← takeAddress? b
  let (cellByte, b) ← takeWord? 2 b
  match b with
  | pullup :: pulldown :: b => pure (⟨addr, .ofNat cellByte, pullup, pulldown⟩, b)
  | _ => none

/-! ### Writing -/

/-- The header of the image's file. -/
def header (img : Image) : Header :=
  Header.layout img.distance (.ofNat img.ranges.length) (.ofNat img.hammerings.length)
    (.ofNat img.records.length)

/-- The size of the image's file. -/
def encodedSize (img : Image) : Nat := img.header.size.toNat

/-- A table of the image as bytes. -/
def tableBytes (img : Image) : Section → Bytes
  | .range => img.ranges.flatMap Range.encode
  | .hammering => img.hammerings.flatMap Hammering.encode
  | .flip => img.records.flatMap Record.encode

/-- The bytes cut, or filled up with zeros, to a size. -/
def resize (size : Nat) (b : Bytes) : Bytes := b.take size ++ List.replicate (size - b.length) 0

/-- The bytes with a table of the image put behind them, at its offset. -/
def appendTable (img : Image) (b : Bytes) (table : Section) : Bytes :=
  resize (img.header.offset table).toNat b ++ img.tableBytes table

/-- The image as the bytes of its file, put together from front to back. -/
def encode (img : Image) : Bytes :=
  resize img.encodedSize
    ([Section.range, .hammering, .flip].foldl img.appendTable img.header.encode)

/-- The bytes with `new` in the place of what stood from `offset` on; a gap is filled with
zeros. -/
def overwrite (offset : Nat) (new b : Bytes) : Bytes :=
  resize offset b ++ new ++ b.drop (offset + new.length)

/-- The bytes with the header of the image in its place. -/
def writeHeader (img : Image) (b : Bytes) : Bytes := overwrite 0 img.header.encode b

/-- The bytes with a table of the image in its place. -/
def writeTable (img : Image) (b : Bytes) (table : Section) : Bytes :=
  overwrite (img.header.offset table).toNat (img.tableBytes table) b

/-- The bytes with the header and the tables of the image in their places. -/
def writeOver (img : Image) (b : Bytes) : Bytes :=
  [Section.range, .hammering, .flip].foldl img.writeTable (img.writeHeader b)

/-- The image as a file: written over zeros. -/
def toFile (img : Image) : Bytes := img.writeOver (List.replicate img.encodedSize 0)

/-! ### Reading -/

/-- The records of a table of the file. -/
def takeTable? {α : Type} (take? : Bytes → Option (α × Bytes)) (h : Header) (table : Section)
    (b : Bytes) : Option (List α) :=
  takeMany? take? (h.count table).toNat [] (b.drop (h.offset table).toNat)

/-- The image that the tables of a file hold, with whatever indices; `none` if the file ends
within a table. -/
def takeTables? (h : Header) (b : Bytes) : Option Image := do
  let ranges ← takeTable? Range.take? h .range b
  let hammerings ← takeTable? Hammering.take? h .hammering b
  let records ← takeTable? Record.take? h .flip b
  pure ⟨h.distance, ranges, hammerings, records⟩

/-- Refuses an image with an index outside its table. -/
def checkIndices (img : Image) : Except ImageFault Unit := do
  let numHammerings := img.hammerings.length
  let numRecords := img.records.length
  if let some i := img.ranges.findIdx? fun r => numHammerings < r.first.toNat + r.count.toNat then
    throw (.rangeOutside i)
  if let some i := img.hammerings.findIdx? fun h => numRecords < h.first.toNat + h.count.toNat then
    throw (.hammeringOutside i)

/-- The image that a file holds. -/
def decode (b : Bytes) : Except ImageFault Image := do
  let h ← Header.decode b
  match takeTables? h b with
  | none => throw (.tooShort b.length)
  | some img =>
    img.checkIndices
    pure img

end Image

end RowFlips
