import Mathlib.Data.List.Infix
import RowFlips.Proofs.Image.Layout
import RowFlips.Proofs.Lists

/-!
# Reading back an image file

Every record reads back from where it was written, whatever follows it. Each table stands in the
file at the offset that the header gives, so a reader that goes by the header finds all of them.

## Main results

* `takeMany?_flatMap`: records written one after the other read back.
* `encode_spec`: the header and each table stand where the header says.
* `Header.Tight.decode_eq`: the headers that are laid out are read whatever follows them.
* `checkIndices_eq_ok_iff`: when the indices of an image are accepted.
* `decode_encode`: a well-formed image reads back from its file.
-/

namespace RowFlips.Image

open Text (Bytes)

/-! ### Records -/

/-- A word of 16 bits reads back. -/
@[simp] theorem takeWord?_uint16 (n : UInt16) (rest : Bytes) :
    takeWord? 2 (word 2 n.toNat ++ rest) = some (n.toNat, rest) :=
  takeWord?_word_append n.toNat_lt rest

/-- A word of 32 bits reads back. -/
@[simp] theorem takeWord?_uint32 (n : UInt32) (rest : Bytes) :
    takeWord? 4 (word 4 n.toNat ++ rest) = some (n.toNat, rest) :=
  takeWord?_word_append n.toNat_lt rest

/-- A word of 64 bits reads back. -/
@[simp] theorem takeWord?_uint64 (n : UInt64) (rest : Bytes) :
    takeWord? 8 (word 8 n.toNat ++ rest) = some (n.toNat, rest) :=
  takeWord?_word_append n.toNat_lt rest

/-- An address reads back, and leaves what follows it. -/
@[simp] theorem takeAddress?_append (a : Address) (rest : Bytes) :
    takeAddress? (addressBytes a ++ rest) = some (a, rest) := by
  simp [addressBytes, takeAddress?]

/-- A range reads back, and leaves what follows it. -/
theorem Range.take?_append (r : Range) (rest : Bytes) :
    Range.take? (r.encode ++ rest) = some (r, rest) := by
  simp [Range.encode, Range.take?]

/-- A hammering reads back, and leaves what follows it. -/
theorem Hammering.take?_append (h : Hammering) (rest : Bytes) :
    Hammering.take? (h.encode ++ rest) = some (h, rest) := by
  simp [Hammering.encode, Hammering.take?]

/-- A flip record reads back, and leaves what follows it. -/
theorem Record.take?_append (r : Record) (rest : Bytes) :
    Record.take? (r.encode ++ rest) = some (r, rest) := by
  simp [Record.encode, Record.take?]

/-- A header reads back, whatever follows it. -/
theorem Header.take?_append (h : Header) (rest : Bytes) :
    Header.take? (h.encode ++ rest) = some h := by
  have hpad (rest : Bytes) : takeWord? 4 (word 4 0 ++ rest) = some (0, rest) :=
    takeWord?_word_append (by decide) rest
  simp [Header.encode, Header.take?, hpad]

/-- An address takes 8 bytes. -/
@[simp] theorem length_addressBytes (a : Address) : (addressBytes a).length = 8 := by
  simp [addressBytes]

/-- A range takes 16 bytes. -/
@[simp] theorem Range.length_encode (r : Range) : r.encode.length = 16 := by
  simp [Range.encode]

/-- A hammering takes 8 bytes. -/
@[simp] theorem Hammering.length_encode (h : Hammering) : h.encode.length = 8 := by
  simp [Hammering.encode]

/-- A flip record takes 12 bytes. -/
@[simp] theorem Record.length_encode (r : Record) : r.encode.length = 12 := by
  simp [Record.encode]

/-- A header takes 56 bytes. -/
@[simp] theorem Header.length_encode (h : Header) : h.encode.length = 56 := by
  simp [Header.encode]

/-- Records written one after the other read back, behind those read before. -/
theorem takeMany?_flatMap {α : Type} {take? : Bytes → Option (α × Bytes)} {encode : α → Bytes}
    (h : ∀ a rest, take? (encode a ++ rest) = some (a, rest)) (l done : List α) (rest : Bytes) :
    takeMany? take? l.length done (l.flatMap encode ++ rest) = some (done.reverse ++ l) := by
  induction l generalizing done with
  | nil => simp [takeMany?]
  | cons a l ih =>
    rw [List.flatMap_cons, List.append_assoc, List.length_cons, takeMany?, h]
    simp [ih]

/-! ### Tables at their offsets -/

/-- Bytes at the front stay there if the size is no less than theirs. -/
theorem prefix_resize_of_length_le {size : Nat} {front b : Bytes} (h : front <+: b)
    (hsize : front.length ≤ size) : front <+: resize size b :=
  (List.prefix_take_iff.2 ⟨h, hsize⟩).trans (List.prefix_append _ _)

/-- Bytes that are filled up to a greater size stay at the front. -/
theorem prefix_resize {size : Nat} {b : Bytes} (h : b.length ≤ size) : b <+: resize size b :=
  prefix_resize_of_length_le List.prefix_rfl h

/-- A file that is given a size has that size. -/
@[simp] theorem length_resize (size : Nat) (b : Bytes) : (resize size b).length = size := by
  simp only [resize, List.length_append, List.length_take, List.length_replicate]
  omega

section Encode

variable {img : Image}

/-- A table that is appended ends as far behind its offset as it has bytes. -/
theorem length_appendTable (img : Image) (b : Bytes) (table : Section) :
    (img.appendTable b table).length =
      (img.header.offset table).toNat + (img.tableBytes table).length := by
  rw [appendTable, List.length_append, length_resize]

/-- Putting a table behind bytes keeps these. -/
theorem prefix_appendTable {b : Bytes} {table : Section}
    (h : b.length ≤ (img.header.offset table).toNat) : b <+: img.appendTable b table :=
  (prefix_resize h).trans (List.prefix_append _ _)

/-- A table put behind bytes stands at its offset. -/
theorem tableBytes_prefix_appendTable (img : Image) (b : Bytes) (table : Section) :
    img.tableBytes table <+: (img.appendTable b table).drop (img.header.offset table).toNat := by
  rw [appendTable, List.drop_left' (length_resize _ _)]

/-- The number of records of a table of an image. -/
def numRecords (img : Image) : Section → Nat
  | .range => img.ranges.length
  | .hammering => img.hammerings.length
  | .flip => img.records.length

/-- A table takes as many bytes as its records do. -/
theorem length_tableBytes (img : Image) (table : Section) :
    (img.tableBytes table).length = img.numRecords table * table.recordSize := by
  cases table with
  | range => exact length_flatMap_of_forall Range.length_encode img.ranges
  | hammering => exact length_flatMap_of_forall Hammering.length_encode img.hammerings
  | flip => exact length_flatMap_of_forall Record.length_encode img.records

/-- The header counts the records of each table, which fit its fields. -/
theorem WellFormed.toNat_count (h : img.WellFormed) (table : Section) :
    (img.header.count table).toNat = img.numRecords table := by
  cases table with
  | range => exact UInt32.toNat_ofNat_of_lt' h.ranges_lt
  | hammering => exact UInt32.toNat_ofNat_of_lt' h.hammerings_lt
  | flip => exact UInt32.toNat_ofNat_of_lt' h.records_lt

/-- Where a table of an image ends in its file. -/
def endOf (img : Image) (table : Section) : Nat :=
  (img.header.offset table).toNat + img.numRecords table * table.recordSize

/-- A table that is appended ends at its `endOf`. -/
theorem length_appendTable_eq_endOf (img : Image) (b : Bytes) (table : Section) :
    (img.appendTable b table).length = img.endOf table := by
  rw [length_appendTable, length_tableBytes, endOf]

/-- The header and the tables do not overlap, and the file ends with the last table. -/
theorem WellFormed.apart (h : img.WellFormed) :
    img.header.encode.length ≤ (img.header.offset .range).toNat ∧
      img.endOf .range ≤ (img.header.offset .hammering).toNat ∧
      img.endOf .hammering ≤ (img.header.offset .flip).toNat ∧
      img.encodedSize = img.endOf .flip := by
  have htight : img.header.Tight := Header.tight_layout ..
  have hend (table : Section) : img.endOf table = img.header.stop table := by
    rw [endOf, Header.stop, h.toNat_count]
  obtain ⟨hhammering, hflip⟩ := htight.apart
  simp only [hend]
  refine ⟨?_, hhammering, hflip, htight.size_eq⟩
  rw [htight.range_eq, Header.length_encode]
  decide

/-- The header and the tables stand in the file where the header says, and the file ends with the
last table. -/
theorem encode_spec (h : img.WellFormed) :
    img.header.encode <+: img.encode ∧ img.encode.length = img.encodedSize ∧
      ∀ table, img.tableBytes table <+: img.encode.drop (img.header.offset table).toNat := by
  obtain ⟨hrange, hhammering, hflip, hsize⟩ := h.apart
  -- The file grows from the header table by table, each stage a prefix of the next.
  obtain ⟨b₁, hb₁⟩ : ∃ b, b = img.appendTable img.header.encode .range := ⟨_, rfl⟩
  obtain ⟨b₂, hb₂⟩ : ∃ b, b = img.appendTable b₁ .hammering := ⟨_, rfl⟩
  obtain ⟨b₃, hb₃⟩ : ∃ b, b = img.appendTable b₂ .flip := ⟨_, rfl⟩
  have hlen₁ : b₁.length = img.endOf .range := by rw [hb₁, length_appendTable_eq_endOf]
  have hlen₂ : b₂.length = img.endOf .hammering := by rw [hb₂, length_appendTable_eq_endOf]
  have hlen₃ : b₃.length = img.encodedSize := by rw [hb₃, length_appendTable_eq_endOf, hsize]
  have hpre₁ : img.header.encode <+: b₁ := hb₁ ▸ prefix_appendTable hrange
  have hpre₂ : b₁ <+: b₂ := hb₂ ▸ prefix_appendTable (by rwa [hlen₁])
  have hpre₃ : b₂ <+: b₃ := hb₃ ▸ prefix_appendTable (by rwa [hlen₂])
  have hencode : img.encode = b₃ := by
    have hfold : img.encode = resize img.encodedSize b₃ := by rw [hb₃, hb₂, hb₁]; rfl
    rw [hfold, ← hlen₃]
    exact (prefix_resize (Nat.le_refl _)).eq_of_length (length_resize _ _).symm |>.symm
  rw [hencode]
  refine ⟨(hpre₁.trans hpre₂).trans hpre₃, hlen₃, ?_⟩
  intro table
  cases table with
  | range =>
    have hdrop := hb₁ ▸ tableBytes_prefix_appendTable img img.header.encode .range
    exact hdrop.trans ((hpre₂.trans hpre₃).drop _)
  | hammering =>
    have hdrop := hb₂ ▸ tableBytes_prefix_appendTable img b₁ .hammering
    exact hdrop.trans (hpre₃.drop _)
  | flip => exact hb₃ ▸ tableBytes_prefix_appendTable img b₂ .flip

/-! ### Reading -/

/-- A tight header is read from every file of the size that it gives, whatever follows it. -/
theorem Header.Tight.decode_eq {h : Header} (ht : h.Tight) (hmagic : h.magic = Image.magic)
    {b : Bytes} (hlen : b.length = h.size.toNat) (hb : h.encode <+: b) :
    Header.decode b = .ok h := by
  obtain ⟨rest, rfl⟩ := hb
  simp only [Header.decode, Header.take?_append, hmagic, hlen, ht.checkTable_eq, ne_eq,
    not_true_eq_false, if_false]
  rfl

/-- The header reads back. -/
theorem Header.decode_encode (h : img.WellFormed) : Header.decode img.encode = .ok img.header := by
  obtain ⟨hfront, hlen, -⟩ := encode_spec h
  exact Tight.decode_eq (tight_layout ..) rfl hlen hfront

/-- A table reads back if its records stand at its offset. -/
theorem takeTable?_eq_some {α : Type} {take? : Bytes → Option (α × Bytes)} {encode : α → Bytes}
    (h : ∀ a rest, take? (encode a ++ rest) = some (a, rest)) {header : Header}
    {table : Section} {l : List α} {b : Bytes} (hcount : (header.count table).toNat = l.length)
    (hb : l.flatMap encode <+: b.drop (header.offset table).toNat) :
    takeTable? take? header table b = some l := by
  obtain ⟨rest, hrest⟩ := hb
  rw [takeTable?, hcount, ← hrest, takeMany?_flatMap h]
  rfl

/-- The tables read back. -/
theorem takeTables?_encode (h : img.WellFormed) :
    takeTables? img.header img.encode = some img := by
  obtain ⟨-, -, htables⟩ := encode_spec h
  have hranges : takeTable? Range.take? img.header .range img.encode = some img.ranges :=
    takeTable?_eq_some Range.take?_append (h.toNat_count .range) (htables .range)
  have hhammerings :
      takeTable? Hammering.take? img.header .hammering img.encode = some img.hammerings :=
    takeTable?_eq_some Hammering.take?_append (h.toNat_count .hammering) (htables .hammering)
  have hrecords : takeTable? Record.take? img.header .flip img.encode = some img.records :=
    takeTable?_eq_some Record.take?_append (h.toNat_count .flip) (htables .flip)
  rw [takeTables?, hranges, hhammerings, hrecords]
  rfl

/-- The indices of an image are accepted exactly if each lies in its table. -/
theorem checkIndices_eq_ok_iff :
    img.checkIndices = .ok () ↔
      (∀ r ∈ img.ranges, r.first.toNat + r.count.toNat ≤ img.hammerings.length) ∧
        ∀ h ∈ img.hammerings, h.first.toNat + h.count.toNat ≤ img.records.length := by
  have hnone {α : Type} (l : List α) (bound : Nat) (last : α → Nat) :
      (∀ a ∈ l, last a ≤ bound) ↔ l.findIdx? (fun a => bound < last a) = none := by
    simp [List.findIdx?_eq_none_iff]
  rw [hnone, hnone, checkIndices]
  cases img.ranges.findIdx? fun r => img.hammerings.length < r.first.toNat + r.count.toNat with
  | some i => simp [bind, Except.bind, throw, throwThe, MonadExceptOf.throw]
  | none =>
    cases img.hammerings.findIdx? fun h => img.records.length < h.first.toNat + h.count.toNat with
    | some i => simp [throw, throwThe, MonadExceptOf.throw]
    | none => simp [pure, Except.pure]

/-- **A well-formed image reads back from its file.** -/
theorem decode_encode (h : img.WellFormed) : decode img.encode = .ok img := by
  have hcheck := checkIndices_eq_ok_iff.2 ⟨h.range_le, h.hammering_le⟩
  simp only [decode, Header.decode_encode h, bind, Except.bind, takeTables?_encode h, hcheck]
  rfl

end Encode

end RowFlips.Image
