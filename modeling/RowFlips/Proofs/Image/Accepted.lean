import RowFlips.Proofs.Image.Fields
import RowFlips.Proofs.Image.Roundtrip

/-!
# Which files are images

A file is accepted by what stands at fixed places of it: its header must fit the file, and each
index must lie in its table. What is then read is made up of the used part of the header and of
the tables alone, so the bytes between them can be anything. Since the header gives the size of
the file, no file that an image was written to can be cut or extended.

## Main results

* `decode_eq_ok_iff`: which files are accepted, and what is read from them.
* `ValidFile.congr`: the bytes between the tables do not matter.
* `headerAt_encode`: every image is written with its header at the front.
* `accepted_iff_validFile`: all of it, with what readers never do.
-/

namespace RowFlips.Image

open Text (Bytes)

/-! ### Valid files -/

/-- The header fits the file: it is complete, starts with the magic number and gives the size of
the file. Each table starts at a multiple of the alignment, behind the header, and ends within
the file, with all numbers taken as they are. -/
structure ValidHeader (b : Bytes) : Prop where
  length_ge : 56 ≤ b.length
  magic_eq : wordAt b 0 4 = 0xf11b7ab1
  size_eq : wordAt b 8 8 = b.length
  aligned : ∀ table, 128 ∣ offsetAt b table ∧ 56 ≤ offsetAt b table
  inside : ∀ table, offsetAt b table + countAt b table * table.recordSize ≤ b.length

/-- The header fits the file, and the index and the count in each range and in each hammering
name records that the header counts. -/
structure ValidFile (b : Bytes) : Prop extends ValidHeader b where
  range_le : ∀ i < countAt b .range,
    wordAt b (recordStart b .range i + 12) 4 + wordAt b (recordStart b .range i + 8) 4 ≤
      countAt b .hammering
  hammering_le : ∀ i < countAt b .hammering,
    wordAt b (recordStart b .hammering i + 4) 4 + wordAt b (recordStart b .hammering i) 4 ≤
      countAt b .flip

variable {b b' : Bytes} {img : Image}

/-- A header is accepted exactly if it fits the file. -/
theorem Header.decode_eq_ok_iff_validHeader {h : Header} :
    Header.decode b = .ok h ↔ ValidHeader b ∧ h = headerAt b := by
  have hmagic : (headerAt b).magic = Image.magic ↔ wordAt b 0 4 = 0xf11b7ab1 := by
    rw [← UInt32.toNat_inj]
    exact Eq.congr_left (toNat_wordAt_four b 0)
  rw [decode_eq_ok_iff]
  constructor
  · rintro ⟨⟨hlen, rfl⟩, hm, hsize, htables⟩
    simp only [checkTable_eq_ok_iff, toNat_offset_headerAt, toNat_count_headerAt] at htables
    rw [hsize] at htables
    rw [toNat_size_headerAt] at hsize
    exact ⟨⟨hlen, hmagic.1 hm, hsize, fun table => (htables table).1,
      fun table => (htables table).2⟩, rfl⟩
  · rintro ⟨hvalid, rfl⟩
    have hsize : (headerAt b).size.toNat = b.length := by
      rw [toNat_size_headerAt, hvalid.size_eq]
    refine ⟨⟨hvalid.length_ge, rfl⟩, hmagic.2 hvalid.magic_eq, hsize, fun table => ?_⟩
    rw [checkTable_eq_ok_iff, toNat_offset_headerAt, toNat_count_headerAt, hsize]
    exact ⟨hvalid.aligned table, hvalid.inside table⟩

/-- The tables that a fitting header names are read in full. -/
theorem ValidHeader.takeTables? (h : ValidHeader b) :
    Image.takeTables? (headerAt b) b = some (imageAt b) :=
  takeTables?_headerAt h.inside

/-- The indices that are checked are those that stand in the records. -/
theorem checkIndices_imageAt :
    (imageAt b).checkIndices = .ok () ↔
      (∀ i < countAt b .range,
        wordAt b (recordStart b .range i + 12) 4 + wordAt b (recordStart b .range i + 8) 4 ≤
          countAt b .hammering) ∧
      ∀ i < countAt b .hammering,
        wordAt b (recordStart b .hammering i + 4) 4 + wordAt b (recordStart b .hammering i) 4 ≤
          countAt b .flip := by
  simp only [checkIndices_eq_ok_iff, imageAt, forall_mem_tableAt, length_tableAt, rangeAt,
    hammeringAt, toNat_wordAt_four]

/-- A file is accepted exactly if it is valid, and the image is then made up of its fields. -/
theorem decode_eq_ok_iff : decode b = .ok img ↔ ValidFile b ∧ img = imageAt b := by
  rw [decode, bind_eq_ok]
  constructor
  · rintro ⟨h, hheader, himg⟩
    obtain ⟨hvalid, rfl⟩ := Header.decode_eq_ok_iff_validHeader.1 hheader
    rw [hvalid.takeTables?] at himg
    obtain ⟨_, hcheck, ⟨⟩⟩ := bind_eq_ok.1 himg
    obtain ⟨hranges, hhammerings⟩ := checkIndices_imageAt.1 hcheck
    exact ⟨⟨hvalid, hranges, hhammerings⟩, rfl⟩
  · rintro ⟨hvalid, rfl⟩
    refine ⟨headerAt b, Header.decode_eq_ok_iff_validHeader.2 ⟨hvalid.toValidHeader, rfl⟩, ?_⟩
    rw [hvalid.toValidHeader.takeTables?]
    have hcheck := checkIndices_imageAt.2 ⟨hvalid.range_le, hvalid.hammering_le⟩
    exact bind_eq_ok.2 ⟨(), hcheck, rfl⟩

/-- A file is decoded to some image exactly if it is valid. -/
theorem exists_decode_iff : (∃ img, decode b = .ok img) ↔ ValidFile b := by
  simp only [decode_eq_ok_iff, exists_and_left, exists_eq, and_true]

/-- Any other file is refused, with a fault that can be named. -/
theorem exists_fault_of_not_validFile (h : ¬ValidFile b) : ∃ fault, decode b = .error fault := by
  cases hdecode : decode b with
  | error fault => exact ⟨fault, rfl⟩
  | ok img => exact absurd (decode_eq_ok_iff.1 hdecode).1 h

/-- The counts of a file fit 32 bits, and its indices are checked. -/
theorem ValidFile.wellFormed (h : ValidFile b) : (imageAt b).WellFormed := by
  have hlt (pos : Nat) : wordAt b pos 4 < UInt32.size := wordAt_lt b pos 4
  have hcheck := checkIndices_imageAt.2 ⟨h.range_le, h.hammering_le⟩
  obtain ⟨hranges, hhammerings⟩ := checkIndices_eq_ok_iff.1 hcheck
  refine ⟨?_, ?_, ?_, hranges, hhammerings⟩
  all_goals
    rw [imageAt, length_tableAt]
    exact hlt _

/-! ### Bytes that matter -/

/-- The bytes that an image is read from: those of the header without its last four, and those of
the tables. -/
def Meaningful (b : Bytes) (pos : Nat) : Prop :=
  pos < 52 ∨ ∃ table, offsetAt b table ≤ pos ∧
    pos < offsetAt b table + countAt b table * table.recordSize

section Agree

variable (h : ∀ pos, Meaningful b pos → b'[pos]? = b[pos]?)
include h

/-- Files with the same meaningful bytes agree in the header. -/
theorem agreeAt_header : AgreeAt b b' 0 52 := fun i hi => h (0 + i) (Or.inl (by omega))

/-- They agree in each table. -/
theorem agreeAt_table (table : Section) :
    AgreeAt b b' (offsetAt b table) (countAt b table * table.recordSize) :=
  fun i hi => h _ (Or.inr ⟨table, by omega, by omega⟩)

/-- The fields of a file are all among the bytes that matter. -/
theorem imageAt_congr : imageAt b' = imageAt b := by
  have hheader := agreeAt_header h
  have hdistance : AgreeAt b b' 4 4 := hheader.mono (by omega) (by omega)
  rw [imageAt, imageAt, hdistance.wordAt_eq,
    AgreeAt.tableAt_eq (fun _ => AgreeAt.rangeAt_eq) hheader (agreeAt_table h .range),
    AgreeAt.tableAt_eq (fun _ => AgreeAt.hammeringAt_eq) hheader (agreeAt_table h .hammering),
    AgreeAt.tableAt_eq (fun _ => AgreeAt.recordAt_eq) hheader (agreeAt_table h .flip)]

/-- The bytes that do not matter do not make a file of the same size invalid. -/
theorem ValidFile.congr (hvalid : ValidFile b) (hlen : b'.length = b.length) : ValidFile b' := by
  have hheader := agreeAt_header h
  have hmagic : AgreeAt b b' 0 4 := hheader.mono (by omega) (by omega)
  have hsize : AgreeAt b b' 8 8 := hheader.mono (by omega) (by omega)
  have hcheck : (imageAt b').checkIndices = .ok () := by
    rw [imageAt_congr h]
    exact checkIndices_imageAt.2 ⟨hvalid.range_le, hvalid.hammering_le⟩
  obtain ⟨hranges, hhammerings⟩ := checkIndices_imageAt.1 hcheck
  refine ⟨⟨?_, ?_, ?_, ?_, ?_⟩, hranges, hhammerings⟩
  · rw [hlen]
    exact hvalid.length_ge
  · rw [hmagic.wordAt_eq]
    exact hvalid.magic_eq
  · rw [hsize.wordAt_eq, hlen]
    exact hvalid.size_eq
  · intro table
    rw [hheader.offsetAt_eq]
    exact hvalid.aligned table
  · intro table
    rw [hheader.offsetAt_eq, hheader.countAt_eq, hlen]
    exact hvalid.inside table

/-- A file that agrees with an accepted one where it matters is read alike if it has the same
size, and is not accepted otherwise. -/
theorem decode_congr (hb : decode b = .ok img) : decode b' = .ok img ↔ b'.length = b.length := by
  obtain ⟨hvalid, rfl⟩ := decode_eq_ok_iff.1 hb
  constructor
  · intro hc
    have hsize : AgreeAt b b' 8 8 := (agreeAt_header h).mono (by omega) (by omega)
    rw [← (decode_eq_ok_iff.1 hc).1.size_eq, hsize.wordAt_eq, hvalid.size_eq]
  · intro hlen
    exact decode_eq_ok_iff.2 ⟨hvalid.congr h hlen, (imageAt_congr h).symm⟩

end Agree

/-- No byte between the used part of the header and the first multiple of the alignment behind it
matters. -/
theorem ValidHeader.getElem?_set_eq (h : ValidHeader b) {gap : Nat} (hge : 52 ≤ gap)
    (hlt : gap < 128) (x : UInt8) : ∀ pos, Meaningful b pos → (b.set gap x)[pos]? = b[pos]? := by
  intro pos hpos
  refine List.getElem?_set_ne ?_
  rcases hpos with hpos | ⟨table, hpos, -⟩
  · omega
  · obtain ⟨hdvd, hle⟩ := h.aligned table
    omega

/-! ### Cut and extended files -/

/-- Every table of an image starts behind the header. -/
theorem length_header_le_offset (img : Image) (table : Section) :
    img.header.encode.length ≤ (img.header.offset table).toNat := by
  have hcheck : img.header.checkTable table = .ok () := Header.checkTable_layout _ _ _ _ table
  rw [Header.length_encode]
  exact (Header.checkTable_eq_ok_iff.1 hcheck).1.2

/-- The file of an image starts with its header, even if its tables are too long to be counted. -/
theorem header_prefix_encode (img : Image) : img.header.encode <+: img.encode := by
  have happend {b : Bytes} (table : Section) (h : img.header.encode <+: b) :
      img.header.encode <+: img.appendTable b table :=
    (prefix_resize_of_length_le h (length_header_le_offset img table)).trans
      (List.prefix_append _ _)
  have hsize : img.header.encode.length ≤ img.encodedSize := by
    have hcheck : img.header.checkTable .flip = .ok () := Header.checkTable_layout _ _ _ _ _
    have hend := (Header.checkTable_eq_ok_iff.1 hcheck).2
    have hoffset := length_header_le_offset img .flip
    rw [encodedSize]
    omega
  have htables := happend .flip (happend .hammering (happend .range List.prefix_rfl))
  exact prefix_resize_of_length_le htables hsize

/-- The file of an image has the size that its header gives. -/
theorem length_encode (img : Image) : img.encode.length = img.encodedSize := length_resize _ _

/-- The header of an image is found in its file. -/
theorem headerAt_encode (img : Image) : headerAt img.encode = img.header := by
  obtain ⟨rest, hrest⟩ := header_prefix_encode img
  have htake : Header.take? img.encode = some img.header := by
    rw [← hrest]
    exact Header.take?_append _ _
  exact (Header.take?_eq_some_iff.1 htake).2.symm

/-- The file of an image gives its own size. -/
theorem wordAt_size_encode (img : Image) : wordAt img.encode 8 8 = img.encode.length := by
  rw [← toNat_size_headerAt, headerAt_encode, length_encode]
  rfl

/-- A valid file that starts as the file of an image, or goes on behind it, is that file. -/
theorem ValidFile.eq_encode (h : ValidFile b) (hb : b <+: img.encode ∨ img.encode <+: b) :
    b = img.encode := by
  have hlen : 56 ≤ img.encode.length := by
    have := (header_prefix_encode img).length_le
    rwa [Header.length_encode] at this
  have hagree : AgreeAt b img.encode 8 8 := by
    intro i hi
    have := h.length_ge
    rcases hb with ⟨rest, hrest⟩ | ⟨rest, hrest⟩
    · rw [← hrest, List.getElem?_append_left (by omega)]
    · rw [← hrest, List.getElem?_append_left (by omega)]
  have hsize : img.encode.length = b.length := by
    rw [← wordAt_size_encode, hagree.wordAt_eq, h.size_eq]
  rcases hb with hb | hb
  · exact hb.eq_of_length hsize.symm
  · exact (hb.eq_of_length hsize).symm

/-- **Exactly the valid files are accepted.** `decode` gives an image for the bytes `b` exactly if
`b` is a `ValidFile`, and a `fault` otherwise. Readers never run out of bytes: `Header.take?` reads
a header as soon as there are 56 bytes, and behind an accepted header `h`, `takeTables?` reads all
tables. A file `b'` that agrees with an accepted one at each `Meaningful` place is read as the same
image exactly if it is as long. And whatever is cut off the end of `img.encode`, or put behind it,
what this gives is refused. -/
theorem accepted_iff_validFile (b : Bytes) :
    ((∃ img, decode b = .ok img) ↔ ValidFile b) ∧
      (¬ValidFile b → ∃ fault, decode b = .error fault) ∧
      ((∃ h, Header.take? b = some h) ↔ 56 ≤ b.length) ∧
      (∀ h, Header.decode b = .ok h → ∃ img, takeTables? h b = some img) ∧
      (∀ b' img, (∀ pos, Meaningful b pos → b'[pos]? = b[pos]?) → decode b = .ok img →
        (decode b' = .ok img ↔ b'.length = b.length)) ∧
      ∀ img : Image, (b <+: img.encode ∨ img.encode <+: b) → b ≠ img.encode →
        ∃ fault, decode b = .error fault := by
  refine ⟨exists_decode_iff, exists_fault_of_not_validFile, ?_, ?_, ?_, ?_⟩
  · simp only [Header.take?_eq_some_iff, exists_and_left, exists_eq, and_true]
  · intro h hheader
    obtain ⟨hvalid, rfl⟩ := Header.decode_eq_ok_iff_validHeader.1 hheader
    exact ⟨imageAt b, hvalid.takeTables?⟩
  · intro b' img hagree hb
    exact decode_congr hagree hb
  · intro img hb hne
    exact exists_fault_of_not_validFile fun hvalid => hne (hvalid.eq_encode hb)

/-- A file with a gap between its header and its ranges: what stands in the gap does not matter,
the last byte and the end of the file do. -/
theorem accepted_oneRange :
    let img : Image := ⟨2, [⟨bankCell 4 9, 1, 0⟩], [⟨1, 0⟩], [⟨bankCell 5 9, 1, 1, 0⟩]⟩
    ValidFile img.encode ∧ decode (img.encode.set 60 7) = .ok img ∧
      (∃ fault, decode img.encode.dropLast = .error fault) ∧
      ∃ fault, decode (img.encode ++ [0]) = .error fault := by
  intro img
  have himg : decode img.encode = .ok img :=
    decode_encode ⟨by decide, by decide, by decide, by decide, by decide⟩
  obtain ⟨haccepted, -, -, -, hcongr, -⟩ := accepted_iff_validFile img.encode
  obtain ⟨-, -, -, -, -, hcut⟩ := accepted_iff_validFile img.encode.dropLast
  obtain ⟨-, -, -, -, -, hextended⟩ := accepted_iff_validFile (img.encode ++ [0])
  have hvalid : ValidFile img.encode := haccepted.1 ⟨img, himg⟩
  have hne : img.encode ≠ [] := by
    intro hnil
    have := hvalid.length_ge
    rw [hnil] at this
    exact absurd this (by decide)
  have hgap := hvalid.toValidHeader.getElem?_set_eq (by decide : 52 ≤ 60) (by decide) 7
  refine ⟨hvalid, (hcongr _ img hgap himg).2 List.length_set, ?_, ?_⟩
  · refine hcut img (Or.inl (List.dropLast_prefix _)) fun hsame => ?_
    have hlen := congrArg List.length hsame
    have := List.length_pos_iff.2 hne
    rw [List.length_dropLast] at hlen
    omega
  · exact hextended img (Or.inr (List.prefix_append _ _)) (by simp)

end RowFlips.Image
