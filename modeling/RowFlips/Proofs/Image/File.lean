import RowFlips.Proofs.Image.Codec

/-!
# Writing an image into a file

A file is given its size before its content, so the header and the tables are written over zeros,
each at its own offset. As they do not overlap and lie within the size, this makes the same file as
putting them together from front to back.

## Main results

* `overwrite_resize`: writing behind what stands in a file that is filled up with zeros.
* `toFile_eq_encode`: the file of a well-formed image.
-/

namespace RowFlips.Image

open Text (Bytes)

/-- A file that is given a size which its content fits is filled up with zeros. -/
theorem resize_eq_append {size : Nat} {b : Bytes} (h : b.length ≤ size) :
    resize size b = b ++ List.replicate (size - b.length) 0 := by
  rw [resize, List.take_of_length_le h]

/-- What is written behind the content of a file, within its size, takes the place of zeros. -/
theorem overwrite_resize {size offset : Nat} {front new : Bytes} (hfront : front.length ≤ offset)
    (hend : offset + new.length ≤ size) :
    overwrite offset new (resize size front) = resize size (resize offset front ++ new) := by
  have hlen : (resize offset front ++ new).length = offset + new.length := by
    rw [List.length_append, length_resize]
  have hbefore : resize offset (resize size front) = resize offset front := by
    have hoffset : offset ≤ (resize size front).length := by
      rw [length_resize]
      omega
    rw [resize, Nat.sub_eq_zero_of_le hoffset, List.replicate_zero, List.append_nil,
      resize_eq_append hfront, resize_eq_append (by omega), List.take_append,
      List.take_of_length_le hfront, List.take_replicate, Nat.min_eq_left (by omega)]
  have hbehind : (resize size front).drop (offset + new.length) =
      List.replicate (size - (offset + new.length)) 0 := by
    rw [resize_eq_append (by omega), List.drop_append, List.drop_of_length_le (by omega),
      List.nil_append, List.drop_replicate]
    congr 1
    omega
  rw [overwrite, hbefore, hbehind,
    resize_eq_append (b := resize offset front ++ new) (by rwa [hlen]), hlen]

variable {img : Image}

/-- A table behind what stands in the file may be written over zeros or appended. -/
theorem writeTable_resize {size : Nat} {b : Bytes} {table : Section}
    (hb : b.length ≤ (img.header.offset table).toNat) (hend : img.endOf table ≤ size) :
    img.writeTable (resize size b) table = resize size (img.appendTable b table) := by
  rw [endOf, ← length_tableBytes] at hend
  exact overwrite_resize hb hend

/-- **The file of a well-formed image**, written over zeros, has its header and tables from front to
back. -/
theorem toFile_eq_encode (h : img.WellFormed) : img.toFile = img.encode := by
  obtain ⟨hrange, hhammering, hflip, hsize⟩ := h.apart
  have hoffset (table : Section) : (img.header.offset table).toNat ≤ img.endOf table :=
    Nat.le_add_right _ _
  have hends : img.endOf .range ≤ img.encodedSize ∧ img.endOf .hammering ≤ img.encodedSize := by
    have := hoffset .hammering
    have := hoffset .flip
    omega
  have hheader : img.writeHeader (List.replicate img.encodedSize 0) =
      resize img.encodedSize img.header.encode := by
    have hzeros (size : Nat) : List.replicate size 0 = resize size [] := by
      rw [resize_eq_append (Nat.zero_le _), List.nil_append, List.length_nil, Nat.sub_zero]
    have hfits : 0 + img.header.encode.length ≤ img.encodedSize := by
      have := hoffset .range
      omega
    rw [writeHeader, hzeros, overwrite_resize (Nat.zero_le _) hfits, ← hzeros,
      List.replicate_zero, List.nil_append]
  calc img.toFile
      = img.writeTable (img.writeTable (img.writeTable
          (resize img.encodedSize img.header.encode) .range) .hammering) .flip := by
        simp only [toFile, writeOver, hheader, List.foldl_cons, List.foldl_nil]
    _ = img.writeTable (img.writeTable (resize img.encodedSize
          (img.appendTable img.header.encode .range)) .hammering) .flip := by
        rw [writeTable_resize hrange hends.1]
    _ = img.writeTable (resize img.encodedSize (img.appendTable
          (img.appendTable img.header.encode .range) .hammering)) .flip := by
        rw [writeTable_resize (by rwa [length_appendTable_eq_endOf]) hends.2]
    _ = img.encode := by
        rw [writeTable_resize (by rwa [length_appendTable_eq_endOf]) (Nat.le_of_eq hsize.symm)]
        simp only [encode, List.foldl_cons, List.foldl_nil]

end RowFlips.Image
