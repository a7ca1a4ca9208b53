import RowFlips.Proofs.Image.Accepted
import RowFlips.Proofs.Image.File

/-!
# Writing an image over what is there

A file need not be new. The header and the tables of an image are written into whatever bytes the
file has, each at its own place, and the gaps between them keep what they held. As no place belongs
to two of these pieces, it does not matter in which order they are written; and as a reader looks at
no gap, it does not matter what was there before.

## Main results

* `byteAt_overwrite`, `overwrite_comm`: what stands where after a write, and writes that commute.
* `WellFormed.pairwise_all`, `WellFormed.not_covers`: the pieces of a file stand apart.
* `foldl_writePiece_perm`: the pieces may be written in any order.
* `byteAt_writeOver`, `byteAt_foldl_writePiece_of_gap`: what stands where in the file.
* `decode_writeOver`: an image reads back from what it was written over.
* `writeOver_reads_back`: all of it, over zeros and over anything else.
-/

namespace RowFlips.Image

open Text (Bytes)

/-! ### One write -/

/-- Bytes that have the same length hold the same in a place where they agree. -/
theorem getElem?_eq_of_byteAt_eq {b d : Bytes} (hlen : b.length = d.length) {i : Nat}
    (h : byteAt b i = byteAt d i) : b[i]? = d[i]? := by
  by_cases hi : i < b.length
  · have hi' : i < d.length := hlen ▸ hi
    rw [byteAt, byteAt, List.getElem?_eq_getElem hi, List.getElem?_eq_getElem hi'] at h
    rw [List.getElem?_eq_getElem hi, List.getElem?_eq_getElem hi']
    exact congrArg some h
  · rw [List.getElem?_eq_none (by omega), List.getElem?_eq_none (by omega)]

/-- Bytes that have the same length and agree in each place are the same. -/
theorem ext_byteAt {b d : Bytes} (hlen : b.length = d.length)
    (h : ∀ i, byteAt b i = byteAt d i) : b = d :=
  List.ext_getElem? fun i => getElem?_eq_of_byteAt_eq hlen (h i)

/-- What stands where in bytes put behind others. -/
theorem byteAt_append (b c : Bytes) (i : Nat) :
    byteAt (b ++ c) i = if i < b.length then byteAt b i else byteAt c (i - b.length) := by
  rw [byteAt, List.getElem?_append]
  split <;> rfl

/-- Behind the end of a file all bytes count as 0. -/
theorem byteAt_of_length_le {b : Bytes} {i : Nat} (h : b.length ≤ i) : byteAt b i = 0 := by
  rw [byteAt, List.getElem?_eq_none h]
  rfl

/-- What stands where once `n` bytes are taken off the front. -/
theorem byteAt_drop (b : Bytes) (n i : Nat) : byteAt (b.drop n) i = byteAt b (n + i) := by
  rw [byteAt, List.getElem?_drop]
  rfl

/-- Up to its size, a file has the bytes that it was filled up from. -/
theorem byteAt_resize {size i : Nat} (b : Bytes) (h : i < size) :
    byteAt (resize size b) i = byteAt b i := by
  rw [resize, byteAt_append, List.length_take]
  split
  · rw [byteAt, byteAt, List.getElem?_take_of_lt h]
  · have hzero : byteAt (List.replicate (size - b.length) 0) (i - min size b.length) = 0 := by
      rw [byteAt, List.getElem?_replicate]
      split <;> rfl
    rw [hzero, byteAt_of_length_le (by omega)]

/-- A write makes a file longer only if it ends behind it. -/
theorem length_overwrite (offset : Nat) (new b : Bytes) :
    (overwrite offset new b).length = max b.length (offset + new.length) := by
  rw [overwrite, List.length_append, List.length_append, length_resize, List.length_drop]
  omega

/-- A write changes the places that it covers and no other. -/
theorem byteAt_overwrite (offset : Nat) (new b : Bytes) (i : Nat) :
    byteAt (overwrite offset new b) i =
      if offset ≤ i ∧ i < offset + new.length then byteAt new (i - offset) else byteAt b i := by
  rw [overwrite, byteAt_append, byteAt_append, List.length_append, length_resize, byteAt_drop]
  by_cases hbefore : i < offset
  · rw [if_pos (by omega), if_pos hbefore, if_neg (by omega), byteAt_resize b hbefore]
  · by_cases hin : i < offset + new.length
    · rw [if_pos hin, if_neg hbefore, if_pos ⟨by omega, hin⟩]
    · rw [if_neg hin, if_neg (by omega), Nat.add_sub_of_le (by omega)]

/-- Writes that cover no place in common may be done in either order. -/
theorem overwrite_comm {offset offset' : Nat} {new new' : Bytes}
    (h : offset + new.length ≤ offset' ∨ offset' + new'.length ≤ offset) (b : Bytes) :
    overwrite offset new (overwrite offset' new' b) =
      overwrite offset' new' (overwrite offset new b) := by
  refine ext_byteAt ?_ fun i => ?_
  · simp only [length_overwrite]
    omega
  · simp only [byteAt_overwrite]
    by_cases hin : offset ≤ i ∧ i < offset + new.length
    · rw [if_pos hin, if_neg (by omega), if_pos hin]
    · rw [if_neg hin, if_neg hin]

/-! ### The pieces of a file -/

/-- What is written of an image. -/
inductive Piece where
  | header
  | table (table : Section)
deriving DecidableEq, Repr

/-- All pieces, from front to back. -/
def Piece.all : List Piece := [.header, .table .range, .table .hammering, .table .flip]

/-- There are no other pieces. -/
theorem Piece.mem_all (p : Piece) : p ∈ all := by
  cases p with
  | header => decide
  | table table => cases table <;> decide

variable {img : Image}

/-- Where a piece starts. -/
def pieceStart (img : Image) : Piece → Nat
  | .header => 0
  | .table table => (img.header.offset table).toNat

/-- The bytes of a piece. -/
def pieceBytes (img : Image) : Piece → Bytes
  | .header => img.header.encode
  | .table table => img.tableBytes table

/-- The bytes with a piece of the image in its place. -/
def writePiece (img : Image) (b : Bytes) (p : Piece) : Bytes :=
  overwrite (img.pieceStart p) (img.pieceBytes p) b

/-- Where a piece ends. -/
def pieceEnd (img : Image) (p : Piece) : Nat := img.pieceStart p + (img.pieceBytes p).length

/-- The place belongs to the piece. -/
def Covers (img : Image) (p : Piece) (i : Nat) : Prop :=
  img.pieceStart p ≤ i ∧ i < img.pieceEnd p

/-- Writing an image is writing its pieces from front to back. -/
theorem writeOver_eq (img : Image) (b : Bytes) :
    img.writeOver b = Piece.all.foldl img.writePiece b := rfl

/-- The piece of a table ends where the table does. -/
theorem pieceEnd_table (img : Image) (table : Section) :
    img.pieceEnd (.table table) = img.endOf table := by
  rw [pieceEnd, pieceStart, pieceBytes, length_tableBytes, endOf]

/-- The pieces stand one behind the other. -/
theorem WellFormed.pairwise_all (h : img.WellFormed) :
    Piece.all.Pairwise fun p q => img.pieceEnd p ≤ img.pieceStart q := by
  obtain ⟨hheader, hrange, hhammering, -⟩ := h.apart
  have hle (table : Section) : (img.header.offset table).toNat ≤ img.endOf table :=
    Nat.le_add_right _ _
  have hrange' := hle .range
  have hhammering' := hle .hammering
  have hend : img.pieceEnd .header = img.header.encode.length := Nat.zero_add _
  simp only [Piece.all, List.pairwise_cons, List.forall_mem_cons, List.not_mem_nil,
    false_implies, implies_true, and_true, List.Pairwise.nil, pieceEnd_table, pieceStart, hend]
  omega

/-- Of two pieces, one ends before the other starts. -/
theorem WellFormed.apart_pieces (h : img.WellFormed) {p q : Piece} (hpq : p ≠ q) :
    img.pieceEnd p ≤ img.pieceStart q ∨ img.pieceEnd q ≤ img.pieceStart p :=
  apart_of_pairwise h.pairwise_all p.mem_all q.mem_all hpq

/-- No place belongs to two pieces. -/
theorem WellFormed.not_covers (h : img.WellFormed) {p q : Piece} (hpq : p ≠ q) {i : Nat}
    (hi : img.Covers p i) : ¬img.Covers q i :=
  not_inside_of_pairwise h.pairwise_all p.mem_all q.mem_all hpq hi

/-- The file ends with its last piece. -/
theorem WellFormed.pieceEnd_le (h : img.WellFormed) (p : Piece) :
    img.pieceEnd p ≤ img.encodedSize := by
  obtain ⟨-, -, -, hsize⟩ := h.apart
  have hall : Piece.all = [.header, .table .range, .table .hammering] ++ [.table .flip] := rfl
  obtain ⟨-, -, hlast⟩ := List.pairwise_append.1 (hall ▸ h.pairwise_all)
  have hflip : img.pieceStart (.table .flip) ≤ img.encodedSize := by
    rw [hsize]
    exact Nat.le_add_right _ _
  rcases List.mem_append.1 (hall ▸ p.mem_all) with hp | hp
  · exact (hlast p hp _ (List.mem_singleton_self _)).trans hflip
  · rw [List.mem_singleton.1 hp, pieceEnd_table, hsize]

/-- A piece is in its place once it is written, and all other places are as they were. -/
theorem byteAt_writePiece_of_covers {p : Piece} {i : Nat} (h : img.Covers p i) (b : Bytes) :
    byteAt (img.writePiece b p) i = byteAt (img.pieceBytes p) (i - img.pieceStart p) := by
  rw [writePiece, byteAt_overwrite]
  exact if_pos h

/-- A place that a piece does not cover keeps what it held. -/
theorem byteAt_writePiece_of_not_covers {p : Piece} {i : Nat} (h : ¬img.Covers p i) (b : Bytes) :
    byteAt (img.writePiece b p) i = byteAt b i := by
  rw [writePiece, byteAt_overwrite]
  exact if_neg h

/-- Pieces that end within a file do not make it longer. -/
theorem length_foldl_writePiece {b : Bytes} {ps : List Piece}
    (h : ∀ p ∈ ps, img.pieceEnd p ≤ b.length) :
    (ps.foldl img.writePiece b).length = b.length := by
  induction ps generalizing b with
  | nil => rfl
  | cons p ps ih =>
    obtain ⟨hp, hps⟩ := List.forall_mem_cons.1 h
    have hlen : (img.writePiece b p).length = b.length := by
      rw [writePiece, length_overwrite]
      exact Nat.max_eq_left hp
    rw [List.foldl_cons, ih (by rwa [hlen]), hlen]

/-- Places that belong to no piece keep what they held. -/
theorem byteAt_foldl_writePiece_of_gap {ps : List Piece} {i : Nat}
    (h : ∀ p ∈ ps, ¬img.Covers p i) (b : Bytes) :
    byteAt (ps.foldl img.writePiece b) i = byteAt b i := by
  induction ps generalizing b with
  | nil => rfl
  | cons p ps ih =>
    obtain ⟨hp, hps⟩ := List.forall_mem_cons.1 h
    rw [List.foldl_cons, ih hps, byteAt_writePiece_of_not_covers hp]

/-- The pieces may be written in any order. -/
theorem foldl_writePiece_perm (h : img.WellFormed) {order order' : List Piece}
    (hperm : order.Perm order') (b : Bytes) :
    order.foldl img.writePiece b = order'.foldl img.writePiece b := by
  refine hperm.foldl_eq' ?_ b
  intro p _ q _ b
  by_cases hpq : p = q
  · rw [hpq]
  · exact overwrite_comm (h.apart_pieces (Ne.symm hpq)) b

/-! ### The whole file -/

/-- Every piece is in its place, whatever was there. -/
theorem byteAt_writeOver (h : img.WellFormed) {p : Piece} {i : Nat} (hp : img.Covers p i)
    (b : Bytes) :
    byteAt (img.writeOver b) i = byteAt (img.pieceBytes p) (i - img.pieceStart p) := by
  -- The piece may as well be the last to be written.
  have hlast : Piece.all.Perm (Piece.all.erase p ++ [p]) :=
    (List.perm_cons_erase p.mem_all).trans (List.perm_append_singleton p _).symm
  rw [writeOver_eq, foldl_writePiece_perm h hlast, List.foldl_append, List.foldl_cons,
    List.foldl_nil, byteAt_writePiece_of_covers hp]

/-- The bytes that an image is read from all belong to pieces. -/
theorem exists_covers_of_meaningful (h : img.WellFormed) {i : Nat}
    (hi : Meaningful img.encode i) : ∃ p, img.Covers p i := by
  rcases hi with hi | ⟨table, hstart, hend⟩
  · have hlen : img.pieceEnd .header = 56 := by
      rw [pieceEnd, pieceBytes, Header.length_encode]
      rfl
    exact ⟨.header, Nat.zero_le _, by omega⟩
  · have hoffset := toNat_offset_headerAt img.encode table
    have hcount := toNat_count_headerAt img.encode table
    rw [headerAt_encode] at hoffset hcount
    rw [h.toNat_count] at hcount
    rw [← hoffset] at hstart hend
    rw [← hcount] at hend
    exact ⟨.table table, hstart, by rwa [pieceEnd_table]⟩

/-- A file of the size of an image keeps its size when the image is written over it. -/
theorem length_writeOver (h : img.WellFormed) {b : Bytes} (hb : b.length = img.encodedSize) :
    (img.writeOver b).length = img.encodedSize := by
  rw [writeOver_eq, length_foldl_writePiece fun p _ => hb ▸ h.pieceEnd_le p, hb]

/-- A well-formed image reads back from a file of its size that it was written over. -/
theorem decode_writeOver (h : img.WellFormed) {b : Bytes} (hb : b.length = img.encodedSize) :
    decode (img.writeOver b) = .ok img := by
  have hlen : (img.writeOver b).length = img.encode.length := by
    rw [length_writeOver h hb, length_encode]
  refine (decode_congr ?_ (decode_encode h)).2 hlen
  intro i hi
  obtain ⟨p, hp⟩ := exists_covers_of_meaningful h hi
  refine getElem?_eq_of_byteAt_eq hlen ?_
  rw [← toFile_eq_encode h, toFile, byteAt_writeOver h hp, byteAt_writeOver h hp]

/-- **An image is in its file whatever the file held.** Over zeros, `writeOver` of a `WellFormed`
image gives its `encode`. No place `i` is covered by two pieces `p` and `q`, each piece lies within
`encodedSize`, and `writePiece` may be done for the pieces in any `order`. Bytes `b` of that size,
whatever they are, keep their size when the image is written over them, are read back as the image,
and stay as they are at each place that no piece covers. -/
theorem writeOver_reads_back (h : img.WellFormed) :
    img.writeOver (List.replicate img.encodedSize 0) = img.encode ∧
      (∀ p q : Piece, p ≠ q → ∀ i, img.Covers p i → ¬img.Covers q i) ∧
      (∀ p i, img.Covers p i → i < img.encodedSize) ∧
      (∀ order : List Piece, order.Perm Piece.all →
        ∀ b, order.foldl img.writePiece b = img.writeOver b) ∧
      ∀ b : Bytes, b.length = img.encodedSize →
        (img.writeOver b).length = img.encodedSize ∧ decode (img.writeOver b) = .ok img ∧
          ∀ i, (∀ p, ¬img.Covers p i) → (img.writeOver b)[i]? = b[i]? := by
  refine ⟨toFile_eq_encode h, ?_, ?_, ?_, ?_⟩
  · intro p q hpq i hi
    exact h.not_covers hpq hi
  · intro p i hp
    exact Nat.lt_of_lt_of_le hp.2 (h.pieceEnd_le p)
  · intro order hperm b
    exact foldl_writePiece_perm h hperm b
  · intro b hb
    refine ⟨length_writeOver h hb, decode_writeOver h hb, fun i hgap => ?_⟩
    refine getElem?_eq_of_byteAt_eq ((length_writeOver h hb).trans hb.symm) ?_
    rw [writeOver_eq, byteAt_foldl_writePiece_of_gap fun p _ => hgap p]

/-- Bytes that were there before stay in the gap behind the header, and the image is read all the
same. It has no flip records, so that its last table ends where it starts. -/
theorem writeOver_reads_back_overOnes :
    let img : Image := ⟨2, [⟨bankCell 4 9, 1, 0⟩], [⟨0, 0⟩], []⟩
    let old : Bytes := List.replicate 384 255
    img.WellFormed ∧ img.writeOver (List.replicate img.encodedSize 0) = img.encode ∧
      [Piece.table .flip, .table .hammering, .header, .table .range].foldl img.writePiece old =
        img.writeOver old ∧
      decode (img.writeOver old) = .ok img ∧ (img.writeOver old)[60]? = some 255 := by
  intro img old
  have hwell : img.WellFormed := ⟨by decide, by decide, by decide, by decide, by decide⟩
  obtain ⟨hzeros, -, -, horder, hold⟩ := writeOver_reads_back hwell
  have hsize : img.encodedSize = 384 := by decide
  obtain ⟨-, hread, hgap⟩ := hold old (List.length_replicate.trans hsize.symm)
  have hgap60 : ∀ p, ¬img.Covers p 60 := by
    rintro p ⟨hstart, hend⟩
    cases p with
    | header => exact absurd hend (by decide)
    | table table => cases table <;> exact absurd hstart (by decide)
  exact ⟨hwell, hzeros, horder _ (by decide) old, hread, hgap 60 hgap60⟩

end RowFlips.Image
