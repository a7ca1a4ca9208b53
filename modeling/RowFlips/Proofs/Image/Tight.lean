import RowFlips.Proofs.Image.Codec
import RowFlips.Proofs.Lists
import RowFlips.Proofs.Outcome

/-!
# Tables stand close together, and nothing wraps

Consumers take the offsets of a header as they stand and index the file with them. So the offsets
must be right for every three counts that fit their fields, also where a table ends at a multiple
of the alignment, and no step that leads to one may leave its 64 bits. Here the layout is computed
with every step checked (`Checked.layout`): what a step gives must be its exact result. Counts have
32 bits, so the greatest file is far smaller than 2⁶⁴ bytes and no step fails.

## Main results

* `Checked.layout_eq`: the checked layout never fails, and is the layout.
* `Header.eq_layout_iff`: of all headers with the same counts, just one is tight.
* `Header.Tight.not_covers`: no byte belongs to two tables.
* `Header.layout_exact`: all of it, with what a reader makes of such a header.
-/

namespace RowFlips.Image

open Text (Bytes)

/-! ### The checked layout -/

namespace Checked

/-- Rounding up does not fail if there is room for the alignment. -/
theorem alignUp_eq {n : UInt64} (h : n.toNat + 128 < UInt64.size) :
    alignUp n alignment = .ok (RowFlips.alignUp n alignment) := by
  have h128 : alignment.toNat = 128 := rfl
  have h1 : (1 : UInt64).toNat = 1 := rfl
  have hsum : (n + alignment).toNat = n.toNat + 128 := by
    rw [UInt64.size] at h
    rw [UInt64.toNat_add, h128, Nat.mod_eq_of_lt h]
  rw [alignUp, add64_eq (by rwa [h128]), ok_bind, sub64_eq (by rw [hsum, h1]; omega), ok_bind,
    sub64_eq (by rw [h128, h1]; omega), ok_bind]
  rfl

variable {table : Section} {offset : UInt64} {count : UInt32} {n : Nat}

/-- The end of a table is found without failing if it fits 64 bits. -/
theorem tableEnd_eq (hoffset : offset.toNat = n)
    (h : n + count.toNat * table.recordSize < UInt64.size) :
    tableEnd table offset count = .ok (Header.tableEnd table offset count) := by
  have hsize : (UInt64.ofNat table.recordSize).toNat = table.recordSize := by
    cases table <;> rfl
  have hmul : (count.toUInt64 * UInt64.ofNat table.recordSize).toNat =
      count.toNat * table.recordSize := by
    rw [UInt64.size] at h
    rw [UInt64.toNat_mul, hsize, UInt32.toNat_toUInt64, Nat.mod_eq_of_lt (by omega)]
  have hbytes : count.toUInt64.toNat * (UInt64.ofNat table.recordSize).toNat < UInt64.size := by
    rw [hsize, UInt32.toNat_toUInt64]
    omega
  rw [tableEnd, mul64_eq hbytes, ok_bind, add64_eq (by rwa [hmul, hoffset])]
  rfl

/-- So is the start of the next table, if there is room for the alignment besides. -/
theorem nextOffset_eq (hoffset : offset.toNat = n)
    (h : n + count.toNat * table.recordSize + 128 < UInt64.size) :
    nextOffset table offset count =
      .ok (RowFlips.alignUp (Header.tableEnd table offset count) alignment) := by
  have hend : n + count.toNat * table.recordSize < UInt64.size :=
    Nat.lt_of_le_of_lt (Nat.le_add_right _ 128) h
  rw [nextOffset, tableEnd_eq hoffset hend, ok_bind,
    alignUp_eq (by rwa [Header.toNat_tableEnd hoffset hend])]

/-- No step of the layout leaves its 64 bits, whatever the counts. -/
theorem layout_eq (distance numRanges numHammerings numFlips : UInt32) :
    layout distance numRanges numHammerings numFlips =
      .ok (Header.layout distance numRanges numHammerings numFlips) := by
  have hr := numRanges.toNat_lt
  have hm := numHammerings.toNat_lt
  have hf := numFlips.toNat_lt
  -- Each offset is less than 128 behind the end of the table before it.
  have hlt := roundUp_lt (128 + numRanges.toNat * 16)
  have hlt' := roundUp_lt (roundUp (128 + numRanges.toNat * 16) + numHammerings.toNat * 8)
  let h := Header.layout distance numRanges numHammerings numFlips
  have hrange : alignUp headerSize alignment = .ok h.rangeOffset := rfl
  have hhammering : nextOffset .range h.rangeOffset numRanges = .ok h.hammeringOffset :=
    nextOffset_eq (Header.toNat_rangeOffset ..) (by rw [Section.recordSize, UInt64.size]; omega)
  have hflip : nextOffset .hammering h.hammeringOffset numHammerings = .ok h.flipOffset :=
    nextOffset_eq (Header.toNat_hammeringOffset ..)
      (by rw [Section.recordSize, UInt64.size]; omega)
  have hsize : tableEnd .flip h.flipOffset numFlips = .ok h.size :=
    tableEnd_eq (Header.toNat_flipOffset ..) (by rw [Section.recordSize, UInt64.size]; omega)
  rw [layout, hrange, ok_bind, hhammering, ok_bind, hflip, ok_bind, hsize, ok_bind]
  rfl

end Checked

/-! ### Tight headers -/

namespace Header

variable {h h' : Header}

/-- The byte at a position belongs to the table. -/
def Covers (h : Header) (table : Section) (pos : Nat) : Prop :=
  (h.offset table).toNat ≤ pos ∧ pos < h.stop table

instance (h : Header) (table : Section) (pos : Nat) : Decidable (h.Covers table pos) :=
  inferInstanceAs (Decidable (_ ∧ _))

namespace Tight

/-- The tables stand one behind the other. -/
theorem pairwise_stop_le (ht : h.Tight) :
    [Section.range, .hammering, .flip].Pairwise fun t u => h.stop t ≤ (h.offset u).toNat := by
  obtain ⟨hhammering, hflip⟩ := ht.apart
  have hle := offset_le_stop h .hammering
  simp only [List.pairwise_cons, List.forall_mem_cons, List.not_mem_nil, false_implies,
    implies_true, and_true, List.Pairwise.nil]
  omega

/-- No byte belongs to two tables. -/
theorem not_covers (ht : h.Tight) {t u : Section} (htu : t ≠ u) {pos : Nat}
    (hpos : h.Covers t pos) : ¬h.Covers u pos := by
  have hmem (table : Section) : table ∈ [Section.range, .hammering, .flip] := by
    cases table <;> simp
  exact not_inside_of_pairwise ht.pairwise_stop_le (hmem t) (hmem u) htu hpos

/-- Two tight headers with the same counts are the same, if they start alike. Each offset is settled
by the end of the table before it. -/
theorem eq_of_count_eq (ht : h.Tight) (ht' : h'.Tight) (hmagic : h.magic = h'.magic)
    (hdistance : h.distance = h'.distance) (hcount : ∀ table, h.count table = h'.count table) :
    h = h' := by
  have hstop {table : Section} (hoffset : h.offset table = h'.offset table) :
      h.stop table = h'.stop table := by
    rw [stop, stop, hoffset, hcount]
  have hrange : h.offset .range = h'.offset .range := by
    rw [← UInt64.toNat_inj, ht.range_eq, ht'.range_eq]
  have hhammering : h.offset .hammering = h'.offset .hammering := by
    have hleast := ht.hammering_least
    rw [hstop hrange] at hleast
    exact UInt64.toNat_inj.1 (hleast.unique ht'.hammering_least)
  have hflip : h.offset .flip = h'.offset .flip := by
    have hleast := ht.flip_least
    rw [hstop hhammering] at hleast
    exact UInt64.toNat_inj.1 (hleast.unique ht'.flip_least)
  have hsize : h.size = h'.size := by
    rw [← UInt64.toNat_inj, ht.size_eq, ht'.size_eq, hstop hflip]
  obtain ⟨⟩ := h
  obtain ⟨⟩ := h'
  rw [mk.injEq]
  exact ⟨hmagic, hdistance, hsize, hrange, hhammering, hflip, hcount .range, hcount .hammering,
    hcount .flip⟩

end Tight

/-- Of all headers with the same counts, just one is tight. -/
theorem eq_layout_iff {distance numRanges numHammerings numFlips : UInt32} :
    h = layout distance numRanges numHammerings numFlips ↔
      h.magic = Image.magic ∧ h.distance = distance ∧ h.numRanges = numRanges ∧
        h.numHammerings = numHammerings ∧ h.numFlips = numFlips ∧ h.Tight := by
  constructor
  · rintro rfl
    exact ⟨rfl, rfl, rfl, rfl, rfl, tight_layout ..⟩
  · rintro ⟨hmagic, hdistance, hranges, hhammerings, hflips, ht⟩
    refine ht.eq_of_count_eq (tight_layout ..) hmagic hdistance ?_
    intro table
    cases table <;> assumption

/-- **Tables are laid out exactly, tightly and apart.** For any `distance` and any three counts,
`Checked.layout` gives the same header `h` as `layout`: no step leaves its 64 bits. The `offset` of
each `table` is a multiple of 128, and `h` is `Tight`: the ranges start at 128, each other table at
the least such multiple that is not below the end of the one before, and the file ends with the
last. The tables are in order, and no `pos` is covered by two of them. No other header `h'` with the
same magic number, distance and counts is `Tight`. And `Header.decode` reads `h` back from all bytes
`b` of its size that start with its `encode`. -/
theorem layout_exact (distance numRanges numHammerings numFlips : UInt32) :
    let h := layout distance numRanges numHammerings numFlips
    Checked.layout distance numRanges numHammerings numFlips = .ok h ∧
      (∀ table, 128 ∣ (h.offset table).toNat) ∧ h.Tight ∧
      [Section.range, .hammering, .flip].Pairwise (fun t u => h.stop t ≤ (h.offset u).toNat) ∧
      (∀ t u, t ≠ u → ∀ pos, h.Covers t pos → ¬h.Covers u pos) ∧
      (∀ h' : Header, h' = h ↔
        h'.magic = Image.magic ∧ h'.distance = distance ∧ h'.numRanges = numRanges ∧
          h'.numHammerings = numHammerings ∧ h'.numFlips = numFlips ∧ h'.Tight) ∧
      ∀ b : Bytes, b.length = h.size.toNat → h.encode <+: b → Header.decode b = .ok h := by
  intro h
  have ht : h.Tight := tight_layout ..
  refine ⟨Checked.layout_eq .., ht.dvd_offset, ht, ht.pairwise_stop_le, ?_, ?_, ?_⟩
  · intro t u htu pos hpos
    exact ht.not_covers htu hpos
  · intro h'
    exact eq_layout_iff
  · intro b hlen hb
    exact ht.decode_eq rfl hlen hb

/-- Eight ranges and sixteen hammerings end where the next table starts, without a gap; three flip
records follow. The header is read whatever the tables hold. -/
theorem layout_exact_fullTables :
    let h := layout 2 8 16 3
    let b : Bytes := h.encode ++ List.replicate 364 255
    Checked.layout 2 8 16 3 = .ok h ∧ h.stop .range = 256 ∧ (h.offset .hammering).toNat = 256 ∧
      (h.offset .flip).toNat = 384 ∧ h.Covers .range 255 ∧ ¬h.Covers .hammering 255 ∧
      b.length = h.size.toNat ∧ h.encode <+: b ∧ Header.decode b = .ok h := by
  intro h b
  obtain ⟨hchecked, -, -, -, hdisjoint, -, hdecode⟩ := layout_exact 2 8 16 3
  have hlen : b.length = h.size.toNat := by
    rw [List.length_append, length_encode, List.length_replicate]
    rfl
  have hfront : h.encode <+: b := List.prefix_append _ _
  have hlast : h.Covers .range 255 := by decide
  exact ⟨hchecked, rfl, rfl, rfl, hlast, hdisjoint .range .hammering nofun 255 hlast, hlen, hfront,
    hdecode b hlen hfront⟩

end Header

end RowFlips.Image
