import Mathlib.Order.Bounds.Basic
import RowFlips.Image.Codec
import RowFlips.Proofs.Bits

/-!
# Where the tables of an image file stand

Tables are placed one after the other, each at the next multiple of the alignment. Counts have 32
bits, so that no offset comes near the end of 64 bits and nothing wraps.

## Main results

* `toNat_alignUp`: rounding up to the alignment.
* `Header.toNat_rangeOffset`, `Header.toNat_hammeringOffset`, `Header.toNat_flipOffset`,
  `Header.toNat_size`: the layout in natural numbers.
* `Header.tight_layout`: every table starts at the least multiple that the one before it leaves.
* `Header.checkTable_layout`: tables that were laid out pass the checks of a reader.
-/

namespace RowFlips.Image

/-- The least multiple of 128 that is not below a number. -/
def roundUp (n : Nat) : Nat := (n + 127) / 128 * 128

/-- Rounding up does not give less. -/
theorem le_roundUp (n : Nat) : n ≤ roundUp n := by
  rw [roundUp]
  omega

/-- Rounding up adds less than 128. -/
theorem roundUp_lt (n : Nat) : roundUp n < n + 128 := by
  rw [roundUp]
  omega

/-- What is rounded up to is a multiple of 128. -/
@[simp] theorem roundUp_mod (n : Nat) : roundUp n % 128 = 0 := Nat.mul_mod_left _ _

/-- Rounding up gives the least multiple of 128 that is not below `n`. -/
theorem isLeast_roundUp (n : Nat) : IsLeast {m | 128 ∣ m ∧ n ≤ m} (roundUp n) := by
  refine ⟨⟨Nat.dvd_of_mod_eq_zero (roundUp_mod n), le_roundUp n⟩, ?_⟩
  rintro _ ⟨⟨k, rfl⟩, hle⟩
  rw [roundUp]
  omega

/-- Clearing the seven lowest bits of a word rounds it down to a multiple of 128. -/
theorem toNat_and_not_127 (x : UInt64) : (x &&& ~~~127).toNat = x.toNat / 128 * 128 :=
  toNat_and_not x.toBitVec 7

/-- Rounding up to the alignment, as long as nothing wraps. -/
theorem toNat_alignUp {n : UInt64} (h : n.toNat + 128 < UInt64.size) :
    (alignUp n alignment).toNat = roundUp n.toNat := by
  have hmask : alignUp n alignment = (n + 128 - 1) &&& ~~~127 := rfl
  have hsum : (n + 128 - 1).toNat = n.toNat + 127 := by
    have h128 : (128 : UInt64).toNat = 128 := rfl
    have h1 : (1 : UInt64).toNat = 1 := rfl
    rw [UInt64.toNat_sub, UInt64.toNat_add, h128, h1]
    rw [UInt64.size] at h
    omega
  rw [hmask, toNat_and_not_127, hsum, roundUp]

namespace Header

/-- The end of a table, as long as nothing wraps. -/
theorem toNat_tableEnd {table : Section} {offset : UInt64} {count : UInt32} {n : Nat}
    (hoffset : offset.toNat = n) (h : n + count.toNat * table.recordSize < UInt64.size) :
    (tableEnd table offset count).toNat = n + count.toNat * table.recordSize := by
  have hsize : (UInt64.ofNat table.recordSize).toNat = table.recordSize := by
    cases table <;> rfl
  rw [UInt64.size] at h
  rw [tableEnd, UInt64.toNat_add, UInt64.toNat_mul, hsize, UInt32.toNat_toUInt64, hoffset,
    Nat.mod_eq_of_lt (a := count.toNat * table.recordSize) (by omega), Nat.mod_eq_of_lt h]

/-- Where the table after another starts, as long as nothing wraps. -/
theorem toNat_alignUp_tableEnd {table : Section} {offset : UInt64} {count : UInt32} {n : Nat}
    (hoffset : offset.toNat = n)
    (h : n + count.toNat * table.recordSize + 128 < UInt64.size) :
    (alignUp (tableEnd table offset count) alignment).toNat =
      roundUp (n + count.toNat * table.recordSize) := by
  have hend := toNat_tableEnd hoffset (Nat.lt_of_le_of_lt (Nat.le_add_right _ 128) h)
  rw [toNat_alignUp (by rwa [hend]), hend]

/-! ### The layout in natural numbers -/

variable (distance numRanges numHammerings numFlips : UInt32)

/-- The ranges follow the header. -/
theorem toNat_rangeOffset :
    (layout distance numRanges numHammerings numFlips).rangeOffset.toNat = 128 := rfl

/-- The hammerings follow the ranges. -/
theorem toNat_hammeringOffset :
    (layout distance numRanges numHammerings numFlips).hammeringOffset.toNat =
      roundUp (128 + numRanges.toNat * 16) := by
  have hr := numRanges.toNat_lt
  refine toNat_alignUp_tableEnd
    (toNat_rangeOffset distance numRanges numHammerings numFlips) ?_
  rw [Section.recordSize, UInt64.size]
  omega

/-- The flip records follow the hammerings. -/
theorem toNat_flipOffset :
    (layout distance numRanges numHammerings numFlips).flipOffset.toNat =
      roundUp (roundUp (128 + numRanges.toNat * 16) + numHammerings.toNat * 8) := by
  have hr := numRanges.toNat_lt
  have hh := numHammerings.toNat_lt
  have hoffset := roundUp_lt (128 + numRanges.toNat * 16)
  refine toNat_alignUp_tableEnd
    (toNat_hammeringOffset distance numRanges numHammerings numFlips) ?_
  rw [Section.recordSize, UInt64.size]
  omega

/-- The file ends with the flip records. -/
theorem toNat_size :
    (layout distance numRanges numHammerings numFlips).size.toNat =
      roundUp (roundUp (128 + numRanges.toNat * 16) + numHammerings.toNat * 8) +
        numFlips.toNat * 12 := by
  have hr := numRanges.toNat_lt
  have hh := numHammerings.toNat_lt
  have hf := numFlips.toNat_lt
  have hhammering := roundUp_lt (128 + numRanges.toNat * 16)
  have hflip := roundUp_lt (roundUp (128 + numRanges.toNat * 16) + numHammerings.toNat * 8)
  refine toNat_tableEnd (toNat_flipOffset distance numRanges numHammerings numFlips) ?_
  rw [Section.recordSize, UInt64.size]
  omega

/-! ### Tight headers -/

/-- Where a table ends, with all numbers taken as they are. -/
def stop (h : Header) (table : Section) : Nat :=
  (h.offset table).toNat + (h.count table).toNat * table.recordSize

/-- The ranges start at 128, every other table at the least multiple of 128 that is not below the
end of the one before, and the file ends with the flip records. -/
structure Tight (h : Header) : Prop where
  range_eq : (h.offset .range).toNat = 128
  hammering_least : IsLeast {n | 128 ∣ n ∧ h.stop .range ≤ n} (h.offset .hammering).toNat
  flip_least : IsLeast {n | 128 ∣ n ∧ h.stop .hammering ≤ n} (h.offset .flip).toNat
  size_eq : h.size.toNat = h.stop .flip

/-- The header that is laid out for some counts is tight, whatever they are. -/
theorem tight_layout : (layout distance numRanges numHammerings numFlips).Tight := by
  have hhammering := toNat_hammeringOffset distance numRanges numHammerings numFlips
  have hflip := toNat_flipOffset distance numRanges numHammerings numFlips
  have hsize := toNat_size distance numRanges numHammerings numFlips
  refine ⟨rfl, ?_, ?_, ?_⟩
  · rw [offset, hhammering]
    exact isLeast_roundUp _
  · rw [offset, hflip, stop, offset, hhammering]
    exact isLeast_roundUp _
  · rw [hsize, stop, offset, hflip]
    rfl

namespace Tight

variable {h : Header}

/-- Every table of a tight header starts at a multiple of 128. -/
theorem dvd_offset (ht : h.Tight) (table : Section) : 128 ∣ (h.offset table).toNat := by
  cases table with
  | range => exact ⟨1, ht.range_eq⟩
  | hammering => exact ht.hammering_least.1.1
  | flip => exact ht.flip_least.1.1

/-- The tables stand one behind the other. -/
theorem apart (ht : h.Tight) :
    h.stop .range ≤ (h.offset .hammering).toNat ∧ h.stop .hammering ≤ (h.offset .flip).toNat :=
  ⟨ht.hammering_least.1.2, ht.flip_least.1.2⟩

/-- A table does not end before it starts. -/
theorem offset_le_stop (h : Header) (table : Section) : (h.offset table).toNat ≤ h.stop table :=
  Nat.le_add_right _ _

/-- Every table lies between the header and the end of the file. -/
theorem inside (ht : h.Tight) (table : Section) :
    128 ≤ (h.offset table).toNat ∧ h.stop table ≤ h.size.toNat := by
  have hrange := ht.range_eq
  have hsize := ht.size_eq
  have hle := offset_le_stop h
  have hle_range := hle .range
  have hle_hammering := hle .hammering
  have hle_flip := hle .flip
  obtain ⟨hhammering, hflip⟩ := ht.apart
  cases table <;> omega

/-- A tight table passes the checks of a reader. -/
theorem checkTable_eq (ht : h.Tight) (table : Section) : h.checkTable table = .ok () := by
  obtain ⟨hge, hle⟩ := ht.inside table
  have hmod := Nat.mod_eq_zero_of_dvd (ht.dvd_offset table)
  have halignment : alignment.toNat = 128 := rfl
  have hheader : headerSize.toNat = 56 := rfl
  rw [checkTable, if_neg, if_neg]
  · exact Nat.not_lt.2 hle
  · rw [UInt64.lt_iff_toNat_lt, halignment, hheader]
    omega

end Tight

/-- A table that was laid out starts at a multiple of the alignment, behind the header, and ends
within the file. -/
theorem checkTable_layout (table : Section) :
    (layout distance numRanges numHammerings numFlips).checkTable table = .ok () :=
  (tight_layout ..).checkTable_eq table

end Header

end RowFlips.Image
