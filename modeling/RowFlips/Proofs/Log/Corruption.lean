import RowFlips.Proofs.Log.Encoding
import RowFlips.Proofs.Log.Line

/-!
# The flips of a corruption

A corruption is a byte at an offset from a victim, and its flips are bits of a cell in some column
of the victim's row. Column and byte of the cell give back the offset, whatever cells are taken to
hold, and the flips are exactly the bits in which the byte read back differs from the byte written:
making them in the one gives the other.

The column is found with 32 bit words. Capping how many columns are added keeps the sum from
wrapping, so that no offset, however great, leads back into the row.

## Main results

* `Corruption.testBit_mask_iff`: the bits of the masks of a corruption.
* `Address.addColsWord?_eq`: adding columns in 32 bits.
* `Flip.testBit_foldl_apply_of_mem`, `Flip.testBit_foldl_apply_of_forall_ne`: the bits of a byte
  after flips were made in it.
* `Corruption.mem_flips_iff`: the flips of a corruption.
* `Corruption.accounted`, `Corruption.offset_eq_of_mem`: flips give back byte and offset.
* `Corruption.flips_spec`: all of it, for corruptions and for runs.
-/

namespace RowFlips

/-! ### Columns -/

/-- The sum does not wrap, so it is the one counted in natural numbers. -/
theorem Address.addColsWord?_eq (a : Address) (cols : UInt32) :
    a.addColsWord? cols = a.addCols? cols.toNat := by
  have hcol := a.col.toNat_lt
  have hmin : (min cols 0x10000).toNat = min cols.toNat 65536 := by
    have hif : min cols 0x10000 = if cols ≤ 0x10000 then cols else 0x10000 := rfl
    rw [hif]
    split
    · rename_i h
      exact (Nat.min_eq_left (UInt32.le_iff_toNat_le.1 h)).symm
    · rename_i h
      exact (Nat.min_eq_right (Nat.le_of_lt (UInt32.lt_iff_toNat_lt.1 (UInt32.not_le.1 h)))).symm
  have hsum : (a.col.toUInt32 + min cols 0x10000).toNat = a.col.toNat + min cols.toNat 65536 := by
    rw [UInt32.toNat_add, UInt16.toNat_toUInt32, hmin]
    omega
  have hle : a.col.toUInt32 + min cols 0x10000 ≤ 0xffff ↔
      a.col.toNat + cols.toNat < UInt16.size := by
    rw [UInt32.le_iff_toNat_le, hsum, UInt16.size]
    have hmax : (0xffff : UInt32).toNat = 65535 := rfl
    omega
  rw [addColsWord?, addCols?]
  simp only [hle]
  split
  · rename_i h
    rw [UInt16.size] at h
    have hword : (a.col.toUInt32 + min cols 0x10000).toUInt16 =
        UInt16.ofNat (a.col.toNat + cols.toNat) := by
      rw [← UInt16.toNat_inj, UInt32.toNat_toUInt16, hsum, UInt16.toNat_ofNat']
      omega
    rw [hword]
  · rfl

/-- Columns that the row has are added without wrapping. -/
theorem Address.toNat_col_addCols {a : Address} {cols : Nat}
    (h : a.col.toNat + cols < UInt16.size) :
    (a.addCols (UInt16.ofNat cols)).col.toNat = a.col.toNat + cols := by
  rw [UInt16.size] at h
  rw [addCols, UInt16.toNat_add, UInt16.toNat_ofNat']
  omega

/-! ### Bits -/

/-- A bit is set in the mask of a direction exactly if it changed that way. -/
theorem Corruption.testBit_mask_iff {c : Corruption} {direction : Direction} {b : Fin 8} :
    (direction.mask c.pullup c.pulldown).toNat.testBit b = true ↔
      c.expected.toNat.testBit b = direction.before ∧
        c.got.toNat.testBit b ≠ direction.before := by
  cases direction <;>
    simp only [Direction.mask, pullup, pulldown, Direction.before, UInt8.toNat_and, Nat.testBit_and,
      testBit_complement, Bool.and_eq_true, Bool.not_eq_true', ne_eq, Bool.not_eq_false,
      Bool.not_eq_true]

namespace Flip

/-- The byte with the flip made in it: the bit has the value that it flipped to. -/
def apply (f : Flip) (byte : UInt8) : UInt8 :=
  match f.direction with
  | .up => byte ||| bitMask f.bitInByte
  | .down => byte &&& ~~~bitMask f.bitInByte

/-- Making a flip sets its bit to the value after it, and leaves the other bits. -/
theorem testBit_apply (f : Flip) (byte : UInt8) (b : Fin 8) :
    (f.apply byte).toNat.testBit b =
      if b = f.bitInByte then !f.direction.before else byte.toNat.testBit b := by
  rw [apply]
  cases f.direction <;>
    simp only [UInt8.toNat_or, UInt8.toNat_and, Nat.testBit_or, Nat.testBit_and,
      testBit_complement, testBit_bitMask, Direction.before] <;>
    by_cases hb : b = f.bitInByte <;> simp [hb]

/-- Flips leave the bits as they are that none of them is about. -/
theorem testBit_foldl_apply_of_forall_ne {fs : List Flip} {b : Fin 8}
    (h : ∀ f ∈ fs, f.bitInByte ≠ b) (byte : UInt8) :
    (fs.foldl (fun byte f => f.apply byte) byte).toNat.testBit b = byte.toNat.testBit b := by
  induction fs generalizing byte with
  | nil => rfl
  | cons f fs ih =>
    obtain ⟨hf, hfs⟩ := List.forall_mem_cons.1 h
    rw [List.foldl_cons, ih hfs, testBit_apply, if_neg (Ne.symm hf)]

/-- Flips that are about one bit and flip it from the same value all leave it with the other. -/
theorem testBit_foldl_apply_of_mem {fs : List Flip} {b : Fin 8} {before : Bool}
    (h : ∀ f ∈ fs, f.bitInByte = b → f.direction.before = before)
    (hb : ∃ f ∈ fs, f.bitInByte = b) (byte : UInt8) :
    (fs.foldl (fun byte f => f.apply byte) byte).toNat.testBit b = !before := by
  induction fs generalizing byte with
  | nil => simp at hb
  | cons f fs ih =>
    obtain ⟨hf, hfs⟩ := List.forall_mem_cons.1 h
    rw [List.foldl_cons]
    by_cases hlater : ∃ g ∈ fs, g.bitInByte = b
    · exact ih hfs hlater _
    · have hnone : ∀ g ∈ fs, g.bitInByte ≠ b := fun g hg hgb => hlater ⟨g, hg, hgb⟩
      have hfb : f.bitInByte = b := by
        obtain ⟨g, hg, hgb⟩ := hb
        rcases List.mem_cons.1 hg with rfl | hg
        · exact hgb
        · exact absurd hgb (hnone g hg)
      rw [testBit_foldl_apply_of_forall_ne hnone, testBit_apply, if_pos hfb.symm, hf hfb]

end Flip

/-! ### What a corruption tells -/

namespace Corruption

/-- The corruption of `victim` tells of the flip: it is about the byte of the flip, whose bit was
written with the value that it flipped from and read back with the other. -/
def Tells (c : Corruption) (victim : Address) (f : Flip) : Prop :=
  f.addr = victim ∧ f.cellByte = c.offset ∧
    c.expected.toNat.testBit f.bitInByte = f.direction.before ∧
      c.got.toNat.testBit f.bitInByte ≠ f.direction.before

instance (c : Corruption) (victim : Address) (f : Flip) : Decidable (c.Tells victim f) :=
  inferInstanceAs (Decidable (_ ∧ _ ∧ _ ∧ _))

/-- A bit in which the byte read back differs from the byte written is the bit of a flip that the
corruption tells of. -/
theorem exists_tells {c : Corruption} (victim : Address) (hoffset : c.offset.toNat < 1 <<< 29)
    {b : Fin 8} (hne : c.got.toNat.testBit b ≠ c.expected.toNat.testBit b) :
    ∃ f, f.bitInByte = b ∧ c.Tells victim f := by
  obtain ⟨direction, hbefore⟩ := Direction.exists_before_eq (c.expected.toNat.testBit b)
  have hbit : (Flip.ofByte victim c.offset direction b).bitInByte = b :=
    Flip.bitInByte_ofByte hoffset
  refine ⟨.ofByte victim c.offset direction b, hbit, rfl, Flip.cellByte_ofByte hoffset, ?_⟩
  rw [hbit]
  exact ⟨hbefore.symm, fun hgot => hne (hgot.trans hbefore)⟩

end Corruption

/-! ### Position and byte -/

namespace Corruption

variable {c d : Corruption} {victim : Address} {cellSize : UInt32} {fs gs : List Flip} {f : Flip}

/-- The row has the column of a corruption if cells hold `cellSize` bytes. -/
theorem inRow_iff : c.InRow victim cellSize ↔
    victim.col.toNat + c.offset.toNat / max cellSize.toNat 1 ≤ 65535 := by
  rw [InRow, UInt32.toNat_div, toNat_max_one]

/-- The bits of the byte have numbers below 2 ^ 32 in a cell of `cellSize` bytes. -/
def BitsFit (c : Corruption) (cellSize : UInt32) : Prop :=
  c.offset.toNat % max cellSize.toNat 1 * 8 + 7 < UInt32.size

instance (c : Corruption) (cellSize : UInt32) : Decidable (c.BitsFit cellSize) :=
  inferInstanceAs (Decidable (_ < _))

/-- The flips account for the corruption of a victim whose cells hold `size` bytes. Each is in the
victim's row, where column and byte of the cell make up the offset. There is one for each bit in
which the byte read back differs from the byte written, in the direction in which it differs, so
that making them in the byte written gives the byte read back. -/
structure AccountedBy (c : Corruption) (victim : Address) (size : Nat) (fs : List Flip) :
    Prop where
  nodup : fs.Nodup
  row_eq : ∀ f ∈ fs, f.addr.SameBank victim ∧ f.addr.row = victim.row
  offset_eq : ∀ f ∈ fs, ((f.addr.col.toNat : Int) - victim.col.toNat) * size + f.cellByte.toNat =
    c.offset.toNat
  cellByte_lt : ∀ f ∈ fs, f.cellByte.toNat < size
  exists_iff : ∀ b : Fin 8, (∃ f ∈ fs, f.bitInByte = b) ↔
    c.got.toNat.testBit b ≠ c.expected.toNat.testBit b
  before_eq : ∀ f ∈ fs, f.direction.before = c.expected.toNat.testBit f.bitInByte
  apply_eq : fs.foldl (fun byte f => f.apply byte) c.expected = c.got

/-- If its bits fit, the byte of a corruption within its cell lies below 2²⁹. -/
theorem BitsFit.toNat_mod_lt (h : c.BitsFit cellSize) :
    (c.offset % max cellSize 1).toNat < 1 <<< 29 := by
  rw [BitsFit, UInt32.size] at h
  rw [UInt32.toNat_mod, toNat_max_one]
  omega

/-- The flips of a corruption are those that it tells of once columns are taken off its offset. -/
theorem mem_flips_iff (hfit : c.BitsFit cellSize) (h : c.flips victim cellSize = .ok fs) :
    f ∈ fs ↔ Tells { c with offset := c.offset % max cellSize 1 }
      (victim.addCols (UInt16.ofNat (c.offset / max cellSize 1).toNat)) f := by
  obtain ⟨-, rfl⟩ := flips_eq_ok_iff.1 h
  rw [mem_maskFlips hfit.toNat_mod_lt, testBit_mask_iff, Tells]

/-- A bit in which the byte read back differs from the byte written has a flip. -/
theorem exists_mem_flips_iff (hfit : c.BitsFit cellSize) (h : c.flips victim cellSize = .ok fs)
    (b : Fin 8) : (∃ f ∈ fs, f.bitInByte = b) ↔
      c.got.toNat.testBit b ≠ c.expected.toNat.testBit b := by
  constructor
  · rintro ⟨f, hf, rfl⟩
    obtain ⟨-, -, hexpected, hgot⟩ := (mem_flips_iff hfit h).1 hf
    rwa [hexpected]
  · intro hne
    obtain ⟨f, hbit, htells⟩ :=
      exists_tells (c := { c with offset := c.offset % max cellSize 1 })
        (victim.addCols (UInt16.ofNat (c.offset / max cellSize 1).toNat)) hfit.toNat_mod_lt hne
    exact ⟨f, (mem_flips_iff hfit h).2 htells, hbit⟩

/-- The column and the byte of the cell of a flip make up the offset of its corruption. -/
theorem offset_eq (hfit : c.BitsFit cellSize) (h : c.flips victim cellSize = .ok fs) (hf : f ∈ fs) :
    ((f.addr.col.toNat : Int) - victim.col.toNat) * (max cellSize.toNat 1 : Nat) +
      f.cellByte.toNat = c.offset.toNat := by
  obtain ⟨haddr, hbyte, -⟩ := (mem_flips_iff hfit h).1 hf
  obtain ⟨hrow, -⟩ := flips_eq_ok_iff.1 h
  rw [haddr, Address.toNat_col_addCols hrow, hbyte, UInt32.toNat_div, UInt32.toNat_mod,
    toNat_max_one]
  have hcols (n : Nat) : ((victim.col.toNat + n : Nat) : Int) - victim.col.toNat = n := by omega
  rw [hcols]
  exact_mod_cast Nat.div_add_mod' c.offset.toNat (max cellSize.toNat 1)

/-- The flips of a corruption account for it. -/
theorem accounted (hfit : c.BitsFit cellSize) (h : c.flips victim cellSize = .ok fs) :
    c.AccountedBy victim (max cellSize.toNat 1) fs where
  nodup := by
    obtain ⟨-, rfl⟩ := flips_eq_ok_iff.1 h
    exact nodup_maskFlips hfit.toNat_mod_lt
  row_eq f hf := by
    rw [((mem_flips_iff hfit h).1 hf).1]
    exact ⟨⟨rfl, rfl, rfl, rfl⟩, rfl⟩
  offset_eq f hf := offset_eq hfit h hf
  cellByte_lt f hf := by
    rw [((mem_flips_iff hfit h).1 hf).2.1, UInt32.toNat_mod, toNat_max_one]
    exact Nat.mod_lt _ (Nat.lt_of_lt_of_le Nat.one_pos (Nat.le_max_right _ _))
  exists_iff := exists_mem_flips_iff hfit h
  before_eq f hf := ((mem_flips_iff hfit h).1 hf).2.2.1.symm
  apply_eq := by
    refine byte_ext fun b => ?_
    by_cases hb : ∃ f ∈ fs, f.bitInByte = b
    · have hbefore : ∀ f ∈ fs, f.bitInByte = b →
          f.direction.before = c.expected.toNat.testBit b := by
        rintro f hf rfl
        exact ((mem_flips_iff hfit h).1 hf).2.2.1.symm
      rw [Flip.testBit_foldl_apply_of_mem hbefore hb]
      exact (Bool.eq_not_of_ne ((exists_mem_flips_iff hfit h b).1 hb)).symm
    · rw [Flip.testBit_foldl_apply_of_forall_ne fun f hf hfb => hb ⟨f, hf, hfb⟩]
      exact (not_not.1 (mt (exists_mem_flips_iff hfit h b).2 hb)).symm

/-- Corruptions of one victim that have a flip in common are at one offset. -/
theorem offset_eq_of_mem (hc : c.BitsFit cellSize) (hd : d.BitsFit cellSize)
    (hfs : c.flips victim cellSize = .ok fs) (hgs : d.flips victim cellSize = .ok gs) (hf : f ∈ fs)
    (hg : f ∈ gs) : c.offset = d.offset := by
  have hoffset := (offset_eq hc hfs hf).symm.trans (offset_eq hd hgs hg)
  exact UInt32.toNat_inj.1 (Int.ofNat_inj.1 hoffset)

/-- **The flips of corruptions.** A corruption `c` of `victim` has its `flips` told exactly if the
row has the column that its offset is in, and else is malformed as `pastLastColumn`, even if nothing
changed. The column may be found with 32 bit words, as `addColsWord?` does. If the `BitsFit` their
words, flips `fs` that are told account for `c`, as `AccountedBy` has it. A run `r` has its flips
told exactly if each corruption of each victim has. Two corruptions `c` and `d` of one victim have a
flip in common only if they are at one offset. -/
theorem flips_spec (victim : Address) (cellSize : UInt32) :
    (∀ c : Corruption,
      ((∃ fs, c.flips victim cellSize = .ok fs) ↔
        victim.col.toNat + c.offset.toNat / max cellSize.toNat 1 ≤ 65535) ∧
      (65535 < victim.col.toNat + c.offset.toNat / max cellSize.toNat 1 →
        (c.flips victim cellSize).mapError (Error.parse 0) =
          .error (.parse 0 (.pastLastColumn c.offset victim.col))) ∧
      victim.addColsWord? (c.offset / max cellSize 1) =
        victim.addCols? (c.offset / max cellSize 1).toNat) ∧
    (∀ (c : Corruption) (fs : List Flip), c.BitsFit cellSize → c.flips victim cellSize = .ok fs →
      c.AccountedBy victim (max cellSize.toNat 1) fs) ∧
    (∀ r : Run, (∃ fs, r.flips cellSize = .ok fs) ↔
      ∀ v ∈ r.victims, ∀ c ∈ v.2, ∃ fs, c.flips v.1 cellSize = .ok fs) ∧
    ∀ (c d : Corruption) (fs gs : List Flip), c.BitsFit cellSize → d.BitsFit cellSize →
      c.flips victim cellSize = .ok fs → d.flips victim cellSize = .ok gs →
        (∃ f ∈ fs, f ∈ gs) → c.offset = d.offset := by
  refine ⟨fun c => ⟨?_, ?_, ?_⟩, ?_, ?_, ?_⟩
  · rw [exists_flips_iff, inRow_iff]
  · intro hpast
    rw [flips_of_not_inRow (by rw [inRow_iff]; omega)]
    rfl
  · exact victim.addColsWord?_eq _
  · intro c fs hfit h
    exact accounted hfit h
  · intro r
    simp only [Run.exists_flips_eq_ok_iff, exists_flips_iff]
  · rintro c d fs gs hc hd hfs hgs ⟨f, hf, hg⟩
    exact offset_eq_of_mem hc hd hfs hgs hf hg

/-- The last byte of a victim in the last column is still in its row. Bits changed both ways in it.
The byte behind it is not in the row, so it is malformed though nothing changed in it; nor is a byte
as far behind as an offset can tell of. -/
theorem flips_spec_lastColumn :
    let victim : Address := ⟨0, 0, 0, 0, 101, 65535⟩
    let last : Corruption := ⟨7, 0xfe, 0xef⟩
    last.BitsFit 8 ∧
      last.AccountedBy victim 8 [⟨victim, 60, .up⟩, ⟨victim, 56, .down⟩] ∧
      (flips ⟨8, 5, 5⟩ victim 8).mapError (Error.parse 0) =
        .error (.parse 0 (.pastLastColumn 8 65535)) ∧
      victim.addColsWord? (0xffffffff / max 0 1) = none := by
  intro victim last
  obtain ⟨hrow, haccounted, -, -⟩ := flips_spec victim 8
  obtain ⟨hcolumns, -, -, -⟩ := flips_spec victim 0
  have hfit : last.BitsFit 8 := by decide
  refine ⟨hfit, haccounted last _ hfit (by decide), (hrow ⟨8, 5, 5⟩).2.1 (by decide), ?_⟩
  exact (hcolumns ⟨0xffffffff, 0, 0⟩).2.2.trans (by decide)

end Corruption

end RowFlips
