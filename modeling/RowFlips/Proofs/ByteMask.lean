import Mathlib.Data.List.Dedup
import RowFlips.ByteMask

/-!
# Flips and byte masks

Byte masks hold a set of flips without loss. Each mask stands for the flips in its byte, no two
masks of a set are about the same byte, and expanding all of them gives every flip of the set
once.

## Main results

* `mem_maskFlips`: the flips that two masks record.
* `ByteMask.mem_group`: grouping flips keeps them.
* `ByteMask.ascending_group`: the bytes of grouped ascending flips ascend.
* `FlipSet.flatMap_flips_byteMasks_perm`: masks expand to the flips of their set.
* `FlipSet.length_byteMasks`: how many masks a set has.
-/

namespace RowFlips

/-! ### Bits of masks -/

/-- A byte with one bit set has that bit and no other. -/
theorem testBit_bitMask (b c : Fin 8) : (bitMask b).toNat.testBit c = decide (c = b) := by
  revert b c
  decide

/-- The one of two masks that is about a direction. -/
def Direction.mask (pullup pulldown : UInt8) : Direction → UInt8
  | up => pullup
  | down => pulldown

namespace Flip

/-- The byte of the cell is the number of the bit divided by eight. -/
theorem toNat_cellByte (f : Flip) : f.cellByte.toNat = f.bit.toNat / 8 := by
  rw [cellByte, UInt32.toNat_div]
  rfl

/-- The byte of a flip leaves room for the bits below it. -/
theorem cellByte_lt (f : Flip) : f.cellByte.toNat < 1 <<< 29 := by
  have := f.bit.toNat_lt
  rw [toNat_cellByte]
  omega

/-- Byte and bit in the byte give back the bit. -/
theorem toNat_bit (f : Flip) : f.bit.toNat = f.cellByte.toNat * 8 + f.bitInByte := by
  rw [toNat_cellByte]
  exact (Nat.div_add_mod' f.bit.toNat 8).symm

/-- A flip is determined by its address, byte, bit in the byte and direction. -/
theorem ext_cellByte {f g : Flip} (haddr : f.addr = g.addr) (hbyte : f.cellByte = g.cellByte)
    (hbit : f.bitInByte = g.bitInByte) (hdir : f.direction = g.direction) : f = g := by
  have h : f.bit = g.bit := UInt32.toNat_inj.1 (by rw [toNat_bit, toNat_bit, hbyte, hbit])
  cases f
  cases g
  cases haddr
  cases h
  cases hdir
  rfl

end Flip

/-! ### The flips that masks record -/

/-- The number of a bit of a cell, from its byte and its place there. -/
theorem toNat_mul_eight_add {cellByte : UInt32} (h : cellByte.toNat < 1 <<< 29) (b : Fin 8) :
    (cellByte * 8 + UInt32.ofNat b).toNat = cellByte.toNat * 8 + b := by
  have hb := b.isLt
  rw [UInt32.toNat_add, UInt32.toNat_mul, UInt32.toNat_ofNat']
  have h8 : (8 : UInt32).toNat = 8 := rfl
  rw [h8]
  omega

/-- The flip of a bit of a byte. -/
def Flip.ofByte (addr : Address) (cellByte : UInt32) (direction : Direction) (b : Fin 8) : Flip :=
  ⟨addr, cellByte * 8 + UInt32.ofNat b, direction⟩

/-- A flip made of the byte of a cell lies in that byte, if the byte has bits that are numbered. -/
theorem Flip.cellByte_ofByte {addr : Address} {cellByte : UInt32} {direction : Direction}
    {b : Fin 8} (h : cellByte.toNat < 1 <<< 29) :
    (ofByte addr cellByte direction b).cellByte = cellByte := by
  rw [← UInt32.toNat_inj, toNat_cellByte, ofByte, toNat_mul_eight_add h]
  omega

/-- It is the bit that it was made of, under the same condition. -/
theorem Flip.bitInByte_ofByte {addr : Address} {cellByte : UInt32} {direction : Direction}
    {b : Fin 8} (h : cellByte.toNat < 1 <<< 29) :
    (ofByte addr cellByte direction b).bitInByte = b := by
  simp only [bitInByte, ofByte, toNat_mul_eight_add h, Fin.ext_iff]
  omega

/-- Masks record no flip behind their byte, whichever it is. -/
theorem cellByte_le_of_mem_maskFlips {addr : Address} {cellByte : UInt32}
    {pullup pulldown : UInt8} {f : Flip} (hf : f ∈ maskFlips addr cellByte pullup pulldown) :
    f.cellByte ≤ cellByte := by
  -- The number of a bit is counted modulo 2 ^ 32, which can only lower its byte.
  have hle (direction : Direction) (b : Fin 8) :
      (Flip.ofByte addr cellByte direction b).cellByte ≤ cellByte := by
    have hb := b.isLt
    rw [UInt32.le_iff_toNat_le, Flip.toNat_cellByte]
    simp only [Flip.ofByte, UInt32.toNat_add, UInt32.toNat_mul, UInt32.toNat_ofNat',
      UInt32.reduceToNat]
    omega
  rw [maskFlips, List.mem_append, List.mem_map, List.mem_map] at hf
  obtain ⟨b, -, rfl⟩ | ⟨b, -, rfl⟩ := hf
  · exact hle .up b
  · exact hle .down b

/-- Masks record a flip exactly if it lies in their byte and its bit is set in the mask of its
direction. -/
theorem mem_maskFlips {addr : Address} {cellByte : UInt32} {pullup pulldown : UInt8} {f : Flip}
    (h : cellByte.toNat < 1 <<< 29) :
    f ∈ maskFlips addr cellByte pullup pulldown ↔
      f.addr = addr ∧ f.cellByte = cellByte ∧
        (f.direction.mask pullup pulldown).toNat.testBit f.bitInByte = true := by
  have hmask : maskFlips addr cellByte pullup pulldown =
      (setBits pullup).map (Flip.ofByte addr cellByte .up ·) ++
        (setBits pulldown).map (Flip.ofByte addr cellByte .down ·) := rfl
  simp only [hmask, List.mem_append, List.mem_map, mem_setBits]
  constructor
  · rintro (⟨b, hb, rfl⟩ | ⟨b, hb, rfl⟩)
    · refine ⟨rfl, Flip.cellByte_ofByte h, ?_⟩
      rw [Flip.bitInByte_ofByte h]
      exact hb
    · refine ⟨rfl, Flip.cellByte_ofByte h, ?_⟩
      rw [Flip.bitInByte_ofByte h]
      exact hb
  · rintro ⟨rfl, hbyte, hf⟩
    have hback : Flip.ofByte f.addr cellByte f.direction f.bitInByte = f :=
      Flip.ext_cellByte rfl ((Flip.cellByte_ofByte h).trans hbyte.symm)
        (Flip.bitInByte_ofByte h) rfl
    cases hd : f.direction with
    | up =>
      rw [hd] at hf hback
      exact Or.inl ⟨f.bitInByte, hf, hback⟩
    | down =>
      rw [hd] at hf hback
      exact Or.inr ⟨f.bitInByte, hf, hback⟩

/-- Masks record no flip twice. -/
theorem nodup_maskFlips {addr : Address} {cellByte : UInt32} {pullup pulldown : UInt8}
    (h : cellByte.toNat < 1 <<< 29) : (maskFlips addr cellByte pullup pulldown).Nodup := by
  have hnodup (mask : UInt8) (direction : Direction) :
      ((setBits mask).map fun b : Fin 8 =>
        Flip.mk addr (cellByte * 8 + UInt32.ofNat b) direction).Nodup := by
    refine ((List.nodup_finRange 8).filter _).map fun b c hbc => Fin.ext ?_
    have hbit := congrArg (fun f => f.bit.toNat) hbc
    simp only [toNat_mul_eight_add h] at hbit
    omega
  refine List.nodup_append.2 ⟨hnodup pullup .up, hnodup pulldown .down, ?_⟩
  intro f hf g hg hfg
  obtain ⟨b, -, rfl⟩ := List.mem_map.1 hf
  obtain ⟨c, -, rfl⟩ := List.mem_map.1 hg
  cases congrArg Flip.direction hfg

namespace ByteMask

/-- The mask of a direction. -/
def mask (m : ByteMask) (direction : Direction) : UInt8 := direction.mask m.pullup m.pulldown

/-- Masks whose byte leaves room for the bits below it, as those of flips do. -/
def Fits (m : ByteMask) : Prop := m.cellByte.toNat < 1 <<< 29

/-- The flips of a mask are those that it covers and whose bit is set. -/
theorem mem_flips {m : ByteMask} (h : m.Fits) {f : Flip} :
    f ∈ m.flips ↔ m.Covers f ∧ (m.mask f.direction).toNat.testBit f.bitInByte = true :=
  (mem_maskFlips h).trans and_assoc.symm

/-- Adding a flip leaves the cell of a mask as it is. -/
@[simp] theorem addr_insert (m : ByteMask) (f : Flip) : (m.insert f).addr = m.addr := by
  rw [insert]
  cases f.direction <;> rfl

/-- Adding a flip leaves the byte of a mask as it is. -/
@[simp] theorem cellByte_insert (m : ByteMask) (f : Flip) :
    (m.insert f).cellByte = m.cellByte := by
  rw [insert]
  cases f.direction <;> rfl

/-- Inserting sets the bit of the flip in the mask of its direction, and no other. -/
theorem testBit_mask_insert (m : ByteMask) (f : Flip) (direction : Direction) (b : Fin 8) :
    ((m.insert f).mask direction).toNat.testBit b =
      ((m.mask direction).toNat.testBit b ||
        decide (b = f.bitInByte ∧ direction = f.direction)) := by
  rw [insert]
  cases hd : f.direction <;> cases direction <;>
    simp [mask, Direction.mask, testBit_bitMask]

/-- Adding a flip leaves what a mask covers as it is. -/
theorem covers_insert {m : ByteMask} {f g : Flip} : (m.insert f).Covers g ↔ m.Covers g := by
  simp [Covers]

/-- Inserting a flip of the byte adds it to the flips recorded. -/
theorem mem_flips_insert {m : ByteMask} (h : m.Fits) {f g : Flip} (hf : m.Covers f) :
    g ∈ (m.insert f).flips ↔ g ∈ m.flips ∨ g = f := by
  have h' : (m.insert f).Fits := by rwa [Fits, cellByte_insert]
  rw [mem_flips h, mem_flips h', covers_insert, testBit_mask_insert, Bool.or_eq_true,
    decide_eq_true_eq]
  constructor
  · rintro ⟨hg, hbit | ⟨hbit, hdir⟩⟩
    · exact Or.inl ⟨hg, hbit⟩
    · exact Or.inr (Flip.ext_cellByte (hg.1.trans hf.1.symm) (hg.2.trans hf.2.symm) hbit hdir)
  · rintro (⟨hg, hbit⟩ | rfl)
    · exact ⟨hg, Or.inl hbit⟩
    · exact ⟨hf, Or.inr ⟨rfl, rfl⟩⟩

/-- The mask of one flip fits. -/
theorem fits_single (f : Flip) : (single f).Fits := by
  rw [Fits, single, cellByte_insert]
  exact f.cellByte_lt

/-- The mask of one flip covers the flips in the same byte of the same cell. -/
theorem covers_single (f g : Flip) :
    (single f).Covers g ↔ g.addr = f.addr ∧ g.cellByte = f.cellByte := by
  rw [single, covers_insert]
  rfl

/-- The masks of one flip record it alone. -/
theorem mem_flips_single {f g : Flip} : g ∈ (single f).flips ↔ g = f := by
  have h : Fits ⟨f.addr, f.cellByte, 0, 0⟩ := f.cellByte_lt
  have hnone : g ∉ flips ⟨f.addr, f.cellByte, 0, 0⟩ := by
    rw [mem_flips h]
    cases hd : g.direction <;> simp [mask, Direction.mask]
  rw [single, mem_flips_insert h ⟨rfl, rfl⟩]
  exact or_iff_right hnone

/-! ### Grouping flips -/

/-- Grouping keeps the flips gathered before and those that follow. -/
theorem mem_groupFrom {m : ByteMask} (h : m.Fits) {fs : List Flip} {g : Flip} :
    g ∈ (groupFrom m fs).flatMap flips ↔ g ∈ m.flips ∨ g ∈ fs := by
  fun_induction groupFrom m fs with
  | case1 m => simp
  | case2 m f fs hf ih =>
    have h' : (m.insert f).Fits := by rwa [Fits, cellByte_insert]
    rw [ih h', mem_flips_insert h hf, List.mem_cons, or_assoc]
  | case3 m f fs hf ih =>
    rw [List.flatMap_cons, List.mem_append, ih (fits_single f), mem_flips_single, List.mem_cons]

/-- Grouping keeps flips. -/
theorem mem_group {fs : List Flip} {g : Flip} : g ∈ (group fs).flatMap flips ↔ g ∈ fs := by
  cases fs with
  | nil => rfl
  | cons f fs => rw [group, mem_groupFrom (fits_single f), mem_flips_single, List.mem_cons]

/-- Flips grouped behind a mask that fits have masks that fit. -/
theorem fits_of_mem_groupFrom {m n : ByteMask} (h : m.Fits) {fs : List Flip}
    (hn : n ∈ groupFrom m fs) : n.Fits := by
  fun_induction groupFrom m fs with
  | case1 m => rwa [List.mem_singleton.1 hn]
  | case2 m f fs hf ih => exact ih (by rwa [Fits, cellByte_insert]) hn
  | case3 m f fs hf ih =>
    rcases List.mem_cons.1 hn with rfl | hn
    · exact h
    · exact ih (fits_single f) hn

/-- The masks of grouped flips fit. -/
theorem fits_of_mem_group {m : ByteMask} {fs : List Flip} (h : m ∈ group fs) : m.Fits := by
  cases fs with
  | nil => cases h
  | cons f fs => exact fits_of_mem_groupFrom (fits_single f) h

/-- Masks have a flip: those gathered before, or one that follows. -/
theorem exists_covers_of_mem_groupFrom {m n : ByteMask} {fs : List Flip}
    (hn : n ∈ groupFrom m fs) :
    n.addr = m.addr ∧ n.cellByte = m.cellByte ∨ ∃ f ∈ fs, n.Covers f := by
  fun_induction groupFrom m fs with
  | case1 m =>
    rw [List.mem_singleton.1 hn]
    exact Or.inl ⟨rfl, rfl⟩
  | case2 m f fs hf ih =>
    rw [addr_insert, cellByte_insert] at ih
    exact (ih hn).imp_right fun ⟨g, hg, hcovers⟩ => ⟨g, List.mem_cons_of_mem _ hg, hcovers⟩
  | case3 m f fs hf ih =>
    rcases List.mem_cons.1 hn with rfl | hn
    · exact Or.inl ⟨rfl, rfl⟩
    · rcases ih hn with ⟨haddr, hbyte⟩ | ⟨g, hg, hcovers⟩
      · rw [single, addr_insert] at haddr
        rw [single, cellByte_insert] at hbyte
        exact Or.inr ⟨f, List.mem_cons_self, haddr.symm, hbyte.symm⟩
      · exact Or.inr ⟨g, List.mem_cons_of_mem _ hg, hcovers⟩

/-- Grouped masks are about the bytes that have a flip. -/
theorem exists_covers_of_mem_group {n : ByteMask} {fs : List Flip} (hn : n ∈ group fs) :
    ∃ f ∈ fs, n.Covers f := by
  cases fs with
  | nil => cases hn
  | cons f fs =>
    rcases exists_covers_of_mem_groupFrom hn with ⟨haddr, hbyte⟩ | ⟨g, hg, hcovers⟩
    · rw [single, addr_insert] at haddr
      rw [single, cellByte_insert] at hbyte
      exact ⟨f, List.mem_cons_self, haddr.symm, hbyte.symm⟩
    · exact ⟨g, List.mem_cons_of_mem _ hg, hcovers⟩

/-- The first byte of which something is true is that of the first flip whose byte it is true of. -/
theorem find?_map_cellByte_groupFrom (p : UInt32 → Bool) (m : ByteMask) (fs : List Flip) :
    ((groupFrom m fs).map cellByte).find? p =
      (m.cellByte :: fs.map Flip.cellByte).find? p := by
  fun_induction groupFrom m fs with
  | case1 m => rfl
  | case2 m f fs hf ih =>
    rw [ih, cellByte_insert, List.map_cons, hf.2]
    cases hp : p m.cellByte <;> simp [hp]
  | case3 m f fs hf ih =>
    rw [List.map_cons, List.find?_cons, ih, single, cellByte_insert, List.map_cons,
      List.find?_cons (a := m.cellByte)]

/-- The first byte with some property is the same for flips and for their masks. -/
theorem find?_map_cellByte_group (p : UInt32 → Bool) (fs : List Flip) :
    ((group fs).map cellByte).find? p = (fs.map Flip.cellByte).find? p := by
  cases fs with
  | nil => rfl
  | cons f fs =>
    rw [group, find?_map_cellByte_groupFrom, single, cellByte_insert]
    rfl

/-! ### The order of masks -/

/-- Address and byte as the digits of one number. -/
def position (m : ByteMask) : Nat := key m.addr <<< 29 + m.cellByte.toNat

/-- The byte of a flip is a digit of its position. -/
theorem position_div_sixteen (f : Flip) :
    key f / 16 = key f.addr <<< 29 + f.cellByte.toNat := by
  have hbit := f.bit.toNat_lt
  have hdir := f.direction.toNat_lt_two
  have hkey : key f = (key f.addr <<< 32 + f.bit.toNat) * 2 + f.direction.toNat := rfl
  rw [Flip.toNat_cellByte, hkey]
  omega

/-- Masks cover a flip exactly if it is at their position. -/
theorem covers_iff {m : ByteMask} (h : m.Fits) {f : Flip} :
    m.Covers f ↔ key f / 16 = m.position := by
  rw [position_div_sixteen, position]
  constructor
  · rintro ⟨haddr, hbyte⟩
    rw [haddr, hbyte]
  · intro heq
    have hf := f.cellByte_lt
    rw [Fits] at h
    have haddr : key f.addr = key m.addr := by omega
    have hbyte : f.cellByte.toNat = m.cellByte.toNat := by omega
    exact ⟨Keyed.eq_of_key_eq haddr, UInt32.toNat_inj.1 hbyte⟩

/-- Adding a flip leaves the place of a mask in the order as it is. -/
@[simp] theorem position_insert (m : ByteMask) (f : Flip) :
    (m.insert f).position = m.position := by
  rw [position, position, addr_insert, cellByte_insert]

/-- The place of the mask of a flip is that of the flip, less bit and direction. -/
theorem position_single (f : Flip) : (single f).position = key f / 16 :=
  ((covers_iff (fits_single f)).1 ((covers_single f f).2 ⟨rfl, rfl⟩)).symm

/-- The masks of ascending flips that follow those gathered in `m` start with its position and
ascend from there. -/
theorem ascending_groupFrom {m : ByteMask} (h : m.Fits) {fs : List Flip} (hfs : Ascending id fs)
    (hm : ∀ f ∈ fs, m.position ≤ key f / 16) :
    (groupFrom m fs).Pairwise (fun a b => a.position < b.position) ∧
      ∀ n ∈ groupFrom m fs, m.position ≤ n.position := by
  fun_induction groupFrom m fs with
  | case1 m => simp
  | case2 m f fs hf ih =>
    have h' : (m.insert f).Fits := by rwa [Fits, cellByte_insert]
    have hm' : ∀ g ∈ fs, (m.insert f).position ≤ key g / 16 := by
      intro g hg
      rw [position_insert]
      exact hm g (List.mem_cons_of_mem _ hg)
    simpa using ih h' hfs.of_cons hm'
  | case3 m f fs hf ih =>
    obtain ⟨hlt, hfs'⟩ := List.pairwise_cons.1 hfs
    have hstart : ∀ g ∈ fs, (single f).position ≤ key g / 16 := by
      intro g hg
      rw [position_single]
      exact Nat.div_le_div_right (Nat.le_of_lt (hlt g hg))
    obtain ⟨hpair, hle⟩ := ih (fits_single f) hfs' hstart
    have hmf : m.position < (single f).position := by
      have hle := hm f List.mem_cons_self
      have hne : key f / 16 ≠ m.position := fun heq => hf ((covers_iff h).2 heq)
      rw [position_single]
      omega
    have hlt : ∀ n ∈ groupFrom (single f) fs, m.position < n.position := fun n hn =>
      Nat.lt_of_lt_of_le hmf (hle n hn)
    refine ⟨List.pairwise_cons.2 ⟨hlt, hpair⟩, ?_⟩
    intro n hn
    rcases List.mem_cons.1 hn with rfl | hn
    · exact Nat.le_refl _
    · exact Nat.le_of_lt (hlt n hn)

/-- The masks of ascending flips ascend. -/
theorem ascending_group {fs : List Flip} (h : Ascending id fs) :
    (group fs).Pairwise fun a b => a.position < b.position := by
  cases fs with
  | nil => exact List.Pairwise.nil
  | cons f fs =>
    obtain ⟨hlt, hfs⟩ := List.pairwise_cons.1 h
    refine (ascending_groupFrom (fits_single f) hfs fun g hg => ?_).1
    rw [position_single]
    exact Nat.div_le_div_right (Nat.le_of_lt (hlt g hg))

end ByteMask

namespace FlipSet

variable {s : FlipSet}

/-- The masks of a set record its flips. -/
theorem mem_flatMap_flips_byteMasks {f : Flip} :
    f ∈ s.byteMasks.flatMap ByteMask.flips ↔ f ∈ s :=
  ByteMask.mem_group

/-- Expanding the masks of a set gives each of its flips once. -/
theorem flatMap_flips_byteMasks_perm (s : FlipSet) :
    (s.byteMasks.flatMap ByteMask.flips).Perm s.toList := by
  refine (List.perm_ext_iff_of_nodup ?_ ?_).2 fun f => mem_flatMap_flips_byteMasks
  · refine List.nodup_flatMap.2 ⟨?_, ?_⟩
    · intro m hm
      exact nodup_maskFlips (ByteMask.fits_of_mem_group hm)
    · refine (ByteMask.ascending_group s.ascending).imp_of_mem ?_
      intro m n hm hn hlt f hfm hfn
      have hm := ByteMask.fits_of_mem_group hm
      have hn := ByteMask.fits_of_mem_group hn
      have hfm := (ByteMask.covers_iff hm).1 ((ByteMask.mem_flips hm).1 hfm).1
      have hfn := (ByteMask.covers_iff hn).1 ((ByteMask.mem_flips hn).1 hfn).1
      omega
  · exact s.ascending.imp fun hlt heq => Nat.ne_of_lt hlt (congrArg key heq)

/-- The bytes that have a flip, each once. -/
def bytes (s : FlipSet) : List (Address × UInt32) :=
  (s.toList.map fun f => (f.addr, f.cellByte)).dedup

/-- The masks of a set are for the bytes that have a flip, each of which has one pair. -/
theorem map_byteMasks_perm_bytes (s : FlipSet) :
    (s.byteMasks.map fun m => (m.addr, m.cellByte)).Perm s.bytes := by
  refine (List.perm_ext_iff_of_nodup ?_ (List.nodup_dedup _)).2 fun byte => ?_
  · refine List.pairwise_map.2 ((ByteMask.ascending_group s.ascending).imp ?_)
    intro m n hlt heq
    obtain ⟨haddr, hbyte⟩ := Prod.mk.inj heq
    rw [ByteMask.position, ByteMask.position, haddr, hbyte] at hlt
    exact Nat.lt_irrefl _ hlt
  · rw [List.mem_dedup, List.mem_map, List.mem_map]
    constructor
    · rintro ⟨m, hm, rfl⟩
      obtain ⟨f, hf, haddr, hbyte⟩ := ByteMask.exists_covers_of_mem_group hm
      exact ⟨f, hf, by rw [haddr, hbyte]⟩
    · rintro ⟨f, hf, rfl⟩
      obtain ⟨m, hm, hfm⟩ := List.mem_flatMap.1 (mem_flatMap_flips_byteMasks.2 hf)
      obtain ⟨⟨haddr, hbyte⟩, -⟩ := (ByteMask.mem_flips (ByteMask.fits_of_mem_group hm)).1 hfm
      exact ⟨m, hm, by rw [haddr, hbyte]⟩

/-- A set has as many pairs of masks as bytes that have a flip. -/
theorem length_byteMasks (s : FlipSet) : s.byteMasks.length = s.bytes.length := by
  rw [← s.map_byteMasks_perm_bytes.length_eq, List.length_map]

end FlipSet

end RowFlips
