import RowFlips.Proofs.ByteMask
import RowFlips.Proofs.Order

/-!
# Byte masks in canonical form

Masks are in canonical form if they ascend by address and byte, leave room for the bits of their
bytes and record at least one flip each. No two lists of such masks record the same flips: they
would have masks for the same bytes, with the same bits. The masks of a set of flips have this form,
so making masks of flips and expanding them are inverse to each other.

## Main results

* `ByteMask.eq_of_mem_flips_iff`: masks of one byte are determined by the flips that they record.
* `ByteMask.Canonical.eq_of_mem_flips_iff`: so are masks in canonical form.
* `FlipSet.canonical_byteMasks`: the masks of a set are in canonical form.
* `FlipSet.byteMasks_inverse`: sets of flips and masks give each other back.
-/

namespace RowFlips

namespace ByteMask

variable {m n : ByteMask} {ms ns : List ByteMask} {f : Flip}

/-! ### One byte -/

/-- A mask is determined by its bits. -/
theorem eq_of_testBit_eq {x y : UInt8}
    (h : ∀ b : Fin 8, x.toNat.testBit b = y.toNat.testBit b) : x = y := by
  have hhigh (z : UInt8) {i : Nat} (hi : 8 ≤ i) : z.toNat.testBit i = false :=
    Nat.testBit_lt_two_pow
      (Nat.lt_of_lt_of_le z.toNat_lt (Nat.pow_le_pow_right (by decide) hi))
  refine UInt8.toNat_inj.1 (Nat.eq_of_testBit_eq fun i => ?_)
  by_cases hi : i < 8
  · exact h ⟨i, hi⟩
  · rw [hhigh x (Nat.not_lt.1 hi), hhigh y (Nat.not_lt.1 hi)]

/-- The flip of a bit of the byte is recorded exactly if the bit is set in the mask of its
direction. -/
theorem ofByte_mem_flips_iff (h : m.Fits) {direction : Direction} {b : Fin 8} :
    Flip.ofByte m.addr m.cellByte direction b ∈ m.flips ↔
      (m.mask direction).toNat.testBit b = true := by
  rw [mem_flips h, Flip.bitInByte_ofByte h]
  exact and_iff_right ⟨rfl, Flip.cellByte_ofByte h⟩

/-- Masks of one byte are determined by the flips that they record. -/
theorem eq_of_mem_flips_iff (hm : m.Fits) (hn : n.Fits) (haddr : m.addr = n.addr)
    (hbyte : m.cellByte = n.cellByte) (h : ∀ f, f ∈ m.flips ↔ f ∈ n.flips) : m = n := by
  have hmask (direction : Direction) : m.mask direction = n.mask direction := by
    refine eq_of_testBit_eq fun b => Bool.eq_iff_iff.2 ?_
    rw [← ofByte_mem_flips_iff hm, h, haddr, hbyte, ofByte_mem_flips_iff hn]
  have hup : m.pullup = n.pullup := hmask .up
  have hdown : m.pulldown = n.pulldown := hmask .down
  cases m
  cases n
  cases haddr
  cases hbyte
  cases hup
  cases hdown
  rfl

/-- Masks record no flip exactly if both are zero. -/
theorem exists_mem_flips_iff (h : m.Fits) :
    (∃ f, f ∈ m.flips) ↔ m.pullup ≠ 0 ∨ m.pulldown ≠ 0 := by
  constructor
  · rintro ⟨f, hf⟩
    obtain ⟨-, hbit⟩ := (mem_flips h).1 hf
    have hne : m.mask f.direction ≠ 0 := by
      intro hzero
      rw [hzero] at hbit
      simp at hbit
    cases hd : f.direction with
    | up =>
      rw [hd] at hne
      exact Or.inl hne
    | down =>
      rw [hd] at hne
      exact Or.inr hne
  · intro hne
    by_contra hnone
    have hzero (direction : Direction) : m.mask direction = 0 := by
      refine eq_of_testBit_eq fun b => ?_
      rw [UInt8.toNat_zero, Nat.zero_testBit, Bool.eq_false_iff]
      exact fun hb => hnone ⟨_, (ofByte_mem_flips_iff h).2 hb⟩
    exact hne.elim (· (hzero .up)) (· (hzero .down))

/-! ### Bytes in order -/

/-- The masks ascend by address and byte, leave room for the bits of their bytes, and are not both
zero. -/
structure Canonical (ms : List ByteMask) : Prop where
  ascending : ms.Pairwise fun m n =>
    (compare m.addr n.addr).then (compare m.cellByte n.cellByte) = .lt
  fits : ∀ m ∈ ms, m.Fits
  ne_zero : ∀ m ∈ ms, m.pullup ≠ 0 ∨ m.pulldown ≠ 0

instance (m : ByteMask) : Decidable m.Fits := inferInstanceAs (Decidable (_ < _))

instance (ms : List ByteMask) : Decidable (Canonical ms) :=
  decidable_of_iff (_ ∧ _ ∧ _) ⟨fun ⟨h₁, h₂, h₃⟩ => ⟨h₁, h₂, h₃⟩, fun ⟨h₁, h₂, h₃⟩ => ⟨h₁, h₂, h₃⟩⟩

/-- Positions are ordered by address, then by byte. -/
theorem compare_position (hm : m.Fits) (hn : n.Fits) :
    compare m.position n.position =
      (compare m.addr n.addr).then (compare m.cellByte n.cellByte) := by
  rw [position, position, compare_shiftLeft_add hm hn, UInt32.compare_eq_toNat_compare_toNat]
  rfl

/-- Numbers are ordered as they are. -/
instance : Keyed Nat := ⟨id, id⟩

namespace Canonical

/-- Canonical masks ascend by their places in the order. -/
theorem ascending_position (h : Canonical ms) : Ascending position ms :=
  h.ascending.imp_of_mem fun hm hn hlt =>
    Nat.compare_eq_lt.1 ((compare_position (h.fits _ hm) (h.fits _ hn)).trans hlt)

/-- A flip of the byte is recorded by its masks if it is by any. -/
theorem mem_flips_iff (h : Canonical ms) (hm : m ∈ ms) :
    f ∈ m.flips ↔ f ∈ ms.flatMap flips ∧ m.position = key f / 16 := by
  constructor
  · intro hf
    have hcovers := ((mem_flips (h.fits m hm)).1 hf).1
    exact ⟨List.mem_flatMap.2 ⟨m, hm, hf⟩, ((covers_iff (h.fits m hm)).1 hcovers).symm⟩
  · rintro ⟨hf, hposition⟩
    obtain ⟨n, hn, hf⟩ := List.mem_flatMap.1 hf
    have hcovers := ((mem_flips (h.fits n hn)).1 hf).1
    have hmn := hposition.trans ((covers_iff (h.fits n hn)).1 hcovers)
    rwa [h.ascending_position.eq_of_mem hm hn hmn]

/-- Masks of one of two lists that record the same flips are in the other. -/
theorem mem_of_mem_flips_iff (hms : Canonical ms) (hns : Canonical ns)
    (h : ∀ f, f ∈ ms.flatMap flips ↔ f ∈ ns.flatMap flips) (hm : m ∈ ms) : m ∈ ns := by
  obtain ⟨f, hf⟩ := (exists_mem_flips_iff (hms.fits m hm)).2 (hms.ne_zero m hm)
  obtain ⟨hfs, hposition⟩ := (hms.mem_flips_iff hm).1 hf
  obtain ⟨n, hn, hfn⟩ := List.mem_flatMap.1 ((h f).1 hfs)
  have hcoversm := ((mem_flips (hms.fits m hm)).1 hf).1
  have hcoversn := ((mem_flips (hns.fits n hn)).1 hfn).1
  obtain rfl : m = n := by
    refine ByteMask.eq_of_mem_flips_iff (hms.fits m hm) (hns.fits n hn)
      (hcoversm.1.symm.trans hcoversn.1) (hcoversm.2.symm.trans hcoversn.2) fun g => ?_
    rw [hms.mem_flips_iff hm, hns.mem_flips_iff hn, h, hposition,
      ((hns.mem_flips_iff hn).1 hfn).2]
  exact hn

/-- Masks in canonical form are determined by the flips that they record. -/
theorem eq_of_mem_flips_iff (hms : Canonical ms) (hns : Canonical ns)
    (h : ∀ f, f ∈ ms.flatMap flips ↔ f ∈ ns.flatMap flips) : ms = ns :=
  hms.ascending_position.eq_of_mem_iff hns.ascending_position fun _ =>
    ⟨hms.mem_of_mem_flips_iff hns h, hns.mem_of_mem_flips_iff hms fun f => (h f).symm⟩

end Canonical

end ByteMask

namespace FlipSet

/-- The masks of a set record a flip of each of their bytes. -/
theorem exists_mem_flips_of_mem_byteMasks {s : FlipSet} {m : ByteMask} (hm : m ∈ s.byteMasks) :
    ∃ f, f ∈ m.flips := by
  obtain ⟨f, hf, hcovers⟩ := ByteMask.exists_covers_of_mem_group hm
  obtain ⟨n, hn, hfn⟩ := List.mem_flatMap.1 (mem_flatMap_flips_byteMasks.2 hf)
  have hfitsm := ByteMask.fits_of_mem_group hm
  have hfitsn := ByteMask.fits_of_mem_group hn
  have hmn := ((ByteMask.covers_iff hfitsm).1 hcovers).symm.trans
    ((ByteMask.covers_iff hfitsn).1 ((ByteMask.mem_flips hfitsn).1 hfn).1)
  have hascending : Ascending ByteMask.position s.byteMasks :=
    ByteMask.ascending_group s.ascending
  exact ⟨f, hascending.eq_of_mem hm hn hmn ▸ hfn⟩

/-- The masks of a set are in canonical form. -/
theorem canonical_byteMasks (s : FlipSet) : ByteMask.Canonical s.byteMasks where
  ascending := (ByteMask.ascending_group s.ascending).imp_of_mem fun hm hn hlt =>
    (ByteMask.compare_position (ByteMask.fits_of_mem_group hm)
      (ByteMask.fits_of_mem_group hn)).symm.trans (Nat.compare_eq_lt.2 hlt)
  fits _ hm := ByteMask.fits_of_mem_group hm
  ne_zero _ hm := (ByteMask.exists_mem_flips_iff (ByteMask.fits_of_mem_group hm)).1
    (exists_mem_flips_of_mem_byteMasks hm)

/-- Masks in canonical form are those of the flips that they record. -/
theorem byteMasks_ofList {ms : List ByteMask} (h : ByteMask.Canonical ms) :
    byteMasks (SortedSet.ofList (ms.flatMap ByteMask.flips)) = ms :=
  (canonical_byteMasks _).eq_of_mem_flips_iff h fun f => by
    rw [mem_flatMap_flips_byteMasks, SortedSet.mem_ofList]

/-- **Sets of flips and their masks give each other back.** The `byteMasks` of a set `s` are
`ByteMask.Canonical`: they ascend by address and byte, and none is empty in both directions. There
is one for each of the `bytes` that have a flip. The bits of these bytes have numbers below 2³², and
`ByteMask.flips` of all masks gives each flip of `s` once and no other. In turn masks `ms` that are
`ByteMask.Canonical` are the masks of the set of flips that they expand to. -/
theorem byteMasks_inverse :
    (∀ s : FlipSet, ByteMask.Canonical s.byteMasks ∧
      (s.byteMasks.map fun m => (m.addr, m.cellByte)).Perm s.bytes ∧
      (∀ m ∈ s.byteMasks, ∀ b : Fin 8, m.cellByte.toNat * 8 + b < UInt32.size) ∧
      (s.byteMasks.flatMap ByteMask.flips).Perm s.toList) ∧
    ∀ ms : List ByteMask, ByteMask.Canonical ms →
      byteMasks (SortedSet.ofList (ms.flatMap ByteMask.flips)) = ms := by
  refine ⟨fun s => ⟨s.canonical_byteMasks, s.map_byteMasks_perm_bytes, fun m hm b => ?_,
    s.flatMap_flips_byteMasks_perm⟩, fun ms => byteMasks_ofList⟩
  have hfits : m.cellByte.toNat < 1 <<< 29 := s.canonical_byteMasks.fits m hm
  have hb := b.isLt
  rw [UInt32.size]
  omega

/-- Both bytes at the ends of a cell, and one of the next cell, in which a bit flipped both ways. -/
theorem byteMasks_inverse_cellEnds :
    let a : Address := ⟨0, 0, 0, 0, 5, 2⟩
    let b : Address := ⟨0, 0, 0, 0, 5, 3⟩
    let ms : List ByteMask := [⟨a, 0, 9, 4⟩, ⟨a, 536870911, 0, 128⟩, ⟨b, 0, 1, 1⟩]
    ByteMask.Canonical ms ∧
      ms.flatMap ByteMask.flips = [⟨a, 0, .up⟩, ⟨a, 3, .up⟩, ⟨a, 2, .down⟩,
        ⟨a, 4294967295, .down⟩, ⟨b, 0, .up⟩, ⟨b, 0, .down⟩] ∧
      byteMasks (SortedSet.ofList (ms.flatMap ByteMask.flips)) = ms := by
  intro a b ms
  have hms : ByteMask.Canonical ms := by decide
  exact ⟨hms, by decide, byteMasks_inverse.2 ms hms⟩

end FlipSet

end RowFlips
