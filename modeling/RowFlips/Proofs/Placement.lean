import Mathlib.Data.List.Permutation
import RowFlips.Placement
import RowFlips.Proofs.ByteMask
import RowFlips.Proofs.Order

/-!
# Flips in physical memory

The map of addresses to physical memory may put cells in any order, so only sorting brings placed
flips in order. It loses none: there is one for each flip of the attack, at the address that its
cell and byte give.

Whether two flips end up in one place depends on the map alone. A flip keeps its byte and bit within
its cell, so flips of one cell stay apart. If cells lie at least as far apart as they are long,
flips of different cells do too.

## Main results

* `Placed.compare_key`: placed flips are ordered by physical address, bit and direction.
* `Flip.toNat_addr_place`: where a flip is placed.
* `Attack.place_injOn`: flips of cells that lie apart are placed apart.
* `Attack.place_spec`: the placed flips of an attack.
-/

namespace RowFlips

variable {base : Address → UInt64}

namespace Placed

/-- Compares by physical address, then by bit, then by direction. -/
def compareFields (p q : Placed) : Ordering :=
  (compare p.addr q.addr).then <| (compare p.bit q.bit).then
    (compare p.direction.toNat q.direction.toNat)

/-- Keys of places compare as their fields do. -/
theorem compare_key (p q : Placed) : compare (key p) (key q) = p.compareFields q := by
  have hkey (p : Placed) : key p = (p.addr.toNat <<< 3 + p.bit.val) <<< 1 + p.direction.toNat := by
    have hposition : key p = (p.addr.toNat * 8 + p.bit.val) * 2 + p.direction.toNat := rfl
    rw [hposition]
    omega
  rw [hkey, hkey, compare_shiftLeft_add p.direction.toNat_lt_two q.direction.toNat_lt_two,
    compare_shiftLeft_add p.bit.isLt q.bit.isLt, Ordering.then_assoc, compareFields,
    UInt64.compare_eq_toNat_compare_toNat]
  rfl

end Placed

/-- The physical address of a flip is that of its cell and the number of its byte, if there are so
many addresses. -/
theorem Flip.toNat_addr_place {f : Flip}
    (h : (base f.addr).toNat + f.cellByte.toNat < UInt64.size) :
    (f.place base).addr.toNat = (base f.addr).toNat + f.cellByte.toNat := by
  have haddr : (f.place base).addr = base f.addr + f.cellByte.toUInt64 := rfl
  rw [haddr, UInt64.toNat_add, UInt32.toNat_toUInt64]
  exact Nat.mod_eq_of_lt h

namespace Attack

variable {a : Attack} {size : Nat}

/-- The bytes with a flip of the attack have physical addresses. -/
def FitsMemory (a : Attack) (base : Address → UInt64) : Prop :=
  ∀ f ∈ a.flips, (base f.addr).toNat + f.cellByte.toNat < UInt64.size

/-- The cells with a flip of the attack lie at least `size` bytes apart. -/
def CellsApart (a : Attack) (base : Address → UInt64) (size : Nat) : Prop :=
  ∀ f ∈ a.flips, ∀ g ∈ a.flips, f.addr ≠ g.addr →
    (base f.addr).toNat + size ≤ (base g.addr).toNat ∨
      (base g.addr).toNat + size ≤ (base f.addr).toNat

/-- No flip is lost, and none is added. -/
theorem place_perm (a : Attack) (base : Address → UInt64) :
    (a.place base).Perm (a.flips.toList.map (Flip.place base)) :=
  sortOn_perm id _

/-- Flips of cells that lie apart are placed apart. -/
theorem place_injOn (hfits : a.FitsMemory base) (hapart : a.CellsApart base size)
    (hbits : ∀ f ∈ a.flips, f.bit.toNat < 8 * size) {f g : Flip} (hf : f ∈ a.flips)
    (hg : g ∈ a.flips) (h : f.place base = g.place base) : f = g := by
  have haddr := congrArg (fun p => p.addr.toNat) h
  simp only [Flip.toNat_addr_place (hfits f hf), Flip.toNat_addr_place (hfits g hg)] at haddr
  have hbyte {f : Flip} (hf : f ∈ a.flips) : f.cellByte.toNat < size := by
    have := hbits f hf
    rw [Flip.toNat_cellByte]
    omega
  have hcell : f.addr = g.addr := by
    by_contra hne
    have := hbyte hf
    have := hbyte hg
    have := hapart f hf g hg hne
    omega
  rw [hcell] at haddr
  exact Flip.ext_cellByte hcell (UInt32.toNat_inj.1 (Nat.add_left_cancel haddr))
    (congrArg Placed.bit h) (congrArg Placed.direction h)

/-- Placed flips are sorted. -/
theorem pairwise_place (a : Attack) (base : Address → UInt64) :
    (a.place base).Pairwise fun p q => (p.compareFields q).isLE :=
  (pairwise_sortOn id _).imp fun hpq => by
    rw [← Placed.compare_key]
    exact Nat.isLE_compare.2 hpq

/-- Placed flips of cells that lie apart ascend strictly. -/
theorem pairwise_place_lt (hfits : a.FitsMemory base) (hapart : a.CellsApart base size)
    (hbits : ∀ f ∈ a.flips, f.bit.toNat < 8 * size) :
    (a.place base).Pairwise fun p q => p.compareFields q = .lt := by
  have hflips : a.flips.toList.Nodup :=
    a.flips.ascending.imp fun hlt heq => Nat.ne_of_lt hlt (congrArg key heq)
  have hnodup : (a.place base).Nodup := (a.place_perm base).nodup_iff.2
    (hflips.map_on fun f hf g hg => place_injOn hfits hapart hbits hf hg)
  refine ((a.pairwise_place base).and hnodup).imp fun ⟨hle, hne⟩ => ?_
  rw [← Placed.compare_key, Nat.isLE_compare] at hle
  rw [← Placed.compare_key, Nat.compare_eq_lt]
  exact Nat.lt_of_le_of_ne hle fun hkey => hne (Keyed.eq_of_key_eq hkey)

/-- **Placing is a sorted image, without collisions where cells lie apart.** Let `base` give the
physical address of each cell, and let the attack `a` fit the memory, as `FitsMemory` has it. Then
`a.place base` is sorted by address, bit and direction, and is in some order what the flips of `a`
become: the address of the cell plus the number of the byte, the bit in that byte, and the
direction. So there are as many. If moreover the cells are `CellsApart` by `size` bytes and no flip
has a bit behind these, the placed flips ascend strictly, and flips `f` and `g` that are placed
alike are equal. -/
theorem place_spec (a : Attack) (base : Address → UInt64) (hfits : a.FitsMemory base) :
    ((a.place base).Pairwise fun p q => (p.compareFields q).isLE) ∧
    ((a.place base).map fun p => (p.addr.toNat, p.bit.val, p.direction)).Perm
      (a.flips.toList.map fun f =>
        ((base f.addr).toNat + f.bit.toNat / 8, f.bit.toNat % 8, f.direction)) ∧
    (a.place base).length = a.flips.size ∧
    ∀ size, a.CellsApart base size → (∀ f ∈ a.flips, f.bit.toNat < 8 * size) →
      ((a.place base).Pairwise fun p q => p.compareFields q = .lt) ∧
      ∀ f ∈ a.flips, ∀ g ∈ a.flips, f.place base = g.place base → f = g := by
  refine ⟨a.pairwise_place base, ?_, ?_, fun size hapart hbits => ⟨?_, ?_⟩⟩
  · have himage := (a.place_perm base).map fun p => (p.addr.toNat, p.bit.val, p.direction)
    rw [List.map_map] at himage
    refine himage.trans (.of_eq (List.map_congr_left fun f hf => ?_))
    rw [Function.comp_apply, Flip.toNat_addr_place (hfits f hf), Flip.toNat_cellByte]
    rfl
  · rw [(a.place_perm base).length_eq, List.length_map]
    rfl
  · exact pairwise_place_lt hfits hapart hbits
  · exact fun f hf g hg => place_injOn hfits hapart hbits hf hg

/-- Cells of eight bytes, of which later ones lie lower in memory. -/
theorem place_spec_descendingCells :
    let cell (row : UInt16) : Address := ⟨0, 0, 0, 0, row, 0⟩
    let a : Attack := ⟨⟨cell 4, cell 4⟩,
      .ofList [⟨cell 5, 9, .up⟩, ⟨cell 3, 63, .down⟩, ⟨cell 5, 9, .down⟩, ⟨cell 3, 0, .up⟩]⟩
    let base (x : Address) : UInt64 := 4096 - 8 * x.row.toUInt64
    a.FitsMemory base ∧ a.CellsApart base 8 ∧ (∀ f ∈ a.flips, f.bit.toNat < 8 * 8) ∧
      a.place base = [⟨4057, 1, .up⟩, ⟨4057, 1, .down⟩, ⟨4072, 0, .up⟩, ⟨4079, 7, .down⟩] ∧
      (a.place base).Pairwise fun p q => p.compareFields q = .lt := by
  intro cell a base
  have hflips : a.flips = ⟨[⟨cell 3, 0, .up⟩, ⟨cell 3, 63, .down⟩, ⟨cell 5, 9, .up⟩,
      ⟨cell 5, 9, .down⟩], by decide⟩ := by cbv
  have hfits : a.FitsMemory base := by
    rw [FitsMemory, hflips]
    decide
  have hapart : a.CellsApart base 8 := by
    rw [CellsApart, hflips]
    decide
  have hbits : ∀ f ∈ a.flips, f.bit.toNat < 8 * 8 := by
    rw [hflips]
    decide
  obtain ⟨-, -, -, hcells⟩ := place_spec a base hfits
  exact ⟨hfits, hapart, hbits, by cbv, (hcells 8 hapart hbits).1⟩

end Attack

end RowFlips
