import RowFlips.Flip
import RowFlips.Targets
import RowFlips.Proofs.Address
import RowFlips.Proofs.Bits
import RowFlips.Proofs.Lists

/-!
# The order of addresses, targets and flips

Addresses are ordered by the one word that packs their fields. The fields neither overlap in it nor
change places, so this is the order by fields: channels are compared first, then what lies further
down, and columns last. The row key compares alike, less the column.

The fields that give the bank are compared first. So where addresses are sorted, those of a bank
stand side by side, and there by row and column. Targets and flips are ordered by keys made of
packed words, which compares them part by part.

## Main results

* `Address.compare_eq`, `Address.compare_rowKey`: the order of addresses and rows by fields.
* `Address.exists_eq_append_sameBank`: sorted addresses of one bank stand side by side.
* `Targets.compare_eq`, `Flip.compare_eq`: the orders made of that of addresses.
* `packed_order_lexicographic`: all of these, with the laws of a total order.
-/

namespace RowFlips

/-! ### Total orders -/

/-- The order of the type is total, only equal values are level in it, and it is the order in which
sets and tables ascend. -/
structure TotallyOrdered (α : Type) [Keyed α] [Ord α] : Prop where
  transOrd : Std.TransOrd α
  lawfulEqOrd : Std.LawfulEqOrd α
  ascending_iff : ∀ l : List α, Ascending id l ↔ l.Pairwise fun a b => compare a b = .lt

/-- Comparing keys orders a type totally. -/
theorem TotallyOrdered.of_key {α : Type} [Keyed α] [Ord α]
    (h : ∀ a b : α, compare a b = compare (key a) (key b)) : TotallyOrdered α where
  transOrd :=
    { eq_swap := by
        intro a b
        rw [h, h]
        exact Std.OrientedCmp.eq_swap
      isLE_trans := by
        intro a b c
        rw [h, h, h]
        exact Std.TransCmp.isLE_trans }
  lawfulEqOrd :=
    { compare_self := by
        intro a
        rw [h]
        exact Std.ReflCmp.compare_self
      eq_of_compare := by
        intro a b hab
        rw [h] at hab
        exact Keyed.eq_of_key_eq (Nat.compare_eq_eq.1 hab) }
  ascending_iff l := by
    simp only [h, Nat.compare_eq_lt]
    rfl

namespace Address

variable {a b c : Address}

/-! ### Addresses by fields -/

/-- Compares channel, DIMM, rank, bank and row, one after the other. -/
def compareRows (a b : Address) : Ordering :=
  (compare a.chan b.chan).then <| (compare a.dimm b.dimm).then <|
    (compare a.rank b.rank).then <| (compare a.bank b.bank).then (compare a.row b.row)

/-- Compares all fields one after the other, the column last. -/
def compareFields (a b : Address) : Ordering := (a.compareRows b).then (compare a.col b.col)

/-- The row key compares all fields but the column. -/
theorem compare_rowKey (a b : Address) : compare a.rowKey b.rowKey = a.compareRows b := by
  have hdigits (a : Address) : a.rowKey = (((a.chan.toNat <<< 8 + a.dimm.toNat) <<< 8 +
      a.rank.toNat) <<< 8 + a.bank.toNat) <<< 16 + a.row.toNat := by
    rw [rowKey_eq]
    omega
  rw [hdigits, hdigits, compare_shiftLeft_add a.row.toNat_lt b.row.toNat_lt,
    compare_shiftLeft_add a.bank.toNat_lt b.bank.toNat_lt,
    compare_shiftLeft_add a.rank.toNat_lt b.rank.toNat_lt,
    compare_shiftLeft_add a.dimm.toNat_lt b.dimm.toNat_lt, compareRows]
  simp only [UInt8.compare_eq_toNat_compare_toNat, UInt16.compare_eq_toNat_compare_toNat,
    Ordering.then_assoc]

/-- Addresses compare field by field. -/
theorem compare_eq (a b : Address) : compare a b = a.compareFields b := by
  have hkey : compare a b = compare (key a) (key b) := rfl
  rw [hkey, key_eq_rowKey_add, key_eq_rowKey_add,
    compare_shiftLeft_add a.col.toNat_lt b.col.toNat_lt, compare_rowKey, compareFields,
    UInt16.compare_eq_toNat_compare_toNat]

/-- Packed words compare as the fields of their addresses do. -/
theorem compare_packed (a b : Address) : compare a.packed b.packed = a.compareFields b := by
  rw [UInt64.compare_eq_toNat_compare_toNat, ← compare_eq]
  rfl

/-! ### Banks -/

/-- Addresses of one bank compare by row, then by column. -/
theorem SameBank.compare_eq (h : a.SameBank b) :
    compare a b = (compare a.row b.row).then (compare a.col b.col) := by
  obtain ⟨hchan, hdimm, hrank, hbank⟩ := h
  rw [Address.compare_eq, compareFields, compareRows, hchan, hdimm, hrank, hbank]
  simp only [Std.ReflCmp.compare_self, Ordering.eq_then]

/-- The row key tells the bank above the row. -/
theorem sameBank_iff : a.SameBank b ↔ a.rowKey / UInt16.size = b.rowKey / UInt16.size := by
  rw [rowKey_eq, rowKey_eq]
  have := a.row.toNat_lt; have := b.row.toNat_lt
  have := a.bank.toNat_lt; have := b.bank.toNat_lt
  have := a.rank.toNat_lt; have := b.rank.toNat_lt
  have := a.dimm.toNat_lt; have := b.dimm.toNat_lt
  have := a.chan.toNat_lt; have := b.chan.toNat_lt
  simp only [SameBank, ← UInt8.toNat_inj, UInt16.size]
  omega

/-- Where addresses are sorted, those of a bank stand side by side. -/
theorem exists_eq_append_sameBank {l : List Address}
    (h : l.Pairwise fun a b => (compare a b).isLE) (q : Address) :
    ∃ before behind, l = before ++ (l.filter fun a => a.SameBank q) ++ behind ∧
      (∀ a ∈ before ++ behind, ¬a.SameBank q) := by
  have hbank : l.Pairwise fun a b => a.rowKey / UInt16.size ≤ b.rowKey / UInt16.size :=
    h.imp fun hab => Nat.div_le_div_right (rowKey_le_of_key_le (Nat.isLE_compare.1 hab))
  have hl := eq_append_filter hbank (q.rowKey / UInt16.size)
  simp only [← sameBank_iff] at hl
  refine ⟨_, _, (List.append_assoc _ _ _).symm ▸ hl, fun a ha => ?_⟩
  rw [sameBank_iff]
  grind

/-- The addresses of one bank in a sorted list are sorted by row and column. -/
theorem pairwise_filter_sameBank {l : List Address}
    (h : l.Pairwise fun a b => (compare a b).isLE) (q : Address) :
    (l.filter fun a => a.SameBank q).Pairwise fun a b =>
      ((compare a.row b.row).then (compare a.col b.col)).isLE := by
  refine (h.filter _).imp_of_mem fun ha hb hab => ?_
  have ha := of_decide_eq_true (List.mem_filter.1 ha).2
  have hb := of_decide_eq_true (List.mem_filter.1 hb).2
  rwa [(ha.trans hb.symm).compare_eq] at hab

end Address

/-! ### Targets and flips -/

/-- Targets compare by the first row, then by the second. -/
theorem Targets.compare_eq (t u : Targets) :
    compare t u = (compare t.first u.first).then (compare t.second u.second) :=
  compare_shiftLeft_add t.second.packed.toNat_lt u.second.packed.toNat_lt

/-- Flips compare by address, then by bit, then by direction. -/
theorem Flip.compare_eq (f g : Flip) :
    compare f g = (compare f.addr g.addr).then
      ((compare f.bit g.bit).then (compare f.direction.toNat g.direction.toNat)) := by
  have hkey (f : Flip) : key f = (key f.addr <<< 32 + f.bit.toNat) <<< 1 + f.direction.toNat := by
    have hposition : key f = (key f.addr <<< 32 + f.bit.toNat) * 2 + f.direction.toNat := rfl
    rw [hposition]
    omega
  have hcompare : compare f g = compare (key f) (key g) := rfl
  rw [hcompare, hkey, hkey, compare_shiftLeft_add f.direction.toNat_lt_two g.direction.toNat_lt_two,
    compare_shiftLeft_add f.bit.toNat_lt g.bit.toNat_lt, Ordering.then_assoc,
    UInt32.compare_eq_toNat_compare_toNat]
  rfl

/-! ### All orders -/

/-- **The packed order is the order by fields.** The `packed` words of addresses `a` and `b`, and so
`a` and `b` themselves, compare as `compareFields` does, and are level only if equal. Their
`rowKey`s compare as `compareRows` does, without the column. In a sorted list `l` the addresses of
the bank of any `q` stand side by side, ordered by row and then by column. Targets compare by
`first` and then by `second`, flips by `addr`, `bit` and `direction`. All three orders are
`TotallyOrdered`: total, with only equal values level, and those in which sets and tables ascend. -/
theorem packed_order_lexicographic :
    (∀ a b : Address, compare a.packed b.packed = a.compareFields b ∧
      compare a b = a.compareFields b ∧ (compare a b = .eq ↔ a = b) ∧
      compare a.rowKey b.rowKey = a.compareRows b) ∧
    (∀ l : List Address, (l.Pairwise fun a b => (compare a b).isLE) → ∀ q : Address,
      ∃ before bank behind, l = before ++ bank ++ behind ∧ (∀ a ∈ bank, a.SameBank q) ∧
        (∀ a ∈ before ++ behind, ¬a.SameBank q) ∧
        bank.Pairwise fun a b => ((compare a.row b.row).then (compare a.col b.col)).isLE) ∧
    (∀ t u : Targets, compare t u = (compare t.first u.first).then (compare t.second u.second)) ∧
    (∀ f g : Flip, compare f g = (compare f.addr g.addr).then
      ((compare f.bit g.bit).then (compare f.direction.toNat g.direction.toNat))) ∧
    TotallyOrdered Address ∧ TotallyOrdered Targets ∧ TotallyOrdered Flip := by
  have haddress : TotallyOrdered Address := .of_key fun _ _ => rfl
  refine ⟨fun a b => ⟨a.compare_packed b, a.compare_eq b, ?_, a.compare_rowKey b⟩,
    fun l hl q => ?_, Targets.compare_eq, Flip.compare_eq, haddress, .of_key fun _ _ => rfl,
    .of_key fun _ _ => rfl⟩
  · have := haddress.lawfulEqOrd
    exact Std.LawfulEqCmp.compare_eq_iff_eq
  · obtain ⟨before, behind, hsplit, hothers⟩ := Address.exists_eq_append_sameBank hl q
    exact ⟨before, _, behind, hsplit, fun a ha => of_decide_eq_true (List.mem_filter.1 ha).2,
      hothers, Address.pairwise_filter_sameBank hl q⟩

/-- Sorted addresses of three banks, with one row of the middle bank in two columns. -/
theorem packed_order_lexicographic_threeBanks :
    let l : List Address := [⟨0, 0, 0, 0, 65535, 65535⟩, ⟨0, 0, 0, 1, 0, 7⟩, ⟨0, 0, 0, 1, 3, 2⟩,
      ⟨0, 0, 0, 1, 3, 5⟩, ⟨1, 0, 0, 0, 0, 0⟩]
    let q : Address := ⟨0, 0, 0, 1, 9, 9⟩
    (l.Pairwise fun a b => (compare a b).isLE) ∧
    ∃ before bank behind, l = before ++ bank ++ behind ∧ (∀ a ∈ bank, a.SameBank q) ∧
      (∀ a ∈ before ++ behind, ¬a.SameBank q) ∧
      bank.Pairwise fun a b => ((compare a.row b.row).then (compare a.col b.col)).isLE := by
  intro l q
  have hl : l.Pairwise fun a b => (compare a b).isLE := by decide
  obtain ⟨-, hbanks, -⟩ := packed_order_lexicographic
  exact ⟨hl, hbanks l hl q⟩

end RowFlips
