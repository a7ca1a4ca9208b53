import RowFlips.Address

/-!
# Rows and columns of addresses

The packed word of an address is its row key followed by its column. Two addresses have one row
key exactly if they lie in one row of one bank, and ordering addresses orders their rows first.

## Main results

* `addRows?_eq_some_iff`: which address lies a number of rows further.
* `key_eq_rowKey_add`: the packed word in terms of the row key.
* `rowKey_eq_iff`: the row key tells bank and row.
-/

namespace RowFlips.Address

variable {a b c : Address}

/-! ### Banks -/

/-- Lying in one bank goes both ways. -/
theorem SameBank.symm (h : a.SameBank b) : b.SameBank a :=
  ⟨h.1.symm, h.2.1.symm, h.2.2.1.symm, h.2.2.2.symm⟩

/-- Lying in one bank carries over a third address. -/
theorem SameBank.trans (h : a.SameBank b) (h' : b.SameBank c) : a.SameBank c :=
  ⟨h.1.trans h'.1, h.2.1.trans h'.2.1, h.2.2.1.trans h'.2.2.1, h.2.2.2.trans h'.2.2.2⟩

/-! ### Moving by rows -/

/-- Rows that a bank does not have wrap. -/
theorem toNat_ofInt (row : Int) : ((UInt16.ofInt row).toNat : Int) = row % UInt16.size := by
  rw [UInt16.ofInt, UInt16.toNat_ofNat']
  simp only [UInt16.size]
  omega

/-- What lies a number of rows further is in the same bank and column, and has the row counted
without wrapping. -/
theorem addRows?_eq_some_iff {rows : Int} :
    a.addRows? rows = some b ↔
      a.SameBank b ∧ a.col = b.col ∧ (b.row.toNat : Int) = a.row.toNat + rows := by
  rw [addRows?]
  constructor
  · intro h
    split at h
    · rename_i hrow
      cases h
      exact ⟨⟨rfl, rfl, rfl, rfl⟩, rfl, (toNat_ofInt _).trans (Int.emod_eq_of_lt hrow.1 hrow.2)⟩
    · cases h
  · rintro ⟨⟨hchan, hdimm, hrank, hbank⟩, hcol, hrow⟩
    have hlt : (b.row.toNat : Int) < UInt16.size := Int.ofNat_lt.2 b.row.toNat_lt
    have hwrap : UInt16.ofInt (b.row.toNat : Int) = b.row := by
      rw [← UInt16.toNat_inj]
      exact Int.ofNat_inj.1 ((toNat_ofInt _).trans (Int.emod_eq_of_lt (by omega) hlt))
    rw [← hrow, if_pos ⟨by omega, hlt⟩, hwrap, hchan, hdimm, hrank, hbank, hcol]

/-- Moving without wrapping is a case of moving. -/
theorem addRows_eq_of_addRows? {rows : Int} (h : a.addRows? rows = some b) :
    a.addRows rows = b := by
  rw [addRows?] at h
  split at h
  · exact Option.some.inj h
  · cases h

/-- Addresses a number of rows further, and then some more. -/
theorem addRows?_trans {m n : Int} (h : a.addRows? m = some b) (h' : b.addRows? n = some c) :
    a.addRows? (m + n) = some c := by
  rw [addRows?_eq_some_iff] at *
  obtain ⟨hbank, hcol, hrow⟩ := h
  obtain ⟨hbank', hcol', hrow'⟩ := h'
  exact ⟨hbank.trans hbank', hcol.trans hcol', by omega⟩

/-- No rows further is the same address. -/
theorem addRows?_zero (a : Address) : a.addRows? 0 = some a :=
  addRows?_eq_some_iff.2 ⟨⟨rfl, rfl, rfl, rfl⟩, rfl, by omega⟩

/-! ### Moving by columns -/

/-- A column further is the one counted without wrapping, if the row has it. -/
theorem addCols?_eq_some_iff {cols : Nat} :
    a.addCols? cols = some b ↔
      a.col.toNat + cols < UInt16.size ∧ a.addCols (UInt16.ofNat cols) = b := by
  have hcol : UInt16.ofNat (a.col.toNat + cols) = a.col + UInt16.ofNat cols := by
    rw [UInt16.ofNat_add, UInt16.ofNat_toNat]
  rw [addCols?, addCols]
  simp only [hcol]
  split
  · rename_i h
    rw [Option.some.injEq]
    exact (and_iff_right h).symm
  · rename_i h
    exact iff_of_false nofun fun h' => h h'.1

/-- No columns further is the same address. -/
theorem addCols_zero (a : Address) : a.addCols (UInt16.ofNat 0) = a := by
  have hcol : a.col + UInt16.ofNat 0 = a.col := UInt16.add_zero _
  rw [addCols, hcol]

/-! ### Row keys -/

/-- The row key is the number with bank, row and what lies above as its digits. -/
theorem rowKey_eq (a : Address) :
    a.rowKey = a.row.toNat + a.bank.toNat <<< 16 + a.rank.toNat <<< 24 + a.dimm.toNat <<< 32 +
      a.chan.toNat <<< 40 := by
  have hcol := a.col.toNat_lt
  have h16 : (16 : UInt64).toNat % 64 = 16 := rfl
  rw [rowKey, UInt64.toNat_shiftRight, toNat_packed, h16]
  omega

/-- The packed word is the row key with the column as a further digit. -/
theorem key_eq_rowKey_add (a : Address) : key a = a.rowKey <<< 16 + a.col.toNat := by
  have hkey : key a = a.packed.toNat := rfl
  rw [hkey, toNat_packed, rowKey_eq]
  omega

/-- The row key tells bank and row. -/
theorem rowKey_eq_iff : a.rowKey = b.rowKey ↔ a.SameBank b ∧ a.row = b.row := by
  rw [rowKey_eq, rowKey_eq]
  constructor
  · intro h
    have := a.row.toNat_lt; have := b.row.toNat_lt
    have := a.bank.toNat_lt; have := b.bank.toNat_lt
    have := a.rank.toNat_lt; have := b.rank.toNat_lt
    have := a.dimm.toNat_lt; have := b.dimm.toNat_lt
    have := a.chan.toNat_lt; have := b.chan.toNat_lt
    simp only [SameBank, ← UInt8.toNat_inj, ← UInt16.toNat_inj]
    omega
  · rintro ⟨⟨hchan, hdimm, hrank, hbank⟩, hrow⟩
    rw [hchan, hdimm, hrank, hbank, hrow]

/-- Within a bank the row keys are ordered as the rows. -/
theorem SameBank.rowKey_le_iff (h : a.SameBank b) : a.rowKey ≤ b.rowKey ↔ a.row ≤ b.row := by
  obtain ⟨hchan, hdimm, hrank, hbank⟩ := h
  rw [rowKey_eq, rowKey_eq, hchan, hdimm, hrank, hbank, UInt16.le_iff_toNat_le]
  omega

/-- What lies between two rows of a bank lies in the bank. -/
theorem SameBank.of_rowKey_le (h : a.SameBank c) (hab : a.rowKey ≤ b.rowKey)
    (hbc : b.rowKey ≤ c.rowKey) : b.SameBank c := by
  obtain ⟨hchan, hdimm, hrank, hbank⟩ := h
  rw [rowKey_eq, rowKey_eq, hchan, hdimm, hrank, hbank] at hab
  rw [rowKey_eq, rowKey_eq] at hbc
  have := a.row.toNat_lt; have := b.row.toNat_lt; have := c.row.toNat_lt
  have := b.bank.toNat_lt; have := c.bank.toNat_lt
  have := b.rank.toNat_lt; have := c.rank.toNat_lt
  have := b.dimm.toNat_lt; have := c.dimm.toNat_lt
  simp only [SameBank, ← UInt8.toNat_inj]
  omega

/-- Each row further adds one to the row key. -/
theorem rowKey_of_addRows? {rows : Nat} (h : a.addRows? rows = some b) :
    b.rowKey = a.rowKey + rows := by
  obtain ⟨⟨hchan, hdimm, hrank, hbank⟩, -, hrow⟩ := addRows?_eq_some_iff.1 h
  rw [rowKey_eq, rowKey_eq, hchan, hdimm, hrank, hbank]
  omega

/-- Ordered addresses have ordered row keys. -/
theorem rowKey_le_of_key_le (h : key a ≤ key b) : a.rowKey ≤ b.rowKey := by
  have ha := a.col.toNat_lt
  have hb := b.col.toNat_lt
  rw [key_eq_rowKey_add, key_eq_rowKey_add] at h
  omega

end RowFlips.Address
