import RowFlips.Bits
import RowFlips.Keyed
import RowFlips.Text.Hex

/-!
# Memory addresses

A cell of memory is found by channel, DIMM, rank, bank, row and column. The six numbers pack into
one 64 bit word, the column in the lowest bits and the channel in the highest, and addresses are
ordered by that word.

## Main results

* `toNat_packed`: the fields do not overlap in the packed word.
* `eq_of_packed_eq`: an address is determined by its packed word.
-/

namespace RowFlips

/-- The place of a column of cells in memory. -/
structure Address where
  /-- The channel. -/
  chan : UInt8
  /-- The module on the channel. -/
  dimm : UInt8
  /-- The rank of the module. -/
  rank : UInt8
  /-- The bank of the rank. -/
  bank : UInt8
  /-- The row of the bank. -/
  row : UInt16
  /-- The column of the row. -/
  col : UInt16
deriving DecidableEq, Repr, Inhabited

namespace Address

/-! ### Order -/

/-- The address as one word: the column in bits 0 to 15, the row in bits 16 to 31, then bank,
rank, DIMM and channel with eight bits each. -/
def packed (a : Address) : UInt64 :=
  a.col.toUInt64 ||| a.row.toUInt64 <<< 16 ||| a.bank.toUInt64 <<< 32 |||
    a.rank.toUInt64 <<< 40 ||| a.dimm.toUInt64 <<< 48 ||| a.chan.toUInt64 <<< 56

/-- The packed word is the number with the fields as its digits. -/
theorem toNat_packed (a : Address) :
    a.packed.toNat = a.col.toNat + a.row.toNat <<< 16 + a.bank.toNat <<< 32 +
      a.rank.toNat <<< 40 + a.dimm.toNat <<< 48 + a.chan.toNat <<< 56 := by
  have hcol := a.col.toNat_lt
  have hrow := a.row.toNat_lt
  have hbank := a.bank.toNat_lt
  have hrank := a.rank.toNat_lt
  have hdimm := a.dimm.toNat_lt
  have hchan := a.chan.toNat_lt
  have shift (x : UInt64) (i : Nat) (hi : i < 64) (hx : x.toNat * 2 ^ i < 2 ^ 64) :
      (x <<< UInt64.ofNat i).toNat = x.toNat <<< i := by
    rw [UInt64.toNat_shiftLeft, UInt64.toNat_ofNat', Nat.mod_eq_of_lt (by omega : i < 2 ^ 64),
      Nat.mod_eq_of_lt hi, Nat.mod_eq_of_lt (by rwa [Nat.shiftLeft_eq])]
  have h16 := shift a.row.toUInt64 16 (by omega) (by simp only [UInt16.toNat_toUInt64]; omega)
  have h32 := shift a.bank.toUInt64 32 (by omega) (by simp only [UInt8.toNat_toUInt64]; omega)
  have h40 := shift a.rank.toUInt64 40 (by omega) (by simp only [UInt8.toNat_toUInt64]; omega)
  have h48 := shift a.dimm.toUInt64 48 (by omega) (by simp only [UInt8.toNat_toUInt64]; omega)
  have h56 := shift a.chan.toUInt64 56 (by omega) (by simp only [UInt8.toNat_toUInt64]; omega)
  simp only [UInt64.reduceOfNat, UInt16.toNat_toUInt64, UInt8.toNat_toUInt64] at h16 h32 h40 h48 h56
  rw [packed, UInt64.toNat_or, UInt64.toNat_or, UInt64.toNat_or, UInt64.toNat_or, UInt64.toNat_or,
    h16, h32, h40, h48, h56, UInt16.toNat_toUInt64,
    or_shiftLeft_of_lt _ (show a.col.toNat < 1 <<< 16 by omega),
    or_shiftLeft_of_lt _ (show _ < 1 <<< 32 by omega),
    or_shiftLeft_of_lt _ (show _ < 1 <<< 40 by omega),
    or_shiftLeft_of_lt _ (show _ < 1 <<< 48 by omega),
    or_shiftLeft_of_lt _ (show _ < 1 <<< 56 by omega)]

/-- An address is determined by its packed word. -/
theorem eq_of_packed_eq {a b : Address} (h : a.packed.toNat = b.packed.toNat) : a = b := by
  rw [toNat_packed, toNat_packed] at h
  have := a.col.toNat_lt; have := b.col.toNat_lt
  have := a.row.toNat_lt; have := b.row.toNat_lt
  have := a.bank.toNat_lt; have := b.bank.toNat_lt
  have := a.rank.toNat_lt; have := b.rank.toNat_lt
  have := a.dimm.toNat_lt; have := b.dimm.toNat_lt
  have := a.chan.toNat_lt; have := b.chan.toNat_lt
  cases a
  cases b
  simp only [mk.injEq, ← UInt8.toNat_inj, ← UInt16.toNat_inj] at *
  omega

instance : Keyed Address := ⟨fun a => a.packed.toNat, eq_of_packed_eq⟩

/-- Addresses are ordered by their packed words. -/
instance : Ord Address := ⟨fun a b => compare (key a) (key b)⟩

/-- The packed word without the column: addresses of one row share it. -/
def rowKey (a : Address) : Nat := (a.packed >>> 16).toNat

/-- Both addresses lie in one bank, in whatever rows and columns. -/
def SameBank (a b : Address) : Prop :=
  a.chan = b.chan ∧ a.dimm = b.dimm ∧ a.rank = b.rank ∧ a.bank = b.bank

instance (a b : Address) : Decidable (a.SameBank b) := inferInstanceAs (Decidable (_ ∧ _ ∧ _ ∧ _))

/-! ### Moving within a bank -/

/-- How many rows `a` lies above `b`; negative if it lies below. -/
def rowsFrom (a b : Address) : Int := (a.row.toNat : Int) - b.row.toNat

/-- The address `rows` rows further; past the last row of a bank its first row follows. -/
def addRows (a : Address) (rows : Int) : Address :=
  { a with row := UInt16.ofInt (a.row.toNat + rows) }

/-- The address `rows` rows further; `none` if the bank has no such row. -/
def addRows? (a : Address) (rows : Int) : Option Address :=
  let row := (a.row.toNat : Int) + rows
  if 0 ≤ row ∧ row < UInt16.size then some { a with row := UInt16.ofInt row } else none

/-- The address `cols` columns further; past the last column of a row its first column follows. -/
def addCols (a : Address) (cols : UInt16) : Address := { a with col := a.col + cols }

/-- The address `cols` columns further; `none` if the row has no such column. -/
def addCols? (a : Address) (cols : Nat) : Option Address :=
  let col := a.col.toNat + cols
  if col < UInt16.size then some { a with col := UInt16.ofNat col } else none

/-- The address `cols` columns further, found with 32 bit words: more columns than any row has are
taken for one more than that. -/
def addColsWord? (a : Address) (cols : UInt32) : Option Address :=
  let col := a.col.toUInt32 + min cols 0x10000
  if col ≤ 0xffff then some { a with col := col.toUInt16 } else none

/-! ### Written form -/

/-- The address as logs show it: hexadecimal fields in parentheses, the row in at least four
places and the column in at least three. -/
def text (a : Address) : List Char :=
  '(' :: Hex.digits a.chan.toNat ++ ' ' :: Hex.digits a.dimm.toNat ++ ' ' ::
    Hex.digits a.rank.toNat ++ ' ' :: Hex.digits a.bank.toNat ++ ' ' ::
    (Hex.digits a.row.toNat).leftpad 4 ' ' ++ ' ' ::
    (Hex.digits a.col.toNat).leftpad 3 ' ' ++ [')']

instance : ToString Address := ⟨fun a => String.ofList a.text⟩

end Address

end RowFlips
