import RowFlips.Address
import RowFlips.SortedSet

/-!
# Bit flips

A flip is one bit of one cell that changed its value. The bits of a cell are numbered through its
bytes: bit `b` lies in byte `b / 8`. Flips are ordered by address, then bit, then direction.
-/

namespace RowFlips

/-- Which way a bit changed. -/
inductive Direction where
  /-- From 0 to 1. -/
  | up
  /-- From 1 to 0. -/
  | down
deriving DecidableEq, Repr, Inhabited

namespace Direction

/-- Rising flips come before falling ones. -/
def toNat : Direction → Nat
  | up => 0
  | down => 1

/-- There are two directions. -/
theorem toNat_lt_two (d : Direction) : d.toNat < 2 := by cases d <;> decide

/-- Directions are told apart by their numbers. -/
theorem toNat_inj {d e : Direction} : d.toNat = e.toNat ↔ d = e := by
  cases d <;> cases e <;> decide

/-- The direction as reports show it. -/
def text : Direction → String
  | up => "0 -> 1"
  | down => "1 -> 0"

end Direction

/-- One flipped bit. -/
structure Flip where
  /-- The cell that holds the bit. -/
  addr : Address
  /-- The number of the bit in its cell. -/
  bit : UInt32
  /-- Which way the bit changed. -/
  direction : Direction
deriving DecidableEq, Repr, Inhabited

namespace Flip

/-- The number of the byte of the cell that holds the bit. -/
def cellByte (f : Flip) : UInt32 := f.bit / 8

/-- The number of the bit in its byte. -/
def bitInByte (f : Flip) : Fin 8 := ⟨f.bit.toNat % 8, Nat.mod_lt _ (by decide)⟩

/-- Address, bit and direction as the digits of one number. -/
def position (f : Flip) : Nat := (key f.addr <<< 32 + f.bit.toNat) * 2 + f.direction.toNat

/-- A flip is determined by its position. -/
theorem eq_of_position_eq {f g : Flip} (h : f.position = g.position) : f = g := by
  obtain ⟨a, m, d⟩ := f
  obtain ⟨b, n, e⟩ := g
  have hm := m.toNat_lt
  have hn := n.toNat_lt
  have hd := d.toNat_lt_two
  have he := e.toNat_lt_two
  simp only [position] at h
  have hab : key a = key b := by omega
  have hmn : m.toNat = n.toNat := by omega
  have hde : d.toNat = e.toNat := by omega
  rw [Keyed.eq_of_key_eq hab, UInt32.toNat_inj.1 hmn, Direction.toNat_inj.1 hde]

instance : Keyed Flip := ⟨position, eq_of_position_eq⟩

/-- Flips are ordered by address, then bit, then direction. -/
instance : Ord Flip := ⟨fun f g => compare (key f) (key g)⟩

end Flip

/-- A finite set of flips, in ascending order. -/
abbrev FlipSet := SortedSet Flip

end RowFlips
