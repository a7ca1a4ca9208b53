import RowFlips.Attack

/-!
# Flips in physical memory

How addresses map to physical memory depends on the machine, so the map is a parameter. A cell
starts at the physical address that the map gives it, and its bytes follow each other.
-/

namespace RowFlips

/-- A flip found by physical address. -/
structure Placed where
  /-- The physical address of the byte that holds the bit. -/
  addr : UInt64
  /-- The number of the bit in that byte. -/
  bit : Fin 8
  /-- Which way the bit changed. -/
  direction : Direction
deriving DecidableEq, Repr

namespace Placed

/-- Address, bit and direction as the digits of one number. -/
def position (p : Placed) : Nat := (p.addr.toNat * 8 + p.bit) * 2 + p.direction.toNat

/-- A place is determined by its position. -/
theorem eq_of_position_eq {p q : Placed} (h : p.position = q.position) : p = q := by
  obtain ⟨a, m, d⟩ := p
  obtain ⟨b, n, e⟩ := q
  have hm := m.isLt
  have hn := n.isLt
  have hd := d.toNat_lt_two
  have he := e.toNat_lt_two
  simp only [position] at h
  have hab : a.toNat = b.toNat := by omega
  have hmn : m.val = n.val := by omega
  have hde : d.toNat = e.toNat := by omega
  rw [UInt64.toNat_inj.1 hab, Fin.eq_of_val_eq hmn, Direction.toNat_inj.1 hde]

instance : Keyed Placed := ⟨position, eq_of_position_eq⟩

/-- The number of the page that holds the byte, if pages have `2 ^ shift` bytes. -/
def page (p : Placed) (shift : Nat) : Nat := p.addr.toNat >>> shift

/-- The physical address as diagnostics show it. -/
def addrText (p : Placed) : String :=
  "PhysAddr(0x" ++ String.ofList (Hex.padded 2 p.addr.toNat) ++ ")"

end Placed

/-- The flip in a memory where `base` gives the physical address of each cell. -/
def Flip.place (base : Address → UInt64) (f : Flip) : Placed :=
  ⟨base f.addr + f.cellByte.toUInt64, f.bitInByte, f.direction⟩

/-- The flips of the attack in a memory where `base` gives the physical address of each cell,
ordered by physical address, then bit, then direction. -/
def Attack.place (a : Attack) (base : Address → UInt64) : List Placed :=
  sortOn id (a.flips.toList.map (Flip.place base))

end RowFlips
