import RowFlips.Address

/-!
# Targets of an attack

An attack hammers one row or two. An attack on one row counts it as both its first and its second
target, which are then no rows apart. Targets are ordered by the first row, then the second.
-/

namespace RowFlips

/-- The rows that an attack hammers. -/
structure Targets where
  /-- The first row, in the order logged. -/
  first : Address
  /-- The second row; the first again if there is only one. -/
  second : Address
deriving DecidableEq, Repr, Inhabited

namespace Targets

/-- The targets of an attack on one row. -/
def single (a : Address) : Targets := ⟨a, a⟩

/-- The targets given by a list of rows; `none` unless there are one or two. -/
def ofList? : List Address → Option Targets
  | [a] => some (single a)
  | [a, b] => some ⟨a, b⟩
  | _ => none

/-- Only one row is hammered. -/
def isSingle (t : Targets) : Bool := t.first = t.second

/-- The rows hammered, each once. -/
def toList (t : Targets) : List Address := if t.isSingle then [t.first] else [t.first, t.second]

/-- How many rows the second target lies above the first. -/
def distance (t : Targets) : Int := t.second.rowsFrom t.first

/-- Both packed addresses as the digits of one number. -/
def position (t : Targets) : Nat := key t.first <<< 64 + key t.second

/-- Targets are determined by their position. -/
theorem eq_of_position_eq {t u : Targets} (h : t.position = u.position) : t = u := by
  obtain ⟨a, b⟩ := t
  obtain ⟨c, d⟩ := u
  have hb : key b < 2 ^ 64 := b.packed.toNat_lt
  have hd : key d < 2 ^ 64 := d.packed.toNat_lt
  simp only [position] at h
  have hac : key a = key c := by omega
  have hbd : key b = key d := by omega
  rw [Keyed.eq_of_key_eq hac, Keyed.eq_of_key_eq hbd]

instance : Keyed Targets := ⟨position, eq_of_position_eq⟩

/-- Targets are ordered by the first address, then the second. -/
instance : Ord Targets := ⟨fun t u => compare (key t) (key u)⟩

/-- The rows hammered, as logs show them. -/
def text (t : Targets) : List Char :=
  if t.isSingle then t.first.text else t.first.text ++ ' ' :: t.second.text

instance : ToString Targets := ⟨fun t => String.ofList t.text⟩

end Targets

end RowFlips
