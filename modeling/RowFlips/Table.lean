import RowFlips.Ascending
import RowFlips.Attack

/-!
# Flip tables

A table holds attacks in ascending order of their targets, no two on the same targets, so equal
tables hold equal lists. Attacks on the same targets are put together when a table is made.
-/

namespace RowFlips

/-- A table of attacks. -/
structure Table where
  /-- The attacks in ascending order of their targets. -/
  attacks : List Attack
deriving DecidableEq, Inhabited

namespace Table

/-- The attacks ascend by their targets, so no two are on the same targets. -/
def Canonical (t : Table) : Prop := Ascending Attack.targets t.attacks

instance (t : Table) : Decidable t.Canonical :=
  inferInstanceAs (Decidable (Ascending Attack.targets t.attacks))

/-! ### Making tables -/

/-- The table without attacks. -/
def empty : Table := ⟨[]⟩

/-- The attacks with `a` before them, neighbours on the same targets put together. Those in `held`
are on the targets of `a`. -/
def joinFrom (a : Attack) (held : List Attack) : List Attack → List Attack
  | [] => [a.joinAll held]
  | b :: bs =>
    if a.targets = b.targets then joinFrom a (b :: held) bs
    else a.joinAll held :: joinFrom b [] bs

/-- The attacks, neighbours on the same targets put together. -/
def joinNeighbours : List Attack → List Attack
  | [] => []
  | a :: as => joinFrom a [] as

/-- The table of attacks that may come in any order and repeat targets. -/
def ofAttacks (attacks : List Attack) : Table :=
  ⟨joinNeighbours (sortOn Attack.targets attacks)⟩

/-! ### Checks of order -/

/-- Each attack is on lesser targets than the next. -/
def neighboursAscend (as : List Attack) : Bool :=
  (as.zip as.tail).all fun p => key p.1.targets < key p.2.targets

/-- The table of attacks that must be in order already; `none` if they are not. -/
def checked? (as : List Attack) : Option Table :=
  if neighboursAscend as then some ⟨as⟩ else none

/-! ### Looking at tables -/

/-- The number of attacks. -/
def size (t : Table) : Nat := t.attacks.length

/-- There is no attack. -/
def isEmpty (t : Table) : Bool := t.attacks.isEmpty

/-- The attack on the targets. -/
def get? (t : Table) (targets : Targets) : Option Attack :=
  bisect (fun a => compare targets a.targets) t.attacks

/-- The number of flips of all attacks. -/
def numFlips (t : Table) : Nat := t.attacks.foldr (fun a n => a.flips.size + n) 0

/-- Counts that sum up a table. -/
structure Stats where
  /-- The number of attacks. -/
  hammers : Nat
  /-- The number of attacks with a flip. -/
  withFlips : Nat
  /-- The number of flips of all attacks. -/
  totalFlips : Nat
deriving DecidableEq, Repr

/-- The counts of the table. -/
def stats (t : Table) : Stats :=
  ⟨t.size, (t.attacks.filter Attack.hasFlips).length, t.numFlips⟩

end Table

end RowFlips
