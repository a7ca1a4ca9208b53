import RowFlips.Table

/-!
# Comparing tables

Two tables are parted in three: what only the left one has, what both have, and what only the
right one has. An attack whose targets one table lacks goes to the other's side whole. An attack
on targets of both is parted flip by flip: its common part is always kept, so that the shared
targets stay known, and a part of one side is kept only if it has a flip.
-/

namespace RowFlips.Table

/-- The attack before others, left out if it has no flip. -/
def consIfFlips (a : Attack) (as : List Attack) : List Attack := if a.hasFlips then a :: as else as

/-- The parts with an attack of one table, or attacks of both on the same targets, put first. -/
def consParts (x : Aligned Attack) (parts : Parts (List Attack)) : Parts (List Attack) :=
  match x with
  | .left a => { parts with left := a :: parts.left }
  | .right b => { parts with right := b :: parts.right }
  | .both a b =>
    let split := a.split b
    ⟨consIfFlips split.left parts.left, split.common :: parts.common,
      consIfFlips split.right parts.right⟩

/-- The parts of two ascending lists of attacks. -/
def diffAttacks (as bs : List Attack) : Parts (List Attack) :=
  (align (compareBy Attack.targets) as bs).foldr consParts ⟨[], [], []⟩

/-- The parts of two tables. -/
def diff (s t : Table) : Parts Table :=
  let parts := diffAttacks s.attacks t.attacks
  ⟨⟨parts.left⟩, ⟨parts.common⟩, ⟨parts.right⟩⟩

/-- What all the tables have in common; nothing for no table. -/
def common : List Table → Table
  | [] => empty
  | t :: ts => ts.foldl (fun s t => (s.diff t).common) t

/-! ### Checks of order -/

/-- The parts of two tables, each checked to be in order. -/
def checkedDiff? (s t : Table) : Option (Parts Table) := do
  let parts := diffAttacks s.attacks t.attacks
  let left ← checked? parts.left
  let common ← checked? parts.common
  let right ← checked? parts.right
  pure ⟨left, common, right⟩

/-- What all the tables have in common, with all parts checked that are found on the way. -/
def checkedCommon? : List Table → Option Table
  | [] => some empty
  | t :: ts => ts.foldlM (fun s t => (checkedDiff? s t).map Parts.common) t

end RowFlips.Table
