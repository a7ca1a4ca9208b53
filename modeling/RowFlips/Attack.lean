import RowFlips.Error
import RowFlips.Text.Blank

/-!
# Attacks

An attack is the rows that were hammered together with the set of flips that this caused. Flips
seen twice count once.

## Main results

* `Attack.lines_report`: a report is a heading and a line for each flip.
-/

namespace RowFlips

/-- Something parted in three between a left and a right side. -/
structure Parts (α : Type) where
  /-- What only the left side has. -/
  left : α
  /-- What both sides have. -/
  common : α
  /-- What only the right side has. -/
  right : α
deriving DecidableEq, Repr

/-- The rows hammered and the flips seen. -/
structure Attack where
  /-- The rows hammered. -/
  targets : Targets
  /-- The flips seen. -/
  flips : FlipSet
deriving DecidableEq, Inhabited

namespace Attack

/-- At least one flip was seen. -/
def hasFlips (a : Attack) : Bool := !a.flips.isEmpty

/-- The flips of both attacks, which are on the same targets. -/
def join (a b : Attack) : Attack := ⟨a.targets, a.flips.union b.flips⟩

/-- The flips of attacks on the same targets. -/
def joinAll (a : Attack) (as : List Attack) : Attack :=
  ⟨a.targets, SortedSet.unions (a.flips :: as.map flips)⟩

/-- The flips of two attacks on the same targets, parted by who has them. -/
def split (a b : Attack) : Parts Attack where
  left := ⟨a.targets, a.flips.diff b.flips⟩
  common := ⟨a.targets, a.flips.inter b.flips⟩
  right := ⟨a.targets, b.flips.diff a.flips⟩

/-- The flips of both attacks together. -/
def merge (a b : Attack) : Except Error Attack :=
  if a.targets = b.targets then .ok (a.join b) else .error (.mismatched a.targets b.targets)

/-- The flips of two attacks, parted by who has them. -/
def diff (a b : Attack) : Except Error (Parts Attack) :=
  if a.targets = b.targets then .ok (a.split b) else .error (.mismatched a.targets b.targets)

/-! ### Report -/

/-- A flip as reports show it, on a line of its own. -/
def flipReport (f : Flip) : String :=
  "\tBit flip on row " ++ Text.alignRight 6 (toString f.addr.row.toNat) ++
    ", column " ++ Text.alignRight 4 (toString f.addr.col.toNat) ++
    ", bit " ++ Text.alignRight 2 (toString f.bit.toNat) ++ ": " ++ f.direction.text

/-- The rows hammered as reports show them, on the first line. -/
def heading (a : Attack) : String :=
  let t := a.targets.first
  let rows :=
    if a.targets.isSingle then "row " ++ toString t.row.toNat
    else "rows " ++ toString t.row.toNat ++ ", " ++ toString a.targets.second.row.toNat
  "Hammering " ++ rows ++ " on bank " ++ toString t.bank.toNat ++ ", rank " ++
    toString t.rank.toNat ++ ", DIMM " ++ toString t.dimm.toNat ++ ", channel " ++
    toString t.chan.toNat

/-- The attack as reports show it: the rows hammered, then a line for each flip. -/
def report (a : Attack) : String :=
  a.heading ++ String.join (a.flips.toList.map fun f => "\n" ++ flipReport f)

/-- The heading of a report is one line. -/
theorem newline_not_mem_heading (a : Attack) : '\n' ∉ a.heading.toList := by
  unfold heading
  split <;> simp

/-- So is what a report shows of a flip. -/
theorem newline_not_mem_flipReport (f : Flip) : '\n' ∉ (flipReport f).toList := by
  have hdirection : '\n' ∉ f.direction.text.toList := by cases f.direction <;> decide
  unfold flipReport
  simp [hdirection]

/-- The lines of a report are its heading and then `flipReport` of each flip, in ascending order. -/
theorem lines_report (a : Attack) :
    (a.report.toList.splitOn '\n').map String.ofList =
      a.heading :: a.flips.toList.map flipReport := by
  have hjoin : (a.flips.toList.map fun f => "\n" ++ flipReport f) =
      (a.flips.toList.map flipReport).map ("\n" ++ ·) := by
    rw [List.map_map]
    rfl
  have hlines : ∀ s ∈ a.flips.toList.map flipReport, '\n' ∉ s.toList :=
    List.forall_mem_map.2 fun f _ => newline_not_mem_flipReport f
  rw [report, String.toList_append, hjoin,
    Text.splitOn_append_join a.newline_not_mem_heading hlines]
  simp [Function.comp_def]

end Attack

end RowFlips
