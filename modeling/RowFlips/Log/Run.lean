import RowFlips.Error

/-!
# Hammering runs

A run is what one line of a log tells: the rows hammered, and the corruptions found in each victim
row. A victim is listed once, where it first appears, with all its corruptions in the order found.

## Main results

* `Run.ofFound_append`: a run may be gathered at once or corruption by corruption.
-/

namespace RowFlips

/-- The flips that a corruption records for a victim whose cells hold `cellSize` bytes, a size of
0 counting as 1. -/
def Corruption.flips (c : Corruption) (victim : Address) (cellSize : UInt32) :
    Except Malformed (List Flip) :=
  let size := max cellSize 1
  match victim.addCols? (c.offset / size).toNat with
  | none => .error (.pastLastColumn c.offset victim.col)
  | some addr => .ok (maskFlips addr (c.offset % size) c.pullup c.pulldown)

/-- What one round of hammering did. -/
structure Run where
  /-- The rows hammered. -/
  targets : List Address
  /-- The victim rows in order of first appearance, each with its corruptions. -/
  victims : List (Address × List Corruption)
deriving DecidableEq, Repr, Inhabited

namespace Run

/-- The victims with a corruption of `victim` added: at the end of its corruptions if it is
listed, else at the end of the list. -/
def pushVictim (victim : Address) (c : Corruption) :
    List (Address × List Corruption) → List (Address × List Corruption)
  | [] => [(victim, [c])]
  | (v, cs) :: rest =>
    if v = victim then (v, cs ++ [c]) :: rest else (v, cs) :: pushVictim victim c rest

/-- The run with a corruption of `victim` added. -/
def push (r : Run) (victim : Address) (c : Corruption) : Run :=
  { r with victims := pushVictim victim c r.victims }

/-- The corruptions found in one victim. -/
def foundIn (victim : Address) (found : List (Address × Corruption)) : List Corruption :=
  (found.filter fun f => f.1 = victim).map Prod.snd

/-- The corruptions found in other victims. -/
def foundElsewhere (victim : Address) (found : List (Address × Corruption)) :
    List (Address × Corruption) :=
  found.filter fun f => f.1 ≠ victim

/-- What was found elsewhere is no more than what was found. -/
theorem length_foundElsewhere_le (victim : Address) (found : List (Address × Corruption)) :
    (foundElsewhere victim found).length ≤ found.length :=
  List.length_filter_le ..

/-- The victims in order of first appearance, each with the corruptions found in it. -/
def gather : List (Address × Corruption) → List (Address × List Corruption)
  | [] => []
  | (victim, c) :: found =>
    (victim, c :: foundIn victim found) :: gather (foundElsewhere victim found)
termination_by found => found.length
decreasing_by exact Nat.lt_succ_of_le (length_foundElsewhere_le victim found)

/-- The run that found corruptions, each given with its victim. -/
def ofFound (targets : List Address) (found : List (Address × Corruption)) : Run :=
  ⟨targets, gather found⟩

/-- One more corruption is pushed to the victims gathered before. -/
theorem gather_append (found : List (Address × Corruption)) (victim : Address) (c : Corruption) :
    gather (found ++ [(victim, c)]) = pushVictim victim c (gather found) := by
  fun_induction gather found with
  | case1 => simp [gather, pushVictim, foundIn, foundElsewhere]
  | case2 v d found ih =>
    rw [List.cons_append, gather, pushVictim]
    by_cases h : v = victim
    · simp [foundIn, foundElsewhere, h]
    · have h' : victim ≠ v := fun hv => h hv.symm
      rw [if_neg h, ← ih]
      simp [foundIn, foundElsewhere, h']

/-- A corruption found last is added to the run of those before it. -/
theorem ofFound_append (targets : List Address) (found : List (Address × Corruption))
    (victim : Address) (c : Corruption) :
    ofFound targets (found ++ [(victim, c)]) = (ofFound targets found).push victim c :=
  congrArg (Run.mk targets) (gather_append found victim c)

/-- No corruption was found. -/
def isEmpty (r : Run) : Bool := r.victims.isEmpty

/-- The flips of one victim. -/
def victimFlips (cellSize : UInt32) (victim : Address) (cs : List Corruption) :
    Except Malformed (List Flip) :=
  (cs.mapM fun (c : Corruption) => c.flips victim cellSize).map List.flatten

/-- The flips that the corruptions of the run record, in the order of the corruptions. -/
def flips (r : Run) (cellSize : UInt32) : Except Malformed (List Flip) :=
  (r.victims.mapM fun v => victimFlips cellSize v.1 v.2).map List.flatten

/-- A victim and its corruptions as logs show them, each after a space. -/
def victimText (v : Address × List Corruption) : List Char :=
  ' ' :: v.1.text ++ v.2.flatMap fun c => ' ' :: c.text

/-- The run as logs show it. -/
def text (r : Run) : List Char :=
  (r.targets.flatMap fun t => t.text ++ [' ']) ++ ':' :: r.victims.flatMap victimText

end Run

end RowFlips
