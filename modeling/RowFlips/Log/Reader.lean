import RowFlips.Config
import RowFlips.Log.Line
import RowFlips.Text.Bytes

/-!
# Reading a log

A reader yields the attacks of a log one after the other. Runs that follow each other on the same
targets are one attack, so what they tell is held back until a run on other targets, or the end of
the log, shows that the attack is complete. The first error ends the log, and what is held back
then is lost.

## Main results

* `remaining_next_lt`: each answer brings the reader nearer to its end, so `items` ends.
-/

namespace RowFlips

/-- The attack that a stored line tells of; `none` for a line that says nothing. -/
def Line.read (cellSize : UInt32) (distance : Option Int) (raw : Text.Bytes) :
    Except Error (Option Attack) :=
  match Text.decode? raw with
  | none => .error (.file .notText)
  | some line =>
    if isSkipped line then .ok none else (attack cellSize distance line).map some

/-- A reader in the middle of a log. -/
structure Reader where
  /-- The bytes of a cell. -/
  cellSize : UInt32
  /-- How many rows apart the targets of each attack must be. -/
  distance : Option Int
  /-- The lines not read yet. -/
  lines : List Text.Bytes
  /-- How many lines were read. -/
  lineNumber : Nat
  /-- What the last runs on the same targets tell, latest first; the next run may still add to
  it. -/
  held : List Attack
  /-- The log has ended or an error was met. -/
  done : Bool

namespace Reader

/-- The reader at the start of a log. -/
def ofContent (config : Config) (distance : Option Int) (content : Text.Bytes) : Reader where
  cellSize := config.cellSize
  distance := distance
  lines := Text.lines content
  lineNumber := 0
  held := []
  done := false

/-- The attack held back, complete. -/
def complete? : List Attack → Option Attack
  | [] => none
  | a :: as => some (a.joinAll as)

/-- The next answer with `lines` still to read, `lineNumber` lines read and `held` held back. -/
def scan (r : Reader) (lineNumber : Nat) (held : List Attack) :
    List Text.Bytes → Option (Except Error Attack) × Reader
  | [] => ((complete? held).map .ok, { r with lines := [], lineNumber, held := [], done := true })
  | raw :: lines =>
    match Line.read r.cellSize r.distance raw with
    | .error e =>
      (some (.error (e.atLine (lineNumber + 1))),
        { r with lines, lineNumber := lineNumber + 1, held := [], done := true })
    | .ok none => r.scan (lineNumber + 1) held lines
    | .ok (some a) =>
      match held with
      | [] => r.scan (lineNumber + 1) [a] lines
      | b :: bs =>
        if b.targets = a.targets then r.scan (lineNumber + 1) (a :: b :: bs) lines
        else
          (some (.ok (b.joinAll bs)), { r with lines, lineNumber := lineNumber + 1, held := [a] })

/-- The next attack or error; `none` after the last. -/
def next (r : Reader) : Option (Except Error Attack) × Reader :=
  if r.done then (none, r) else r.scan r.lineNumber r.held r.lines

/-- A bound on the answers still to come. -/
def remaining (r : Reader) : Nat := if r.done then 0 else r.lines.length + 1

/-- Each scan of the lines leaves less to read than there was. -/
theorem remaining_scan_lt {r : Reader} (hr : r.done = false) (n : Nat) (held : List Attack)
    (lines : List Text.Bytes) : (r.scan n held lines).2.remaining < lines.length + 1 := by
  fun_induction scan r n held lines with
  | case1 => simp [remaining]
  | case2 => simp [remaining]
  | case3 _ _ _ _ _ ih => simp only [List.length_cons]; omega
  | case4 _ _ _ _ _ ih => simp only [List.length_cons]; omega
  | case5 _ _ _ _ _ _ _ ih => simp only [List.length_cons]; omega
  | case6 => simp [remaining, hr]

/-- Each answer brings the reader nearer to its end. -/
theorem remaining_next_lt {r s : Reader} {x : Except Error Attack} (h : r.next = (some x, s)) :
    s.remaining < r.remaining := by
  unfold next at h
  split at h
  · cases h
  · rename_i hr
    have hs := remaining_scan_lt (Bool.eq_false_iff.2 hr) r.lineNumber r.held r.lines
    rw [h] at hs
    simpa [remaining, hr] using hs

/-- All attacks still to come, and the error if the log ends with one. -/
def items (r : Reader) : List (Except Error Attack) :=
  match _h : r.next with
  | (none, _) => []
  | (some x, s) => x :: s.items
termination_by r.remaining
decreasing_by exact remaining_next_lt _h

/-- All attacks still to come, or the error if the log ends with one. -/
def attacks (r : Reader) : Except Error (List Attack) := r.items.mapM id

end Reader

end RowFlips
