import RowFlips.Proofs.Table.Load
import RowFlips.Tool.Run

/-!
# Showing a log

The tool that shows a log and the reader that loads it go through its lines on their own: each has
its way of numbering them, of holding attacks back or not, of taking a size of 0 for 1, and of
saying what is wrong. They stop at the same line for the same reason, and until then one shows what
the other is told. So a log is shown to its end exactly if it can be loaded, and then the attacks
shown make up its table.

## Main results

* `RenderArgs.lines_shown`: what is shown of an attack, line by line.
* `RenderArgs.scriptFrom_eq`: lines are shown as they are told to the reader.
* `Rendering.outcome_of_sound`, `Rendering.outcome_of_fault`: what a run shows.
* `Table.ofLog_congr_cellSize`: it does not matter when a size of 0 is taken for 1.
* `Rendering.shows_what_loads`: showing a log against loading it.
-/

namespace RowFlips

open Text (Bytes)

/-! ### Sizes that count alike -/

section

variable {size size' : UInt32}

/-- Only what a size counts as matters to what a line tells. -/
theorem Line.read_congr_cellSize (h : max size 1 = max size' 1) (distance : Option Int)
    (raw : Bytes) : Line.read size distance raw = Line.read size' distance raw := by
  have hflips (c : Corruption) (victim : Address) : c.flips victim size = c.flips victim size' := by
    simp only [Corruption.flips, h]
  simp only [Line.read, Line.attack, Run.flips, Run.victimFlips, hflips]

/-- Only what a size counts as matters to what all lines tell. -/
theorem Reader.told_congr_cellSize (h : max size 1 = max size' 1) (distance : Option Int) (n : Nat)
    (lines : List Bytes) : told size distance n lines = told size' distance n lines := by
  induction lines generalizing n with
  | nil => rfl
  | cons raw lines ih => simp only [told, Line.read_congr_cellSize h, ih]

/-- Only what a size counts as matters to what a log is loaded as. -/
theorem Table.ofLog_congr_cellSize {config config' : Config}
    (h : max config.cellSize 1 = max config'.cellSize 1) (content : Bytes) :
    ofLog config content = ofLog config' content := by
  rw [ofLog_eq, ofLog_eq, Reader.told_congr_cellSize h]

end

/-! ### Lines shown one by one -/

/-- What the tool fails with that shows a log, if `e` ends the log. The number of a line is not part
of the error then but stands before it. -/
def Failure.ofLog : Error → Failure
  | .parse n cause => .atLine n (.parse 0 cause)
  | .targets (some n) cause => .atLine n (.targets none cause)
  | e => .error e

namespace RenderArgs

/-- What is printed for an attack. -/
def shown (a : Attack) : String := a.report ++ "\n"

/-- What is printed for an attack are the lines of its report, with a line feed behind the last. -/
theorem lines_shown (a : Attack) :
    ((shown a).toList.splitOn '\n').map String.ofList =
      a.heading :: a.flips.toList.map Attack.flipReport ++ [""] := by
  have hsplit : (shown a).toList.splitOn '\n' = a.report.toList.splitOn '\n' ++ [[]] := by
    rw [shown, String.toList_append]
    exact List.splitOn_append_cons_self _ []
  rw [hsplit, List.map_append, a.lines_report]
  rfl

/-- Lines are shown as they are told to the reader, and both stop for the same reason. -/
theorem scriptFrom_eq (config : Config) (n : Nat) (lines : List Bytes) :
    scriptFrom config n lines =
      let told := Reader.told config.cellSize none n lines
      ⟨(told.1.map shown).map .print, told.2.map .ofLog⟩ := by
  induction lines generalizing n with
  | nil => rfl
  | cons raw lines ih =>
    rw [scriptFrom, Reader.told]
    cases hread : Line.read config.cellSize none raw with
    | error e =>
      obtain ⟨e', hfault⟩ : ∃ e', Line.Fault config.cellSize none (n + 1) raw e' :=
        ⟨_, Line.read_eq_error_iff.1 ⟨e, hread, rfl⟩⟩
      rw [hfault.read_eq] at hread
      cases hread
      cases hfault <;> rfl
    | ok x =>
      cases x with
      | none => exact ih (n + 1)
      | some a => simp only [ih]; rfl

end RenderArgs

/-- Printing texts leaves the directory as it was. -/
theorem performFrom_map_print (d : Directory) (failure : Option Failure) (texts : List String) :
    performFrom d failure (texts.map .print) =
      { Outcome.ending d failure with printed := texts } := by
  induction texts with
  | nil => cases failure <;> rfl
  | cons text texts ih =>
    rw [List.map_cons, performFrom, ih]
    rfl

/-! ### Runs of the tool -/

/-- A run of the tool that shows logs: its arguments are understood, and its configuration and its
log can be read. -/
structure Rendering where
  args : List String
  directory : Directory
  stdin : Bytes
  date : String
  command : Command Source
  inputs : RenderArgs Input
  config : Config
  log : Bytes
  parse_eq : Command.parse? .render args = some command
  openIn_eq : command.openIn directory stdin = .render inputs
  config_eq : Input.config inputs.config = .ok config
  log_eq : inputs.profile.read = .ok log

namespace Rendering

variable {r : Rendering} {before behind : List Bytes} {raw : Bytes} {e : Error}

/-- What the run leaves behind. -/
def outcome (r : Rendering) : Outcome := Tool.run .render r.args r.directory r.stdin r.date

/-- A run performs the script of its lines. -/
theorem outcome_eq (r : Rendering) : r.outcome =
    (RenderArgs.scriptFrom r.config 0 (Text.lines r.log)).perform r.directory := by
  rw [outcome, Tool.run_eq_perform r.parse_eq r.openIn_eq]
  simp only [Command.script, RenderArgs.script, r.config_eq, r.log_eq, Script.needing]

/-- The attacks that the reader is told of are shown, and what ends the log ends the run. -/
theorem outcome_of_told {as : List Attack} {end? : Option Error}
    (h : Reader.told r.config.cellSize none 0 (Text.lines r.log) = (as, end?)) :
    r.outcome =
      { Outcome.ending r.directory (end?.map .ofLog) with printed := as.map RenderArgs.shown } := by
  rw [r.outcome_eq, RenderArgs.scriptFrom_eq, h, Script.perform, performFrom_map_print]

/-- A log with which nothing is wrong is shown to its end. -/
theorem outcome_of_sound
    (h : ∀ raw ∈ Text.lines r.log, ¬Line.Faulty r.config.cellSize none raw) :
    r.outcome = ⟨0, ((Text.lines r.log).filterMap (Line.told? r.config.cellSize)).map
      RenderArgs.shown, "", r.directory⟩ :=
  outcome_of_told (Reader.told_of_sound h)

/-- Any other log is shown up to the first line with which something is wrong. -/
theorem outcome_of_fault (hlines : Text.lines r.log = before ++ raw :: behind)
    (hbefore : ∀ x ∈ before, ¬Line.Faulty r.config.cellSize none x)
    (h : Line.Fault r.config.cellSize none (before.length + 1) raw e) :
    r.outcome = ⟨1, (before.filterMap (Line.told? r.config.cellSize)).map RenderArgs.shown,
      (Failure.ofLog e).report, r.directory⟩ := by
  have htold : Reader.told r.config.cellSize none 0 (Text.lines r.log) =
      (before.filterMap (Line.told? r.config.cellSize), some e) := by
    rw [hlines]
    exact Reader.told_of_fault hbefore (by rwa [Nat.zero_add])
  exact outcome_of_told htold

/-- **A log is shown exactly as far as it can be loaded.** The run `r` ends with status 0 exactly if
`Table.ofLog` loads its log. It has then printed `RenderArgs.shown` of the attacks `told` by the
`lines`, one for each line that is not `Line.IsSilent`, and these attacks make up the table. If
loading ends with the error `e`, this is the `Line.Fault` of some line `raw`, set on its number. The
run has then printed the attacks told by the lines `before` it, none of which is `Line.Faulty`, and
ends with status 1 and the report of `e`. What is printed for an attack `a` is the line `a.heading`
and the line `Attack.flipReport` of each of its flips, in their order, with nothing behind the last
line. A configuration `config'` that takes 1 where this one has a size of 0 loads the log alike. -/
theorem shows_what_loads (r : Rendering) :
    let lines := Text.lines r.log
    let told := Line.told? r.config.cellSize
    (r.outcome.status = 0 ↔ ∃ t, Table.ofLog r.config r.log = .ok t) ∧
    (∀ t, Table.ofLog r.config r.log = .ok t →
      r.outcome = ⟨0, (lines.filterMap told).map RenderArgs.shown, "", r.directory⟩ ∧
      (∀ raw ∈ lines, (told raw = none ↔ Line.IsSilent raw)) ∧
      Table.ofAttacks (lines.filterMap told) = t) ∧
    (∀ e, Table.ofLog r.config r.log = .error e → ∃ before raw behind,
      lines = before ++ raw :: behind ∧
      Line.Fault r.config.cellSize none (before.length + 1) raw e ∧
      r.outcome = ⟨1, (before.filterMap told).map RenderArgs.shown, (Failure.ofLog e).report,
        r.directory⟩ ∧
      ∀ x ∈ before, ¬Line.Faulty r.config.cellSize none x ∧ (told x = none ↔ Line.IsSilent x)) ∧
    (∀ a, ((RenderArgs.shown a).toList.splitOn '\n').map String.ofList =
      a.heading :: a.flips.toList.map Attack.flipReport ++ [""]) ∧
    ∀ config', max config'.cellSize 1 = max r.config.cellSize 1 →
      Table.ofLog config' r.log = Table.ofLog r.config r.log := by
  intro lines told
  have hsound {t : Table} (ht : Table.ofLog r.config r.log = .ok t) :
      ∀ raw ∈ lines, ¬Line.Faulty r.config.cellSize none raw := fun raw hraw =>
    Line.accepted_iff.1 ((Table.ofLog_eq_ok_iff.1 ht).1 raw hraw)
  refine ⟨?_, ?_, ?_, RenderArgs.lines_shown, fun config' h => Table.ofLog_congr_cellSize h r.log⟩
  · cases hlog : Table.ofLog r.config r.log with
    | ok t =>
      rw [outcome_of_sound (hsound hlog)]
      exact iff_of_true rfl ⟨t, rfl⟩
    | error e =>
      obtain ⟨before, raw, behind, hlines, hbefore, hfault⟩ := Table.ofLog_eq_error_iff.1 hlog
      rw [outcome_of_fault hlines hbefore hfault]
      exact iff_of_false Nat.one_ne_zero fun ⟨t, ht⟩ => error_ne_ok ht
  · intro t ht
    have hlines := hsound ht
    exact ⟨outcome_of_sound hlines, fun raw hraw => Line.told?_eq_none_iff (hlines raw hraw),
      (Table.ofLog_eq_ok_iff.1 ht).2.symm⟩
  · intro e he
    obtain ⟨before, raw, behind, hlines, hbefore, hfault⟩ := Table.ofLog_eq_error_iff.1 he
    exact ⟨before, raw, behind, hlines, hfault, outcome_of_fault hlines hbefore hfault,
      fun x hx => ⟨hbefore x hx, Line.told?_eq_none_iff (hbefore x hx)⟩⟩

/-- A run that reads a log of the given lines from the standard input, with a size of 0. -/
def ofLines (lines : List Bytes) : Rendering where
  args := ["--config", "cells", "-"]
  directory := .ofList [("cells", some (Text.encode "[0]".toList))]
  stdin := lines.flatMap (· ++ [10])
  date := ""
  command := .render ⟨.standardInput, some (.path "cells")⟩
  inputs := ⟨⟨"-", .ok (.file (lines.flatMap (· ++ [10])))⟩,
    some ⟨"cells", .ok (.file (Text.encode "[0]".toList))⟩⟩
  config := { cellSize := 0 }
  log := lines.flatMap (· ++ [10])
  parse_eq := by cbv
  openIn_eq := by cbv
  config_eq := by cbv
  log_eq := rfl

/-- Two runs with a comment between them. -/
def shownLines : List Bytes :=
  ["(0 0 0 0 1) :(0 0 0 0 2)1|1|0", "# again", "(0 0 0 0 3) :"].map fun s => Text.encode s.toList

/-- The two runs are shown, whether the log ends with them or a line follows that is not text. -/
theorem shows_what_loads_shownLines :
    let row (n : UInt16) : Targets := .single ⟨0, 0, 0, 0, n, 0⟩
    let first : Attack := ⟨row 1, ⟨[⟨⟨0, 0, 0, 0, 2, 1⟩, 0, .up⟩], by decide⟩⟩
    let second : Attack := ⟨row 3, SortedSet.empty⟩
    let sound := ofLines shownLines
    let broken := ofLines (shownLines ++ [255] :: shownLines)
    Table.ofLog { cellSize := 0 } sound.log = .ok ⟨[first, second]⟩ ∧
      Table.ofLog { cellSize := 1 } sound.log = .ok ⟨[first, second]⟩ ∧
      sound.outcome = ⟨0, [first.report ++ "\n", second.report ++ "\n"], "", sound.directory⟩ ∧
      ((first.report ++ "\n").toList.splitOn '\n').map String.ofList =
        ["Hammering row 1 on bank 0, rank 0, DIMM 0, channel 0",
          "\tBit flip on row      2, column    1, bit  0: 0 -> 1", ""] ∧
      Table.ofLog { cellSize := 0 } broken.log = .error (.file .notText) ∧
      broken.outcome = ⟨1, [first.report ++ "\n", second.report ++ "\n"],
        (Failure.error (.file .notText)).report, broken.directory⟩ := by
  intro row first second sound broken
  have hends : ∀ l ∈ shownLines, 10 ∉ l ∧ 13 ∉ l := by decide +kernel
  have hends' : ∀ l ∈ shownLines ++ [255] :: shownLines, 10 ∉ l ∧ 13 ∉ l := by decide +kernel
  have hlines : Text.lines sound.log = shownLines := Text.lines_flatMap hends
  have hlines' : Text.lines broken.log = shownLines ++ [255] :: shownLines :=
    Text.lines_flatMap hends'
  have hread : List.Forall₂ (fun raw x => Line.read 0 none raw = .ok x) shownLines
      [some first, none, some second] := by
    refine .cons ?_ (.cons ?_ (.cons ?_ .nil)) <;> rw [Line.read, Text.decode?_encode]
    all_goals cbv
  obtain ⟨hsound, htold⟩ := Line.told_of_forall₂_read hread
  have hfault : Line.Fault 0 none (shownLines.length + 1) [255] (.file .notText) :=
    .notText (by cbv)
  have hlog : Table.ofLog { cellSize := 0 } sound.log = .ok ⟨[first, second]⟩ := by
    have hload : Table.ofLog { cellSize := 0 } sound.log =
        .ok (Table.ofAttacks ([some first, none, some second].filterMap id)) :=
      Table.ofLog_of_forall₂_read hends hread
    rw [hload]
    exact congrArg Except.ok (Table.Canonical.ofAttacks_eq (t := ⟨[first, second]⟩) (by decide))
  have hlog' : Table.ofLog broken.config broken.log = .error (.file .notText) :=
    Table.ofLog_eq_error_iff.2 ⟨_, _, _, hlines', hsound, hfault⟩
  obtain ⟨-, hshown, -, hreport, hsize⟩ := shows_what_loads sound
  obtain ⟨-, -, hbroken, -⟩ := shows_what_loads broken
  obtain ⟨before, raw, behind, hsplit, hraw, houtcome, hbefore⟩ := hbroken _ hlog'
  -- What is told of the log says where it was cut.
  have hcut : Reader.told 0 none 0 (Text.lines broken.log) =
      (shownLines.filterMap (Line.told? 0), some (.file .notText)) := by
    rw [hlines']
    exact Reader.told_of_fault hsound (by rwa [Nat.zero_add])
  have hcut' : Reader.told 0 none 0 (Text.lines broken.log) =
      (before.filterMap (Line.told? 0), some (.file .notText)) := by
    rw [hsplit]
    exact Reader.told_of_fault (fun x hx => (hbefore x hx).1) (by rwa [Nat.zero_add])
  have htold' : before.filterMap (Line.told? 0) = [first, second] :=
    (congrArg Prod.fst (hcut'.symm.trans hcut)).trans htold
  refine ⟨hlog, (hsize { cellSize := 1 } rfl).trans hlog, ?_, (hreport first).trans ?_, hlog', ?_⟩
  · rw [(hshown _ hlog).1, hlines]
    change (⟨0, (shownLines.filterMap (Line.told? 0)).map RenderArgs.shown, "", _⟩ : Outcome) = _
    rw [htold]
    rfl
  · decide
  · rw [houtcome]
    change (⟨1, (before.filterMap (Line.told? 0)).map RenderArgs.shown, _, _⟩ : Outcome) = _
    rw [htold']
    rfl

end Rendering

end RowFlips
