import RowFlips.Proofs.Table.Parts
import RowFlips.Proofs.Tool.Directory
import RowFlips.Tool.Run

/-!
# Comparing logs

The tool that compares two logs writes what it finds to three files, one after the other. Their
names differ in their endings, so none takes the place of another, and each holds the text form of
its part in the end. The parts survive their text form, and with them the logs can be put together
again as far as their tables go: the file of a side and the file of the common part make a log of
the table of that side. So a comparison of two such logs finds the same parts and writes the same
files.

## Main results

* `performFrom_savings`: tables that are saved one after the other are all read back.
* `Comparison.outcome_of_loads`: what a comparison of logs that can be loaded leaves behind.
* `Comparison.loses_nothing`: what the three files give back.
-/

namespace RowFlips

open Text (Bytes)

/-! ### Tables saved one after the other -/

/-- A table to be saved. -/
structure Saving where
  path : String
  /-- What the path leads to. -/
  file : List String
  table : Table

/-- What is done to save the table. -/
def Saving.actions (config : Config) (x : Saving) : List Action :=
  CompareArgs.save config x.path x.table

section

variable {d : Directory} {failure : Option Failure} {l : List Saving}

/-- What follows a table that is saved is done where its file has been written. -/
theorem performFrom_saving {config : Config} {x : Saving} (h : d.sink x.path = .ok (.file x.file))
    (as : List Action) :
    let next := performFrom (d.put x.file (.file (x.table.toText config))) failure as
    (performFrom d failure (x.actions config ++ as)).status = next.status ∧
      (performFrom d failure (x.actions config ++ as)).directory = next.directory := by
  simp only [Saving.actions, CompareArgs.save, List.cons_append, List.nil_append, performFrom,
    Directory.writeText, h]
  exact ⟨rfl, rfl⟩

/-- Tables that are saved to different files are all read back. What could be written before can be
written afterwards, and all other files are as they were. -/
theorem performFrom_savings (config : Config)
    (hsink : ∀ x ∈ l, d.sink x.path = .ok (.file x.file))
    (hapart : l.Pairwise fun x y => x.file ≠ y.file) :
    let outcome := performFrom d none (l.flatMap (Saving.actions config))
    outcome.status = 0 ∧
      (∀ x ∈ l, outcome.directory.read x.path = .ok (x.table.toText config)) ∧
      ∀ path file, d.sink path = .ok (.file file) →
        outcome.directory.sink path = .ok (.file file) ∧
        ((∀ x ∈ l, x.file ≠ file) → outcome.directory.read path = d.read path) := by
  induction l generalizing d with
  | nil => exact ⟨rfl, List.forall_mem_nil _, fun path file h => ⟨h, fun _ => rfl⟩⟩
  | cons x l ih =>
    obtain ⟨hx, hl⟩ := List.forall_mem_cons.1 hsink
    obtain ⟨hne, hl'⟩ := List.pairwise_cons.1 hapart
    intro outcome
    let d' := d.put x.file (.file (x.table.toText config))
    let rest := performFrom d' none (l.flatMap (Saving.actions config))
    obtain ⟨hstatus, hdirectory⟩ :
        outcome.status = rest.status ∧ outcome.directory = rest.directory :=
      performFrom_saving hx _
    obtain ⟨hsucceeds, hread, hframe⟩ := ih (d := d')
      (fun y hy => Directory.sink_put hx (hl y hy)) hl'
    have hkept {path : String} {file : List String} (h : d.sink path = .ok (.file file)) :
        outcome.directory.sink path = .ok (.file file) ∧
          ((∀ y ∈ l, y.file ≠ file) → outcome.directory.read path = d'.read path) := by
      rw [hdirectory]
      exact hframe path file (Directory.sink_put hx h)
    refine ⟨hstatus.trans hsucceeds, List.forall_mem_cons.2 ⟨?_, ?_⟩, fun path file h => ?_⟩
    · rw [(hkept hx).2 fun y hy => (hne y hy).symm]
      exact Directory.read_put_of_sink hx
    · intro y hy
      rw [hdirectory]
      exact hread y hy
    · refine ⟨(hkept h).1, fun hfiles => ?_⟩
      obtain ⟨hfile, hfiles⟩ := List.forall_mem_cons.1 hfiles
      rw [(hkept h).2 hfiles]
      exact Directory.read_put_of_ne hx (Directory.resolve_of_sink h).1 hfile.symm

end

/-! ### Runs of the tool -/

namespace CompareArgs

variable {ι : Type}

/-- The paths that the parts are saved at. -/
def paths (a : CompareArgs ι) : Parts String :=
  ⟨a.stem ++ ".a-only", a.stem ++ ".common", a.stem ++ ".b-only"⟩

/-- The paths lead to files that can be written. -/
structure WritesTo (a : CompareArgs ι) (d : Directory) (files : Parts (List String)) : Prop where
  left : d.sink a.paths.left = .ok (.file files.left)
  common : d.sink a.paths.common = .ok (.file files.common)
  right : d.sink a.paths.right = .ok (.file files.right)

/-- The parts to be saved. -/
def savings (a : CompareArgs ι) (files : Parts (List String)) (parts : Parts Table) :
    List Saving :=
  [⟨a.paths.left, files.left, parts.left⟩, ⟨a.paths.common, files.common, parts.common⟩,
    ⟨a.paths.right, files.right, parts.right⟩]

namespace WritesTo

variable {a : CompareArgs ι} {d : Directory} {files : Parts (List String)}

/-- Each of the three parts is saved to a file of its own. -/
theorem sink_of_mem_savings (h : a.WritesTo d files) (parts : Parts Table) :
    ∀ x ∈ a.savings files parts, d.sink x.path = .ok (.file x.file) := by
  simp only [savings, List.forall_mem_cons, List.not_mem_nil, false_imp_iff, implies_true, and_true]
  exact ⟨h.left, h.common, h.right⟩

/-- The paths differ in their endings, so the parts are saved to three files. -/
theorem pairwise_savings (h : a.WritesTo d files) (parts : Parts Table) :
    (a.savings files parts).Pairwise fun x y => x.file ≠ y.file := by
  have hleft := Directory.ne_of_sink_append (by decide) (by decide) (by decide) h.left h.common
  have hsides := Directory.ne_of_sink_append (by decide) (by decide) (by decide) h.left h.right
  have hright := Directory.ne_of_sink_append (by decide) (by decide) (by decide) h.common h.right
  simp [savings, hleft, hsides, hright]

end WritesTo

end CompareArgs

/-- A run of the tool that compares logs: its arguments are understood, its configuration and its
logs can be read, and the paths of its results lead to files that can be written. -/
structure Comparison where
  args : List String
  directory : Directory
  stdin : Bytes
  date : String
  command : Command Source
  inputs : CompareArgs Input
  config : Config
  left : Bytes
  right : Bytes
  /-- What the paths of the results lead to. -/
  files : Parts (List String)
  parse_eq : Command.parse? .compare args = some command
  openIn_eq : command.openIn directory stdin = .compare inputs
  config_eq : Input.config inputs.config = .ok config
  left_eq : inputs.left.read = .ok left
  right_eq : inputs.right.read = .ok right
  writesTo : inputs.WritesTo directory files

namespace Comparison

variable {c : Comparison} {s t : Table}

/-- What the run leaves behind. -/
def outcome (c : Comparison) : Outcome := Tool.run .compare c.args c.directory c.stdin c.date

/-- What is read at the paths of the parts after the run. -/
def written (c : Comparison) : Parts (Except FileFault Bytes) :=
  let paths := c.inputs.paths
  ⟨c.outcome.directory.read paths.left, c.outcome.directory.read paths.common,
    c.outcome.directory.read paths.right⟩

/-- A run performs the script of its inputs. -/
theorem outcome_eq (c : Comparison) : c.outcome = c.inputs.script.perform c.directory :=
  Tool.run_eq_perform c.parse_eq c.openIn_eq

/-- If both logs can be loaded, their parts are saved. -/
theorem outcome_of_loads (hs : Table.ofLog c.config c.left = .ok s)
    (ht : Table.ofLog c.config c.right = .ok t) : c.outcome =
      performFrom c.directory none
        ((c.inputs.savings c.files (s.diff t)).flatMap (Saving.actions c.config)) := by
  have hresult : c.inputs.result = .ok (c.config, s.diff t) := by
    simp only [CompareArgs.result, Input.table, c.config_eq, c.left_eq, c.right_eq, hs, ht,
      Except.bind, Except.mapError, bind, pure, Except.pure]
  rw [c.outcome_eq, CompareArgs.script, hresult]
  rfl

/-- A comparison of logs that can be loaded succeeds. Each part is read where it was saved, and the
three files can be written again. -/
theorem spec_of_loads (hs : Table.ofLog c.config c.left = .ok s)
    (ht : Table.ofLog c.config c.right = .ok t) :
    c.outcome.status = 0 ∧ c.inputs.WritesTo c.outcome.directory c.files ∧
      c.written = ⟨.ok ((s.diff t).left.toText c.config), .ok ((s.diff t).common.toText c.config),
        .ok ((s.diff t).right.toText c.config)⟩ := by
  have hsavings := performFrom_savings c.config (c.writesTo.sink_of_mem_savings (s.diff t))
    (c.writesTo.pairwise_savings (s.diff t))
  rw [← outcome_of_loads hs ht] at hsavings
  obtain ⟨hstatus, hread, hsink⟩ := hsavings
  simp only [CompareArgs.savings, List.forall_mem_cons] at hread
  obtain ⟨hleft, hcommon, hright, -⟩ := hread
  refine ⟨hstatus, ⟨?_, ?_, ?_⟩, ?_⟩
  · exact (hsink _ _ c.writesTo.left).1
  · exact (hsink _ _ c.writesTo.common).1
  · exact (hsink _ _ c.writesTo.right).1
  · rw [written, hleft, hcommon, hright]

/-- **A comparison loses nothing.** If the logs of the run `c` load as the tables `s` and `t`, the
run ends with status 0, and its paths lead to files that it writes. What is `written` there, `left`,
`common` and `right`, is loaded as the parts of `s.diff t`. The file of a side with the `common` one
behind it is loaded as the table of that side. A run `c'` that compares what was put together so
succeeds and writes the same three files. -/
theorem loses_nothing (c : Comparison) {s t : Table} (hs : Table.ofLog c.config c.left = .ok s)
    (ht : Table.ofLog c.config c.right = .ok t) :
    let load := Table.ofLog c.config
    c.outcome.status = 0 ∧ c.inputs.WritesTo c.outcome.directory c.files ∧
    ∃ left common right : Bytes, c.written = ⟨.ok left, .ok common, .ok right⟩ ∧
      load left = .ok (s.diff t).left ∧ load common = .ok (s.diff t).common ∧
      load right = .ok (s.diff t).right ∧
      load (left ++ common) = .ok s ∧ load (right ++ common) = .ok t ∧
      ∀ c' : Comparison, c'.config = c.config → c'.left = left ++ common →
        c'.right = right ++ common → c'.outcome.status = 0 ∧ c'.written = c.written := by
  intro load
  have hs' := Table.storable_of_ofLog hs
  have ht' := Table.storable_of_ofLog ht
  obtain ⟨hstatus, hwrites, hwritten⟩ := spec_of_loads hs ht
  obtain ⟨hleft, hright⟩ := hs'.ofLog_sides ht' (w := c.config)
  refine ⟨hstatus, hwrites, _, _, _, hwritten, (hs'.diff_left ht').ofLog_toText,
    (hs'.diff_common ht').ofLog_toText, (hs'.diff_right ht').ofLog_toText, hleft, hright, ?_⟩
  intro c' hconfig hleft' hright'
  have hs'' : Table.ofLog c'.config c'.left = .ok s := by rwa [hconfig, hleft']
  have ht'' : Table.ofLog c'.config c'.right = .ok t := by rwa [hconfig, hright']
  obtain ⟨hstatus', -, hwritten'⟩ := spec_of_loads hs'' ht''
  exact ⟨hstatus', by rw [hwritten', hwritten, hconfig]⟩

/-- A run on two files with the given content. -/
def ofLogs (left right : Bytes) : Comparison where
  args := ["--prefix", "p", "a", "b"]
  directory := .ofList [("a", some left), ("b", some right)]
  stdin := []
  date := ""
  command := .compare ⟨.path "a", .path "b", "p", none⟩
  inputs := ⟨⟨"a", .ok (.file left)⟩, ⟨"b", .ok (.file right)⟩, "p", none⟩
  config := {}
  left := left
  right := right
  files := ⟨["p.a-only"], ["p.common"], ["p.b-only"]⟩
  parse_eq := by cbv
  openIn_eq := by cbv
  config_eq := rfl
  left_eq := rfl
  right_eq := rfl
  writesTo := ⟨by cbv, by cbv, by cbv⟩

/-- A run without flips, and one that saw flips of both directions in one byte. -/
def leftLines : List Bytes :=
  ["(0 0 0 0 4) (0 0 0 0 6) :", "(0 0 0 0 7) :(0 0 0 0 8)0|56|55"].map fun s =>
    Text.encode s.toList

/-- Runs on the same rows. The one with flips of the first rows comes last, and the flips of the
third row are divided between two, of which the second saw one that the other log has. -/
def rightLines : List Bytes :=
  ["(0 0 0 0 7) :(0 0 0 0 8)1|1|0", "(0 0 0 0 7) :(0 0 0 0 8)0|2|0",
    "(0 0 0 0 4) (0 0 0 0 6) :(0 0 0 0 5)0|1|0"].map fun s => Text.encode s.toList

/-- The common file has both attacks, one of them without flips. What is put together from the three
files is loaded as before, and comparing it writes them again. -/
theorem loses_nothing_sharedRows :
    let left := leftLines.flatMap (· ++ [10])
    let right := rightLines.flatMap (· ++ [10])
    let cell (n : UInt16) : Address := ⟨0, 0, 0, 0, n, 0⟩
    let up (n : UInt16) (bit : UInt32) : Flip := ⟨cell n, bit, .up⟩
    let apart : Targets := ⟨cell 4, cell 6⟩
    let single : Targets := .single (cell 7)
    ∃ a m b, (ofLogs left right).written = ⟨.ok a, .ok m, .ok b⟩ ∧
      Table.ofLog {} a = .ok ⟨[⟨single, SortedSet.ofList [⟨cell 8, 0, .down⟩]⟩]⟩ ∧
      Table.ofLog {} m =
        .ok ⟨[⟨apart, SortedSet.empty⟩, ⟨single, SortedSet.ofList [up 8 1]⟩]⟩ ∧
      Table.ofLog {} b = .ok ⟨[⟨apart, SortedSet.ofList [up 5 0]⟩,
        ⟨single, SortedSet.ofList [up 8 8]⟩]⟩ ∧
      Table.ofLog {} (a ++ m) = Table.ofLog {} left ∧
      Table.ofLog {} (b ++ m) = Table.ofLog {} right ∧
      (ofLogs (a ++ m) (b ++ m)).written = (ofLogs left right).written := by
  intro left right cell up apart single
  have hleft : List.Forall₂ (fun raw x => Line.read 8 none raw = .ok x) leftLines
      [some ⟨apart, SortedSet.empty⟩,
        some ⟨single, SortedSet.ofList [up 8 1, ⟨cell 8, 0, .down⟩]⟩] := by
    refine .cons ?_ (.cons ?_ .nil) <;> rw [Line.read, Text.decode?_encode]
    all_goals cbv
  have hright : List.Forall₂ (fun raw x => Line.read 8 none raw = .ok x) rightLines
      [some ⟨single, SortedSet.ofList [up 8 8]⟩, some ⟨single, SortedSet.ofList [up 8 1]⟩,
        some ⟨apart, SortedSet.ofList [up 5 0]⟩] := by
    refine .cons ?_ (.cons ?_ (.cons ?_ .nil)) <;> rw [Line.read, Text.decode?_encode]
    all_goals cbv
  have hs : Table.ofLog {} left = .ok _ :=
    Table.ofLog_of_forall₂_read (by decide +kernel) hleft
  have ht : Table.ofLog {} right = .ok _ :=
    Table.ofLog_of_forall₂_read (by decide +kernel) hright
  obtain ⟨-, -, a, m, b, hwritten, ha, hm, hb, ham, hbm, hagain⟩ :=
    loses_nothing (ofLogs left right) hs ht
  refine ⟨a, m, b, hwritten, ?_, ?_, ?_, ham.trans hs.symm, hbm.trans ht.symm,
    (hagain (ofLogs (a ++ m) (b ++ m)) rfl rfl rfl).2⟩
  · refine ha.trans (congrArg Except.ok ?_)
    cbv
  · refine hm.trans (congrArg Except.ok ?_)
    cbv
  · refine hb.trans (congrArg Except.ok ?_)
    cbv

end Comparison

end RowFlips
