import RowFlips.Proofs.Tool.Compile
import RowFlips.Proofs.Tool.Render

/-!
# Failing without a trace

A tool that lacks something leaves the directory as it was. What it needs is told by its inputs
alone: the configuration must load, and so must each log, down to its last line. A log that becomes
an image must also have its targets as far apart as is asked for, and the image must be one that can
be made. Only when all of this is there does a tool write to a file.

Most tools do not print anything before either. The tool that shows a log and the one that counts
what is in logs print as they read, so they may fail in the middle; but counts that are printed as
one report are not printed before all are there.

## Main results

* `Script.RestsOn.needing`: what a script rests on that needs something first.
* `Command.restsOn_ready`: what the script of a tool rests on.
* `Tool.traceless`: what a run leaves behind that lacks something, and one that does not.
-/

namespace RowFlips

/-! ### What a script rests on -/

/-- Unless `p` holds the script fails and does no more than to print, nothing at all if it is quiet.
If `p` holds nothing but its actions can fail. -/
structure Script.RestsOn (s : Script) (p quiet : Prop) : Prop where
  fails : ¬p → ∃ texts f, s = ⟨texts.map .print, some f⟩ ∧ (quiet → texts = [])
  acts : p → ∃ actions, s = ⟨actions, none⟩

namespace Script.RestsOn

variable {α : Type} {x : Except Failure α} {script : α → Script} {s : Script} {p q quiet : Prop}

/-- What a script rests on may be said in other words. -/
theorem congr (h : s.RestsOn p quiet) (hpq : p ↔ q) : s.RestsOn q quiet :=
  propext hpq ▸ h

/-- A script without a failure of its own rests on nothing. -/
theorem of_failure_eq_none (h : s.failure = none) : s.RestsOn True quiet :=
  ⟨fun hp => absurd trivial hp, fun _ => ⟨s.actions, by rw [← h]⟩⟩

/-- A script that needs something rests on it, and on what it does with it. -/
theorem needing {p : α → Prop} (h : ∀ a, x = .ok a → (script a).RestsOn (p a) quiet) :
    (Script.needing x script).RestsOn (∃ a, x = .ok a ∧ p a) quiet := by
  cases x with
  | error f =>
    exact ⟨fun _ => ⟨[], f, rfl, fun _ => rfl⟩, fun ⟨a, ha, _⟩ => absurd ha error_ne_ok⟩
  | ok a =>
    refine (h a rfl).congr ⟨fun ha => ⟨a, rfl, ha⟩, ?_⟩
    rintro ⟨_, ⟨⟩, ha⟩
    exact ha

/-- A script that needs something, and then does not fail by itself, rests on it alone. -/
theorem needing_of_iff (hp : (∃ a, x = .ok a) ↔ p) (h : ∀ a, (script a).failure = none) :
    (Script.needing x script).RestsOn p quiet := by
  refine (needing fun a _ => of_failure_eq_none (h a)).congr ?_
  simpa only [and_true] using hp

/-- Printing first changes nothing but that the script is not quiet. -/
theorem after_print (h : s.RestsOn p quiet) (text : String) (hloud : ¬quiet) :
    (s.after (.print text)).RestsOn p quiet where
  fails hp := by
    obtain ⟨texts, f, rfl, -⟩ := h.fails hp
    exact ⟨text :: texts, f, rfl, fun hquiet => absurd hquiet hloud⟩
  acts hp := by
    obtain ⟨actions, rfl⟩ := h.acts hp
    exact ⟨.print text :: actions, rfl⟩

end Script.RestsOn

/-! ### What tools need -/

/-- The input is a log with which nothing is wrong. -/
def Input.Loads (cellSize : UInt32) (i : Input) : Prop :=
  ∃ log, i.read = .ok log ∧ ∀ raw ∈ Text.lines log, ¬Line.Faulty cellSize none raw

/-- An input gives a table exactly if it is a log with which nothing is wrong. -/
theorem Input.exists_table_iff {config : Config} {i : Input} :
    (∃ t, i.table config = .ok t) ↔ i.Loads config.cellSize := by
  have htable (t : Table) : i.table config = .ok t ↔
      ∃ log, i.read = .ok log ∧ Table.ofLog config log = .ok t := by
    have hbind : i.table config = .ok t ↔ _ := bind_eq_ok
    simpa only [mapError_eq_ok] using hbind
  simp only [htable, Loads, @exists_comm Table, exists_and_left, Table.ofLog_eq_ok_iff,
    Line.accepted_iff, exists_eq, and_true]

namespace Command

/-- The tool has all that it needs: its configuration, and each thing that it reads, as it needs
it. -/
def Ready : Command Input → Prop
  | compile a => ∃ config, Input.config a.config = .ok config ∧ ∃ log img,
      a.profile.read = .ok log ∧ Compiles config.cellSize log (a.distance.or config.distance) img
  | common a => ∃ config, Input.config a.config = .ok config ∧
      ∀ i ∈ a.profiles, i.Loads config.cellSize
  | stats a => ∃ config, Input.config a.config = .ok config ∧
      ∀ i ∈ a.files, i.Loads config.cellSize
  | render a => ∃ config, Input.config a.config = .ok config ∧ a.profile.Loads config.cellSize
  | compare a => ∃ config, Input.config a.config = .ok config ∧
      a.left.Loads config.cellSize ∧ a.right.Loads config.cellSize
  | query a => ∃ config, Input.config a.config = .ok config ∧ ∃ content img,
      a.table.read = .ok content ∧ Image.decode content = .ok img

/-- The tool prints nothing before it has all that it needs. -/
def IsQuiet {ι : Type} : Command ι → Prop
  | stats a => a.asJson = true
  | render _ => False
  | _ => True

end Command

/-! ### Tools that load first -/

/-- There is an image to write exactly if its tool is `Command.Ready`. -/
theorem CompileArgs.exists_image_iff {a : CompileArgs Input} :
    (∃ img, a.image = .ok img) ↔ (Command.compile a).Ready := by
  constructor
  · rintro ⟨img, himage⟩
    obtain ⟨config, hconfig, hrest⟩ := bind_eq_ok.1 himage
    obtain ⟨node, hnode, hrest⟩ := bind_eq_ok.1 hrest
    obtain ⟨checked, -, hrest⟩ := bind_eq_ok.1 hrest
    obtain ⟨log, hlog, -⟩ := bind_eq_ok.1 hrest
    have hread : a.profile.read = .ok log :=
      mapError_eq_ok.2 (bind_eq_ok.2 ⟨node, mapError_eq_ok.1 hnode, mapError_eq_ok.1 hlog⟩)
    exact ⟨config, hconfig, log, img, hread, (image_eq_ok_iff hconfig hread).1 himage⟩
  · rintro ⟨config, hconfig, log, img, hread, hcompiles⟩
    exact ⟨img, (image_eq_ok_iff hconfig hread).2 hcompiles⟩

/-- There is something in common to print exactly if its tool is `Command.Ready`. -/
theorem CommonArgs.exists_result_iff {a : CommonArgs Input} :
    (∃ r, a.result = .ok r) ↔ (Command.common a).Ready := by
  simp only [result, exists_bind_eq_ok, exists_pure_eq_ok, exists_mapM_eq_ok, and_true,
    Input.exists_table_iff, Command.Ready]

/-- There are parts to write exactly if their tool is `Command.Ready`. -/
theorem CompareArgs.exists_result_iff {a : CompareArgs Input} :
    (∃ r, a.result = .ok r) ↔ (Command.compare a).Ready := by
  simp only [result, exists_bind_eq_ok, exists_pure_eq_ok, and_true, exists_and_right,
    Input.exists_table_iff, Command.Ready]

/-- There is an answer to print exactly if its tool is `Command.Ready`. -/
theorem QueryArgs.exists_result_iff {a : QueryArgs Input} :
    (∃ r, a.result = .ok r) ↔ (Command.query a).Ready := by
  simp only [result, exists_bind_eq_ok, exists_pure_eq_ok, mapError_eq_ok, and_true,
    exists_and_left, Command.Ready]

/-! ### Tools that print as they read -/

namespace StatsArgs

variable {quiet : Prop}

/-- Counting what is in logs, one after the other, rests on all of them, and prints as it reads. -/
theorem restsOn_scriptFrom (hloud : ¬quiet) (config : Config) (files : List Input) :
    (scriptFrom config files).RestsOn (∀ i ∈ files, i.Loads config.cellSize) quiet := by
  induction files with
  | nil =>
    have hnothing : (scriptFrom config []).RestsOn True quiet := .of_failure_eq_none rfl
    exact hnothing.congr (iff_of_true trivial (List.forall_mem_nil _))
  | cons i files ih =>
    refine (Script.RestsOn.needing fun t _ => ih.after_print _ hloud).congr ?_
    rw [exists_and_right, Input.exists_table_iff, List.forall_mem_cons]

/-- So does counting for one report, which prints nothing before it is done. -/
theorem restsOn_jsonScript (date : String) (config : Config) (files : List Input) :
    (jsonScript date config files).RestsOn (∀ i ∈ files, i.Loads config.cellSize) quiet := by
  have hentry (i : Input) : (∃ v, entry config i = .ok v) ↔ i.Loads config.cellSize := by
    simp only [entry, map_eq_ok, ← Input.exists_table_iff, @exists_comm Json,
      exists_and_left, exists_eq', and_true]
  refine Script.RestsOn.needing_of_iff ?_ fun _ => rfl
  simp only [exists_mapM_eq_ok, hentry]

end StatsArgs

/-- Showing a log rests on each of its lines, and prints as it reads. -/
theorem RenderArgs.restsOn_scriptFrom {quiet : Prop} (hloud : ¬quiet) (config : Config)
    (lines : List Text.Bytes) : (scriptFrom config 0 lines).RestsOn
      (∀ raw ∈ lines, ¬Line.Faulty config.cellSize none raw) quiet := by
  rw [scriptFrom_eq, ← Reader.told_snd_eq_none_iff (n := 0)]
  obtain ⟨as, end?⟩ := Reader.told config.cellSize none 0 lines
  constructor
  · intro hend
    obtain ⟨e, rfl⟩ := Option.ne_none_iff_exists'.1 hend
    exact ⟨_, _, rfl, fun hquiet => absurd hquiet hloud⟩
  · rintro rfl
    exact ⟨_, rfl⟩

/-- What the script of a tool rests on. -/
theorem Command.restsOn_ready (date : String) (inputs : Command Input) :
    (inputs.script date).RestsOn inputs.Ready inputs.IsQuiet := by
  cases inputs with
  | compile a => exact Script.RestsOn.needing_of_iff CompileArgs.exists_image_iff fun _ => rfl
  | common a =>
    refine Script.RestsOn.needing_of_iff CommonArgs.exists_result_iff fun _ => ?_
    dsimp only
    split <;> rfl
  | stats a =>
    refine Script.RestsOn.needing fun config _ => ?_
    by_cases hjson : a.asJson = true
    · rw [if_pos hjson]
      exact StatsArgs.restsOn_jsonScript date config a.files
    · rw [if_neg hjson]
      exact StatsArgs.restsOn_scriptFrom hjson config a.files
  | render a =>
    refine Script.RestsOn.needing fun config _ => Script.RestsOn.needing fun log _ => ?_
    exact RenderArgs.restsOn_scriptFrom not_false config (Text.lines log)
  | compare a => exact Script.RestsOn.needing_of_iff CompareArgs.exists_result_iff fun _ => rfl
  | query a => exact Script.RestsOn.needing_of_iff QueryArgs.exists_result_iff fun _ => rfl

/-! ### Runs of tools -/

/-- **A tool that lacks something leaves no trace.** Let `args` be those of some `command`, and
`inputs` what this finds in the directory `d` and at `stdin`. If these are not `Ready`, that is, if
the configuration, a log or an image is not as the tool needs it, the run ends with status 1 and the
report of some failure `f`, and the directory is `d` as before. Nothing has been printed then if the
tool `IsQuiet`; the others print as they read. If the inputs are `Ready`, the run performs the
`actions` of the script, which has no failure at its end, so that only an action can make the run
fail. -/
theorem Tool.traceless {tool : Tool} {args : List String} {d : Directory} {stdin : Text.Bytes}
    {date : String} {command : Command Source} {inputs : Command Input}
    (hparse : Command.parse? tool args = some command)
    (hopen : command.openIn d stdin = inputs) :
    (¬inputs.Ready → ∃ texts f, tool.run args d stdin date = ⟨1, texts, Failure.report f, d⟩ ∧
      (inputs.IsQuiet → texts = [])) ∧
    (inputs.Ready → ∃ actions, inputs.script date = ⟨actions, none⟩ ∧
      tool.run args d stdin date = performFrom d none actions) := by
  rw [Tool.run_eq_perform hparse hopen]
  have hrests := inputs.restsOn_ready date
  constructor
  · intro hready
    obtain ⟨texts, f, hscript, hquiet⟩ := hrests.fails hready
    rw [hscript, Script.perform, performFrom_map_print]
    exact ⟨texts, f, rfl, hquiet⟩
  · intro hready
    obtain ⟨actions, hscript⟩ := hrests.acts hready
    exact ⟨actions, hscript, by rw [hscript]; rfl⟩

/-- A log, a log that ends with a line that is not text, and a file to write. -/
def twoLogs : Directory :=
  let line := Text.encode "(0 0 0 0 1) :".toList
  .ofList [("a", some ([line].flatMap (· ++ [10]))),
    ("b", some ([line, [255]].flatMap (· ++ [10]))), ("o", some [])]

/-- The last line of the last log keeps what is common to both logs from being written, and the
counts of the first from being printed. The first log alone is enough to go on. -/
theorem Tool.traceless_twoLogs :
    (∃ f, Tool.run .common ["a", "b", "-o", "o"] twoLogs [] "" =
      ⟨1, [], Failure.report f, twoLogs⟩) ∧
    (∃ f, Tool.run .stats ["--json", "a", "b"] twoLogs [] "" =
      ⟨1, [], Failure.report f, twoLogs⟩) ∧
    ∃ actions, actions ≠ [] ∧
      Tool.run .common ["a", "-o", "o"] twoLogs [] "" = performFrom twoLogs none actions := by
  let line := Text.encode "(0 0 0 0 1) :".toList
  let a : Input := ⟨"a", .ok (.file ([line].flatMap (· ++ [10])))⟩
  let b : Input := ⟨"b", .ok (.file ([line, [255]].flatMap (· ++ [10])))⟩
  have ha : a.Loads 8 := by
    have hlines : Text.lines ([line].flatMap (· ++ [10])) = [line] :=
      Text.lines_flatMap (by decide +kernel)
    have hread : List.Forall₂ (fun raw x => Line.read 8 none raw = .ok x) [line]
        [some ⟨.single ⟨0, 0, 0, 0, 1, 0⟩, SortedSet.empty⟩] := by
      refine .cons ?_ .nil
      rw [Line.read, Text.decode?_encode]
      cbv
    refine ⟨_, rfl, ?_⟩
    rw [hlines]
    exact (Line.told_of_forall₂_read hread).1
  have hb : ¬∀ i ∈ [a, b], i.Loads 8 := by
    intro hloads
    have hlines : Text.lines ([line, [255]].flatMap (· ++ [10])) = [line, [255]] :=
      Text.lines_flatMap (by decide +kernel)
    obtain ⟨log, ⟨⟩, hsound⟩ := hloads b (by simp)
    refine hsound [255] ?_ ⟨0, _, .notText (by cbv)⟩
    rw [hlines]
    simp
  have hcommon : Command.parse? .common ["a", "b", "-o", "o"] =
      some (.common ⟨[.path "a", .path "b"], "o", none⟩) := by cbv
  have hstats : Command.parse? .stats ["--json", "a", "b"] =
      some (.stats ⟨[.path "a", .path "b"], true, none⟩) := by cbv
  have hone : Command.parse? .common ["a", "-o", "o"] =
      some (.common ⟨[.path "a"], "o", none⟩) := by cbv
  have hcommon' : (Command.common ⟨[.path "a", .path "b"], "o", none⟩).openIn twoLogs [] =
      .common ⟨[a, b], "o", none⟩ := by cbv
  have hstats' : (Command.stats ⟨[.path "a", .path "b"], true, none⟩).openIn twoLogs [] =
      .stats ⟨[a, b], true, none⟩ := by cbv
  have hone' : (Command.common ⟨[.path "a"], "o", none⟩).openIn twoLogs [] =
      .common ⟨[a], "o", none⟩ := by cbv
  refine ⟨?_, ?_, ?_⟩
  · obtain ⟨texts, f, houtcome, hquiet⟩ := (Tool.traceless hcommon hcommon').1 <| by
      rintro ⟨config, ⟨⟩, hloads⟩
      exact hb hloads
    rw [hquiet trivial] at houtcome
    exact ⟨f, houtcome⟩
  · obtain ⟨texts, f, houtcome, hquiet⟩ := (Tool.traceless hstats hstats').1 <| by
      rintro ⟨config, ⟨⟩, hloads⟩
      exact hb hloads
    rw [hquiet rfl] at houtcome
    exact ⟨f, houtcome⟩
  · have hready : (Command.common ⟨[a], "o", none⟩).Ready :=
      ⟨{}, rfl, List.forall_mem_singleton.2 ha⟩
    obtain ⟨actions, hscript, houtcome⟩ := (Tool.traceless hone hone').2 hready
    obtain ⟨r, hresult⟩ := CommonArgs.exists_result_iff.2 hready
    have hdash : CommonArgs.isDash "o" = false := by cbv
    refine ⟨actions, ?_, houtcome⟩
    rintro rfl
    simp [Command.script, CommonArgs.script, Script.needing, hresult, hdash] at hscript

end RowFlips
