import RowFlips.Proofs.Image.Distance
import RowFlips.Proofs.Image.File
import RowFlips.Proofs.Image.Roundtrip
import RowFlips.Proofs.Table.Load
import RowFlips.Proofs.Tool.Directory
import RowFlips.Tool.Run

/-!
# Making an image of a log

The distance of the targets is checked twice: line by line while the log is read, and attack by
attack while the image is made. If none is asked for, only the second check is made, with the
distance of the first attack of the table. All of this comes to the same: every attack has its
targets as far apart as the image says. So the image depends on what the lines tell and, for logs
without attacks, on the distance asked for.

## Main results

* `Compiles.sameLines`: logs of the same lines make the same image.
* `Compiles.of_none`, `Compiles.to_none`: asking for a distance, or having it found.
* `Compilation.Makes.spec`, `Compilation.succeeds_iff`: what a run of the tool does.
* `Compilation.preserves_log`: a file that was written gives back the table of the log, and logs of
  the same lines, with the distance asked for or found, make the same file.
-/

namespace RowFlips

open Text (Bytes)

/-! ### Images of logs -/

/-- The attacks that the lines of a log tell of. -/
def toldAttacks (cellSize : UInt32) (log : Bytes) : List Attack :=
  (Text.lines log).filterMap (Line.told? cellSize)

/-- The log makes the image if the distance is asked for: the distance is one that targets can be
checked for, nothing is wrong with any line, and the image is that of the table of the log. -/
structure Compiles (cellSize : UInt32) (log : Bytes) (distance : Option UInt32) (img : Image) :
    Prop where
  distance_lt : ∀ d ∈ distance, d.toNat < 1 <<< 31
  sound : ∀ raw ∈ Text.lines log,
    ¬Line.Faulty cellSize (distance.map fun d => (d.toNat : Int)) raw
  image_eq : Image.ofTable (Table.ofAttacks (toldAttacks cellSize log)) distance = .ok img

namespace Compiles

variable {cellSize : UInt32} {log log' : Bytes} {distance : Option UInt32} {d : UInt32}
  {img : Image}

/-- Logs of the same lines make the same image. -/
theorem sameLines (hsame : SameLines log log') (h : Compiles cellSize log distance img) :
    Compiles cellSize log' distance img where
  distance_lt := h.distance_lt
  sound := (hsame.forall_iff fun _ hraw => Line.not_faulty_of_isSilent hraw).1 h.sound
  image_eq := (hsame.alike cellSize).ofAttacks_eq ▸ h.image_eq

/-- The table of a log has an attack on the targets of each attack that a line tells of. -/
theorem exists_mem_of_told {raw : Bytes} {a : Attack} (hraw : raw ∈ Text.lines log)
    (ha : Line.told? cellSize raw = some a) :
    ∃ b ∈ (Table.ofAttacks (toldAttacks cellSize log)).attacks, b.targets = a.targets :=
  ((Alike.ofAttacks _).targets a.targets).2 ⟨a, List.mem_filterMap.2 ⟨raw, hraw, ha⟩, rfl⟩

/-- The distance that was found may as well be asked for. -/
theorem of_none (h : Compiles cellSize log none img)
    (hne : (Table.ofAttacks (toldAttacks cellSize log)).attacks ≠ []) :
    Compiles cellSize log (some img.distance) img := by
  obtain ⟨a, as, has⟩ := List.exists_cons_of_ne_nil hne
  have hrows : ∀ b ∈ (Table.ofAttacks (toldAttacks cellSize log)).attacks,
      b.targets.first.addRows? img.distance.toNat = some b.targets.second := fun b hb =>
    Image.addRows?_of_ofAttacks h.image_eq hb
  have ha := hrows a (has ▸ List.mem_cons_self)
  refine ⟨?_, ?_, ?_⟩
  · rintro d ⟨⟩
    exact Nat.lt_trans (Targets.distance_of_addRows? ha).2 (by decide)
  · intro raw hraw
    refine Line.not_faulty_some_iff.2 ⟨h.sound raw hraw, ?_⟩
    intro c hc
    obtain ⟨b, hb, hbc⟩ := exists_mem_of_told hraw hc
    rw [← hbc]
    exact (Targets.distance_of_addRows? (hrows b hb)).1
  · have himage := h.image_eq
    rw [Image.ofTable, has] at himage ⊢
    rwa [← Image.ofAttacks_none_eq ha]

/-- Nothing is wrong with the lines of a log that makes an image, apart from distances. -/
theorem sound_none (h : Compiles cellSize log distance img) :
    ∀ raw ∈ Text.lines log, ¬Line.Faulty cellSize none raw := by
  intro raw hraw
  cases distance with
  | none => exact h.sound raw hraw
  | some d => exact (Line.not_faulty_some_iff.1 (h.sound raw hraw)).1

/-- A distance that was asked for may as well be found. -/
theorem to_none (h : Compiles cellSize log (some d) img)
    (hne : (Table.ofAttacks (toldAttacks cellSize log)).attacks ≠ []) :
    Compiles cellSize log none img := by
  obtain ⟨a, as, has⟩ := List.exists_cons_of_ne_nil hne
  refine ⟨nofun, h.sound_none, ?_⟩
  have himage := h.image_eq
  rw [Image.ofTable, has] at himage ⊢
  rwa [Image.ofAttacks_none_eq (Image.addRows?_of_ofAttacks_some himage)]

/-- A log with a line that is neither blank nor a comment has attacks. -/
theorem attacks_ne_nil (h : Compiles cellSize log distance img)
    (hspeaks : ∃ raw ∈ Text.lines log, ¬Line.IsSilent raw) :
    (Table.ofAttacks (toldAttacks cellSize log)).attacks ≠ [] := by
  obtain ⟨raw, hraw, hsilent⟩ := hspeaks
  obtain ⟨a, ha⟩ := Option.ne_none_iff_exists'.1
    (mt (Line.told?_eq_none_iff (h.sound raw hraw)).1 hsilent)
  obtain ⟨b, hb, -⟩ := exists_mem_of_told hraw ha
  exact List.ne_nil_of_mem hb

/-- A log of fewer than 2 ^ 32 lines has fewer attacks. -/
theorem length_attacks_lt (cellSize : UInt32) (h : (Text.lines log).length < UInt32.size) :
    (Table.ofAttacks (toldAttacks cellSize log)).attacks.length < UInt32.size := by
  refine Nat.lt_of_le_of_lt (length_joinNeighbours_le _) ?_
  rw [(sortOn_perm _ _).length_eq]
  exact Nat.lt_of_le_of_lt (List.length_filterMap_le _ _) h

/-- The file of the image reads back, and its table is that of the log. -/
theorem decode_toFile {config : Config} (h : Compiles config.cellSize log distance img)
    (hlines : (Text.lines log).length < UInt32.size) :
    Image.decode img.toFile = .ok img ∧
      ∃ t, img.toTable? = some t ∧ Table.ofLog config log = .ok t := by
  obtain ⟨ss, hss, hdescribes⟩ := Image.describes_of_ofAttacks h.image_eq
  have hlen := length_attacks_lt config.cellSize hlines
  obtain ⟨hdecode, htable, -⟩ := Image.roundtrip_ofAttacks hlen h.image_eq
  rw [(Table.canonical_ofAttacks _).ofAttacks_eq] at htable
  have haccepted : ∀ raw ∈ Text.lines log, Line.Accepted config.cellSize raw :=
    fun raw hraw => Line.accepted_iff.2 (h.sound_none raw hraw)
  rw [Image.toFile_eq_encode (hdescribes.wellFormed (hss ▸ hlen))]
  exact ⟨hdecode, _, htable, Table.ofLog_eq_ok_iff.2 ⟨haccepted, rfl⟩⟩

end Compiles

/-! ### Runs of the tool -/

namespace CompileArgs

/-- A distance can be checked for exactly if a signed word of 32 bits holds it. -/
theorem checkedDistance_eq_ok_iff {distance : Option UInt32} {checked : Option Int} :
    checkedDistance distance = .ok checked ↔
      (∀ d ∈ distance, d.toNat < 1 <<< 31) ∧
        distance.map (fun d => (d.toNat : Int)) = checked := by
  cases distance with
  | none => simp [checkedDistance]
  | some d =>
    simp only [checkedDistance, Option.mem_some_iff, forall_eq', Option.map_some]
    split
    · rename_i h
      rw [Except.ok.injEq]
      exact (and_iff_right h).symm
    · rename_i h
      exact iff_of_false error_ne_ok fun h' => h h'.1

/-- The image to write is the one that the log makes. -/
theorem image_eq_ok_iff {a : CompileArgs Input} {config : Config} {log : Bytes} {img : Image}
    (hconfig : Input.config a.config = .ok config) (hlog : a.profile.read = .ok log) :
    a.image = .ok img ↔
      Compiles config.cellSize log (a.distance.or config.distance) img := by
  obtain ⟨node, hnode, hcontent⟩ : ∃ node, a.profile.node = .ok node ∧ node.content = .ok log :=
    bind_eq_ok.1 (mapError_eq_ok.1 hlog)
  simp only [image, bind_eq_ok, mapError_eq_ok, hconfig, hnode, hcontent, Except.ok.injEq,
    exists_eq_left', checkedDistance_eq_ok_iff, Reader.attacks_ofContent_eq_ok_iff]
  constructor
  · rintro ⟨_, ⟨hdistance, rfl⟩, _, ⟨hsound, rfl⟩, himage⟩
    rw [(Alike.joinNeighbours _).ofAttacks_eq] at himage
    exact ⟨hdistance, hsound, himage⟩
  · rintro ⟨hdistance, hsound, himage⟩
    refine ⟨_, ⟨hdistance, rfl⟩, _, ⟨hsound, rfl⟩, ?_⟩
    rwa [(Alike.joinNeighbours _).ofAttacks_eq]

end CompileArgs

/-- A run of the tool that makes images: its arguments are understood, its configuration and its log
can be read, and the output path leads to a file that can be written. -/
structure Compilation where
  args : List String
  directory : Directory
  stdin : Bytes
  date : String
  command : Command Source
  inputs : CompileArgs Input
  config : Config
  log : Bytes
  /-- What the output path leads to. -/
  file : List String
  parse_eq : Command.parse? .compile args = some command
  openIn_eq : command.openIn directory stdin = .compile inputs
  config_eq : Input.config inputs.config = .ok config
  log_eq : inputs.profile.read = .ok log
  sink_eq : directory.sink inputs.output = .ok (.file file)

namespace Compilation

variable {c c' : Compilation} {img : Image}

/-- What the run leaves behind. -/
def outcome (c : Compilation) : Outcome := Tool.run .compile c.args c.directory c.stdin c.date

/-- The run ends with status 0. -/
def Succeeds (c : Compilation) : Prop := c.outcome.status = 0

/-- What is read at the output path after the run. -/
def written (c : Compilation) : Except FileFault Bytes := c.outcome.directory.read c.inputs.output

/-- The distance asked for, by an argument or by the configuration. -/
def distance? (c : Compilation) : Option UInt32 := c.inputs.distance.or c.config.distance

/-- The run makes the image if nothing else is in its way. -/
def Makes (c : Compilation) (img : Image) : Prop :=
  Compiles c.config.cellSize c.log c.distance? img

/-- A run performs the script of its inputs. -/
theorem outcome_eq (c : Compilation) :
    c.outcome = c.inputs.script.perform c.directory :=
  Tool.run_eq_perform c.parse_eq c.openIn_eq

/-- A run that makes an image succeeds and writes it. -/
theorem Makes.spec (h : c.Makes img) : c.Succeeds ∧ c.written = .ok img.toFile := by
  have himage := (CompileArgs.image_eq_ok_iff c.config_eq c.log_eq).2 h
  have houtcome : c.outcome.status = 0 ∧
      c.outcome.directory = c.directory.put c.file (.file img.toFile) := by
    rw [c.outcome_eq, CompileArgs.script, himage]
    simp only [Script.needing, Script.perform, performFrom, Directory.writeSized, c.sink_eq]
    exact ⟨rfl, rfl⟩
  refine ⟨houtcome.1, ?_⟩
  rw [written, houtcome.2]
  exact Directory.read_put_of_sink c.sink_eq

/-- Runs that make one image write the same file. -/
theorem Makes.written_eq (h : c.Makes img) (h' : c'.Makes img) : c'.written = c.written :=
  h'.spec.2.trans h.spec.2.symm

/-- The image that is read back is the one that was made. -/
theorem Makes.eq_of_decode {made : Image} {b : Bytes} (h : c.Makes made)
    (hlines : (Text.lines c.log).length < UInt32.size) (hb : c.written = .ok b)
    (hdecode : Image.decode b = .ok img) : made = img := by
  obtain rfl : made.toFile = b := Except.ok.inj (h.spec.2.symm.trans hb)
  exact Except.ok.inj ((h.decode_toFile hlines).1.symm.trans hdecode)

/-- Runs on logs of the same lines that ask for the same distance make the same images. -/
theorem makes_iff (hcells : c'.config.cellSize = c.config.cellSize)
    (hsame : SameLines c.log c'.log) (hdistance : c'.distance? = c.distance?) :
    c'.Makes img ↔ c.Makes img := by
  rw [Makes, Makes, hcells, hdistance]
  exact ⟨.sameLines hsame.symm, .sameLines hsame⟩

/-- A run succeeds exactly if it makes an image. -/
theorem succeeds_iff : c.Succeeds ↔ ∃ img, c.Makes img := by
  refine ⟨?_, fun ⟨img, h⟩ => h.spec.1⟩
  intro h
  cases himage : c.inputs.image with
  | ok img => exact ⟨img, (CompileArgs.image_eq_ok_iff c.config_eq c.log_eq).1 himage⟩
  | error f =>
    rw [Succeeds, c.outcome_eq, CompileArgs.script, himage] at h
    cases h

/-- **A run of the tool preserves its log.** If the run `c` `Succeeds`, the file `written` by it
decodes to an image, and this stands for the table that `Table.ofLog` loads the log as. Let another
run `c'` have the same bytes to a cell and a log with the `SameLines`. If it asks for the same
`distance?`, it succeeds exactly if `c` does, and writes the same file. If `c` asks for none and its
log is not silent, `c'` may as well ask for the distance that the image of `c` has. And if `c'`
succeeds with some distance `d` asked for, `c` succeeds without and writes the same file. -/
theorem preserves_log (c : Compilation) (hlines : (Text.lines c.log).length < UInt32.size) :
    (c.Succeeds → ∃ b img t, c.written = .ok b ∧ Image.decode b = .ok img ∧
      img.toTable? = some t ∧ Table.ofLog c.config c.log = .ok t) ∧
    ∀ c' : Compilation, c'.config.cellSize = c.config.cellSize → SameLines c.log c'.log →
      (c'.distance? = c.distance? →
        (c'.Succeeds ↔ c.Succeeds) ∧ (c.Succeeds → c'.written = c.written)) ∧
      ((∃ raw ∈ Text.lines c.log, ¬Line.IsSilent raw) → c.distance? = none →
        (∀ b img, c.Succeeds → c.written = .ok b → Image.decode b = .ok img →
          c'.distance? = some img.distance → c'.Succeeds ∧ c'.written = c.written) ∧
        ∀ d, c'.distance? = some d → c'.Succeeds → c.Succeeds ∧ c'.written = c.written) := by
  constructor
  · intro h
    obtain ⟨img, himg⟩ := succeeds_iff.1 h
    obtain ⟨hdecode, t, htable, hload⟩ := himg.decode_toFile hlines
    exact ⟨img.toFile, img, t, himg.spec.2, hdecode, htable, hload⟩
  · intro c' hcells hsame
    constructor
    · intro hdistance
      refine ⟨by simp only [succeeds_iff, makes_iff hcells hsame hdistance], ?_⟩
      intro h
      obtain ⟨img, himg⟩ := succeeds_iff.1 h
      exact himg.written_eq ((makes_iff hcells hsame hdistance).2 himg)
    · intro hspeaks hnone
      constructor
      · intro b img h hb hdecode hd
        obtain ⟨made, hmade⟩ := succeeds_iff.1 h
        obtain rfl : made = img := hmade.eq_of_decode hlines hb hdecode
        have hfound : Compiles c.config.cellSize c.log none made := by rwa [Makes, hnone] at hmade
        have hasked := (hfound.of_none (hfound.attacks_ne_nil hspeaks)).sameLines hsame
        have hmade' : c'.Makes made := by rwa [Makes, hcells, hd]
        exact ⟨hmade'.spec.1, hmade.written_eq hmade'⟩
      · intro d hd h'
        obtain ⟨img, hmade'⟩ := succeeds_iff.1 h'
        have hasked : Compiles c.config.cellSize c.log (some d) img := by
          rw [Makes, hcells, hd] at hmade'
          exact hmade'.sameLines hsame.symm
        have hmade : c.Makes img := by
          rw [Makes, hnone]
          exact hasked.to_none (hasked.attacks_ne_nil hspeaks)
        exact ⟨hmade.spec.1, hmade.written_eq hmade'⟩

/-- A run on a file of the given lines that asks for no distance. -/
def ofLines (lines : List Bytes) : Compilation where
  args := ["log", "image"]
  directory := .ofList [("log", some (lines.flatMap (· ++ [10])))]
  stdin := []
  date := ""
  command := .compile ⟨.path "log", "image", none, none⟩
  inputs := ⟨⟨"log", .ok (.file (lines.flatMap (· ++ [10])))⟩, "image", none, none⟩
  config := {}
  log := lines.flatMap (· ++ [10])
  file := ["image"]
  parse_eq := by cbv
  openIn_eq := by cbv
  config_eq := rfl
  log_eq := rfl
  sink_eq := by cbv

/-- A run on a file of the given lines that asks for a distance of two rows. -/
def ofLinesApart (lines : List Bytes) : Compilation :=
  { ofLines lines with
    args := ["--distance", "2", "log", "image"]
    command := .compile ⟨.path "log", "image", none, some 2⟩
    inputs := ⟨⟨"log", .ok (.file (lines.flatMap (· ++ [10])))⟩, "image", none, some 2⟩
    parse_eq := by cbv
    openIn_eq := by cbv }

/-- Two runs on targets two rows apart. -/
def apartLines : List Bytes :=
  ["(0 0 0 0 4) (0 0 0 0 6) :(0 0 0 0 5) 0|1|0", "(0 0 0 0 7) (0 0 0 0 9) :(0 0 0 0 8) 0|2|0"].map
    fun s => Text.encode s.toList

/-- The distance of two rows is found in the log. On the lines in the other order and with both
repeated, a run that asks for no distance and one that asks for two rows write the same file, and
what the second does follows for the first run. -/
theorem preserves_log_apartLines :
    ∃ b img t, (ofLines apartLines).written = .ok b ∧ Image.decode b = .ok img ∧
      img.distance = 2 ∧ img.toTable? = some t ∧
      Table.ofLog {} (apartLines.flatMap (· ++ [10])) = .ok t ∧
      (ofLines (apartLines.reverse ++ apartLines)).written = .ok b ∧
      (ofLinesApart (apartLines.reverse ++ apartLines)).Succeeds ∧
      (ofLinesApart (apartLines.reverse ++ apartLines)).written = .ok b ∧
      (ofLines apartLines).Succeeds := by
  let attacks := [Image.rowAttack 4 0 0, Image.rowAttack 7 0 1]
  let img := Image.rowImage [⟨Image.bankCell 4 0, 1, 0⟩, ⟨Image.bankCell 7 0, 1, 1⟩]
    [⟨Image.bankCell 5 0, 0, 1, 0⟩, ⟨Image.bankCell 8 0, 0, 2, 0⟩]
  have hends : ∀ l ∈ apartLines, 10 ∉ l ∧ 13 ∉ l := by decide +kernel
  have hlines : Text.lines (ofLines apartLines).log = apartLines := Text.lines_flatMap hends
  have hlines' : Text.lines (ofLinesApart (apartLines.reverse ++ apartLines)).log =
      apartLines.reverse ++ apartLines :=
    Text.lines_flatMap (by simpa using hends)
  have hread : List.Forall₂ (fun raw x => Line.read 8 none raw = .ok x) apartLines
      (attacks.map some) := by
    refine .cons ?_ (.cons ?_ .nil)
    · rw [Line.read, Text.decode?_encode]
      cbv
    · rw [Line.read, Text.decode?_encode]
      cbv
  obtain ⟨hsound, htold⟩ := Line.told_of_forall₂_read hread
  have htable : Table.ofAttacks attacks = ⟨attacks⟩ :=
    Table.Canonical.ofAttacks_eq (t := ⟨attacks⟩) (by decide)
  have htoldAttacks : toldAttacks 8 (ofLines apartLines).log = attacks := by
    rw [toldAttacks, hlines, htold]
    rfl
  have hmakes : (ofLines apartLines).Makes img := by
    refine ⟨by rintro d ⟨⟩, hlines.symm ▸ hsound, ?_⟩
    change Image.ofTable (Table.ofAttacks (toldAttacks 8 (ofLines apartLines).log)) none = _
    rw [htoldAttacks, htable]
    rfl
  have hsame : SameLines (ofLines apartLines).log
      (ofLinesApart (apartLines.reverse ++ apartLines)).log := by
    refine SameLines.of_perm apartLines ?_ ?_
    · rw [hlines, hlines']
      exact (List.reverse_perm apartLines).append_right apartLines
    · intro raw hraw
      rw [hlines]
      exact Or.inl hraw
  have hspeaks : ∃ raw ∈ Text.lines (ofLines apartLines).log, ¬Line.IsSilent raw := by
    have ha : Image.rowAttack 4 0 0 ∈ toldAttacks 8 (ofLines apartLines).log :=
      htoldAttacks ▸ List.mem_cons_self
    obtain ⟨raw, hraw, ha⟩ := List.mem_filterMap.1 ha
    refine ⟨raw, hraw, fun hsilent => ?_⟩
    rw [Line.told?_of_isSilent hsilent] at ha
    cases ha
  have hlen : (Text.lines (ofLines apartLines).log).length < UInt32.size := by
    have htwo : apartLines.length = 2 := rfl
    rw [hlines, htwo]
    decide
  obtain ⟨hback, hother⟩ := preserves_log (ofLines apartLines) hlen
  obtain ⟨b, img', t, hb, hdecode, htable', hload⟩ := hback hmakes.spec.1
  obtain rfl : img = img' := hmakes.eq_of_decode hlen hb hdecode
  have hcells (lines : List Bytes) : (ofLines lines).config.cellSize = 8 := rfl
  have hdistance (lines : List Bytes) : (ofLines lines).distance? = none := rfl
  have hshuffled := (hother (ofLines (apartLines.reverse ++ apartLines))
    ((hcells _).trans (hcells _).symm) hsame).1 ((hdistance _).trans (hdistance _).symm)
  obtain ⟨hasked, hfound⟩ :=
    (hother (ofLinesApart (apartLines.reverse ++ apartLines)) rfl hsame).2 hspeaks rfl
  obtain ⟨hsucceeds, hwritten⟩ := hasked _ img hmakes.spec.1 hb hdecode rfl
  exact ⟨_, img, t, hb, hdecode, rfl, htable', hload, (hshuffled.2 hmakes.spec.1).trans hb,
    hsucceeds, hwritten.trans hb, (hfound 2 rfl hsucceeds).1⟩

end Compilation

end RowFlips
