import RowFlips.Proofs.Address
import RowFlips.Proofs.Log.Run
import RowFlips.Proofs.Log.Spelling

/-!
# What a line tells

A stored line says nothing if it is blank or a comment. Any other line tells of an attack unless
something is wrong with it: it is not text, it does not stand for a run, its run does not name one
row or two, it names two that are not as far apart as the reader asks, or it has a corruption past
the last column. Reading a line tells these apart and names the first thing that is wrong; of all
corruptions past the last column that is the first.

## Main results

* `Run.exists_flips_eq_ok_iff`, `Run.flips_eq_error_iff`: when the flips of a run can be told, and
  which corruption is named else.
* `Line.isSkipped_iff`: which lines say nothing.
* `Line.read_eq_error_iff`, `Line.read_eq_ok_iff`: what reading a line gives.
* `Line.told_of_forall₂_read`: what many lines tell.
* `Line.told?_eq_none_iff`: which lines tell of no attack.
* `Line.not_faulty_some_iff`: what asking for a distance comes to.
* `Line.accepted_iff`: which lines a reader accepts that asks for no distance.
-/

namespace RowFlips

/-! ### Corruptions within their rows -/

namespace Corruption

variable {c : Corruption} {victim : Address} {cellSize : UInt32}

/-- The row of the victim has the column of the corruption if cells hold `cellSize` bytes, a size
of 0 counting as 1. -/
def InRow (c : Corruption) (victim : Address) (cellSize : UInt32) : Prop :=
  victim.col.toNat + (c.offset / max cellSize 1).toNat ≤ 65535

/-- A corruption whose column the row has is turned into flips. -/
theorem exists_flips_of_inRow (h : c.InRow victim cellSize) :
    ∃ fs, c.flips victim cellSize = .ok fs := by
  have hcols := Address.addCols?_eq_some_iff.2 ⟨Nat.lt_succ_of_le h, rfl⟩
  simp only [flips, hcols]
  exact ⟨_, rfl⟩

/-- Any other is refused, and the error names its offset and the column of the victim. -/
theorem flips_of_not_inRow (h : ¬c.InRow victim cellSize) :
    c.flips victim cellSize = .error (.pastLastColumn c.offset victim.col) := by
  rw [flips]
  split
  · rfl
  · rename_i hcols
    exact absurd (Nat.le_of_lt_succ (Address.addCols?_eq_some_iff.1 hcols).1) h

/-- When a corruption is turned into flips. -/
theorem exists_flips_iff : (∃ fs, c.flips victim cellSize = .ok fs) ↔ c.InRow victim cellSize := by
  refine ⟨?_, exists_flips_of_inRow⟩
  rintro ⟨fs, hfs⟩
  by_contra h
  rw [flips_of_not_inRow h] at hfs
  cases hfs

/-- Why a corruption is refused: there is only one reason. -/
theorem flips_eq_error_iff {cause : Malformed} :
    c.flips victim cellSize = .error cause ↔
      ¬c.InRow victim cellSize ∧ cause = .pastLastColumn c.offset victim.col := by
  constructor
  · intro h
    have hrow : ¬c.InRow victim cellSize := by
      intro hrow
      obtain ⟨fs, hfs⟩ := exists_flips_of_inRow hrow
      rw [hfs] at h
      cases h
    rw [flips_of_not_inRow hrow] at h
    exact ⟨hrow, (Except.error.inj h).symm⟩
  · rintro ⟨hrow, rfl⟩
    exact flips_of_not_inRow hrow

end Corruption

namespace Run

variable {r : Run} {cellSize : UInt32}

/-- The flips of a run are those of its corruptions, one after the other. -/
theorem flips_eq (r : Run) (cellSize : UInt32) : r.flips cellSize =
    ((foundOf r.victims).mapM fun (p : Address × Corruption) =>
      p.2.flips p.1 cellSize).map List.flatten := by
  have hvictim (v : Address × List Corruption) : victimFlips cellSize v.1 v.2 =
      ((v.2.map (v.1, ·)).mapM fun (p : Address × Corruption) =>
        p.2.flips p.1 cellSize).map List.flatten := by
    rw [victimFlips, List.mapM_map]
    rfl
  rw [flips, foundOf, mapM_flatMap_flatten]
  simp only [hvictim]

/-- The flips of a run can be told exactly if no corruption is past the last column. -/
theorem exists_flips_eq_ok_iff :
    (∃ fs, r.flips cellSize = .ok fs) ↔ ∀ v ∈ r.victims, ∀ c ∈ v.2, c.InRow v.1 cellSize := by
  have hall : (∃ fs, r.flips cellSize = .ok fs) ↔
      ∀ p ∈ foundOf r.victims, p.2.InRow p.1 cellSize := by
    simp only [flips_eq, map_eq_ok, ← Corruption.exists_flips_iff, ← exists_mapM_eq_ok]
    grind
  rw [hall]
  constructor
  · intro h v hv c hc
    exact h (v.1, c) (mem_foundOf.2 ⟨v, hv, c, hc, rfl⟩)
  · intro h p hp
    obtain ⟨v, hv, c, hc, rfl⟩ := mem_foundOf.1 hp
    exact h v hv c hc

/-- The flips of a run cannot be told exactly if a corruption is past the last column, and the
first of these is named. -/
theorem flips_eq_error_iff {cause : Malformed} :
    r.flips cellSize = .error cause ↔
      ∃ before v c behind, foundOf r.victims = before ++ (v, c) :: behind ∧
        (∀ p ∈ before, p.2.InRow p.1 cellSize) ∧ ¬c.InRow v cellSize ∧
          cause = .pastLastColumn c.offset v.col := by
  simp only [flips_eq, map_eq_error, mapM_eq_error, Corruption.exists_flips_iff,
    Corruption.flips_eq_error_iff, Prod.exists]

end Run

/-- One row or two are targets. -/
theorem Targets.exists_ofList?_iff {l : List Address} :
    (∃ t, ofList? l = some t) ↔ l.length = 1 ∨ l.length = 2 := by
  match l with
  | [] => simp [ofList?]
  | [a] => simp [ofList?]
  | [a, b] => simp [ofList?]
  | a :: b :: c :: l => simp [ofList?]

/-- The error as a line on its own causes it, without a number. -/
def Error.offLine : Error → Error
  | parse _ cause => parse 0 cause
  | targets _ cause => targets none cause
  | e => e

namespace Line

open Text (Bytes)

variable {cellSize : UInt32} {distance : Option Int} {line : List Char} {raw : Bytes}

/-! ### Lines that say nothing -/

/-- The first character of the line that is not blank is `#`. -/
def IsComment (line : List Char) : Prop :=
  ∃ blanks rest, line = blanks ++ '#' :: rest ∧ Text.AllBlank blanks

/-- A line says nothing exactly if it is blank or a comment. -/
theorem isSkipped_iff : isSkipped line = true ↔ Text.AllBlank line ∨ IsComment line := by
  induction line with
  | nil => exact iff_of_true rfl (Or.inl nofun)
  | cons c line ih =>
    by_cases hc : Text.isBlank c = true
    · have htrim : Text.trimStart (c :: line) = Text.trimStart line :=
        List.dropWhile_cons_of_pos hc
      rw [isSkipped, htrim]
      refine ih.trans (or_congr ?_ ?_)
      · simp [Text.AllBlank, hc]
      · constructor
        · rintro ⟨blanks, rest, rfl, hblanks⟩
          exact ⟨c :: blanks, rest, rfl, List.forall_mem_cons.2 ⟨hc, hblanks⟩⟩
        · rintro ⟨blanks, rest, heq, hblanks⟩
          cases blanks with
          | nil =>
            obtain ⟨rfl, -⟩ := List.cons.inj heq
            exact absurd hc (by decide)
          | cons b blanks =>
            obtain ⟨-, rfl⟩ := List.cons.inj heq
            exact ⟨blanks, rest, rfl, (List.forall_mem_cons.1 hblanks).2⟩
    · have htrim : Text.trimStart (c :: line) = c :: line :=
        List.dropWhile_cons_of_neg hc
      rw [isSkipped, htrim]
      simp only [beq_iff_eq]
      constructor
      · rintro rfl
        exact Or.inr ⟨[], line, rfl, nofun⟩
      · rintro (hblank | ⟨blanks, rest, heq, hblanks⟩)
        · exact absurd (hblank c List.mem_cons_self) hc
        · cases blanks with
          | nil => exact (List.cons.inj heq).1
          | cons b blanks =>
            obtain ⟨rfl, -⟩ := List.cons.inj heq
            exact absurd (hblanks c List.mem_cons_self) hc

/-- The stored line is blank or a comment. -/
def IsSilent (raw : Bytes) : Prop :=
  ∃ line, Text.decode? raw = some line ∧ (Text.AllBlank line ∨ IsComment line)

/-! ### Lines that tell of attacks -/

/-- The run that the stored line stands for, unless the line says nothing. -/
def Logs (raw : Bytes) (run : Run) : Prop :=
  ∃ line, Text.decode? raw = some line ∧ ¬Text.AllBlank line ∧ ¬IsComment line ∧
    Run.parse line = .ok run

/-- The run that the stored line stands for, if it stands for one. -/
def run? (raw : Bytes) : Option Run :=
  (Text.decode? raw).bind fun line => if isSkipped line then none else (Run.parse line).toOption

/-- The attack that the stored line tells of: the rows that its run names and the flips that its
run records. A line that says nothing, or with which something is wrong, tells of none. -/
def told? (cellSize : UInt32) (raw : Bytes) : Option Attack :=
  (run? raw).bind fun run => (Targets.ofList? run.targets).bind fun t =>
    (run.flips cellSize).toOption.map fun fs => ⟨t, SortedSet.ofList fs⟩

/-! ### What is wrong with a line -/

/-- What is wrong with a stored line, if it is line `n` of a log, its reader takes cells to hold
`cellSize` bytes and asks for targets `distance` rows apart. -/
inductive Fault (cellSize : UInt32) (distance : Option Int) (n : Nat) (raw : Bytes) : Error → Prop
  /-- It is not text. -/
  | notText (h : Text.decode? raw = none) : Fault cellSize distance n raw (.file .notText)
  /-- It neither says nothing nor stands for a run. -/
  | malformed {line : List Char} {cause : Malformed} (hline : Text.decode? raw = some line)
      (hblank : ¬Text.AllBlank line) (hcomment : ¬IsComment line)
      (h : Run.parse line = .error cause) : Fault cellSize distance n raw (.parse n cause)
  /-- Its run names neither one row nor two. -/
  | count {run : Run} (hrun : Logs raw run)
      (h : ¬(run.targets.length = 1 ∨ run.targets.length = 2)) :
      Fault cellSize distance n raw (.targets (some n) (.count run.targets.length))
  /-- The rows that its run names are not as far apart as the reader asks. -/
  | distance {run : Run} {t : Targets} {d : Int} (hrun : Logs raw run)
      (ht : Targets.ofList? run.targets = some t) (hd : distance = some d)
      (h : t.distance ≠ d) : Fault cellSize distance n raw (.targets (some n) (.distance t d))
  /-- Its run has a corruption past the last column, of which the first is named. -/
  | pastLastColumn {run : Run} {t : Targets} {before behind : List (Address × Corruption)}
      {victim : Address} {c : Corruption} (hrun : Logs raw run)
      (ht : Targets.ofList? run.targets = some t) (hd : ∀ d ∈ distance, t.distance = d)
      (hfound : Run.foundOf run.victims = before ++ (victim, c) :: behind)
      (hbefore : ∀ p ∈ before, p.2.InRow p.1 cellSize) (h : ¬c.InRow victim cellSize) :
      Fault cellSize distance n raw (.parse n (.pastLastColumn c.offset victim.col))

/-- Something is wrong with the stored line, whatever its number. -/
def Faulty (cellSize : UInt32) (distance : Option Int) (raw : Bytes) : Prop :=
  ∃ n e, Fault cellSize distance n raw e

/-! ### Reading a line -/

/-- The targets of a run are accepted if they are one or two rows, as far apart as asked for. -/
theorem targets_eq_ok_iff {r : Run} {t : Targets} :
    targets distance r = .ok t ↔
      Targets.ofList? r.targets = some t ∧ ∀ d ∈ distance, t.distance = d := by
  rw [targets]
  cases Targets.ofList? r.targets with
  | none => simp
  | some u =>
    cases distance with
    | none => simp
    | some d =>
      simp only [Option.some.injEq, Option.mem_some_iff, forall_eq']
      split
      · rename_i h
        rw [Except.ok.injEq]
        exact ⟨fun hut => ⟨hut, hut ▸ h⟩, And.left⟩
      · rename_i h
        refine iff_of_false error_ne_ok ?_
        rintro ⟨rfl, h'⟩
        exact h h'

/-- Targets are refused for how many they are, or else for how far apart they are. -/
theorem targets_eq_error_iff {r : Run} {e : Error} :
    targets distance r = .error e ↔
      ¬(r.targets.length = 1 ∨ r.targets.length = 2) ∧
          .targets none (.count r.targets.length) = e ∨
        ∃ t d, Targets.ofList? r.targets = some t ∧ distance = some d ∧ t.distance ≠ d ∧
          .targets none (.distance t d) = e := by
  rw [targets, ← Targets.exists_ofList?_iff]
  cases Targets.ofList? r.targets with
  | none => simp
  | some u =>
    cases distance with
    | none => simp
    | some d =>
      simp only [Option.some.injEq, exists_eq', not_true_eq_false, false_and, false_or,
        exists_and_left, exists_eq_left']
      split
      · rename_i h
        exact iff_of_false error_ne_ok.symm fun h' => h'.1 h
      · rename_i h
        rw [Except.error.injEq]
        exact (and_iff_right h).symm

/-- A stored line is not text, says nothing, is malformed or stands for a run. -/
theorem cases_stored (raw : Bytes) :
    Text.decode? raw = none ∨ IsSilent raw ∨
      (∃ line cause, Text.decode? raw = some line ∧ ¬Text.AllBlank line ∧ ¬IsComment line ∧
        Run.parse line = .error cause) ∨ ∃ run, Logs raw run := by
  cases hline : Text.decode? raw with
  | none => exact Or.inl rfl
  | some line =>
    by_cases hblank : Text.AllBlank line
    · exact Or.inr (Or.inl ⟨line, hline, Or.inl hblank⟩)
    by_cases hcomment : IsComment line
    · exact Or.inr (Or.inl ⟨line, hline, Or.inr hcomment⟩)
    cases hrun : Run.parse line with
    | error cause =>
      exact Or.inr (Or.inr (Or.inl ⟨line, cause, rfl, hblank, hcomment, hrun⟩))
    | ok run => exact Or.inr (Or.inr (Or.inr ⟨run, line, hline, hblank, hcomment, hrun⟩))

/-- A line that is neither blank nor a comment is not passed over. -/
theorem isSkipped_eq_false (hblank : ¬Text.AllBlank line) (hcomment : ¬IsComment line) :
    isSkipped line = false :=
  Bool.eq_false_iff.2 fun h => (isSkipped_iff.1 h).elim hblank hcomment

/-- A silent line is read, and tells nothing. -/
theorem read_of_isSilent (h : IsSilent raw) : read cellSize distance raw = .ok none := by
  obtain ⟨line, hline, hsilent⟩ := h
  rw [read, hline]
  exact if_pos (isSkipped_iff.2 hsilent)

/-- A silent line tells of no attack. -/
theorem told?_of_isSilent (h : IsSilent raw) : told? cellSize raw = none := by
  obtain ⟨line, hline, hsilent⟩ := h
  rw [told?, run?, hline, Option.bind_some, if_pos (isSkipped_iff.2 hsilent), Option.bind_none]

/-- A line that is meant to be a run and is none is refused for what is wrong in it. -/
theorem read_of_malformed {cause : Malformed} (hline : Text.decode? raw = some line)
    (hblank : ¬Text.AllBlank line) (hcomment : ¬IsComment line)
    (h : Run.parse line = .error cause) : read cellSize distance raw = .error (.parse 0 cause) := by
  rw [read, hline]
  simp only [isSkipped_eq_false hblank hcomment, attack, h]
  rfl

/-- A line that stands for a run is read as its run is. -/
theorem read_of_logs {run : Run} (h : Logs raw run) :
    read cellSize distance raw = (targets distance run >>= fun t =>
      (run.flips cellSize).mapError (Error.parse 0) >>= fun fs =>
        pure (some ⟨t, SortedSet.ofList fs⟩)) := by
  obtain ⟨line, hline, hblank, hcomment, hrun⟩ := h
  rw [read, hline]
  simp only [isSkipped_eq_false hblank hcomment, Bool.false_eq_true, if_false, attack, hrun,
    Except.mapError, bind, Except.bind]
  cases targets distance run with
  | error e => rfl
  | ok t => cases run.flips cellSize <;> rfl

/-- A line that logs a run has that run. -/
theorem run?_of_logs {run : Run} (h : Logs raw run) : run? raw = some run := by
  obtain ⟨line, hline, hblank, hcomment, hrun⟩ := h
  rw [run?, hline, Option.bind_some, isSkipped_eq_false hblank hcomment, hrun]
  rfl

/-- What is wrong with a line is the error of reading it, apart from the number of the line. -/
theorem Fault.read_eq {n : Nat} {e : Error} (h : Fault cellSize distance n raw e) :
    read cellSize distance raw = .error e.offLine := by
  cases h with
  | notText h => rw [read, h]; rfl
  | malformed hline hblank hcomment h => exact read_of_malformed hline hblank hcomment h
  | count hrun h =>
    have ht : targets distance _ = _ := targets_eq_error_iff.2 (Or.inl ⟨h, rfl⟩)
    rw [read_of_logs hrun, ht]
    rfl
  | distance hrun ht hd h =>
    have ht := targets_eq_error_iff.2 (Or.inr ⟨_, _, ht, hd, h, rfl⟩)
    rw [read_of_logs hrun, ht]
    rfl
  | pastLastColumn hrun ht hd hfound hbefore h =>
    have ht := targets_eq_ok_iff.2 ⟨ht, hd⟩
    have hflips := Run.flips_eq_error_iff.2 ⟨_, _, _, _, hfound, hbefore, h, rfl⟩
    rw [read_of_logs hrun, ht, hflips]
    rfl

/-- The error of a line is numbered by the line, whatever it says besides. -/
theorem Fault.atLine_offLine {n : Nat} {e : Error} (h : Fault cellSize distance n raw e) :
    e.offLine.atLine n = e := by
  cases h <;> rfl

/-- A line cannot be read exactly if something is wrong with it. The error of reading it is what is
wrong, once it has the number of the line. -/
theorem read_eq_error_iff {n : Nat} {e : Error} :
    (∃ e', read cellSize distance raw = .error e' ∧ e'.atLine n = e) ↔
      Fault cellSize distance n raw e := by
  constructor
  · rintro ⟨e', hread, rfl⟩
    obtain hnone | hsilent | ⟨line, cause, hline, hblank, hcomment, hcause⟩ | ⟨run, hrun⟩ :=
      cases_stored raw
    · rw [read, hnone] at hread
      cases hread
      exact .notText hnone
    · rw [read_of_isSilent hsilent] at hread
      cases hread
    · rw [read_of_malformed hline hblank hcomment hcause] at hread
      cases hread
      exact .malformed hline hblank hcomment hcause
    · rw [read_of_logs hrun] at hread
      rcases bind_eq_error.1 hread with ht | ⟨t, ht, hread⟩
      · rcases targets_eq_error_iff.1 ht with ⟨hcount, rfl⟩ | ⟨t, d, ht', hd, hne, rfl⟩
        · exact .count hrun hcount
        · exact .distance hrun ht' hd hne
      · obtain ⟨ht, hd⟩ := targets_eq_ok_iff.1 ht
        rcases bind_eq_error.1 hread with hflips | ⟨fs, -, hpure⟩
        · obtain ⟨cause, hcause, rfl⟩ := mapError_eq_error.1 hflips
          obtain ⟨before, v, c, behind, hfound, hbefore, hc, rfl⟩ :=
            Run.flips_eq_error_iff.1 hcause
          exact .pastLastColumn hrun ht hd hfound hbefore hc
        · cases hpure
  · intro h
    exact ⟨e.offLine, h.read_eq, h.atLine_offLine⟩

/-- A line is faulty exactly if reading it fails. -/
theorem faulty_iff : Faulty cellSize distance raw ↔ ∃ e, read cellSize distance raw = .error e := by
  simp only [Faulty, ← read_eq_error_iff]
  constructor
  · rintro ⟨-, -, e, he, -⟩
    exact ⟨e, he⟩
  · rintro ⟨e, he⟩
    exact ⟨0, _, e, he, rfl⟩

/-- A line that can be read tells what it tells any reader. -/
theorem told?_of_read {x : Option Attack} (h : read cellSize distance raw = .ok x) :
    x = told? cellSize raw := by
  obtain hnone | hsilent | ⟨line, cause, hline, hblank, hcomment, hcause⟩ | ⟨run, hrun⟩ :=
    cases_stored raw
  · rw [read, hnone] at h
    cases h
  · rw [read_of_isSilent hsilent] at h
    cases h
    exact (told?_of_isSilent hsilent).symm
  · rw [read_of_malformed hline hblank hcomment hcause] at h
    cases h
  · rw [read_of_logs hrun] at h
    obtain ⟨t, ht, h⟩ := bind_eq_ok.1 h
    obtain ⟨fs, hfs, h⟩ := bind_eq_ok.1 h
    cases h
    rw [told?, run?_of_logs hrun, Option.bind_some, (targets_eq_ok_iff.1 ht).1,
      mapError_eq_ok.1 hfs]
    rfl

/-- A line can be read exactly if nothing is wrong with it, and what it tells does not depend on the
distance that the reader asks for. -/
theorem read_eq_ok_iff {x : Option Attack} :
    read cellSize distance raw = .ok x ↔
      ¬Faulty cellSize distance raw ∧ x = told? cellSize raw := by
  rw [faulty_iff]
  constructor
  · intro h
    refine ⟨?_, told?_of_read h⟩
    rintro ⟨e, he⟩
    rw [he] at h
    cases h
  · rintro ⟨hfault, rfl⟩
    cases hread : read cellSize distance raw with
    | error e => exact absurd ⟨e, hread⟩ hfault
    | ok y => rw [told?_of_read hread]

/-- What lines tell is found by reading them one by one. -/
theorem told_of_forall₂_read {lines : List Bytes} {told : List (Option Attack)}
    (h : List.Forall₂ (fun raw x => read cellSize distance raw = .ok x) lines told) :
    (∀ raw ∈ lines, ¬Faulty cellSize distance raw) ∧
      lines.filterMap (told? cellSize) = told.filterMap id := by
  induction h with
  | nil => exact ⟨List.forall_mem_nil _, rfl⟩
  | cons hread _ ih =>
    obtain ⟨hsound, rfl⟩ := read_eq_ok_iff.1 hread
    refine ⟨List.forall_mem_cons.2 ⟨hsound, ih.1⟩, ?_⟩
    rw [List.filterMap_cons, List.filterMap_cons, ih.2]
    rfl

/-! ### Lines that are accepted -/

/-- The stored line is text that is blank, a comment or stands for a run; the run names one row or
two, and none of its corruptions is past the last column. -/
def Accepted (cellSize : UInt32) (raw : Bytes) : Prop :=
  ∃ line, Text.decode? raw = some line ∧ (Text.AllBlank line ∨ IsComment line ∨
    ∃ run, Run.parse line = .ok run ∧ (run.targets.length = 1 ∨ run.targets.length = 2) ∧
      ∀ v ∈ run.victims, ∀ c ∈ v.2, c.InRow v.1 cellSize)

/-- Nothing is wrong with a line that stands for a run if its targets fit and its flips can be
told. -/
theorem not_faulty_iff_of_logs {run : Run} (h : Logs raw run) :
    ¬Faulty cellSize distance raw ↔
      (∃ t, Targets.ofList? run.targets = some t ∧ ∀ d ∈ distance, t.distance = d) ∧
        ∃ fs, run.flips cellSize = .ok fs := by
  have hread : ¬Faulty cellSize distance raw ↔
      ∃ x, read cellSize distance raw = .ok x := by
    simp only [read_eq_ok_iff, exists_and_left, exists_eq, and_true]
  rw [hread, read_of_logs h]
  simp only [bind_eq_ok, mapError_eq_ok, targets_eq_ok_iff]
  constructor
  · rintro ⟨-, t, ht, fs, hfs, -⟩
    exact ⟨⟨t, ht⟩, ⟨fs, hfs⟩⟩
  · rintro ⟨⟨t, ht⟩, ⟨fs, hfs⟩⟩
    exact ⟨_, t, ht, fs, hfs, rfl⟩

/-- Nothing is wrong with a silent line. -/
theorem not_faulty_of_isSilent (h : IsSilent raw) : ¬Faulty cellSize distance raw :=
  (read_eq_ok_iff.1 (read_of_isSilent h)).1

/-- A line with which nothing is wrong tells of an attack unless it is blank or a comment. -/
theorem told?_eq_none_iff (h : ¬Faulty cellSize distance raw) :
    told? cellSize raw = none ↔ IsSilent raw := by
  refine ⟨?_, told?_of_isSilent⟩
  intro hnone
  obtain hnot | hsilent | ⟨line, cause, hline, hblank, hcomment, hcause⟩ | ⟨run, hrun⟩ :=
    cases_stored raw
  · exact absurd ⟨0, _, .notText hnot⟩ h
  · exact hsilent
  · exact absurd ⟨0, _, .malformed hline hblank hcomment hcause⟩ h
  · obtain ⟨⟨t, ht, -⟩, ⟨fs, hfs⟩⟩ := (not_faulty_iff_of_logs hrun).1 h
    rw [told?, run?_of_logs hrun, Option.bind_some, ht, hfs] at hnone
    cases hnone

/-- A reader that asks for a distance finds nothing wrong with a line exactly if nothing else is
wrong with it and the attack that it tells of has its targets so far apart. -/
theorem not_faulty_some_iff {d : Int} : ¬Faulty cellSize (some d) raw ↔
    ¬Faulty cellSize none raw ∧ ∀ a, told? cellSize raw = some a → a.targets.distance = d := by
  obtain hnot | hsilent | ⟨line, cause, hline, hblank, hcomment, hcause⟩ | ⟨run, hrun⟩ :=
    cases_stored raw
  · exact iff_of_false (not_not_intro ⟨0, _, .notText hnot⟩) fun h => h.1 ⟨0, _, .notText hnot⟩
  · refine iff_of_true (not_faulty_of_isSilent hsilent) ⟨not_faulty_of_isSilent hsilent, ?_⟩
    rw [told?_of_isSilent hsilent]
    exact nofun
  · exact iff_of_false (not_not_intro ⟨0, _, .malformed hline hblank hcomment hcause⟩)
      fun h => h.1 ⟨0, _, .malformed hline hblank hcomment hcause⟩
  · rw [not_faulty_iff_of_logs hrun, not_faulty_iff_of_logs hrun, told?, run?_of_logs hrun,
      Option.bind_some]
    cases Targets.ofList? run.targets with
    | none => simp
    | some t =>
      cases run.flips cellSize with
      | error e => simp
      | ok fs => simp [Except.toOption]

/-- A line is accepted exactly if nothing is wrong with it for a reader that asks for no
distance. -/
theorem accepted_iff : Accepted cellSize raw ↔ ¬Faulty cellSize none raw := by
  obtain hnone | hsilent | ⟨line, cause, hline, hblank, hcomment, hcause⟩ | ⟨run, hrun⟩ :=
    cases_stored raw
  · refine iff_of_false ?_ (not_not_intro ⟨0, _, .notText hnone⟩)
    rintro ⟨line, hline, -⟩
    rw [hnone] at hline
    cases hline
  · refine iff_of_true ?_ (not_faulty_of_isSilent hsilent)
    obtain ⟨line, hline, hblank | hcomment⟩ := hsilent
    · exact ⟨line, hline, Or.inl hblank⟩
    · exact ⟨line, hline, Or.inr (Or.inl hcomment)⟩
  · refine iff_of_false ?_ (not_not_intro ⟨0, _, .malformed hline hblank hcomment hcause⟩)
    rintro ⟨line', hline', hfits⟩
    obtain rfl : line = line' := Option.some.inj (hline.symm.trans hline')
    obtain ⟨run, hrun, -⟩ := (hfits.resolve_left hblank).resolve_left hcomment
    rw [hcause] at hrun
    cases hrun
  · rw [not_faulty_iff_of_logs hrun, Run.exists_flips_eq_ok_iff]
    obtain ⟨line, hline, hblank, hcomment, hparse⟩ := hrun
    simp only [Option.not_mem_none, false_imp_iff, implies_true, and_true,
      Targets.exists_ofList?_iff]
    constructor
    · rintro ⟨line', hline', hfits⟩
      obtain rfl : line = line' := Option.some.inj (hline.symm.trans hline')
      obtain ⟨run', hrun', hfits⟩ := (hfits.resolve_left hblank).resolve_left hcomment
      obtain rfl : run = run' := Except.ok.inj (hparse.symm.trans hrun')
      exact hfits
    · intro hfits
      exact ⟨line, hline, Or.inr (Or.inr ⟨run, hparse, hfits⟩)⟩

end Line

end RowFlips
