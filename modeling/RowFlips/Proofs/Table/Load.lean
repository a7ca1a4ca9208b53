import RowFlips.Proofs.Log.Stream
import RowFlips.Proofs.Text

/-!
# Loading tables

A log is loaded exactly if each of its lines is accepted, and then its table is made of one attack
for each line that is neither blank nor a comment. A table holds what attacks tell together, so
where the attacks stand in a list, how often they do and which of them are joined already makes no
difference. Logs of the same lines therefore load alike.

## Main results

* `Alike.ofAttacks_eq`: lists that tell the same make the same table.
* `Table.ofLog_eq_ok_iff`, `Table.ofLog_eq_error_iff`: which logs are loaded, and as which table,
  and what is wrong with the others.
* `Table.ofLog_spec`: loading depends on the lines of a log alone, and loading two logs one after
  the other puts their tables together.
-/

namespace RowFlips

open Text (Bytes)

/-! ### Lists that tell the same -/

/-- The attacks of two lists tell the same: they are on the same targets, and on each of these they
have the same flips. -/
structure Alike (l m : List Attack) : Prop where
  targets (t : Targets) : (∃ a ∈ l, a.targets = t) ↔ ∃ a ∈ m, a.targets = t
  flips (t : Targets) (f : Flip) :
    (∃ a ∈ l, a.targets = t ∧ f ∈ a.flips) ↔ ∃ a ∈ m, a.targets = t ∧ f ∈ a.flips

namespace Alike

variable {l l' m m' : List Attack}

/-- Lists of the same attacks are alike. -/
theorem of_mem_iff (h : ∀ a, a ∈ l ↔ a ∈ m) : Alike l m where
  targets t := by simp only [h]
  flips t f := by simp only [h]

/-- Being alike carries over a third list. -/
theorem trans {n : List Attack} (h : Alike l m) (h' : Alike m n) : Alike l n where
  targets t := (h.targets t).trans (h'.targets t)
  flips t f := (h.flips t f).trans (h'.flips t f)

/-- Lists put behind each other are alike if they are one by one. -/
theorem append (hl : Alike l l') (hm : Alike m m') : Alike (l ++ m) (l' ++ m') where
  targets t := by
    simp only [List.mem_append, or_and_right, exists_or, hl.targets, hm.targets]
  flips t f := by
    simp only [List.mem_append, or_and_right, exists_or, hl.flips, hm.flips]

/-- An attack tells the same as the group that it unites. -/
theorem of_unites {x : Attack} {group : List Attack} (hne : group ≠ []) (h : x.Unites group) :
    Alike [x] group where
  targets t := by
    obtain ⟨a, ha⟩ := List.exists_mem_of_ne_nil group hne
    simp only [List.mem_singleton, exists_eq_left]
    constructor
    · rintro rfl
      exact ⟨a, ha, h.targets_eq a ha⟩
    · rintro ⟨b, hb, rfl⟩
      exact (h.targets_eq b hb).symm
  flips t f := by
    simp only [List.mem_singleton, exists_eq_left, h.mem_flips]
    constructor
    · rintro ⟨rfl, a, ha, hf⟩
      exact ⟨a, ha, h.targets_eq a ha, hf⟩
    · rintro ⟨a, ha, rfl, hf⟩
      exact ⟨(h.targets_eq a ha).symm, a, ha, hf⟩

/-- Putting neighbours together changes nothing about what attacks tell. -/
theorem joinNeighbours (as : List Attack) : Alike (Table.joinNeighbours as) as := by
  have hgrouped {as xs : List Attack} (h : Grouped as xs) : Alike xs as := by
    induction h with
    | nil => exact of_mem_iff fun a => Iff.rfl
    | cons hne hx _ _ ih => exact (of_unites hne hx).append ih
  exact hgrouped (grouped_iff.2 rfl)

/-- A table tells the same as the attacks that it is made of. -/
theorem ofAttacks (as : List Attack) : Alike (Table.ofAttacks as).attacks as :=
  (joinNeighbours _).trans (of_mem_iff fun _ => mem_sortOn)

/-- Lists that tell the same are summed up by the same attacks. -/
theorem sumsUp_iff (h : Alike l m) {x : Attack} : x.SumsUp l ↔ x.SumsUp m := by
  simp only [Attack.SumsUp, h.targets, h.flips]

/-- Lists that tell the same make the same table. -/
theorem ofAttacks_eq (h : Alike l m) : Table.ofAttacks l = Table.ofAttacks m :=
  Table.ofAttacks_congr fun _ => h.sumsUp_iff

end Alike

/-! ### Logs of the same lines -/

/-- Both logs have the same lines that are neither blank nor comments, in whatever order and however
often. -/
def SameLines (content content' : Bytes) : Prop :=
  ∀ raw, ¬Line.IsSilent raw → (raw ∈ Text.lines content ↔ raw ∈ Text.lines content')

/-- Permuting lines, repeating some of them and inserting blank lines and comments leaves a log with
the same lines. -/
theorem SameLines.of_perm {content content' : Bytes} (added : List Bytes)
    (h : (Text.lines content').Perm (Text.lines content ++ added))
    (hadded : ∀ raw ∈ added, raw ∈ Text.lines content ∨ Line.IsSilent raw) :
    SameLines content content' := by
  intro raw hraw
  rw [h.mem_iff, List.mem_append]
  exact (or_iff_left_of_imp fun hmem => (hadded raw hmem).resolve_right hraw).symm

namespace SameLines

variable {content content' : Bytes}

/-- Having the same lines goes both ways. -/
theorem symm (h : SameLines content content') : SameLines content' content :=
  fun raw hraw => (h raw hraw).symm

/-- What holds of lines that say nothing holds of both logs or of neither. -/
theorem forall_iff {p : Bytes → Prop} (h : SameLines content content')
    (hp : ∀ raw, Line.IsSilent raw → p raw) :
    (∀ raw ∈ Text.lines content, p raw) ↔ ∀ raw ∈ Text.lines content', p raw := by
  have hline (raw : Bytes) : (raw ∈ Text.lines content → p raw) ↔
      (raw ∈ Text.lines content' → p raw) := by
    by_cases hraw : Line.IsSilent raw
    · exact iff_of_true (fun _ => hp raw hraw) (fun _ => hp raw hraw)
    · rw [h raw hraw]
  exact forall_congr' hline

/-- The lines of both logs tell the same. -/
theorem alike (h : SameLines content content') (cellSize : UInt32) :
    Alike ((Text.lines content).filterMap (Line.told? cellSize))
      ((Text.lines content').filterMap (Line.told? cellSize)) := by
  refine Alike.of_mem_iff fun a => ?_
  simp only [List.mem_filterMap]
  refine exists_congr fun raw => and_congr_left fun htold => h raw ?_
  intro hsilent
  rw [Line.told?_of_isSilent hsilent] at htold
  cases htold

end SameLines

namespace Table

variable {config : Config} {content : Bytes} {t : Table}

/-- A log is loaded exactly if each line is accepted, as the table of what the lines tell. -/
theorem ofLog_eq_ok_iff : ofLog config content = .ok t ↔
    (∀ raw ∈ Text.lines content, Line.Accepted config.cellSize raw) ∧
      t = ofAttacks ((Text.lines content).filterMap (Line.told? config.cellSize)) := by
  simp only [ofLog, bind_eq_ok, Reader.attacks_ofContent_eq_ok_iff, Line.accepted_iff]
  constructor
  · rintro ⟨_, ⟨hsound, rfl⟩, ⟨⟩⟩
    exact ⟨hsound, (Alike.joinNeighbours _).ofAttacks_eq⟩
  · rintro ⟨hsound, rfl⟩
    exact ⟨_, ⟨hsound, rfl⟩, congrArg Except.ok (Alike.joinNeighbours _).ofAttacks_eq⟩

/-- A log is loaded as the table of what its lines read as. -/
theorem ofLog_of_forall₂_read {lines : List Bytes} {told : List (Option Attack)}
    (hends : ∀ l ∈ lines, 10 ∉ l ∧ 13 ∉ l)
    (h : List.Forall₂ (fun raw x => Line.read config.cellSize none raw = .ok x) lines told) :
    ofLog config (lines.flatMap (· ++ [10])) = .ok (ofAttacks (told.filterMap id)) := by
  obtain ⟨hsound, htold⟩ := Line.told_of_forall₂_read h
  rw [ofLog_eq_ok_iff, Text.lines_flatMap hends, htold]
  exact ⟨fun raw hraw => Line.accepted_iff.2 (hsound raw hraw), rfl⟩

/-- A log cannot be loaded exactly if something is wrong with a line, and the first such line says
what. -/
theorem ofLog_eq_error_iff {e : Error} : ofLog config content = .error e ↔
    ∃ before raw behind, Text.lines content = before ++ raw :: behind ∧
      (∀ x ∈ before, ¬Line.Faulty config.cellSize none x) ∧
      Line.Fault config.cellSize none (before.length + 1) raw e := by
  have hend : ofLog config content = .error e ↔
      (Reader.told config.cellSize none 0 (Text.lines content)).2 = some e := by
    rw [ofLog_eq]
    obtain ⟨as, e'⟩ := Reader.told config.cellSize none 0 (Text.lines content)
    cases e' with
    | none => exact ⟨nofun, nofun⟩
    | some e' => simp only [Option.elim_some, Except.error.injEq, Option.some.injEq]
  rw [hend, Reader.told_snd_eq_some_iff]
  simp only [Nat.zero_add]

/-- A log whose first part ends with a line feed is loaded exactly if both parts are, and its table
puts theirs together. -/
theorem ofLog_append_eq_ok_iff {front behind : Bytes} :
    ofLog config (front ++ 10 :: behind) = .ok t ↔
      ∃ s u, ofLog config (front ++ [10]) = .ok s ∧ ofLog config behind = .ok u ∧
        t = ofAttacks (s.attacks ++ u.attacks) := by
  rw [ofLog_eq_ok_iff, Text.lines_append_feed, List.forall_mem_append, List.filterMap_append]
  simp only [ofLog_eq_ok_iff]
  have htogether (as bs : List Attack) :
      ofAttacks (as ++ bs) = ofAttacks ((ofAttacks as).attacks ++ (ofAttacks bs).attacks) :=
    ((Alike.ofAttacks as).append (Alike.ofAttacks bs)).ofAttacks_eq.symm
  constructor
  · rintro ⟨⟨hfront, hbehind⟩, rfl⟩
    exact ⟨_, _, ⟨hfront, rfl⟩, ⟨hbehind, rfl⟩, htogether _ _⟩
  · rintro ⟨_, _, ⟨hfront, rfl⟩, ⟨hbehind, rfl⟩, rfl⟩
    exact ⟨⟨hfront, hbehind⟩, (htogether _ _).symm⟩

/-- **What a log is loaded as.** `ofLog` gives a table for `content` exactly if each of its lines is
`Line.Accepted`. The table `t` is then made of the attacks that `Line.told?` gives for the lines,
one for each line that is not `Line.IsSilent`, that is, blank or a comment. A log `content'` with
the `SameLines` is loaded as the same table. And a log that ends its last line, with another one
`behind` it, is loaded as the table made of the attacks of both tables `s` and `u`, exactly if both
can be loaded. -/
theorem ofLog_spec (config : Config) (content : Bytes) :
    ((∃ t, ofLog config content = .ok t) ↔
      ∀ raw ∈ Text.lines content, Line.Accepted config.cellSize raw) ∧
    (∀ t, ofLog config content = .ok t →
      t = ofAttacks ((Text.lines content).filterMap (Line.told? config.cellSize)) ∧
        ∀ raw ∈ Text.lines content,
          (Line.told? config.cellSize raw = none ↔ Line.IsSilent raw)) ∧
    (∀ content', SameLines content content' → ∀ t,
      (ofLog config content' = .ok t ↔ ofLog config content = .ok t)) ∧
    ∀ behind t, ofLog config (content ++ [10] ++ behind) = .ok t ↔
      ∃ s u, ofLog config (content ++ [10]) = .ok s ∧ ofLog config behind = .ok u ∧
        t = ofAttacks (s.attacks ++ u.attacks) := by
  refine ⟨?_, ?_, ?_, ?_⟩
  · simp only [ofLog_eq_ok_iff, exists_and_left, exists_eq, and_true]
  · intro t ht
    obtain ⟨haccepted, ht⟩ := ofLog_eq_ok_iff.1 ht
    exact ⟨ht, fun raw hraw => Line.told?_eq_none_iff (Line.accepted_iff.1 (haccepted raw hraw))⟩
  · intro content' hsame t
    have haccepted := hsame.forall_iff (p := Line.Accepted config.cellSize) fun raw hsilent =>
      Line.accepted_iff.2 (Line.not_faulty_of_isSilent hsilent)
    rw [ofLog_eq_ok_iff, ofLog_eq_ok_iff, haccepted, (hsame.alike config.cellSize).ofAttacks_eq]
  · intro behind t
    rw [List.append_assoc]
    exact ofLog_append_eq_ok_iff

/-- Two runs on one row with a run on another row between them. -/
def scatteredLines : List Bytes :=
  ["(0 0 0 0 1) :(0 0 0 0 2)1|1|0", "(0 0 0 0 3) :", "(0 0 0 0 1) :(0 0 0 0 2)1|2|0"].map
    fun s => Text.encode s.toList

/-- The same lines in another order, one of them twice, with lines between them that say nothing. -/
def shuffledLines : List Bytes :=
  ["(0 0 0 0 1) :(0 0 0 0 2)1|2|0", " ", "(0 0 0 0 1) :(0 0 0 0 2)1|1|0", "# again",
    "(0 0 0 0 1) :(0 0 0 0 2)1|2|0", "(0 0 0 0 3) :"].map fun s => Text.encode s.toList

/-- Both logs are loaded as one table, in which the runs on one row are one attack. -/
theorem ofLog_scatteredLines :
    ∃ t, ofLog { cellSize := 1 } (scatteredLines.flatMap (· ++ [10])) = .ok t ∧
      ofLog { cellSize := 1 } (shuffledLines.flatMap (· ++ [10])) = .ok t ∧
        t.stats = ⟨2, 1, 2⟩ := by
  let row (n : UInt16) : Targets := ⟨⟨0, 0, 0, 0, n, 0⟩, ⟨0, 0, 0, 0, n, 0⟩⟩
  let flip (bit : UInt32) : Flip := ⟨⟨0, 0, 0, 0, 2, 1⟩, bit, .up⟩
  let attacks : List Attack := [⟨row 1, SortedSet.ofList [flip 0]⟩, ⟨row 3, SortedSet.empty⟩,
    ⟨row 1, SortedSet.ofList [flip 1]⟩]
  have hlines : Text.lines (scatteredLines.flatMap (· ++ [10])) = scatteredLines :=
    Text.lines_flatMap (by decide +kernel)
  have hlines' : Text.lines (shuffledLines.flatMap (· ++ [10])) = shuffledLines :=
    Text.lines_flatMap (by decide +kernel)
  have hread : List.Forall₂ (fun raw x => Line.read 1 none raw = .ok x) scatteredLines
      (attacks.map some) := by
    refine .cons ?_ (.cons ?_ (.cons ?_ .nil)) <;> rw [Line.read, Text.decode?_encode]
    all_goals cbv
  obtain ⟨hsound, htold⟩ := Line.told_of_forall₂_read hread
  have hsilent {line : List Char} (h : Line.isSkipped line = true) :
      Line.IsSilent (Text.encode line) :=
    ⟨line, Text.decode?_encode line, Line.isSkipped_iff.1 h⟩
  have hsame : SameLines (scatteredLines.flatMap (· ++ [10]))
      (shuffledLines.flatMap (· ++ [10])) := by
    refine SameLines.of_perm [Text.encode " ".toList, Text.encode "# again".toList,
      Text.encode "(0 0 0 0 1) :(0 0 0 0 2)1|2|0".toList] ?_ ?_
    · rw [hlines, hlines']
      decide +kernel
    · rw [hlines]
      simp only [List.forall_mem_cons, List.not_mem_nil, false_imp_iff, implies_true, and_true]
      exact ⟨Or.inr (hsilent (by decide)), Or.inr (hsilent (by decide)),
        Or.inl (by decide +kernel)⟩
  obtain ⟨hloads, htable, hsame', -⟩ :=
    ofLog_spec { cellSize := 1 } (scatteredLines.flatMap (· ++ [10]))
  rw [hlines] at hloads
  obtain ⟨t, ht⟩ := hloads.2 fun raw hraw => Line.accepted_iff.2 (hsound raw hraw)
  refine ⟨t, ht, (hsame' _ hsame t).2 ht, ?_⟩
  rw [(htable t ht).1, hlines, htold]
  cbv

end Table

end RowFlips
