import Mathlib
import RowFlips.Proofs.Log.Line
import RowFlips.Proofs.Log.Reader

/-!
# A reader call by call

Calling a reader again and again gives its answers one after the other, and nothing from then on.
What lines tell falls into groups, as long as neighbours are on the same targets, and the answers
are one attack for each group of the lines before the first with which something is wrong. That
line makes the last answer, and takes the place of the last group before it.

## Main results

* `grouped_iff`: putting neighbours together makes one attack for each group, and nothing else does.
* `Reader.told_of_sound`, `Reader.told_of_fault`: what lines tell up to the first with which
  something is wrong.
* `Reader.told_snd_eq_some_iff`: which line ends what lines tell.
* `Reader.attacks_ofContent_eq_ok_iff`: which logs are read to their end, and what they give.
* `Reader.yields_items`: the calls of a reader give its items, and then nothing.
* `Reader.yields_ofContent`: what the calls of a reader give from a whole log.
-/

namespace RowFlips

open Text (Bytes)

/-! ### Groups -/

/-- The attack is on the targets of all attacks of a group, and has the flips that any of them
has. -/
structure Attack.Unites (x : Attack) (group : List Attack) : Prop where
  targets_eq : ∀ a ∈ group, a.targets = x.targets
  mem_flips : ∀ f, f ∈ x.flips ↔ ∃ a ∈ group, f ∈ a.flips

/-- Attacks fall into groups, the longest stretches of neighbours on the same targets. The second
list has one attack for each of them, in order, that unites the group. -/
inductive Grouped : List Attack → List Attack → Prop
  | nil : Grouped [] []
  | cons {x : Attack} {group rest xs : List Attack} (hne : group ≠ []) (hx : x.Unites group)
      (hapart : ∀ b ∈ rest.head?, x.targets ≠ b.targets) (hrest : Grouped rest xs) :
      Grouped (group ++ rest) (x :: xs)

namespace Attack

/-- Attacks on the same targets are united by joining them, in whatever order. -/
theorem unites_joinAll {a : Attack} {held group : List Attack}
    (h : ∀ b ∈ held, b.targets = a.targets) (hgroup : ∀ b, b ∈ group ↔ b ∈ a :: held) :
    (a.joinAll held).Unites group where
  targets_eq b hb := by
    rcases List.mem_cons.1 ((hgroup b).1 hb) with rfl | hb
    · rfl
    · exact h b hb
  mem_flips f := by simp only [mem_joinAll_flips, hgroup]

/-- A group has one attack that unites it. -/
theorem Unites.unique {x y : Attack} {group : List Attack} (hne : group ≠ [])
    (hx : x.Unites group) (hy : y.Unites group) : x = y := by
  obtain ⟨a, ha⟩ := List.exists_mem_of_ne_nil group hne
  have htargets : x.targets = y.targets := (hx.targets_eq a ha).symm.trans (hy.targets_eq a ha)
  exact Attack.ext htargets fun f => (hx.mem_flips f).trans (hy.mem_flips f).symm

end Attack

/-- Attacks held back, latest first, are one group with the attack before them and with those on
the same targets that follow. -/
theorem grouped_joinFrom {a : Attack} {held as : List Attack}
    (hheld : ∀ b ∈ held, b.targets = a.targets) :
    Grouped (a :: held.reverse ++ as) (Table.joinFrom a held as) := by
  have hunites {a : Attack} {held : List Attack} (h : ∀ b ∈ held, b.targets = a.targets) :
      (a.joinAll held).Unites (a :: held.reverse) :=
    Attack.unites_joinAll h fun b => by simp only [List.mem_cons, List.mem_reverse]
  fun_induction Table.joinFrom a held as with
  | case1 a held =>
    refine .cons (List.cons_ne_nil _ _) (hunites hheld) ?_ .nil
    rintro c ⟨⟩
  | case2 a held b bs hab ih =>
    have h := ih (List.forall_mem_cons.2 ⟨hab.symm, hheld⟩)
    simpa using h
  | case3 a held b bs hab ih =>
    refine .cons (List.cons_ne_nil _ _) (hunites hheld) ?_ (ih (List.forall_mem_nil _))
    rintro c ⟨⟩
    exact hab

/-- Putting neighbours on the same targets together makes one attack for each group, and no other
list has one for each. -/
theorem grouped_iff {as xs : List Attack} : Grouped as xs ↔ xs = Table.joinNeighbours as := by
  constructor
  · intro h
    induction h with
    | nil => rfl
    | @cons x group rest xs hne hx hapart hrest ih =>
      obtain ⟨a, held, hgroup⟩ : ∃ a held, group.reverse = a :: held :=
        List.exists_cons_of_ne_nil (mt List.reverse_eq_nil_iff.1 hne)
      obtain rfl : group = (a :: held).reverse := by rw [← hgroup, List.reverse_reverse]
      have hax : a.targets = x.targets := hx.targets_eq a (by simp)
      have hheld : ∀ b ∈ held, b.targets = a.targets := fun b hb =>
        (hx.targets_eq b (by simp [hb])).trans hax.symm
      have hjoin : x = a.joinAll held :=
        hx.unique hne (Attack.unites_joinAll hheld fun b => List.mem_reverse)
      rw [Table.joinNeighbours_append_of_ne hheld (hax ▸ hapart), ← hjoin, ih]
  · rintro rfl
    cases as with
    | nil => exact .nil
    | cons a as => exact grouped_joinFrom (List.forall_mem_nil _)

/-- There are no more groups than attacks. -/
theorem length_joinNeighbours_le (as : List Attack) :
    (Table.joinNeighbours as).length ≤ as.length := by
  have hgrouped {as xs : List Attack} (h : Grouped as xs) : xs.length ≤ as.length := by
    induction h with
    | nil => exact Nat.le_refl _
    | cons hne _ _ _ ih =>
      have := List.length_pos_iff.2 hne
      rw [List.length_cons, List.length_append]
      omega
  exact hgrouped (grouped_iff.2 rfl)

namespace Reader

/-! ### What lines tell -/

section

variable {cellSize : UInt32} {distance : Option Int} {lines before behind : List Bytes}
  {raw : Bytes} {n : Nat} {e : Error}

/-- Lines with which nothing is wrong tell their attacks before any others. -/
theorem told_append_of_sound (h : ∀ raw ∈ before, ¬Line.Faulty cellSize distance raw) :
    told cellSize distance n (before ++ lines) =
      let rest := told cellSize distance (n + before.length) lines
      (before.filterMap (Line.told? cellSize) ++ rest.1, rest.2) := by
  induction before generalizing n with
  | nil => rfl
  | cons raw before ih =>
    obtain ⟨hraw, hbefore⟩ := List.forall_mem_cons.1 h
    have hread := Line.read_eq_ok_iff.2 ⟨hraw, rfl⟩
    have hn : n + 1 + before.length = n + (raw :: before).length := by
      rw [List.length_cons]
      omega
    rw [List.cons_append, told, hread]
    cases htold : Line.told? cellSize raw with
    | none =>
      simp only [ih hbefore, hn, List.filterMap_cons_none htold]
    | some a =>
      simp only [ih hbefore, hn, List.filterMap_cons_some htold, List.cons_append]

/-- Lines with which nothing is wrong tell all their attacks. -/
theorem told_of_sound (h : ∀ raw ∈ lines, ¬Line.Faulty cellSize distance raw) :
    told cellSize distance n lines = (lines.filterMap (Line.told? cellSize), none) := by
  have htold : told cellSize distance n (lines ++ []) = _ := told_append_of_sound h
  simpa only [told, List.append_nil] using htold

/-- The first line with which something is wrong ends what lines tell, and says what is wrong. -/
theorem told_of_fault (hbefore : ∀ raw ∈ before, ¬Line.Faulty cellSize distance raw)
    (h : Line.Fault cellSize distance (n + before.length + 1) raw e) :
    told cellSize distance n (before ++ raw :: behind) =
      (before.filterMap (Line.told? cellSize), some e) := by
  obtain ⟨e', hread, rfl⟩ := Line.read_eq_error_iff.2 h
  rw [told_append_of_sound hbefore, told, hread]
  simp only [List.append_nil]

/-- Lines tell no error exactly if nothing is wrong with any of them. -/
theorem told_snd_eq_none_iff : (told cellSize distance n lines).2 = none ↔
    ∀ raw ∈ lines, ¬Line.Faulty cellSize distance raw := by
  constructor
  · intro h
    induction lines generalizing n with
    | nil => exact List.forall_mem_nil _
    | cons raw lines ih =>
      rw [told] at h
      cases hread : Line.read cellSize distance raw with
      | error e =>
        rw [hread] at h
        cases h
      | ok x =>
        have hraw := (Line.read_eq_ok_iff.1 hread).1
        rw [hread] at h
        cases x <;> exact List.forall_mem_cons.2 ⟨hraw, ih h⟩
  · intro h
    rw [told_of_sound h]

/-- Lines tell the error of the first with which something is wrong. -/
theorem told_snd_eq_some_iff : (told cellSize distance n lines).2 = some e ↔
    ∃ before raw behind, lines = before ++ raw :: behind ∧
      (∀ x ∈ before, ¬Line.Faulty cellSize distance x) ∧
      Line.Fault cellSize distance (n + before.length + 1) raw e := by
  constructor
  · intro h
    induction lines generalizing n with
    | nil => cases h
    | cons raw lines ih =>
      rw [told] at h
      cases hread : Line.read cellSize distance raw with
      | error e' =>
        rw [hread] at h
        cases h
        exact ⟨[], raw, lines, rfl, List.forall_mem_nil _,
          Line.read_eq_error_iff.1 ⟨e', hread, rfl⟩⟩
      | ok x =>
        have hraw := (Line.read_eq_ok_iff.1 hread).1
        have hrest : (told cellSize distance (n + 1) lines).2 = some e := by
          rw [hread] at h
          cases x <;> exact h
        obtain ⟨before, bad, behind, rfl, hbefore, hfault⟩ := ih hrest
        refine ⟨raw :: before, bad, behind, rfl, List.forall_mem_cons.2 ⟨hraw, hbefore⟩, ?_⟩
        rwa [List.length_cons, ← Nat.add_assoc, Nat.add_right_comm n]
  · rintro ⟨before, raw, behind, rfl, hbefore, hfault⟩
    rw [told_of_fault hbefore hfault]

end

/-- The attacks of a log are yielded exactly if nothing is wrong with any line. -/
theorem attacks_ofContent_eq_ok_iff {config : Config} {distance : Option Int} {content : Bytes}
    {as : List Attack} : (ofContent config distance content).attacks = .ok as ↔
      (∀ raw ∈ Text.lines content, ¬Line.Faulty config.cellSize distance raw) ∧
        as = Table.joinNeighbours
          ((Text.lines content).filterMap (Line.told? config.cellSize)) := by
  rw [attacks_ofContent, ← told_snd_eq_none_iff (n := 0)]
  constructor
  · intro h
    cases hend : (told config.cellSize distance 0 (Text.lines content)).2 with
    | some e =>
      simp only [hend] at h
      cases h
    | none =>
      rw [told_of_sound (told_snd_eq_none_iff.1 hend)] at h
      exact ⟨rfl, (Except.ok.inj h).symm⟩
  · rintro ⟨hend, rfl⟩
    rw [told_of_sound (told_snd_eq_none_iff.1 hend)]
    rfl

/-! ### Calls -/

/-- What a reader answers when it was called `i` times before. -/
def call (r : Reader) : Nat → Option (Except Error Attack)
  | 0 => r.next.1
  | i + 1 => r.next.2.call i

/-- The calls of a reader give the answers one after the other, and nothing from then on. -/
def Yields (r : Reader) (answers : List (Except Error Attack)) : Prop :=
  ∀ i, r.call i = answers[i]?

/-- A reader that answers nothing is done. -/
theorem done_of_scan {r s : Reader} {n : Nat} {held : List Attack} {lines : List Bytes}
    (h : r.scan n held lines = (none, s)) : s.done = true := by
  fun_induction scan r n held lines with
  | case1 => cases (Prod.mk.inj h).2; rfl
  | case2 => cases h
  | case3 _ _ _ _ _ ih => exact ih h
  | case4 _ _ _ _ _ ih => exact ih h
  | case5 _ _ _ _ _ _ _ _ ih => exact ih h
  | case6 => cases h

/-- A reader that gives nothing more is done. -/
theorem done_of_next {r s : Reader} (h : r.next = (none, s)) : s.done = true := by
  by_cases hdone : r.done = true
  · rw [next, if_pos hdone] at h
    cases h
    exact hdone
  · rw [next, if_neg hdone] at h
    exact done_of_scan h

/-- A reader that is done answers nothing however often it is called. -/
theorem call_of_done {r : Reader} (h : r.done = true) (i : Nat) : r.call i = none := by
  have hnext : r.next = (none, r) := if_pos h
  induction i with
  | zero => rw [call, hnext]
  | succ i ih => rw [call, hnext, ih]

/-- The calls of a reader give its items, and then nothing. -/
theorem yields_items (r : Reader) : r.Yields r.items := by
  intro i
  fun_induction items r generalizing i with
  | case1 r s hnext =>
    cases i with
    | zero => rw [call, hnext]; rfl
    | succ i => rw [call, hnext, call_of_done (done_of_next hnext)]; rfl
  | case2 r x s hnext ih =>
    cases i with
    | zero => rw [call, hnext]; rfl
    | succ i => rw [call, hnext, ih, List.getElem?_cons_succ]

/-- **What the calls of a reader give from a log.** If none of the `lines` is `Line.Faulty`, the
reader `Yields` one attack for each group that is `Grouped` from what `Line.told?` gives for the
lines. Otherwise let `raw` be the first that is, with the lines `before` it, and `e` its
`Line.Fault`, with the number of the line. Then the reader yields the groups of the lines `before`,
but `e` takes the place of the last of them, which is lost. -/
theorem yields_ofContent (config : Config) (distance : Option Int) (content : Bytes) :
    let cellSize := config.cellSize
    let lines := Text.lines content
    let reader := ofContent config distance content
    ((∀ raw ∈ lines, ¬Line.Faulty cellSize distance raw) →
      ∃ attacks, Grouped (lines.filterMap (Line.told? cellSize)) attacks ∧
        reader.Yields (attacks.map .ok)) ∧
    ∀ before raw behind e, lines = before ++ raw :: behind →
      (∀ raw ∈ before, ¬Line.Faulty cellSize distance raw) →
      Line.Fault cellSize distance (before.length + 1) raw e →
        ∃ attacks, Grouped (before.filterMap (Line.told? cellSize)) attacks ∧
          reader.Yields (attacks.dropLast.map .ok ++ [.error e]) := by
  constructor
  · intro hsound
    refine ⟨_, grouped_iff.2 rfl, ?_⟩
    have hitems := items_ofContent config distance content
    rw [told_of_sound hsound, answers] at hitems
    exact hitems ▸ yields_items _
  · intro before raw behind e hlines hbefore hfault
    refine ⟨_, grouped_iff.2 rfl, ?_⟩
    have hitems := items_ofContent config distance content
    rw [hlines, told_of_fault hbefore (by rwa [Nat.zero_add]), answers] at hitems
    exact hitems ▸ yields_items _

/-- A log with two runs on one row, a comment between them, a run on another row and then a line
that stands for no run. -/
def brokenLog : List Bytes :=
  ["(0 0 0 0 1) :(0 0 0 0 2)1|1|0", "# again", "(0 0 0 0 1) :(0 0 0 0 2)1|2|0", "(0 0 0 0 3) :",
    "row 4", "(0 0 0 0 5) :"].map fun s => Text.encode s.toList

/-- The first four lines give an attack for each of their two groups. Of the whole log, the first
group is one attack, the second is lost, and nothing follows what is wrong with the fifth line. -/
theorem yields_brokenLog :
    let row : Address := ⟨0, 0, 0, 0, 1, 0⟩
    let cell : Address := ⟨0, 0, 0, 0, 2, 1⟩
    let other : Address := ⟨0, 0, 0, 0, 3, 0⟩
    let first : Attack := ⟨⟨row, row⟩, SortedSet.ofList [⟨cell, 0, .up⟩, ⟨cell, 1, .up⟩]⟩
    (ofContent { cellSize := 1 } none ((brokenLog.take 4).flatMap (· ++ [10]))).Yields
        [.ok first, .ok ⟨⟨other, other⟩, SortedSet.empty⟩] ∧
      (ofContent { cellSize := 1 } none (brokenLog.flatMap (· ++ [10]))).Yields
        [.ok first, .error (.parse 5 .missingColon)] := by
  intro row cell other first
  have hfront : Text.lines ((brokenLog.take 4).flatMap (· ++ [10])) = brokenLog.take 4 :=
    Text.lines_flatMap (by decide +kernel)
  have hlines : Text.lines (brokenLog.flatMap (· ++ [10])) =
      brokenLog.take 4 ++ Text.encode "row 4".toList :: brokenLog.drop 5 :=
    Text.lines_flatMap (by decide +kernel)
  have hread : List.Forall₂ (fun raw x => Line.read 1 none raw = .ok x) (brokenLog.take 4)
      [some ⟨⟨row, row⟩, SortedSet.ofList [⟨cell, 0, .up⟩]⟩, none,
        some ⟨⟨row, row⟩, SortedSet.ofList [⟨cell, 1, .up⟩]⟩,
        some ⟨⟨other, other⟩, SortedSet.empty⟩] := by
    refine .cons ?_ (.cons ?_ (.cons ?_ (.cons ?_ .nil))) <;> rw [Line.read, Text.decode?_encode]
    all_goals cbv
  obtain ⟨hsound, htold⟩ := Line.told_of_forall₂_read hread
  have hfault : Line.Fault 1 none 5 (Text.encode "row 4".toList) (.parse 5 .missingColon) := by
    refine Line.read_eq_error_iff.1 ⟨.parse 0 .missingColon, ?_, rfl⟩
    rw [Line.read, Text.decode?_encode]
    cbv
  have hjoined : Table.joinNeighbours ((brokenLog.take 4).filterMap (Line.told? 1)) =
      [first, ⟨⟨other, other⟩, SortedSet.empty⟩] := by
    simp only [htold, first]
    cbv
  constructor
  · obtain ⟨attacks, hgrouped, hyields⟩ :=
      (yields_ofContent { cellSize := 1 } none ((brokenLog.take 4).flatMap (· ++ [10]))).1
        (hfront.symm ▸ hsound)
    rw [hfront, grouped_iff, hjoined] at hgrouped
    subst hgrouped
    exact hyields
  · obtain ⟨attacks, hgrouped, hyields⟩ :=
      (yields_ofContent { cellSize := 1 } none (brokenLog.flatMap (· ++ [10]))).2 _ _ _ _ hlines
        hsound hfault
    rw [grouped_iff, hjoined] at hgrouped
    subst hgrouped
    exact hyields

end Reader

end RowFlips
