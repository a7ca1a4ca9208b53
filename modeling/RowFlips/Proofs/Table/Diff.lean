import Mathlib.Data.List.Basic
import RowFlips.Proofs.Table.Canonical
import RowFlips.Table.Diff

/-!
# What comparing tables finds

Comparing two canonical tables walks through both at once. What that finds at some targets depends
on nothing but what the two tables hold there: an attack that only one of them has goes to its side
as it is, and attacks on targets of both are parted flip by flip. Either table can be put together
again from its side and the common part, and no flip is counted twice.

## Main results

* `mem_diff_left`, `mem_diff_common`: the attacks of the parts.
* `Canonical.diff_comm`: comparing the other way round swaps the sides.
* `Canonical.ofAttacks_diff`: one side and the common part make up the table.
* `Canonical.numFlips_diff`: the flips of a table are divided between these parts.
* `diff_exact`: all that a comparison finds, targets by targets.
-/

namespace RowFlips

namespace Attack

/-- An attack has flips if some flip is among them. -/
theorem hasFlips_iff {a : Attack} : a.hasFlips = true ↔ ∃ f, f ∈ a.flips := by
  rw [hasFlips, Bool.not_eq_true', Bool.eq_false_iff, ne_eq, SortedSet.isEmpty_iff]
  simp

/-- An attack without flips has 0 of them. -/
theorem size_flips_of_not_hasFlips {a : Attack} (h : ¬a.hasFlips = true) : a.flips.size = 0 := by
  rw [hasFlips, Bool.not_eq_true', Bool.not_eq_false, SortedSet.isEmpty, List.isEmpty_iff] at h
  rw [SortedSet.size, h, List.length_nil]

end Attack

namespace Table

/-! ### The parts as lists -/

/-- What attacks of two tables put into the left part. -/
def leftPart? : Aligned Attack → Option Attack
  | .left a => some a
  | .both a b => if (a.split b).left.hasFlips then some (a.split b).left else none
  | .right _ => none

/-- What attacks of two tables put into the common part. -/
def commonPart? : Aligned Attack → Option Attack
  | .both a b => some (a.split b).common
  | _ => none

/-- What attacks of two tables put into the right part. -/
def rightPart? : Aligned Attack → Option Attack
  | .left _ => none
  | .both a b => if (a.split b).right.hasFlips then some (a.split b).right else none
  | .right b => some b

/-- The parts of two lists, each picked from the aligned lists. -/
theorem diffAttacks_eq (as bs : List Attack) :
    diffAttacks as bs =
      ⟨(align (compareBy Attack.targets) as bs).filterMap leftPart?,
        (align (compareBy Attack.targets) as bs).filterMap commonPart?,
        (align (compareBy Attack.targets) as bs).filterMap rightPart?⟩ := by
  rw [diffAttacks]
  generalize align (compareBy Attack.targets) as bs = xs
  induction xs with
  | nil => rfl
  | cons x xs ih =>
    rw [List.foldr_cons, ih]
    cases x with
    | left a => rfl
    | right b => rfl
    | both a b =>
      simp only [consParts, consIfFlips, List.filterMap_cons, leftPart?, commonPart?, rightPart?]
      cases (a.split b).left.hasFlips <;> cases (a.split b).right.hasFlips <;> rfl

/-- Parts picked from aligned tables are canonical if picking keeps the targets. -/
theorem canonical_filterMap_align {s t : Table} (hs : s.Canonical) (ht : t.Canonical)
    {pick : Aligned Attack → Option Attack}
    (h : ∀ x a, pick x = some a → a.targets = x.element.targets) :
    Canonical ⟨(align (compareBy Attack.targets) s.attacks t.attacks).filterMap pick⟩ := by
  refine List.pairwise_filterMap.2 ((ascending_align hs ht).imp ?_)
  intro x y hxy a ha b hb
  rwa [h x a ha, h y b hb]

/-- What only the first of two canonical tables has is canonical. -/
theorem Canonical.diff_left {s t : Table} (hs : s.Canonical) (ht : t.Canonical) :
    (s.diff t).left.Canonical := by
  rw [diff, diffAttacks_eq]
  refine canonical_filterMap_align hs ht ?_
  intro x a h
  cases x <;> grind [leftPart?, Aligned.element, Attack.split]

/-- What both of two canonical tables have is canonical. -/
theorem Canonical.diff_common {s t : Table} (hs : s.Canonical) (ht : t.Canonical) :
    (s.diff t).common.Canonical := by
  rw [diff, diffAttacks_eq]
  refine canonical_filterMap_align hs ht ?_
  intro x a h
  cases x <;> grind [commonPart?, Aligned.element, Attack.split]

/-! ### What the parts hold -/

/-- The left part holds the attacks that the right table has no counterpart of, and the flips that
counterparts lack. -/
theorem mem_diff_left {s t : Table} (hs : s.Canonical) (ht : t.Canonical) {x : Attack} :
    x ∈ (s.diff t).left.attacks ↔
      (x ∈ s.attacks ∧ ∀ b ∈ t.attacks, x.targets ≠ b.targets) ∨
        ∃ a ∈ s.attacks, ∃ b ∈ t.attacks, a.targets = b.targets ∧
          (a.split b).left.hasFlips = true ∧ x = (a.split b).left := by
  rw [diff, diffAttacks_eq, List.mem_filterMap]
  constructor
  · rintro ⟨y, hy, hx⟩
    have hy := (mem_align hs ht).1 hy
    cases y with
    | left a =>
      obtain rfl : a = x := Option.some.inj hx
      exact Or.inl hy
    | both a b =>
      obtain ⟨ha, hb, hab⟩ := hy
      simp only [leftPart?, Option.ite_none_right_eq_some, Option.some.injEq] at hx
      exact Or.inr ⟨a, ha, b, hb, hab, hx.1, hx.2.symm⟩
    | right b => cases hx
  · rintro (⟨hx, hne⟩ | ⟨a, ha, b, hb, hab, hflips, rfl⟩)
    · exact ⟨.left x, (mem_align hs ht).2 ⟨hx, hne⟩, rfl⟩
    · exact ⟨.both a b, (mem_align hs ht).2 ⟨ha, hb, hab⟩, if_pos hflips⟩

/-- The common part holds what attacks of both tables share. -/
theorem mem_diff_common {s t : Table} (hs : s.Canonical) (ht : t.Canonical) {x : Attack} :
    x ∈ (s.diff t).common.attacks ↔
      ∃ a ∈ s.attacks, ∃ b ∈ t.attacks, a.targets = b.targets ∧ x = (a.split b).common := by
  rw [diff, diffAttacks_eq, List.mem_filterMap]
  constructor
  · rintro ⟨y, hy, hx⟩
    have hy := (mem_align hs ht).1 hy
    cases y with
    | left a => cases hx
    | both a b =>
      obtain ⟨ha, hb, hab⟩ := hy
      exact ⟨a, ha, b, hb, hab, (Option.some.inj hx).symm⟩
    | right b => cases hx
  · rintro ⟨a, ha, b, hb, hab, rfl⟩
    exact ⟨.both a b, (mem_align hs ht).2 ⟨ha, hb, hab⟩, rfl⟩

/-! ### The other way round -/

/-- Attacks of both tables stand side by side only if they are on the same targets. -/
theorem targets_eq_of_both_mem_align {s t : Table} (hs : s.Canonical) (ht : t.Canonical)
    {a b : Attack} (h : .both a b ∈ align (compareBy Attack.targets) s.attacks t.attacks) :
    a.targets = b.targets := by
  obtain ⟨-, -, hab⟩ := (mem_align hs ht (x := .both a b)).1 h
  exact hab

/-- Comparing the other way round swaps the sides. -/
theorem Canonical.diff_comm {s t : Table} (hs : s.Canonical) (ht : t.Canonical) :
    t.diff s = ⟨(s.diff t).right, (s.diff t).common, (s.diff t).left⟩ := by
  have hpick {pick pick' : Aligned Attack → Option Attack}
      (h : ∀ x ∈ align (compareBy Attack.targets) s.attacks t.attacks, pick x.swap = pick' x) :
      (align (compareBy Attack.targets) t.attacks s.attacks).filterMap pick =
        (align (compareBy Attack.targets) s.attacks t.attacks).filterMap pick' := by
    rw [align_swap, List.filterMap_map]
    exact List.filterMap_congr h
  rw [diff, diff, diffAttacks_eq, diffAttacks_eq]
  simp only [Parts.mk.injEq, Table.mk.injEq]
  refine ⟨hpick fun x hx => ?_, hpick fun x hx => ?_, hpick fun x hx => ?_⟩ <;>
    obtain a | ⟨⟨u, as⟩, ⟨v, bs⟩⟩ | b := x <;> try rfl
  · obtain rfl : u = v := targets_eq_of_both_mem_align hs ht hx
    rfl
  · obtain rfl : u = v := targets_eq_of_both_mem_align hs ht hx
    exact congrArg (fun flips => some (Attack.mk u flips)) (SortedSet.inter_comm bs as)
  · obtain rfl : u = v := targets_eq_of_both_mem_align hs ht hx
    rfl

/-- The right part is the left part of the comparison the other way round. -/
theorem Canonical.diff_right_eq {s t : Table} (hs : s.Canonical) (ht : t.Canonical) :
    (s.diff t).right = (t.diff s).left := by
  rw [hs.diff_comm ht]

/-! ### The parts at given targets -/

/-- What the left part holds at some targets, from what the tables hold there. -/
theorem Canonical.get?_diff_left {s t : Table} (hs : s.Canonical) (ht : t.Canonical)
    (targets : Targets) :
    (s.diff t).left.get? targets =
      match s.get? targets, t.get? targets with
      | none, _ => none
      | some a, none => some a
      | some a, some b => leftPart? (.both a b) := by
  have hl := hs.diff_left ht
  cases hget : s.get? targets with
  | none =>
    have hne := hs.get?_eq_none_iff.1 hget
    refine hl.get?_eq_none_iff.2 ?_
    intro x hx
    rcases (mem_diff_left hs ht).1 hx with ⟨hx, -⟩ | ⟨a, ha, b, -, -, -, rfl⟩
    · exact hne x hx
    · exact hne a ha
  | some a =>
    obtain ⟨ha, rfl⟩ := hs.get?_eq_some_iff.1 hget
    cases hget' : t.get? a.targets with
    | none =>
      have hne := ht.get?_eq_none_iff.1 hget'
      refine hl.get?_eq_some_iff.2 ⟨(mem_diff_left hs ht).2 (Or.inl ⟨ha, fun b hb => ?_⟩), rfl⟩
      exact (hne b hb).symm
    | some b =>
      obtain ⟨hb, hba⟩ := ht.get?_eq_some_iff.1 hget'
      simp only [leftPart?]
      split
      · rename_i hflips
        refine hl.get?_eq_some_iff.2 ⟨(mem_diff_left hs ht).2 (Or.inr ?_), rfl⟩
        exact ⟨a, ha, b, hb, hba.symm, hflips, rfl⟩
      · rename_i hflips
        refine hl.get?_eq_none_iff.2 ?_
        intro x hx hxa
        rcases (mem_diff_left hs ht).1 hx with ⟨-, hne⟩ | ⟨c, hc, d, hd, hcd, hflips', rfl⟩
        · exact hne b hb (hxa.trans hba.symm)
        · obtain rfl : c = a := hs.eq_of_targets hc ha hxa
          obtain rfl : d = b := ht.eq_of_targets hd hb (hcd.symm.trans hba.symm)
          exact hflips hflips'

/-- What the common part holds at some targets, from what the tables hold there. -/
theorem Canonical.get?_diff_common {s t : Table} (hs : s.Canonical) (ht : t.Canonical)
    (targets : Targets) :
    (s.diff t).common.get? targets =
      match s.get? targets, t.get? targets with
      | some a, some b => some (a.split b).common
      | _, _ => none := by
  have hc := hs.diff_common ht
  cases hget : s.get? targets with
  | none =>
    have hne := hs.get?_eq_none_iff.1 hget
    refine hc.get?_eq_none_iff.2 ?_
    intro x hx
    obtain ⟨a, ha, b, -, -, rfl⟩ := (mem_diff_common hs ht).1 hx
    exact hne a ha
  | some a =>
    obtain ⟨ha, rfl⟩ := hs.get?_eq_some_iff.1 hget
    cases hget' : t.get? a.targets with
    | none =>
      have hne := ht.get?_eq_none_iff.1 hget'
      refine hc.get?_eq_none_iff.2 ?_
      intro x hx hxa
      obtain ⟨c, -, d, hd, hcd, rfl⟩ := (mem_diff_common hs ht).1 hx
      exact hne d hd (hcd.symm.trans hxa)
    | some b =>
      obtain ⟨hb, hba⟩ := ht.get?_eq_some_iff.1 hget'
      refine hc.get?_eq_some_iff.2 ⟨(mem_diff_common hs ht).2 ?_, rfl⟩
      exact ⟨a, ha, b, hb, hba.symm, rfl⟩

/-! ### Putting a table together again -/

/-- One side and the common part are together on the targets of the table of that side. -/
theorem Canonical.exists_mem_diff_iff {s t : Table} (hs : s.Canonical) (ht : t.Canonical)
    (targets : Targets) :
    (∃ a ∈ (s.diff t).left.attacks ++ (s.diff t).common.attacks, a.targets = targets) ↔
      ∃ a ∈ s.attacks, a.targets = targets := by
  simp only [List.mem_append, mem_diff_left hs ht, mem_diff_common hs ht]
  constructor
  · rintro ⟨x, (⟨hx, -⟩ | ⟨a, ha, b, -, -, -, rfl⟩) | ⟨a, ha, b, -, -, rfl⟩, rfl⟩
    · exact ⟨x, hx, rfl⟩
    · exact ⟨a, ha, rfl⟩
    · exact ⟨a, ha, rfl⟩
  · rintro ⟨a, ha, rfl⟩
    by_cases hb : ∃ b ∈ t.attacks, a.targets = b.targets
    · obtain ⟨b, hb, hab⟩ := hb
      exact ⟨(a.split b).common, Or.inr ⟨a, ha, b, hb, hab, rfl⟩, rfl⟩
    · exact ⟨a, Or.inl (Or.inl ⟨ha, fun b hmem hab => hb ⟨b, hmem, hab⟩⟩), rfl⟩

/-- They show the same flips there: a flip of an attack on targets of both tables is in the common
part if the other table has it, and else in the side. -/
theorem Canonical.exists_mem_flips_diff_iff {s t : Table} (hs : s.Canonical) (ht : t.Canonical)
    (targets : Targets) (f : Flip) :
    (∃ a ∈ (s.diff t).left.attacks ++ (s.diff t).common.attacks,
        a.targets = targets ∧ f ∈ a.flips) ↔
      ∃ a ∈ s.attacks, a.targets = targets ∧ f ∈ a.flips := by
  simp only [List.mem_append, mem_diff_left hs ht, mem_diff_common hs ht]
  constructor
  · rintro ⟨x, (⟨hx, -⟩ | ⟨a, ha, b, -, -, -, rfl⟩) | ⟨a, ha, b, -, -, rfl⟩, rfl, hf⟩
    · exact ⟨x, hx, rfl, hf⟩
    · exact ⟨a, ha, rfl, (SortedSet.mem_diff.1 hf).1⟩
    · exact ⟨a, ha, rfl, (SortedSet.mem_inter.1 hf).1⟩
  · rintro ⟨a, ha, rfl, hf⟩
    by_cases hb : ∃ b ∈ t.attacks, a.targets = b.targets
    · obtain ⟨b, hb, hab⟩ := hb
      by_cases hfb : f ∈ b.flips
      · exact ⟨(a.split b).common, Or.inr ⟨a, ha, b, hb, hab, rfl⟩, rfl,
          SortedSet.mem_inter.2 ⟨hf, hfb⟩⟩
      · have hmem : f ∈ (a.split b).left.flips := SortedSet.mem_diff.2 ⟨hf, hfb⟩
        exact ⟨(a.split b).left,
          Or.inl (Or.inr ⟨a, ha, b, hb, hab, Attack.hasFlips_iff.2 ⟨f, hmem⟩, rfl⟩), rfl, hmem⟩
    · exact ⟨a, Or.inl (Or.inl ⟨ha, fun b hmem hab => hb ⟨b, hmem, hab⟩⟩), rfl, hf⟩

/-- One side and the common part make up the table of that side. -/
theorem Canonical.ofAttacks_diff {s t : Table} (hs : s.Canonical) (ht : t.Canonical) :
    ofAttacks ((s.diff t).left.attacks ++ (s.diff t).common.attacks) = s := by
  refine (ofAttacks_congr fun x => ?_).trans hs.ofAttacks_eq
  refine and_congr (hs.exists_mem_diff_iff ht x.targets) (forall_congr' fun f => ?_)
  exact iff_congr Iff.rfl (hs.exists_mem_flips_diff_iff ht x.targets f)

/-- The flips of a list of attacks, counted together. -/
theorem numFlips_cons (a : Attack) (as : List Attack) :
    numFlips ⟨a :: as⟩ = a.flips.size + numFlips ⟨as⟩ := rfl

/-- The flips of the left table are divided between the left and the common part. -/
theorem numFlips_diff (s t : Table) :
    s.numFlips = (s.diff t).left.numFlips + (s.diff t).common.numFlips := by
  have hs := filterMap_ofLeft?_align (compareBy Attack.targets) s.attacks t.attacks
  suffices ∀ xs : List (Aligned Attack), numFlips ⟨xs.filterMap Aligned.ofLeft?⟩ =
      numFlips ⟨xs.filterMap leftPart?⟩ + numFlips ⟨xs.filterMap commonPart?⟩ by
    rw [diff, diffAttacks_eq]
    exact (congrArg (fun as => numFlips ⟨as⟩) hs).symm.trans (this _)
  intro xs
  induction xs with
  | nil => rfl
  | cons x xs ih =>
    cases x with
    | left a =>
      simp only [List.filterMap_cons, Aligned.ofLeft?, leftPart?, commonPart?, numFlips_cons]
      omega
    | right b => exact ih
    | both a b =>
      have hsize := SortedSet.size_diff_add_size_inter a.flips b.flips
      have hof : (Aligned.both a b).ofLeft? = some a := rfl
      have hcommon : commonPart? (.both a b) = some (a.split b).common := rfl
      rw [List.filterMap_cons_some hof, List.filterMap_cons_some hcommon, numFlips_cons,
        numFlips_cons, ih, ← hsize]
      by_cases hflips : (a.split b).left.hasFlips = true
      · have hleft : leftPart? (.both a b) = some (a.split b).left := if_pos hflips
        rw [List.filterMap_cons_some hleft, numFlips_cons]
        simp only [Attack.split]
        omega
      · have hleft : leftPart? (.both a b) = none := if_neg hflips
        have hzero := Attack.size_flips_of_not_hasFlips hflips
        rw [List.filterMap_cons_none hleft]
        simp only [Attack.split] at hzero ⊢
        omega

/-! ### Comparing a table with itself -/

/-- The table without attacks is canonical. -/
theorem canonical_empty : empty.Canonical := List.Pairwise.nil

/-- A table differs from itself nowhere. -/
theorem Canonical.diff_self {s : Table} (hs : s.Canonical) : s.diff s = ⟨empty, s, empty⟩ := by
  have hempty (targets : Targets) : empty.get? targets = none :=
    canonical_empty.get?_eq_none_iff.2 (List.forall_mem_nil _)
  have hleft : (s.diff s).left = empty := by
    refine (hs.diff_left hs).ext_get? canonical_empty ?_
    intro targets
    rw [hs.get?_diff_left hs, hempty]
    cases s.get? targets with
    | none => rfl
    | some a => exact if_neg (by simp [Attack.split, Attack.hasFlips])
  have hcommon : (s.diff s).common = s := by
    refine (hs.diff_common hs).ext_get? hs ?_
    intro targets
    rw [hs.get?_diff_common hs]
    cases s.get? targets with
    | none => rfl
    | some a => simp [Attack.split]
  have hright : (s.diff s).right = empty := (hs.diff_right_eq hs).trans hleft
  calc s.diff s = ⟨(s.diff s).left, (s.diff s).common, (s.diff s).right⟩ := rfl
    _ = ⟨empty, s, empty⟩ := by rw [hleft, hcommon, hright]

/-! ### All that a comparison finds -/

/-- What the parts of two tables hold at some targets, at which the left table holds `a` and the
right one `b`. -/
def PartedAt (parts : Parts Table) (targets : Targets) (a b : Option Attack) : Prop :=
  match a, b with
  | none, none =>
    parts.left.get? targets = none ∧ parts.common.get? targets = none ∧
      parts.right.get? targets = none
  | some a, none =>
    parts.left.get? targets = some a ∧ parts.common.get? targets = none ∧
      parts.right.get? targets = none
  | none, some b =>
    parts.left.get? targets = none ∧ parts.common.get? targets = none ∧
      parts.right.get? targets = some b
  | some a, some b =>
    parts.left.get? targets =
        (if (a.flips.diff b.flips).isEmpty then none else some ⟨targets, a.flips.diff b.flips⟩) ∧
      parts.common.get? targets = some ⟨targets, a.flips.inter b.flips⟩ ∧
      parts.right.get? targets =
        (if (b.flips.diff a.flips).isEmpty then none else some ⟨targets, b.flips.diff a.flips⟩)

/-- What the left part holds of attacks of both tables. -/
theorem leftPart?_both (a b : Attack) :
    leftPart? (.both a b) =
      if (a.flips.diff b.flips).isEmpty then none
      else some ⟨a.targets, a.flips.diff b.flips⟩ := by
  by_cases h : (a.flips.diff b.flips).isEmpty = true <;>
    simp [leftPart?, Attack.split, Attack.hasFlips, h]

/-- At all targets, the parts hold what the two tables hold there, parted. -/
theorem Canonical.partedAt_diff {s t : Table} (hs : s.Canonical) (ht : t.Canonical)
    (targets : Targets) :
    PartedAt (s.diff t) targets (s.get? targets) (t.get? targets) := by
  have hleft := hs.get?_diff_left ht targets
  have hcommon := hs.get?_diff_common ht targets
  have hright := ht.get?_diff_left hs targets
  rw [← hs.diff_right_eq ht] at hright
  cases ha : s.get? targets with
  | none =>
    cases hb : t.get? targets <;> rw [ha, hb] at hleft hcommon hright <;>
      exact ⟨hleft, hcommon, hright⟩
  | some a =>
    cases hb : t.get? targets with
    | none =>
      rw [ha, hb] at hleft hcommon hright
      exact ⟨hleft, hcommon, hright⟩
    | some b =>
      rw [ha, hb] at hleft hcommon hright
      obtain ⟨-, hat⟩ := hs.get?_eq_some_iff.1 ha
      obtain ⟨-, hbt⟩ := ht.get?_eq_some_iff.1 hb
      refine ⟨?_, ?_, ?_⟩
      · rw [hleft, ← hat]
        exact leftPart?_both a b
      · rw [hcommon, ← hat]
        rfl
      · rw [hright, ← hbt]
        exact leftPart?_both b a

/-- **Comparing is exact.** The three parts of canonical tables `s` and `t` are canonical. At all
`targets` they hold what `PartedAt` says: an attack that one table alone has whole, of attacks of
both the flips they share, and on each side what it alone has, if there is any. So `ofAttacks` makes
`s` again of its `left` part and the `common` one, and `t` of its `right` part and the `common` one,
and `numFlips` of the parts add up. Comparing the other way round swaps `left` and `right`, and a
table compared with itself has all in `common`. -/
theorem diff_exact {s t : Table} (hs : s.Canonical) (ht : t.Canonical) :
    ((s.diff t).left.Canonical ∧ (s.diff t).common.Canonical ∧ (s.diff t).right.Canonical) ∧
    (∀ targets, PartedAt (s.diff t) targets (s.get? targets) (t.get? targets)) ∧
    (ofAttacks ((s.diff t).left.attacks ++ (s.diff t).common.attacks) = s ∧
      ofAttacks ((s.diff t).right.attacks ++ (s.diff t).common.attacks) = t) ∧
    (s.numFlips = (s.diff t).left.numFlips + (s.diff t).common.numFlips ∧
      t.numFlips = (s.diff t).right.numFlips + (s.diff t).common.numFlips) ∧
    t.diff s = ⟨(s.diff t).right, (s.diff t).common, (s.diff t).left⟩ ∧
    s.diff s = ⟨empty, s, empty⟩ := by
  have hcomm := hs.diff_comm ht
  have hright : (s.diff t).right = (t.diff s).left := hs.diff_right_eq ht
  have hcommon : (s.diff t).common = (t.diff s).common := by rw [hcomm]
  refine ⟨⟨hs.diff_left ht, hs.diff_common ht, ?_⟩, hs.partedAt_diff ht,
    ⟨hs.ofAttacks_diff ht, ?_⟩, ⟨numFlips_diff s t, ?_⟩, hcomm, hs.diff_self⟩
  · rw [hright]
    exact ht.diff_left hs
  · rw [hright, hcommon]
    exact ht.ofAttacks_diff hs
  · rw [hright, hcommon]
    exact numFlips_diff t s

/-- An attack on two rows around row 11 of some bank, in column 4, that flips bits of row 11. -/
def sampleAttack (bank : UInt8) (bits : List UInt32) : Attack :=
  ⟨⟨⟨0, 0, 1, bank, 10, 4⟩, ⟨0, 0, 1, bank, 12, 4⟩⟩,
    SortedSet.ofList (bits.map fun bit => ⟨⟨0, 0, 1, bank, 11, 4⟩, bit, .down⟩)⟩

/-- Targets of both tables, with flips of either table alone and of both. -/
theorem diff_sampleAttack :
    let s : Table := ⟨[sampleAttack 1 [], sampleAttack 2 [9, 3, 7], sampleAttack 4 [5]]⟩
    let t : Table := ⟨[sampleAttack 2 [7, 8], sampleAttack 3 [], sampleAttack 4 [5, 6]]⟩
    s.Canonical ∧ t.Canonical ∧
      PartedAt (s.diff t) (sampleAttack 2 []).targets (some (sampleAttack 2 [9, 3, 7]))
        (some (sampleAttack 2 [7, 8])) := by
  intro s t
  have hs : s.Canonical := by decide
  have ht : t.Canonical := by decide
  have hs2 : s.get? (sampleAttack 2 []).targets = some (sampleAttack 2 [9, 3, 7]) :=
    hs.get?_eq_some_iff.2 ⟨List.mem_cons_of_mem _ List.mem_cons_self, rfl⟩
  have ht2 : t.get? (sampleAttack 2 []).targets = some (sampleAttack 2 [7, 8]) :=
    ht.get?_eq_some_iff.2 ⟨List.mem_cons_self, rfl⟩
  have hparted := (diff_exact hs ht).2.1 (sampleAttack 2 []).targets
  rw [hs2, ht2] at hparted
  exact ⟨hs, ht, hparted⟩

end Table

end RowFlips
