import Mathlib
import RowFlips.Proofs.Table.Diff

/-!
# What tables have in common

Tables are compared one after the other, and each time only the common part is kept. What is left in
the end are the targets that all tables have, each with the flips that all tables have there. An
attack without flips is kept, so whether targets are shared does not depend on which tables were
compared first. This makes the result a function of the set of tables alone.

## Main results

* `CommonTo.unique`: there is only one table that has just what others have in common.
* `CommonTo.append`: one comparison finds what two lists of tables have in common.
* `commonTo_common`: so does a chain of comparisons, of tables that may themselves be common parts.
* `common_exact`: all tables are intersected at once, in whatever order and however grouped.
-/

namespace RowFlips.Table

/-- The table is what all tables of a list have in common: it is on the targets that each of them
has an attack on, with the flips that each of them has there. -/
structure CommonTo (u : Table) (ts : List Table) : Prop where
  canonical : u.Canonical
  targets (targets : Targets) :
    (∃ a ∈ u.attacks, a.targets = targets) ↔ ∀ t ∈ ts, ∃ b ∈ t.attacks, b.targets = targets
  flips : ∀ a ∈ u.attacks, ∀ f,
    f ∈ a.flips ↔ ∀ t ∈ ts, ∃ b ∈ t.attacks, b.targets = a.targets ∧ f ∈ b.flips

namespace CommonTo

variable {s t u v : Table} {ts us : List Table}

/-- Which tables there are matters, but not their order and how often each occurs. -/
theorem congr (h : u.CommonTo ts) (hmem : ∀ t, t ∈ ts ↔ t ∈ us) : u.CommonTo us where
  canonical := h.canonical
  targets targets := by simp only [h.targets, hmem]
  flips a ha f := by simp only [h.flips a ha, hmem]

/-- An attack of one table common to `ts` is one of every other. -/
theorem mem_of_mem (hu : u.CommonTo ts) (hv : v.CommonTo ts) {a : Attack} (ha : a ∈ u.attacks) :
    a ∈ v.attacks := by
  obtain ⟨b, hb, hba⟩ := (hv.targets a.targets).2 ((hu.targets a.targets).1 ⟨a, ha, rfl⟩)
  have hflips (f : Flip) : f ∈ a.flips ↔ f ∈ b.flips := by
    rw [hu.flips a ha, hv.flips b hb, hba]
  exact Attack.ext hba.symm hflips ▸ hb

/-- There is only one table that has just what others have in common. -/
theorem unique (hu : u.CommonTo ts) (hv : v.CommonTo ts) : u = v :=
  hu.canonical.ext hv.canonical fun _ => ⟨hu.mem_of_mem hv, hv.mem_of_mem hu⟩

/-- A table has all of itself in common with itself. -/
theorem singleton (ht : t.Canonical) : t.CommonTo [t] where
  canonical := ht
  targets targets := by simp only [List.mem_singleton, forall_eq]
  flips a ha f := by
    simp only [List.mem_singleton, forall_eq]
    constructor
    · intro hf
      exact ⟨a, ha, rfl, hf⟩
    · rintro ⟨b, hb, hba, hf⟩
      exact ht.eq_of_targets hb ha hba ▸ hf

/-- What two tables have in common is what all tables have in common of which they are the common
parts. An attack on targets of both stays even if it is left without flips. -/
theorem append (hs : s.CommonTo ts) (ht : t.CommonTo us) :
    (s.diff t).common.CommonTo (ts ++ us) where
  canonical := hs.canonical.diff_common ht.canonical
  targets targets := by
    simp only [List.forall_mem_append, ← hs.targets, ← ht.targets,
      mem_diff_common hs.canonical ht.canonical]
    constructor
    · rintro ⟨_, ⟨a, ha, b, hb, hab, rfl⟩, rfl⟩
      exact ⟨⟨a, ha, rfl⟩, ⟨b, hb, hab.symm⟩⟩
    · rintro ⟨⟨a, ha, rfl⟩, ⟨b, hb, hba⟩⟩
      exact ⟨(a.split b).common, ⟨a, ha, b, hb, hba.symm, rfl⟩, rfl⟩
  flips x hx f := by
    obtain ⟨a, ha, b, hb, hab, rfl⟩ := (mem_diff_common hs.canonical ht.canonical).1 hx
    have htargets : (a.split b).common.targets = a.targets := rfl
    have hshared : f ∈ (a.split b).common.flips ↔ f ∈ a.flips ∧ f ∈ b.flips :=
      SortedSet.mem_inter
    rw [hshared, htargets, List.forall_mem_append, hs.flips a ha, ht.flips b hb, hab]

/-- Comparing with further tables one after the other adds them to those that are common. -/
theorem foldl {groups : List (List Table)} (hu : u.CommonTo us)
    (h : List.Forall₂ CommonTo ts groups) :
    (ts.foldl (fun s t => (s.diff t).common) u).CommonTo (us ++ groups.flatten) := by
  induction h generalizing u us with
  | nil => simpa using hu
  | cons ht _ ih =>
    rw [List.foldl_cons, List.flatten_cons, ← List.append_assoc]
    exact ih (hu.append ht)

end CommonTo

variable {ts us : List Table}

/-- What tables have in common, each of which is what others have in common, is what all of these
have in common. -/
theorem commonTo_common {groups : List (List Table)} (hne : ts ≠ [])
    (h : List.Forall₂ CommonTo ts groups) : (common ts).CommonTo groups.flatten := by
  cases h with
  | nil => exact absurd rfl hne
  | cons ht h => exact ht.foldl h

/-- Each canonical table is common to itself alone. -/
theorem forall₂_commonTo_singleton (hts : ∀ t ∈ ts, t.Canonical) :
    List.Forall₂ CommonTo ts (ts.map ([·])) :=
  List.forall₂_map_right_iff.2 (List.forall₂_same.2 fun t ht => .singleton (hts t ht))

/-- What canonical tables have in common is common to them. -/
theorem commonTo_common_self (hne : ts ≠ []) (hts : ∀ t ∈ ts, t.Canonical) :
    (common ts).CommonTo ts := by
  have h := commonTo_common hne (forall₂_commonTo_singleton hts)
  rwa [← List.flatMap_def, List.flatMap_singleton'] at h

/-- Some of the tables may be compared beforehand. -/
theorem commonTo_common_cons (hne : us ≠ []) (hus : ∀ t ∈ us, t.Canonical)
    (hts : ∀ t ∈ ts, t.Canonical) : (common (common us :: ts)).CommonTo (us ++ ts) := by
  have h := commonTo_common (List.cons_ne_nil _ _)
    (.cons (commonTo_common_self hne hus) (forall₂_commonTo_singleton hts))
  rwa [List.flatten_cons, ← List.flatMap_def, List.flatMap_singleton'] at h

/-- **What tables have in common is their intersection, in whatever order they are compared.** For
canonical tables `ts`, at least one, `common ts` is the one table `u` that is `CommonTo` them:
canonical, on the targets that each of them has, and with the flips that each of them has there. It
is the same for any list `us` of the same tables, permuted or with repetitions, and if `common part`
takes the place of some of the tables, `part`. What a single table has in common is itself, and what
no tables have is `empty`. -/
theorem common_exact (hts : ∀ t ∈ ts, t.Canonical) :
    (ts ≠ [] → ∀ u, u.CommonTo ts ↔ u = common ts) ∧
    (∀ us, (∀ t, t ∈ us ↔ t ∈ ts) → common us = common ts) ∧
    (∀ part rest us, part ≠ [] → ts.Perm (part ++ rest) → us.Perm (common part :: rest) →
      common us = common ts) ∧
    (∀ t, ts = [t] → common ts = t) ∧
    (ts = [] → common ts = empty) := by
  -- Lists of the same canonical tables have the same in common.
  have hsame {ts us : List Table} (hts : ∀ t ∈ ts, t.Canonical) (h : ∀ t, t ∈ us ↔ t ∈ ts) :
      common us = common ts := by
    cases us with
    | nil =>
      have hnil : ts = [] := List.eq_nil_iff_forall_not_mem.2 fun t ht => by simpa using (h t).2 ht
      rw [hnil]
    | cons t us =>
      have hne : ts ≠ [] := List.ne_nil_of_mem ((h t).1 List.mem_cons_self)
      have hus : ∀ u ∈ t :: us, u.Canonical := fun u hu => hts u ((h u).1 hu)
      exact ((commonTo_common_self (List.cons_ne_nil _ _) hus).congr h).unique
        (commonTo_common_self hne hts)
  refine ⟨?_, fun us => hsame hts, ?_, ?_, ?_⟩
  · intro hne u
    have hcommon := commonTo_common_self hne hts
    exact ⟨fun hu => hu.unique hcommon, fun hu => hu ▸ hcommon⟩
  · intro part rest us hne hperm hus
    have hall : ∀ t ∈ part ++ rest, t.Canonical := fun t ht => hts t (hperm.mem_iff.2 ht)
    obtain ⟨hpart, hrest⟩ := List.forall_mem_append.1 hall
    have hcanonical : ∀ t ∈ common part :: rest, t.Canonical :=
      List.forall_mem_cons.2 ⟨(commonTo_common_self hne hpart).canonical, hrest⟩
    have hne' : part ++ rest ≠ [] := List.append_ne_nil_of_left_ne_nil hne rest
    calc common us = common (common part :: rest) := hsame hcanonical fun t => hus.mem_iff
      _ = common (part ++ rest) :=
        (commonTo_common_cons hne hpart hrest).unique (commonTo_common_self hne' hall)
      _ = common ts := hsame hts fun t => hperm.mem_iff.symm
  · rintro t rfl
    rfl
  · rintro rfl
    rfl

/-- Three tables with an attack on the same targets and no flip there that all of them have: the
attack stays, in whatever order and however often they are compared, and if two of them are compared
beforehand. -/
theorem common_sampleAttack :
    let s : Table := ⟨[sampleAttack 1 [4], sampleAttack 2 [9, 3, 7]]⟩
    let t : Table := ⟨[sampleAttack 2 [7, 8], sampleAttack 3 []]⟩
    let u : Table := ⟨[sampleAttack 1 [4], sampleAttack 2 [3, 8]]⟩
    (∀ x ∈ [s, t, u], x.Canonical) ∧
      common [s, t, u] = ⟨[sampleAttack 2 []]⟩ ∧
      common [u, s, u, t] = ⟨[sampleAttack 2 []]⟩ ∧
      common [t, common [s, u]] = ⟨[sampleAttack 2 []]⟩ := by
  intro s t u
  have hts : ∀ x ∈ [s, t, u], x.Canonical := by
    simp only [List.forall_mem_cons, List.not_mem_nil, false_imp_iff, implies_true, and_true]
    exact ⟨by decide, by decide, by decide⟩
  have hcommon : common [s, t, u] = ⟨[sampleAttack 2 []]⟩ := by cbv
  obtain ⟨-, hsame, hpart, -⟩ := common_exact hts
  refine ⟨hts, hcommon, ?_, ?_⟩
  · rw [← hcommon]
    exact hsame _ fun x => by simp only [List.mem_cons, List.not_mem_nil]; tauto
  · rw [← hcommon]
    refine hpart [s, u] [t] _ (List.cons_ne_nil _ _) ?_ ?_
    · exact .cons s (.swap u t [])
    · exact .swap _ t []

end RowFlips.Table
