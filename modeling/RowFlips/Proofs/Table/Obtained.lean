import RowFlips.Image.Build
import RowFlips.Proofs.Table.Common
import RowFlips.Proofs.Table.Load

/-!
# Every table is canonical

Tables are made of attacks, loaded from logs, read out of images, and found by comparing tables.
Only some of these put their attacks in order. Comparing takes the order that it finds over, and so
can do without sorting: its parts could be checked to ascend, and no check would ever fail. Hence
all tables that can be obtained, by whatever steps, are canonical. What a table made of attacks
holds depends on what these tell together, not on their order or on how flips are divided between
them.

## Main results

* `Obtained.canonical`: all tables that can be obtained are canonical.
* `Canonical.checkedDiff?_eq`, `checkedCommon?_eq`: comparing tables never fails a check of order.
* `obtained_canonical_form`: what a table holds and finds, and what lists make the same table.
-/

namespace RowFlips.Table

/-! ### Tables that can be obtained -/

/-- The tables that can be obtained by steps of any kind, in any number and order. -/
inductive Obtained : Table → Prop
  /-- It is made of attacks. -/
  | ofAttacks (as : List Attack) : Obtained (ofAttacks as)
  /-- It is loaded from a log. -/
  | ofLog {config : Config} {content : Text.Bytes} {t : Table} (h : ofLog config content = .ok t) :
      Obtained t
  /-- It is read out of an image, whatever that holds. -/
  | ofImage {img : Image} {t : Table} (h : img.toTable? = some t) : Obtained t
  /-- It is what only the first of two tables has. -/
  | left {s t : Table} (hs : Obtained s) (ht : Obtained t) : Obtained (s.diff t).left
  /-- It is what both have. -/
  | both {s t : Table} (hs : Obtained s) (ht : Obtained t) : Obtained (s.diff t).common
  /-- It is what only the second has. -/
  | right {s t : Table} (hs : Obtained s) (ht : Obtained t) : Obtained (s.diff t).right
  /-- It is what many tables have in common. -/
  | common {ts : List Table} (hts : ∀ t ∈ ts, Obtained t) : Obtained (common ts)

variable {s t : Table} {ts : List Table}

/-- What canonical tables have in common is canonical. -/
theorem canonical_common (hts : ∀ t ∈ ts, t.Canonical) : (common ts).Canonical := by
  cases ts with
  | nil => exact canonical_empty
  | cons t ts => exact (commonTo_common_self (List.cons_ne_nil t ts) hts).canonical

/-- What only the second of two canonical tables has is canonical. -/
theorem Canonical.diff_right (hs : s.Canonical) (ht : t.Canonical) :
    (s.diff t).right.Canonical := by
  rw [hs.diff_right_eq ht]
  exact ht.diff_left hs

/-- All tables that can be obtained are canonical. -/
theorem Obtained.canonical (h : t.Obtained) : t.Canonical := by
  induction h with
  | ofAttacks as => exact canonical_ofAttacks as
  | ofLog h => exact (ofLog_eq_ok_iff.1 h).2 ▸ canonical_ofAttacks _
  | ofImage h =>
    obtain ⟨as, -, rfl⟩ := Option.map_eq_some_iff.1 h
    exact canonical_ofAttacks as
  | left _ _ hs ht => exact hs.diff_left ht
  | both _ _ hs ht => exact hs.diff_common ht
  | right _ _ hs ht => exact hs.diff_right ht
  | common _ hts => exact canonical_common hts

/-! ### Checks of order -/

/-- Attacks pass the check exactly if a table of them is canonical. -/
theorem neighboursAscend_iff {as : List Attack} :
    neighboursAscend as = true ↔ Canonical ⟨as⟩ := by
  have htrans : IsTrans Attack fun a b => key a.targets < key b.targets :=
    ⟨fun _ _ _ => Nat.lt_trans⟩
  have hchain : neighboursAscend as = true ↔
      as.IsChain fun a b => key a.targets < key b.targets := by
    induction as with
    | nil => simp [neighboursAscend]
    | cons a as ih =>
      cases as with
      | nil => simp [neighboursAscend]
      | cons b as =>
        rw [List.isChain_cons_cons, ← ih]
        simp [neighboursAscend]
  exact hchain.trans List.isChain_iff_pairwise

/-- The attacks of a canonical table pass the check of order. -/
theorem checked?_eq (h : t.Canonical) : checked? t.attacks = some t :=
  if_pos (neighboursAscend_iff.2 h)

/-- Comparing canonical tables fails no check of order. -/
theorem Canonical.checkedDiff?_eq (hs : s.Canonical) (ht : t.Canonical) :
    checkedDiff? s t = some (s.diff t) := by
  have hleft := checked?_eq (hs.diff_left ht)
  have hcommon := checked?_eq (hs.diff_common ht)
  have hright := checked?_eq (hs.diff_right ht)
  simp only [diff] at hleft hcommon hright
  simp only [checkedDiff?, hleft, hcommon, hright]
  rfl

/-- Nor does going on to compare with further tables. -/
theorem Canonical.foldlM_checkedDiff?_eq (ht : t.Canonical) (hts : ∀ u ∈ ts, u.Canonical) :
    ts.foldlM (fun s t => (checkedDiff? s t).map Parts.common) t =
      some (ts.foldl (fun s t => (s.diff t).common) t) := by
  induction ts generalizing t with
  | nil => rfl
  | cons u ts ih =>
    obtain ⟨hu, hts⟩ := List.forall_mem_cons.1 hts
    rw [List.foldlM_cons, ht.checkedDiff?_eq hu]
    exact ih (ht.diff_common hu) hts

/-- Finding what canonical tables have in common fails no check of order. -/
theorem checkedCommon?_eq (hts : ∀ t ∈ ts, t.Canonical) :
    checkedCommon? ts = some (common ts) := by
  cases ts with
  | nil => rfl
  | cons t ts =>
    obtain ⟨ht, hts⟩ := List.forall_mem_cons.1 hts
    exact ht.foldlM_checkedDiff?_eq hts

/-! ### The canonical form -/

/-- Dividing an attack between several on the same targets does not change the table, wherever these
stand. -/
theorem ofAttacks_split {a : Attack} {parts rest l m : List Attack} (hne : parts ≠ [])
    (ha : a.Unites parts) (hl : l.Perm (a :: rest)) (hm : m.Perm (parts ++ rest)) :
    ofAttacks m = ofAttacks l := by
  have hparts : Alike ([a] ++ rest) (parts ++ rest) :=
    (Alike.of_unites hne ha).append (.of_mem_iff fun _ => Iff.rfl)
  calc ofAttacks m = ofAttacks (parts ++ rest) := ofAttacks_perm hm
    _ = ofAttacks ([a] ++ rest) := hparts.ofAttacks_eq.symm
    _ = ofAttacks l := (ofAttacks_perm hl).symm

/-- The table made of a list is on the targets of the list. -/
theorem exists_mem_ofAttacks (l : List Attack) (targets : Targets) :
    (∃ a ∈ (ofAttacks l).attacks, a.targets = targets) ↔ ∃ b ∈ l, b.targets = targets :=
  (Alike.ofAttacks l).targets targets

/-- **Tables are a canonical form.** By whatever steps a table `t` is `Obtained`, it is `Canonical`,
that is, its attacks ascend strictly by their targets. `ofAttacks` makes it again of its own
attacks, and `get?` finds the one attack on `targets` if there is one and else nothing. When such
tables are compared, `checkedDiff?` and `checkedCommon?`, which fail where attacks do not ascend,
give what `diff` and `common` give. The table that `ofAttacks` makes of a list `l` is on the targets
of `l`, each with the flips of all attacks on it. So a list `m` gives the same table if it has the
same attacks in another order or number, or if an attack `a` of `l` is divided in it between several
`parts` that `a` `Unites`. -/
theorem obtained_canonical_form :
    (∀ t : Table, t.Obtained →
      t.Canonical ∧ ofAttacks t.attacks = t ∧
      ∀ targets, (∀ a, t.get? targets = some a ↔ a ∈ t.attacks ∧ a.targets = targets) ∧
        (t.get? targets = none ↔ ∀ a ∈ t.attacks, a.targets ≠ targets)) ∧
    (∀ s t : Table, s.Obtained → t.Obtained → checkedDiff? s t = some (s.diff t)) ∧
    (∀ ts : List Table, (∀ t ∈ ts, t.Obtained) → checkedCommon? ts = some (common ts)) ∧
    (∀ l targets, (∃ a ∈ (ofAttacks l).attacks, a.targets = targets) ↔
      ∃ b ∈ l, b.targets = targets) ∧
    (∀ l, ∀ a ∈ (ofAttacks l).attacks, ∀ f,
      f ∈ a.flips ↔ ∃ b ∈ l, b.targets = a.targets ∧ f ∈ b.flips) ∧
    (∀ l m : List Attack, (∀ a, a ∈ m ↔ a ∈ l) → ofAttacks m = ofAttacks l) ∧
    (∀ (a : Attack) (parts rest l m : List Attack), parts ≠ [] → a.Unites parts →
      l.Perm (a :: rest) → m.Perm (parts ++ rest) → ofAttacks m = ofAttacks l) := by
  refine ⟨?_, ?_, ?_, exists_mem_ofAttacks, ?_, ?_, ?_⟩
  · intro t ht
    have hcanonical := ht.canonical
    exact ⟨hcanonical, hcanonical.ofAttacks_eq, fun targets =>
      ⟨fun a => hcanonical.get?_eq_some_iff, hcanonical.get?_eq_none_iff⟩⟩
  · intro s t hs ht
    exact hs.canonical.checkedDiff?_eq ht.canonical
  · intro ts hts
    exact checkedCommon?_eq fun t ht => (hts t ht).canonical
  · intro l a ha
    exact (mem_ofAttacks.1 ha).2
  · intro l m h
    exact (Alike.of_mem_iff h).ofAttacks_eq
  · intro a parts rest l m
    exact ofAttacks_split

/-- A table obtained from lists by comparing: of two attacks on the same targets only the flips are
left that another table lacks. Its targets are found, and the order and division of the first list
do not matter. -/
theorem obtained_canonical_form_sampleAttack :
    let s := ofAttacks [sampleAttack 2 [9], sampleAttack 1 [4], sampleAttack 2 [3, 7]]
    let u := ofAttacks [sampleAttack 2 [7, 8], sampleAttack 3 []]
    let t := (s.diff (common [s, u])).left
    t.Obtained ∧ t.Canonical ∧
      t.get? (sampleAttack 2 []).targets = some (sampleAttack 2 [3, 9]) ∧
      t.get? (sampleAttack 3 []).targets = none ∧
      checkedDiff? s (common [s, u]) = some (s.diff (common [s, u])) ∧
      checkedCommon? [s, u] = some (common [s, u]) ∧
      ofAttacks [sampleAttack 1 [4], sampleAttack 2 [3, 7, 9]] = s := by
  intro s u t
  obtain ⟨hform, hdiff, hcommon, -, -, -, hsplit⟩ := obtained_canonical_form
  have hs : s.Obtained := .ofAttacks _
  have hboth : ∀ x ∈ [s, u], x.Obtained := by
    simp only [List.forall_mem_cons, List.not_mem_nil, false_imp_iff, implies_true, and_true]
    exact ⟨hs, .ofAttacks _⟩
  have ht : t.Obtained := .left hs (.common hboth)
  have hattacks : t.attacks = [sampleAttack 1 [4], sampleAttack 2 [3, 9]] := by cbv
  obtain ⟨hcanonical, -, hget⟩ := hform t ht
  refine ⟨ht, hcanonical, ?_, ?_, hdiff _ _ hs (.common hboth), hcommon _ hboth, ?_⟩
  · rw [(hget _).1, hattacks]
    exact ⟨List.mem_cons_of_mem _ List.mem_cons_self, rfl⟩
  · rw [(hget _).2, hattacks]
    decide
  · have hjoin :
        (sampleAttack 2 [9]).joinAll [sampleAttack 2 [3, 7]] = sampleAttack 2 [3, 7, 9] := by
      cbv
    have hunites : (sampleAttack 2 [3, 7, 9]).Unites [sampleAttack 2 [9], sampleAttack 2 [3, 7]] :=
      hjoin ▸ Attack.unites_joinAll (by decide) fun _ => Iff.rfl
    refine (hsplit _ _ [sampleAttack 1 [4]] _ _ (List.cons_ne_nil _ _) hunites ?_ ?_).symm
    · exact .swap _ _ []
    · exact .cons _ (.swap _ _ [])

end RowFlips.Table
