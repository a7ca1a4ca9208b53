import RowFlips.Table

/-!
# Canonical tables

A canonical table is determined by the attacks it holds, and looking targets up finds the one
attack on them. The table made of a list of attacks is canonical. What it holds depends on the
list only through what the attacks of each targets value saw together, so neither the order of the
list nor the way in which the flips are divided between its attacks makes a difference.

## Main results

* `Canonical.ext`: canonical tables with the same attacks are equal.
* `Canonical.get?_eq_some_iff`: looking up finds exactly the attacks of a table.
* `canonical_ofAttacks`, `mem_ofAttacks`: the table made of a list is canonical and holds, for each
  targets value of the list, the flips of all attacks on it.
* `ofAttacks_congr`, `ofAttacks_perm`: lists that see the same give the same table.
* `Canonical.ofAttacks_eq`: a canonical table is made of its own attacks.
-/

namespace RowFlips

/-! ### Attacks on the same targets -/

namespace Attack

/-- The attack sums up a list: its targets are those of an attack of the list, and its flips those
that all attacks of the list on these targets saw. -/
def SumsUp (x : Attack) (l : List Attack) : Prop :=
  (∃ a ∈ l, a.targets = x.targets) ∧
    ∀ f, f ∈ x.flips ↔ ∃ a ∈ l, a.targets = x.targets ∧ f ∈ a.flips

/-- Whether an attack sums up a list depends on the elements of the list alone. -/
theorem SumsUp.congr {x : Attack} {l m : List Attack} (h : ∀ a, a ∈ l ↔ a ∈ m) :
    x.SumsUp l ↔ x.SumsUp m := by
  simp only [SumsUp, h]

/-- Attacks with the same targets and flips are equal. -/
theorem ext {x y : Attack} (ht : x.targets = y.targets) (hf : ∀ f, f ∈ x.flips ↔ f ∈ y.flips) :
    x = y := by
  cases x
  cases y
  cases ht
  cases SortedSet.ext hf
  rfl

/-- Joined attacks have the flips of each. -/
@[simp] theorem mem_joinAll_flips {a : Attack} {as : List Attack} {f : Flip} :
    f ∈ (a.joinAll as).flips ↔ ∃ b ∈ a :: as, f ∈ b.flips := by
  rw [joinAll, SortedSet.mem_unions, ← List.map_cons]
  constructor
  · rintro ⟨s, hs, hf⟩
    obtain ⟨b, hb, rfl⟩ := List.mem_map.1 hs
    exact ⟨b, hb, hf⟩
  · rintro ⟨b, hb, hf⟩
    exact ⟨b.flips, List.mem_map.2 ⟨b, hb, rfl⟩, hf⟩

/-- Joined attacks on the same targets are the one attack that sums them up. -/
theorem sumsUp_iff_eq_joinAll {a x : Attack} {held : List Attack}
    (h : ∀ b ∈ held, b.targets = a.targets) : x.SumsUp (a :: held) ↔ x = a.joinAll held := by
  have hall : ∀ b ∈ a :: held, b.targets = a.targets := by simpa using h
  constructor
  · rintro ⟨⟨b, hb, hbx⟩, hflips⟩
    have htargets : x.targets = a.targets := hbx.symm.trans (hall b hb)
    refine ext htargets ?_
    intro f
    rw [hflips, mem_joinAll_flips]
    refine exists_congr fun c => and_congr_right fun hc => and_iff_right ?_
    rw [hall c hc, htargets]
  · rintro rfl
    refine ⟨⟨a, List.mem_cons_self, rfl⟩, ?_⟩
    intro f
    rw [mem_joinAll_flips]
    exact exists_congr fun c => and_congr_right fun hc => (and_iff_right (hall c hc)).symm

/-- Attacks on other targets add nothing to what is summed up. -/
theorem sumsUp_append_iff_left {x : Attack} {l m : List Attack}
    (h : ∀ b ∈ m, b.targets ≠ x.targets) : x.SumsUp (l ++ m) ↔ x.SumsUp l := by
  have hmem {a : Attack} (ha : a.targets = x.targets) : a ∈ l ++ m ↔ a ∈ l := by
    rw [List.mem_append]
    exact or_iff_left fun ham => h a ham ha
  refine and_congr ?_ (forall_congr' fun f => iff_congr Iff.rfl ?_)
  · exact exists_congr fun a => and_congr_left hmem
  · exact exists_congr fun a => and_congr_left fun ha => hmem ha.1

/-- Nor do attacks on other targets that stand before. -/
theorem sumsUp_append_iff_right {x : Attack} {l m : List Attack}
    (h : ∀ a ∈ l, a.targets ≠ x.targets) : x.SumsUp (l ++ m) ↔ x.SumsUp m := by
  have hswap : x.SumsUp (l ++ m) ↔ x.SumsUp (m ++ l) :=
    SumsUp.congr fun a => by rw [List.mem_append, List.mem_append, or_comm]
  rw [hswap, sumsUp_append_iff_left h]

/-- What two lists sum up to, if they are nowhere on the same targets, is what either does. -/
theorem sumsUp_append {x : Attack} {l m : List Attack}
    (h : ∀ a ∈ l, ∀ b ∈ m, a.targets ≠ b.targets) :
    x.SumsUp (l ++ m) ↔ x.SumsUp l ∨ x.SumsUp m := by
  have hleft (hx : ∃ a ∈ l, a.targets = x.targets) : ∀ b ∈ m, b.targets ≠ x.targets := by
    intro b hb hbx
    obtain ⟨a, ha, hax⟩ := hx
    exact h a ha b hb (hax.trans hbx.symm)
  have hright (hx : ∃ b ∈ m, b.targets = x.targets) : ∀ a ∈ l, a.targets ≠ x.targets := by
    intro a ha hax
    obtain ⟨b, hb, hbx⟩ := hx
    exact h a ha b hb (hax.trans hbx.symm)
  constructor
  · intro hx
    obtain ⟨a, ha, hax⟩ := hx.1
    rcases List.mem_append.1 ha with ha | ha
    · exact Or.inl ((sumsUp_append_iff_left (hleft ⟨a, ha, hax⟩)).1 hx)
    · exact Or.inr ((sumsUp_append_iff_right (hright ⟨a, ha, hax⟩)).1 hx)
  · rintro (hx | hx)
    · exact (sumsUp_append_iff_left (hleft hx.1)).2 hx
    · exact (sumsUp_append_iff_right (hright hx.1)).2 hx

end Attack

namespace Table

/-! ### Joining neighbours -/

/-- Neighbours on the same targets are joined, and nothing else changes: in a list ordered by
targets, what comes out sums it up, in strictly ascending order. -/
theorem joinFrom_spec {a : Attack} {held as : List Attack}
    (hheld : ∀ b ∈ held, b.targets = a.targets)
    (h : (a :: as).Pairwise fun b c => key b.targets ≤ key c.targets) :
    Ascending Attack.targets (joinFrom a held as) ∧
      ∀ x, x ∈ joinFrom a held as ↔ x.SumsUp (a :: held ++ as) := by
  fun_induction joinFrom a held as with
  | case1 a held =>
    refine ⟨List.pairwise_singleton _ _, ?_⟩
    intro x
    rw [List.mem_singleton, List.append_nil, Attack.sumsUp_iff_eq_joinAll hheld]
  | case2 a held b bs hab ih =>
    obtain ⟨ha, hbs⟩ := List.pairwise_cons.1 h
    have hheld' : ∀ c ∈ b :: held, c.targets = a.targets := by
      simpa [hab] using hheld
    have hsorted : (a :: bs).Pairwise fun b c => key b.targets ≤ key c.targets :=
      List.pairwise_cons.2
        ⟨fun c hc => ha c (List.mem_cons_of_mem _ hc), (List.pairwise_cons.1 hbs).2⟩
    obtain ⟨hasc, hmem⟩ := ih hheld' hsorted
    refine ⟨hasc, fun x => (hmem x).trans (Attack.SumsUp.congr fun c => ?_)⟩
    simp only [List.mem_cons, List.mem_append, List.cons_append]
    grind
  | case3 a held b bs hab ih =>
    obtain ⟨ha, hbs⟩ := List.pairwise_cons.1 h
    obtain ⟨hasc, hmem⟩ := ih (by simp) hbs
    have hlt : ∀ c ∈ b :: bs, key a.targets < key c.targets := by
      have hne : key a.targets ≠ key b.targets := fun hk => hab (Keyed.eq_of_key_eq hk)
      have hle := ha b List.mem_cons_self
      intro c hc
      rcases List.mem_cons.1 hc with rfl | hc
      · omega
      · have := (List.pairwise_cons.1 hbs).1 c hc
        omega
    constructor
    · refine List.pairwise_cons.2 ⟨?_, hasc⟩
      intro x hx
      obtain ⟨⟨c, hc, hcx⟩, -⟩ := (hmem x).1 hx
      rw [← hcx]
      exact hlt c hc
    · intro x
      have hapart : ∀ c ∈ a :: held, ∀ d ∈ b :: bs, c.targets ≠ d.targets := by
        intro c hc d hd hcd
        have hca : c.targets = a.targets := by
          rcases List.mem_cons.1 hc with rfl | hc
          · rfl
          · exact hheld c hc
        have := hlt d hd
        rw [← hcd, hca] at this
        omega
      rw [List.mem_cons, hmem, Attack.sumsUp_append hapart, Attack.sumsUp_iff_eq_joinAll hheld]
      rfl

/-- Joining neighbours of a list ordered by targets leaves strictly ascending targets. -/
theorem ascending_joinNeighbours {as : List Attack}
    (h : as.Pairwise fun a b => key a.targets ≤ key b.targets) :
    Ascending Attack.targets (joinNeighbours as) := by
  cases as with
  | nil => exact List.Pairwise.nil
  | cons a as => exact (joinFrom_spec (List.forall_mem_nil _) h).1

/-- Joining neighbours of a list ordered by targets leaves exactly the attacks that sum it up. -/
theorem mem_joinNeighbours {as : List Attack} {x : Attack}
    (h : as.Pairwise fun a b => key a.targets ≤ key b.targets) :
    x ∈ joinNeighbours as ↔ x.SumsUp as := by
  cases as with
  | nil => simp [joinNeighbours, Attack.SumsUp]
  | cons a as => exact (joinFrom_spec (List.forall_mem_nil _) h).2 x

/-! ### Tables made of lists -/

/-- The table made of a list is canonical. -/
theorem canonical_ofAttacks (l : List Attack) : (ofAttacks l).Canonical :=
  ascending_joinNeighbours (pairwise_sortOn _ _)

/-- The table made of a list holds exactly the attacks that sum it up. -/
theorem mem_ofAttacks {l : List Attack} {x : Attack} :
    x ∈ (ofAttacks l).attacks ↔ x.SumsUp l :=
  (mem_joinNeighbours (pairwise_sortOn _ _)).trans (Attack.SumsUp.congr fun _ => mem_sortOn)

/-- Canonical tables with the same attacks are equal. -/
theorem Canonical.ext {s t : Table} (hs : s.Canonical) (ht : t.Canonical)
    (h : ∀ a, a ∈ s.attacks ↔ a ∈ t.attacks) : s = t := by
  cases s
  cases t
  exact congrArg Table.mk (Ascending.eq_of_mem_iff hs ht h)

/-- Lists that see the same on all targets give the same table. -/
theorem ofAttacks_congr {l m : List Attack} (h : ∀ x : Attack, x.SumsUp l ↔ x.SumsUp m) :
    ofAttacks l = ofAttacks m :=
  (canonical_ofAttacks l).ext (canonical_ofAttacks m) fun x =>
    mem_ofAttacks.trans ((h x).trans mem_ofAttacks.symm)

/-- The order of a list does not matter to its table. -/
theorem ofAttacks_perm {l m : List Attack} (h : l.Perm m) : ofAttacks l = ofAttacks m :=
  ofAttacks_congr fun _ => Attack.SumsUp.congr fun _ => h.mem_iff

/-- No two attacks of a canonical table are on the same targets. -/
theorem Canonical.eq_of_targets {t : Table} (h : t.Canonical) {a b : Attack} (ha : a ∈ t.attacks)
    (hb : b ∈ t.attacks) (hab : a.targets = b.targets) : a = b :=
  Ascending.eq_of_mem h ha hb hab

/-- What sums up the attacks of a canonical table are these attacks. -/
theorem Canonical.sumsUp_iff {t : Table} (h : t.Canonical) {x : Attack} :
    x.SumsUp t.attacks ↔ x ∈ t.attacks := by
  constructor
  · rintro ⟨⟨a, ha, hax⟩, hflips⟩
    suffices x = a from this ▸ ha
    refine Attack.ext hax.symm fun f => (hflips f).trans ?_
    constructor
    · rintro ⟨b, hb, hbx, hf⟩
      rwa [h.eq_of_targets ha hb (hax.trans hbx.symm)]
    · intro hf
      exact ⟨a, ha, hax, hf⟩
  · intro hx
    refine ⟨⟨x, hx, rfl⟩, fun f => ⟨fun hf => ⟨x, hx, rfl, hf⟩, ?_⟩⟩
    rintro ⟨a, ha, hax, hf⟩
    rwa [← h.eq_of_targets ha hx hax]

/-- A canonical table is made of its own attacks. -/
theorem Canonical.ofAttacks_eq {t : Table} (h : t.Canonical) : ofAttacks t.attacks = t :=
  (canonical_ofAttacks _).ext h fun _ => mem_ofAttacks.trans h.sumsUp_iff

/-! ### Looking targets up -/

/-- Looking targets up finds exactly the attack on them. -/
theorem Canonical.get?_eq_some_iff {t : Table} (h : t.Canonical) {targets : Targets}
    {a : Attack} : t.get? targets = some a ↔ a ∈ t.attacks ∧ a.targets = targets :=
  bisect_eq_some_iff h

/-- Looking targets up finds nothing exactly if no attack is on them. -/
theorem Canonical.get?_eq_none_iff {t : Table} (h : t.Canonical) {targets : Targets} :
    t.get? targets = none ↔ ∀ a ∈ t.attacks, a.targets ≠ targets := by
  rw [Option.eq_none_iff_forall_ne_some]
  simp only [ne_eq, h.get?_eq_some_iff, not_and]

/-- Canonical tables that answer alike on all targets are equal. -/
theorem Canonical.ext_get? {s t : Table} (hs : s.Canonical) (ht : t.Canonical)
    (h : ∀ targets, s.get? targets = t.get? targets) : s = t :=
  hs.ext ht fun a => by
    have := congrArg (· = some a) (h a.targets)
    simpa [hs.get?_eq_some_iff, ht.get?_eq_some_iff] using this

end Table

end RowFlips
