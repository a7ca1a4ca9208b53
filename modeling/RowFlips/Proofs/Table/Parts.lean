import RowFlips.Proofs.Table.Diff
import RowFlips.Proofs.Table.Text

/-!
# Parts stored and loaded again

A reader counts off the columns of a byte before it counts bits, so every flip that a log tells of
lies in its cell. Comparing tables moves no flip, and so the parts of tables that were loaded are
loaded again from their text form, with the same size of cells. The text forms of two tables, one
behind the other, are the text form of the attacks of both. So a side followed by the common part is
loaded as the table that was compared, although an attack may be divided between them.

## Main results

* `storable_of_ofLog`: every table that is loaded can be stored.
* `Storable.diff_left`, `Storable.diff_common`: so can the parts of tables that can be stored.
* `Storable.ofLog_toText`: a table that can be stored is loaded again.
* `Storable.ofLog_sides`: so are tables from the text forms of their parts.
-/

namespace RowFlips

open Text (Bytes)

/-! ### Flips in their cells -/

/-- The flips of a run lie in their cells. -/
theorem Run.cellByte_lt_of_mem_flips {r : Run} {cellSize : UInt32} {fs : List Flip}
    (h : r.flips cellSize = .ok fs) {f : Flip} (hf : f ∈ fs) : f.cellByte < max cellSize 1 := by
  rw [flips_eq] at h
  obtain ⟨fss, hfss, rfl⟩ := map_eq_ok.1 h
  obtain ⟨gs, hgs, hf⟩ := List.mem_flatten.1 hf
  obtain ⟨p, -, hp⟩ := (mem_of_mapM_eq_ok hfss).1 hgs
  exact Corruption.cellByte_lt_of_mem_flips hp hf

/-- The flips that a line tells of lie in their cells. -/
theorem Line.cellByte_lt_of_told? {cellSize : UInt32} {raw : Bytes} {a : Attack}
    (h : told? cellSize raw = some a) {f : Flip} (hf : f ∈ a.flips) :
    f.cellByte < max cellSize 1 := by
  simp only [told?, Option.bind_eq_some_iff, Option.map_eq_some_iff] at h
  obtain ⟨run, -, t, -, fs, hfs, rfl⟩ := h
  cases hflips : run.flips cellSize with
  | error e =>
    rw [hflips] at hfs
    cases hfs
  | ok gs =>
    rw [hflips] at hfs
    cases hfs
    exact Run.cellByte_lt_of_mem_flips hflips (SortedSet.mem_ofList.1 hf)

namespace Table

/-- The table is in its canonical form, and each of its flips lies in its cell. Such a table is
stored without loss. -/
structure Storable (cellSize : UInt32) (t : Table) : Prop where
  canonical : t.Canonical
  inCells : ∀ a ∈ t.attacks, ∀ f ∈ a.flips, f.cellByte < max cellSize 1

variable {s t : Table} {w r : Config} {cellSize : UInt32}

/-- Every table that is loaded can be stored. -/
theorem storable_of_ofLog {content : Bytes} (h : ofLog r content = .ok t) :
    t.Storable r.cellSize := by
  obtain ⟨-, rfl⟩ := ofLog_eq_ok_iff.1 h
  refine ⟨canonical_ofAttacks _, fun a ha f hf => ?_⟩
  obtain ⟨b, hb, -, hfb⟩ := ((mem_ofAttacks.1 ha).2 f).1 hf
  obtain ⟨raw, -, htold⟩ := List.mem_filterMap.1 hb
  exact Line.cellByte_lt_of_told? htold hfb

namespace Storable

/-! ### Parts -/

/-- What only one of two tables has can be stored. -/
theorem diff_left (hs : s.Storable cellSize) (ht : t.Storable cellSize) :
    (s.diff t).left.Storable cellSize where
  canonical := hs.canonical.diff_left ht.canonical
  inCells a ha f hf := by
    rcases (mem_diff_left hs.canonical ht.canonical).1 ha with ⟨ha, -⟩ | ⟨b, hb, c, -, -, -, rfl⟩
    · exact hs.inCells a ha f hf
    · exact hs.inCells b hb f (SortedSet.mem_diff.1 hf).1

/-- What both tables have can be stored. -/
theorem diff_common (hs : s.Storable cellSize) (ht : t.Storable cellSize) :
    (s.diff t).common.Storable cellSize where
  canonical := hs.canonical.diff_common ht.canonical
  inCells a ha f hf := by
    obtain ⟨b, hb, c, -, -, rfl⟩ := (mem_diff_common hs.canonical ht.canonical).1 ha
    exact hs.inCells b hb f (SortedSet.mem_inter.1 hf).1

/-- What only the second of two tables has can be stored if they can. -/
theorem diff_right (hs : s.Storable cellSize) (ht : t.Storable cellSize) :
    (s.diff t).right.Storable cellSize := by
  rw [hs.canonical.diff_right_eq ht.canonical]
  exact ht.diff_left hs

/-! ### Text forms -/

/-- The text forms of tables that can be stored, one behind the other, are loaded as what the
attacks of both make. -/
theorem ofLog_toText_append (hs : s.Storable r.cellSize) (ht : t.Storable r.cellSize) :
    ofLog r (s.toText w ++ t.toText w) = .ok (ofAttacks (s.attacks ++ t.attacks)) := by
  have htext : s.toText w ++ t.toText w = toText w ⟨s.attacks ++ t.attacks⟩ := by
    simp only [toText, text, List.flatMap_append, Text.encode_append]
  have hcells : ∀ a ∈ s.attacks ++ t.attacks, ∀ f ∈ a.flips, f.cellByte < max r.cellSize 1 :=
    List.forall_mem_append.2 ⟨hs.inCells, ht.inCells⟩
  have hcarry : carry r.cellSize ⟨s.attacks ++ t.attacks⟩ = ⟨s.attacks ++ t.attacks⟩ :=
    carry_eq_self_iff.2 hcells
  rw [htext, ofLog_toText_eq_ofAttacks fun a ha f hf =>
    Flip.inRow_of_cellByte_lt (hcells a ha f hf), hcarry]

/-- A table that can be stored is loaded again. -/
theorem ofLog_toText (h : t.Storable r.cellSize) : ofLog r (t.toText w) = .ok t := by
  have hrow : ∀ a ∈ t.attacks, ∀ f ∈ a.flips, f.InRow r.cellSize := fun a ha f hf =>
    Flip.inRow_of_cellByte_lt (h.inCells a ha f hf)
  rw [(Table.ofLog_toText h.canonical hrow).1, carry_eq_self_iff.2 h.inCells]

/-- The common part behind either side is loaded as the table of that side. -/
theorem ofLog_sides (hs : s.Storable r.cellSize) (ht : t.Storable r.cellSize) :
    ofLog r ((s.diff t).left.toText w ++ (s.diff t).common.toText w) = .ok s ∧
      ofLog r ((s.diff t).right.toText w ++ (s.diff t).common.toText w) = .ok t := by
  have hleft {s t : Table} (hs : s.Storable r.cellSize) (ht : t.Storable r.cellSize) :
      ofLog r ((s.diff t).left.toText w ++ (s.diff t).common.toText w) = .ok s := by
    rw [ofLog_toText_append (hs.diff_left ht) (hs.diff_common ht),
      hs.canonical.ofAttacks_diff ht.canonical]
  refine ⟨hleft hs ht, ?_⟩
  have hright := hleft ht hs
  rwa [hs.canonical.diff_comm ht.canonical] at hright

end Storable

end Table

end RowFlips
