import RowFlips.Log.Encoding
import RowFlips.Proofs.Address
import RowFlips.Proofs.Bits
import RowFlips.Proofs.ByteMask
import RowFlips.Proofs.Log.Run
import RowFlips.Proofs.Table.Canonical

/-!
# Attacks read back run by run

A flip shows against the bytes whose bit had the value it flipped from, so it shows against any
byte or its complement. The run of an attack against a byte records the flips that show against
it. A log does not tell which byte of a cell a corruption is in but how far it is from the start of
the cell, so a flip beyond the cells that a reader assumes is carried to a later column, and cannot
be told if the row has no such column.

## Main results

* `Flip.showsAgainst_or_complement`: each flip shows against a byte or its complement.
* `Attack.mem_flips_runAgainst`, `Attack.exists_flips_runAgainst_iff`: the flips of the run against
  a byte, and when they can be told.
* `Attack.exists_background`: each flip shows in some run of its attack.
* `Attack.read_runAgainst`, `Attack.read_runAgainst_eq_error`: what the line of a run tells.
-/

namespace RowFlips

/-! ### Flips against bytes -/

/-- The value that a bit had before it flipped. -/
def Direction.before : Direction → Bool
  | up => false
  | down => true

/-- A bit can change from either value. -/
theorem Direction.exists_before_eq (value : Bool) :
    ∃ direction : Direction, direction.before = value := by
  cases value with
  | false => exact ⟨.up, rfl⟩
  | true => exact ⟨.down, rfl⟩

namespace Flip

/-- The flip is told by a byte that was written: its bit had the value it flipped from. -/
def ShowsAgainst (f : Flip) (expected : UInt8) : Prop :=
  expected.toNat.testBit f.bitInByte = f.direction.before

instance (f : Flip) (expected : UInt8) : Decidable (f.ShowsAgainst expected) :=
  inferInstanceAs (Decidable (_ = _))

/-- A flip shows against the complement of a byte exactly if it does not show against the byte. -/
theorem showsAgainst_complement_iff (f : Flip) (b : UInt8) :
    f.ShowsAgainst (~~~b) ↔ ¬f.ShowsAgainst b := by
  rw [ShowsAgainst, ShowsAgainst, testBit_complement]
  cases b.toNat.testBit f.bitInByte <;> cases f.direction.before <;> decide

/-- Each flip shows against a byte or its complement. -/
theorem showsAgainst_or_complement (f : Flip) (b : UInt8) :
    f.ShowsAgainst b ∨ f.ShowsAgainst (~~~b) := by
  rw [showsAgainst_complement_iff]
  exact em _

/-! ### Flips in later columns -/

/-- How many columns behind its cell the bit lies if cells hold `cellSize` bytes, a size of 0
counting as 1. -/
def colsBehind (cellSize : UInt32) (f : Flip) : Nat := (f.cellByte / max cellSize 1).toNat

/-- The row has the column in which the bit lies if cells hold `cellSize` bytes. -/
def InRow (cellSize : UInt32) (f : Flip) : Prop :=
  f.addr.col.toNat + f.colsBehind cellSize < UInt16.size

/-- The flip in the column in which its bit lies if cells hold `cellSize` bytes. -/
def carry (cellSize : UInt32) (f : Flip) : Flip :=
  ofByte (f.addr.addCols (UInt16.ofNat (f.colsBehind cellSize))) (f.cellByte % max cellSize 1)
    f.direction f.bitInByte

/-- A byte of a smaller cell still leaves room for the bits below it. -/
theorem toNat_mod_lt {x : UInt32} (h : x.toNat < 1 <<< 29) (size : UInt32) :
    (x % size).toNat < 1 <<< 29 := by
  rw [UInt32.toNat_mod]
  exact Nat.lt_of_le_of_lt (Nat.mod_le _ _) h

/-- A flip that is carried keeps its byte, counted within a cell of `cellSize` bytes. -/
theorem cellByte_carry (cellSize : UInt32) (f : Flip) :
    (f.carry cellSize).cellByte = f.cellByte % max cellSize 1 :=
  cellByte_ofByte (toNat_mod_lt f.cellByte_lt _)

/-- A flip that is carried keeps its bit within the byte. -/
theorem bitInByte_carry (cellSize : UInt32) (f : Flip) :
    (f.carry cellSize).bitInByte = f.bitInByte :=
  bitInByte_ofByte (toNat_mod_lt f.cellByte_lt _)

/-- A flip that was carried lies in a cell. -/
theorem cellByte_carry_lt (cellSize : UInt32) (f : Flip) :
    (f.carry cellSize).cellByte < max cellSize 1 := by
  rw [cellByte_carry]
  exact UInt32.mod_lt _ (max_one_pos cellSize)

/-- A flip within the cell lies in the column of its address. -/
theorem colsBehind_eq_zero {cellSize : UInt32} {f : Flip} (h : f.cellByte < max cellSize 1) :
    f.colsBehind cellSize = 0 := by
  rw [colsBehind, UInt32.toNat_div]
  exact Nat.div_eq_of_lt h

/-- So the row has its column. -/
theorem inRow_of_cellByte_lt {cellSize : UInt32} {f : Flip} (h : f.cellByte < max cellSize 1) :
    f.InRow cellSize := by
  rw [InRow, colsBehind_eq_zero h]
  exact f.addr.col.toNat_lt

/-- A flip that lies in its cell stays there. -/
theorem carry_eq_self {cellSize : UInt32} {f : Flip} (h : f.cellByte < max cellSize 1) :
    f.carry cellSize = f := by
  refine ext_cellByte ?_ ?_ (bitInByte_carry cellSize f) rfl
  · rw [carry, colsBehind_eq_zero h]
    exact f.addr.addCols_zero
  · rw [cellByte_carry]
    refine UInt32.toNat_inj.1 ?_
    rw [UInt32.toNat_mod]
    exact Nat.mod_eq_of_lt h

end Flip

/-! ### The corruption of a byte -/

/-- The flips of a corruption can be told if the row of the victim has their column. -/
theorem Corruption.flips_eq_ok_iff {c : Corruption} {victim : Address} {cellSize : UInt32}
    {gs : List Flip} :
    c.flips victim cellSize = .ok gs ↔
      victim.col.toNat + (c.offset / max cellSize 1).toNat < UInt16.size ∧
        maskFlips (victim.addCols (UInt16.ofNat (c.offset / max cellSize 1).toNat))
          (c.offset % max cellSize 1) c.pullup c.pulldown = gs := by
  rw [flips]
  split
  · rename_i hcols
    refine iff_of_false nofun fun h => ?_
    rw [Address.addCols?_eq_some_iff.2 ⟨h.1, rfl⟩] at hcols
    cases hcols
  · rename_i addr hcols
    obtain ⟨hlt, rfl⟩ := Address.addCols?_eq_some_iff.1 hcols
    rw [Except.ok.injEq]
    exact (and_iff_right hlt).symm

/-- The flips of a corruption lie in their cells. -/
theorem Corruption.cellByte_lt_of_mem_flips {c : Corruption} {victim : Address}
    {cellSize : UInt32} {gs : List Flip} (h : c.flips victim cellSize = .ok gs) {f : Flip}
    (hf : f ∈ gs) : f.cellByte < max cellSize 1 := by
  obtain ⟨-, rfl⟩ := flips_eq_ok_iff.1 h
  exact UInt32.lt_of_le_of_lt (cellByte_le_of_mem_maskFlips hf)
    (UInt32.mod_lt _ (max_one_pos cellSize))

namespace ByteMask

variable {m : ByteMask} {e : UInt8} {c : Corruption} {cellSize : UInt32}

/-- What the flips of a byte make of it. -/
theorem corruption?_eq_some (h : m.corruption? e = some c) :
    c.offset = m.cellByte ∧ c.expected = e ∧
      c.got = (e ||| (m.pullup &&& ~~~e)) &&& ~~~(m.pulldown &&& e) := by
  rw [corruption?] at h
  split at h
  · cases h
  · cases h
    exact ⟨rfl, rfl, rfl⟩

/-- A corruption that is logged reads back something else than was written. -/
theorem got_ne_of_corruption?_eq_some (h : m.corruption? e = some c) : c.got ≠ c.expected := by
  rw [corruption?] at h
  split at h
  · cases h
  · rename_i hne
    cases h
    exact hne

/-- A byte shows the bits of its masks that had the value they flipped from. -/
theorem testBit_mask_corruption (h : m.corruption? e = some c) (direction : Direction)
    (b : Fin 8) : (direction.mask c.pullup c.pulldown).toNat.testBit b =
      ((m.mask direction).toNat.testBit b && (e.toNat.testBit b == direction.before)) := by
  obtain ⟨-, hexpected, hgot⟩ := corruption?_eq_some h
  cases direction <;>
    simp only [Direction.mask, Corruption.pullup, Corruption.pulldown, mask, Direction.before,
      hexpected, hgot, UInt8.toNat_and, UInt8.toNat_or, Nat.testBit_and, Nat.testBit_or,
      testBit_complement] <;>
    cases e.toNat.testBit b <;> simp

/-- Masks leave a byte as it is exactly if no bit set in them had the value it flipped from. -/
theorem flipped_eq_self_iff {pullup pulldown : UInt8} :
    (e ||| (pullup &&& ~~~e)) &&& ~~~(pulldown &&& e) = e ↔
      ∀ (b : Fin 8) (direction : Direction),
        (direction.mask pullup pulldown).toNat.testBit b = true →
          e.toNat.testBit b ≠ direction.before := by
  have hbit (b : Fin 8) :
      ((e ||| (pullup &&& ~~~e)) &&& ~~~(pulldown &&& e)).toNat.testBit b = e.toNat.testBit b ↔
        (pullup.toNat.testBit b = true → e.toNat.testBit b ≠ false) ∧
          (pulldown.toNat.testBit b = true → e.toNat.testBit b ≠ true) := by
    simp only [UInt8.toNat_and, UInt8.toNat_or, Nat.testBit_and, Nat.testBit_or,
      testBit_complement]
    cases e.toNat.testBit b <;> simp
  constructor
  · intro h b direction
    obtain ⟨hup, hdown⟩ := (hbit b).1 (congrArg (fun x : UInt8 => x.toNat.testBit b) h)
    cases direction with
    | up => exact hup
    | down => exact hdown
  · intro h
    exact byte_ext fun b => (hbit b).2 ⟨h b .up, h b .down⟩

/-- A byte is corrupted exactly if some flip of its masks shows. -/
theorem exists_corruption?_iff (hm : m.Fits) :
    (∃ c, m.corruption? e = some c) ↔ ∃ f ∈ m.flips, f.ShowsAgainst e := by
  have hgot : (∃ c, m.corruption? e = some c) ↔
      ¬(e ||| (m.pullup &&& ~~~e)) &&& ~~~(m.pulldown &&& e) = e := by
    rw [corruption?]
    split
    · rename_i h
      exact iff_of_false nofun fun hne => hne h
    · rename_i h
      exact iff_of_true ⟨_, rfl⟩ h
  rw [hgot, flipped_eq_self_iff]
  push Not
  constructor
  · rintro ⟨b, direction, hbit, hshows⟩
    have hplace : (Flip.ofByte m.addr m.cellByte direction b).bitInByte = b :=
      Flip.bitInByte_ofByte hm
    refine ⟨.ofByte m.addr m.cellByte direction b, (mem_flips hm).2 ⟨⟨rfl, ?_⟩, ?_⟩, ?_⟩
    · exact Flip.cellByte_ofByte hm
    · rw [hplace]
      exact hbit
    · rw [Flip.ShowsAgainst, hplace]
      exact hshows
  · rintro ⟨f, hf, hshows⟩
    exact ⟨f.bitInByte, f.direction, ((mem_flips hm).1 hf).2, hshows⟩

/-- The flips of the corruption of a byte can be told if the row has the column of any flip of the
byte. -/
theorem exists_flips_corruption_iff (hm : m.Fits) (h : m.corruption? e = some c) {f : Flip}
    (hf : f ∈ m.flips) : (∃ gs, c.flips m.addr cellSize = .ok gs) ↔ f.InRow cellSize := by
  obtain ⟨haddr, hbyte⟩ := ((mem_flips hm).1 hf).1
  simp only [Corruption.flips_eq_ok_iff, (corruption?_eq_some h).1, ← haddr, ← hbyte]
  exact ⟨fun ⟨_, hlt, _⟩ => hlt, fun hlt => ⟨_, hlt, rfl⟩⟩

/-- The flips of the corruption of a byte are those that show, each carried to its column. -/
theorem mem_flips_corruption (hm : m.Fits) (h : m.corruption? e = some c) {gs : List Flip}
    (hgs : c.flips m.addr cellSize = .ok gs) {g : Flip} :
    g ∈ gs ↔ ∃ f ∈ m.flips, f.ShowsAgainst e ∧ f.carry cellSize = g := by
  obtain ⟨-, rfl⟩ := Corruption.flips_eq_ok_iff.1 hgs
  have hoffset : c.offset.toNat < 1 <<< 29 := (corruption?_eq_some h).1 ▸ hm
  rw [mem_maskFlips (Flip.toNat_mod_lt hoffset _), testBit_mask_corruption h,
    (corruption?_eq_some h).1, Bool.and_eq_true, beq_iff_eq]
  constructor
  · rintro ⟨haddr, hbyte, hbit, hshows⟩
    have hcell : (Flip.ofByte m.addr m.cellByte g.direction g.bitInByte).cellByte = m.cellByte :=
      Flip.cellByte_ofByte hm
    have hplace : (Flip.ofByte m.addr m.cellByte g.direction g.bitInByte).bitInByte =
        g.bitInByte :=
      Flip.bitInByte_ofByte hm
    refine ⟨.ofByte m.addr m.cellByte g.direction g.bitInByte, ?_, ?_, ?_⟩
    · rw [mem_flips hm, hplace]
      exact ⟨⟨rfl, hcell⟩, hbit⟩
    · rw [Flip.ShowsAgainst, hplace]
      exact hshows
    · refine Flip.ext_cellByte ?_ ?_ ((Flip.bitInByte_carry _ _).trans hplace) rfl
      · rw [haddr, Flip.carry, Flip.colsBehind, hcell]
        rfl
      · rw [hbyte, Flip.cellByte_carry, hcell]
  · rintro ⟨f, hf, hshows, rfl⟩
    obtain ⟨⟨haddr, hbyte⟩, hbit⟩ := (mem_flips hm).1 hf
    rw [Flip.cellByte_carry, Flip.bitInByte_carry, Flip.carry, Flip.colsBehind, haddr, hbyte]
    exact ⟨rfl, rfl, hbit, hshows⟩

end ByteMask

namespace Attack

variable {a : Attack} {e : UInt8} {cellSize : UInt32}

/-! ### The run against a byte -/

/-- The corruptions of the run against a byte, each with its victim. -/
def found (a : Attack) (e : UInt8) : List (Address × Corruption) :=
  a.flips.byteMasks.filterMap fun m => (m.corruption? e).map (m.addr, ·)

/-- A run against `e` is that of the targets with all that was `found`. -/
theorem runAgainst_eq (a : Attack) (e : UInt8) :
    a.runAgainst e = .ofFound a.targets.toList (a.found e) := rfl

/-- What is found against `e` are the corruptions of the masks of the flips. -/
theorem mem_found {p : Address × Corruption} :
    p ∈ a.found e ↔ ∃ m ∈ a.flips.byteMasks, m.addr = p.1 ∧ m.corruption? e = some p.2 := by
  obtain ⟨v, c⟩ := p
  simp only [found, List.mem_filterMap, Option.map_eq_some_iff, Prod.mk.injEq]
  constructor
  · rintro ⟨m, hm, c, hc, rfl, rfl⟩
    exact ⟨m, hm, rfl, hc⟩
  · rintro ⟨m, hm, haddr, hc⟩
    exact ⟨m, hm, c, hc, haddr, rfl⟩

/-- A flip that shows is in a byte that is corrupted. -/
theorem exists_corruption_of_mem {f : Flip} (hf : f ∈ a.flips) (hshows : f.ShowsAgainst e) :
    ∃ (m : ByteMask) (c : Corruption),
      m.Fits ∧ f ∈ m.flips ∧ m.corruption? e = some c ∧ (m.addr, c) ∈ a.found e := by
  obtain ⟨m, hm, hfm⟩ := List.mem_flatMap.1 (FlipSet.mem_flatMap_flips_byteMasks.2 hf)
  have hfits : m.Fits := ByteMask.fits_of_mem_group hm
  obtain ⟨c, hc⟩ := (ByteMask.exists_corruption?_iff hfits).2 ⟨f, hfm, hshows⟩
  exact ⟨m, c, hfits, hfm, hc, mem_found.2 ⟨m, hm, rfl, hc⟩⟩

/-- A byte that is corrupted has a flip that shows. -/
theorem exists_mem_of_mem_found {p : Address × Corruption} (hp : p ∈ a.found e) :
    ∃ m : ByteMask, m.Fits ∧ m.addr = p.1 ∧ m.corruption? e = some p.2 ∧
      (∀ f ∈ m.flips, f ∈ a.flips) ∧ ∃ f ∈ m.flips, f.ShowsAgainst e := by
  obtain ⟨m, hm, haddr, hc⟩ := mem_found.1 hp
  have hfits : m.Fits := ByteMask.fits_of_mem_group hm
  have hsub : ∀ f ∈ m.flips, f ∈ a.flips := fun f hf =>
    FlipSet.mem_flatMap_flips_byteMasks.1 (List.mem_flatMap.2 ⟨m, hm, hf⟩)
  exact ⟨m, hfits, haddr, hc, hsub, (ByteMask.exists_corruption?_iff hfits).1 ⟨_, hc⟩⟩

/-- The flips of the run against a byte are those that show against it. -/
theorem mem_flips_runAgainst {gs : List Flip} (h : (a.runAgainst e).flips cellSize = .ok gs)
    {g : Flip} : g ∈ gs ↔ ∃ f ∈ a.flips, f.ShowsAgainst e ∧ f.carry cellSize = g := by
  rw [runAgainst_eq] at h
  rw [Run.mem_flips h]
  constructor
  · rintro ⟨⟨v, c⟩, hp, gs', hgs', hg⟩
    obtain ⟨m, hfits, rfl, hc, hsub, -⟩ := exists_mem_of_mem_found hp
    obtain ⟨f, hf, hshows, hcarry⟩ := (ByteMask.mem_flips_corruption hfits hc hgs').1 hg
    exact ⟨f, hsub f hf, hshows, hcarry⟩
  · rintro ⟨f, hf, hshows, hcarry⟩
    obtain ⟨m, c, hfits, hfm, hc, hp⟩ := exists_corruption_of_mem hf hshows
    obtain ⟨gs', hgs'⟩ := Run.exists_flips_iff.1 ⟨gs, h⟩ _ hp
    have hg : g ∈ gs' :=
      (ByteMask.mem_flips_corruption hfits hc hgs').2 ⟨f, hfm, hshows, hcarry⟩
    exact ⟨(m.addr, c), hp, gs', hgs', hg⟩

/-- The flips of the run against a byte can be told exactly if the rows have the columns of all
that show. -/
theorem exists_flips_runAgainst_iff : (∃ gs, (a.runAgainst e).flips cellSize = .ok gs) ↔
    ∀ f ∈ a.flips, f.ShowsAgainst e → f.InRow cellSize := by
  rw [runAgainst_eq, Run.exists_flips_iff]
  constructor
  · intro h f hf hshows
    obtain ⟨m, c, hfits, hfm, hc, hp⟩ := exists_corruption_of_mem hf hshows
    exact (ByteMask.exists_flips_corruption_iff hfits hc hfm).1 (h _ hp)
  · rintro h ⟨v, c⟩ hp
    obtain ⟨m, hfits, rfl, hc, hsub, f, hf, hshows⟩ := exists_mem_of_mem_found hp
    exact (ByteMask.exists_flips_corruption_iff hfits hc hf).2 (h f (hsub f hf) hshows)

/-- The run against a byte is empty exactly if no flip shows. -/
theorem isEmpty_runAgainst_iff :
    (a.runAgainst e).isEmpty = true ↔ ∀ f ∈ a.flips, ¬f.ShowsAgainst e := by
  have hempty : (a.runAgainst e).isEmpty = true ↔ a.found e = [] := by
    rw [runAgainst_eq, Run.ofFound, Run.isEmpty, List.isEmpty_iff]
    cases a.found e with
    | nil =>
      rw [Run.gather]
      exact iff_of_true rfl rfl
    | cons p found =>
      rw [Run.gather]
      exact iff_of_false (List.cons_ne_nil _ _) (List.cons_ne_nil _ _)
  rw [hempty, List.eq_nil_iff_forall_not_mem]
  constructor
  · intro h f hf hshows
    obtain ⟨m, c, -, -, -, hp⟩ := exists_corruption_of_mem hf hshows
    exact h _ hp
  · intro h p hp
    obtain ⟨m, -, -, -, hsub, f, hf, hshows⟩ := exists_mem_of_mem_found hp
    exact h f (hsub f hf) hshows

/-! ### The runs of an attack -/

/-- The bytes against which an attack is written: the baseline, its complement, or both. -/
def backgrounds (a : Attack) (baseline : UInt8) : List UInt8 :=
  if (a.runAgainst (~~~baseline)).isEmpty then [baseline]
  else if (a.runAgainst baseline).isEmpty then [~~~baseline]
  else [baseline, ~~~baseline]

/-- An attack is logged as one run against each of its `backgrounds`. -/
theorem runs_eq (a : Attack) (baseline : UInt8) :
    a.runs baseline = (a.backgrounds baseline).map a.runAgainst := by
  simp only [runs, backgrounds]
  split
  · rfl
  · split <;> rfl

/-- There is always a run to log, also for an attack without flips. -/
theorem backgrounds_ne_nil (a : Attack) (baseline : UInt8) : a.backgrounds baseline ≠ [] := by
  rw [backgrounds]
  split
  · exact List.cons_ne_nil _ _
  · split <;> exact List.cons_ne_nil _ _

/-- Each flip shows in some run of its attack. -/
theorem exists_background {f : Flip} (hf : f ∈ a.flips) (baseline : UInt8) :
    ∃ e ∈ a.backgrounds baseline, f.ShowsAgainst e := by
  rw [backgrounds]
  split
  · rename_i hinverse
    have hnot : ¬f.ShowsAgainst (~~~baseline) := isEmpty_runAgainst_iff.1 hinverse f hf
    exact ⟨baseline, List.mem_singleton_self _,
      (f.showsAgainst_or_complement baseline).resolve_right hnot⟩
  · split
    · rename_i hprimary
      have hnot : ¬f.ShowsAgainst baseline := isEmpty_runAgainst_iff.1 hprimary f hf
      exact ⟨~~~baseline, List.mem_singleton_self _,
        (f.showsAgainst_or_complement baseline).resolve_left hnot⟩
    · rcases f.showsAgainst_or_complement baseline with h | h
      · exact ⟨baseline, List.mem_cons_self, h⟩
      · exact ⟨~~~baseline, List.mem_cons_of_mem _ (List.mem_singleton_self _), h⟩

/-! ### Reading a run -/

/-- What the line of the run against a byte tells a reader that takes cells to hold `cellSize`
bytes. -/
def shown (cellSize : UInt32) (a : Attack) (e : UInt8) : Attack :=
  ⟨a.targets, SortedSet.ofList
    ((a.flips.toList.filter fun f => f.ShowsAgainst e).map (Flip.carry cellSize))⟩

/-- What is shown against `e` are the flips that show against it, carried into their columns. -/
theorem mem_shown {g : Flip} : g ∈ (a.shown cellSize e).flips ↔
    ∃ f ∈ a.flips, f.ShowsAgainst e ∧ f.carry cellSize = g := by
  rw [shown, SortedSet.mem_ofList]
  simp only [List.mem_map, List.mem_filter, decide_eq_true_eq, and_assoc, SortedSet.mem_def]

/-- The line of a run tells of the flips that show. -/
theorem read_runAgainst (h : ∀ f ∈ a.flips, f.ShowsAgainst e → f.InRow cellSize) :
    Line.read cellSize none (Text.encode (a.runAgainst e).text) =
      .ok (some (a.shown cellSize e)) := by
  obtain ⟨gs, hgs⟩ := exists_flips_runAgainst_iff.2 h
  have hshown : (⟨a.targets, SortedSet.ofList gs⟩ : Attack) = a.shown cellSize e :=
    Attack.ext rfl fun g => by
      rw [SortedSet.mem_ofList, mem_flips_runAgainst hgs, mem_shown]
  rw [runAgainst_eq] at hgs ⊢
  rw [Line.read_text, hgs, ← hshown]
  rfl

/-- The line of a run is malformed if some flip that shows is behind the last column. -/
theorem read_runAgainst_eq_error {f : Flip} (hf : f ∈ a.flips) (hshows : f.ShowsAgainst e)
    (h : ¬f.InRow cellSize) : ∃ cause,
      Line.read cellSize none (Text.encode (a.runAgainst e).text) = .error (.parse 0 cause) := by
  cases hgs : (a.runAgainst e).flips cellSize with
  | ok gs => exact absurd (exists_flips_runAgainst_iff.1 ⟨gs, hgs⟩ f hf hshows) h
  | error cause =>
    refine ⟨cause, ?_⟩
    rw [runAgainst_eq] at hgs ⊢
    rw [Line.read_text, hgs]
    rfl

end Attack

end RowFlips
