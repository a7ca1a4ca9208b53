import RowFlips.Proofs.Log.Encoding
import RowFlips.Proofs.Log.Reader
import RowFlips.Proofs.Table.Load
import RowFlips.Proofs.Text

/-!
# Tables read back from text

The text form of a table has a line for each byte that an attack is written against, and the lines
of an attack follow each other. A reader puts what they tell together again, so it tells of each
attack once. What comes back is the table with its flips carried to the columns in which their bits
lie if cells have the size that the reader assumes. It is the table itself exactly if each flip
lies in its cell, and it cannot be told exactly if some flip is carried behind the last column.

## Main results

* `lines_toText`: the lines of the text form.
* `alike_shown`: these lines tell what the attacks do, carried to their columns.
* `joinNeighbours_shown`: the lines of an attack are put together again.
* `ofLog_toText`, `ofLog_toText_eq_error`: what the text form of a table reads as.
* `roundtrip_toText`: when a table survives its text form, and what becomes of it else.
-/

namespace RowFlips

/-! ### Carried attacks -/

/-- The attack with its flips in the columns in which their bits lie if cells hold `cellSize`
bytes. -/
def Attack.carry (cellSize : UInt32) (a : Attack) : Attack :=
  ⟨a.targets, SortedSet.ofList (a.flips.toList.map (Flip.carry cellSize))⟩

/-- The flips of an attack that is carried are its flips, each carried. -/
theorem Attack.mem_carry_flips {cellSize : UInt32} {a : Attack} {g : Flip} :
    g ∈ (a.carry cellSize).flips ↔ ∃ f ∈ a.flips, f.carry cellSize = g := by
  rw [carry, SortedSet.mem_ofList, List.mem_map]
  rfl

/-- An attack stays as it is if its flips lie in their cells. -/
theorem Attack.carry_eq_self {cellSize : UInt32} {a : Attack}
    (h : ∀ f ∈ a.flips, f.cellByte < max cellSize 1) : a.carry cellSize = a := by
  refine ext rfl fun g => mem_carry_flips.trans ?_
  constructor
  · rintro ⟨f, hf, rfl⟩
    rwa [Flip.carry_eq_self (h f hf)]
  · intro hg
    exact ⟨g, hg, Flip.carry_eq_self (h g hg)⟩

/-! ### What lines tell -/

namespace Reader

variable {α : Type} {line : α → Text.Bytes} {cellSize : UInt32} {distance : Option Int}

/-- Lines that all tell of attacks tell of these attacks. -/
theorem told_map {attack : α → Attack} {l : List α}
    (h : ∀ x ∈ l, Line.read cellSize distance (line x) = .ok (some (attack x))) (n : Nat) :
    told cellSize distance n (l.map line) = (l.map attack, none) := by
  induction l generalizing n with
  | nil => rfl
  | cons x l ih =>
    rw [List.map_cons, told, h x List.mem_cons_self]
    simp only [ih fun y hy => h y (List.mem_cons_of_mem _ hy)]
    rfl

/-- Lines of which one is malformed, and the others may be, end the log with a malformed line. -/
theorem told_map_error {l : List α}
    (h : ∀ x ∈ l, (∃ a, Line.read cellSize distance (line x) = .ok (some a)) ∨
      ∃ cause, Line.read cellSize distance (line x) = .error (.parse 0 cause))
    (hmalformed : ∃ x ∈ l, ∃ cause,
      Line.read cellSize distance (line x) = .error (.parse 0 cause)) (n : Nat) :
    ∃ m cause, (told cellSize distance n (l.map line)).2 = some (.parse m cause) := by
  induction l generalizing n with
  | nil =>
    obtain ⟨x, hx, -⟩ := hmalformed
    cases hx
  | cons x l ih =>
    rw [List.map_cons, told]
    rcases h x List.mem_cons_self with ⟨a, ha⟩ | ⟨cause, hcause⟩
    · have hrest : ∃ y ∈ l, ∃ cause,
          Line.read cellSize distance (line y) = .error (.parse 0 cause) := by
        obtain ⟨y, hy, cause, hcause⟩ := hmalformed
        rcases List.mem_cons.1 hy with rfl | hy
        · rw [ha] at hcause
          cases hcause
        · exact ⟨y, hy, cause, hcause⟩
      rw [ha]
      exact ih (fun y hy => h y (List.mem_cons_of_mem _ hy)) hrest (n + 1)
    · rw [hcause]
      exact ⟨n + 1, cause, rfl⟩

end Reader

namespace Table

variable {t : Table} {w r : Config}

/-- The table with its flips in the columns in which their bits lie if cells hold `cellSize`
bytes. -/
def carry (cellSize : UInt32) (t : Table) : Table := ⟨t.attacks.map (Attack.carry cellSize)⟩

/-- The table stays as it is exactly if its flips lie in their cells. -/
theorem carry_eq_self_iff {cellSize : UInt32} :
    t.carry cellSize = t ↔ ∀ a ∈ t.attacks, ∀ f ∈ a.flips, f.cellByte < max cellSize 1 := by
  constructor
  · intro h a ha f hf
    rw [← h] at ha
    obtain ⟨b, -, rfl⟩ := List.mem_map.1 ha
    obtain ⟨g, -, rfl⟩ := Attack.mem_carry_flips.1 hf
    exact Flip.cellByte_carry_lt cellSize g
  · intro h
    have hattacks : t.attacks.map (Attack.carry cellSize) = t.attacks.map id :=
      List.map_congr_left fun a ha => Attack.carry_eq_self (h a ha)
    rw [List.map_id] at hattacks
    exact congrArg Table.mk hattacks

/-! ### The lines of the text form -/

/-- The lines of the text form: each attack with each byte that it is written against. -/
def written (baseline : UInt8) (t : Table) : List (Attack × UInt8) :=
  t.attacks.flatMap fun a => (a.backgrounds baseline).map (a, ·)

/-- Each attack of a table is written against each of its `backgrounds`. -/
theorem mem_written {baseline : UInt8} {p : Attack × UInt8} :
    p ∈ t.written baseline ↔ p.1 ∈ t.attacks ∧ p.2 ∈ p.1.backgrounds baseline := by
  obtain ⟨a, e⟩ := p
  simp only [written, List.mem_flatMap, List.mem_map, Prod.mk.injEq]
  constructor
  · rintro ⟨b, hb, e, he, rfl, rfl⟩
    exact ⟨hb, he⟩
  · rintro ⟨ha, he⟩
    exact ⟨a, ha, e, he, rfl, rfl⟩

/-- The text form has a line for each byte that an attack is written against. -/
theorem lines_toText (w : Config) (t : Table) : Text.lines (t.toText w) =
    (t.written w.baseline).map fun p => Text.encode (p.1.runAgainst p.2).text := by
  have hattack (a : Attack) : Text.encode (attackText w.baseline a) =
      (a.backgrounds w.baseline).flatMap fun e => Text.encode (a.runAgainst e).text ++ [10] := by
    rw [attackText, Attack.runs_eq, List.flatMap_map, Text.encode, List.flatMap_assoc]
    exact List.flatMap_congr fun e _ => Text.encode_append _ _
  have htext : t.toText w =
      ((t.written w.baseline).map fun p => Text.encode (p.1.runAgainst p.2).text).flatMap
        (· ++ [10]) := by
    rw [toText, text, Text.encode, List.flatMap_assoc, List.flatMap_map, written,
      List.flatMap_assoc]
    refine List.flatMap_congr fun a _ => (hattack a).trans ?_
    rw [List.flatMap_map]
  rw [htext]
  refine Text.lines_flatMap ?_
  intro l hl
  obtain ⟨p, -, rfl⟩ := List.mem_map.1 hl
  have hbyte : ∀ b ∈ Text.encode (p.1.runAgainst p.2).text, 32 ≤ b.toNat := by
    intro b hb
    rw [Text.encode_eq_map fun c hc => (Run.toNat_of_mem_text hc).2, List.mem_map] at hb
    obtain ⟨c, hc, rfl⟩ := hb
    obtain ⟨hle, hlt⟩ := Run.toNat_of_mem_text hc
    rw [Nat.toUInt8, UInt8.toNat_ofNat', Nat.mod_eq_of_lt (by omega)]
    exact hle
  exact ⟨fun h => absurd (hbyte 10 h) (by decide), fun h => absurd (hbyte 13 h) (by decide)⟩

/-- What the lines of the text form tell, if they can be told. -/
theorem told_toText {cellSize : UInt32}
    (h : ∀ a ∈ t.attacks, ∀ f ∈ a.flips, f.InRow cellSize) :
    Reader.told cellSize none 0 (Text.lines (t.toText w)) =
      ((t.written w.baseline).map fun p => p.1.shown cellSize p.2, none) := by
  rw [lines_toText]
  refine Reader.told_map (fun p hp => Attack.read_runAgainst fun f hf _ => ?_) 0
  exact h p.1 (mem_written.1 hp).1 f hf

/-- The lines of the text form cannot be told if some flip is behind the last column. -/
theorem told_toText_error {cellSize : UInt32} {a : Attack} {f : Flip} (ha : a ∈ t.attacks)
    (hf : f ∈ a.flips) (h : ¬f.InRow cellSize) :
    ∃ n cause, (Reader.told cellSize none 0 (Text.lines (t.toText w))).2 =
      some (.parse n cause) := by
  rw [lines_toText]
  refine Reader.told_map_error (fun p _ => ?_) ?_ 0
  · by_cases hall : ∀ g ∈ p.1.flips, g.ShowsAgainst p.2 → g.InRow cellSize
    · exact Or.inl ⟨_, Attack.read_runAgainst hall⟩
    · push Not at hall
      obtain ⟨g, hg, hshows, hrow⟩ := hall
      exact Or.inr (Attack.read_runAgainst_eq_error hg hshows hrow)
  · obtain ⟨e, he, hshows⟩ := Attack.exists_background hf w.baseline
    exact ⟨(a, e), mem_written.2 ⟨ha, he⟩, Attack.read_runAgainst_eq_error hf hshows h⟩

/-! ### Putting the lines of an attack together -/

/-- Carrying changes no targets, so a canonical table stays canonical. -/
theorem Canonical.carry (ht : t.Canonical) (cellSize : UInt32) : (t.carry cellSize).Canonical :=
  List.pairwise_map.2 ht

/-- The lines of the text form tell what the attacks do, carried to their columns. -/
theorem alike_shown (t : Table) (cellSize : UInt32) (baseline : UInt8) :
    Alike ((t.written baseline).map fun p => p.1.shown cellSize p.2)
      (t.carry cellSize).attacks where
  targets u := by
    constructor
    · rintro ⟨b, hb, rfl⟩
      obtain ⟨⟨a, e⟩, hp, rfl⟩ := List.mem_map.1 hb
      exact ⟨a.carry cellSize, List.mem_map.2 ⟨a, (mem_written.1 hp).1, rfl⟩, rfl⟩
    · rintro ⟨b, hb, rfl⟩
      obtain ⟨a, ha, rfl⟩ := List.mem_map.1 hb
      obtain ⟨e, he⟩ := List.exists_mem_of_ne_nil _ (a.backgrounds_ne_nil baseline)
      exact ⟨a.shown cellSize e, List.mem_map.2 ⟨(a, e), mem_written.2 ⟨ha, he⟩, rfl⟩, rfl⟩
  flips u g := by
    constructor
    · rintro ⟨b, hb, rfl, hg⟩
      obtain ⟨⟨a, e⟩, hp, rfl⟩ := List.mem_map.1 hb
      obtain ⟨f, hf, -, hcarry⟩ := Attack.mem_shown.1 hg
      exact ⟨a.carry cellSize, List.mem_map.2 ⟨a, (mem_written.1 hp).1, rfl⟩, rfl,
        Attack.mem_carry_flips.2 ⟨f, hf, hcarry⟩⟩
    · rintro ⟨b, hb, rfl, hg⟩
      obtain ⟨a, ha, rfl⟩ := List.mem_map.1 hb
      obtain ⟨f, hf, hcarry⟩ := Attack.mem_carry_flips.1 hg
      obtain ⟨e, he, hshows⟩ := Attack.exists_background hf baseline
      exact ⟨a.shown cellSize e, List.mem_map.2 ⟨(a, e), mem_written.2 ⟨ha, he⟩, rfl⟩, rfl,
        Attack.mem_shown.2 ⟨f, hf, hshows, hcarry⟩⟩

/-- What the lines of a table tell sums up to its attacks, carried to their columns. -/
theorem sumsUp_shown_iff (ht : t.Canonical) {cellSize : UInt32} {baseline : UInt8} {x : Attack} :
    (x.SumsUp ((t.written baseline).map fun p => p.1.shown cellSize p.2)) ↔
      x ∈ (t.carry cellSize).attacks :=
  (alike_shown t cellSize baseline).sumsUp_iff.trans (ht.carry cellSize).sumsUp_iff

/-- The lines of an attack follow each other, so they are put together again. -/
theorem joinNeighbours_shown (ht : t.Canonical) (cellSize : UInt32) (baseline : UInt8) :
    joinNeighbours ((t.written baseline).map fun p => p.1.shown cellSize p.2) =
      (t.carry cellSize).attacks := by
  have hsorted : ((t.written baseline).map fun p => p.1.shown cellSize p.2).Pairwise
      fun a b => key a.targets ≤ key b.targets := by
    rw [List.pairwise_map, written, List.pairwise_flatMap]
    constructor
    · intro a _
      exact List.pairwise_map.2 (List.pairwise_of_forall fun _ _ => Nat.le_refl _)
    · refine ht.imp ?_
      intro a b hlt p hp q hq
      obtain ⟨-, -, rfl⟩ := List.mem_map.1 hp
      obtain ⟨-, -, rfl⟩ := List.mem_map.1 hq
      exact Nat.le_of_lt hlt
  exact Ascending.eq_of_mem_iff (ascending_joinNeighbours hsorted) (ht.carry cellSize) fun x =>
    (mem_joinNeighbours hsorted).trans (sumsUp_shown_iff ht)

/-! ### Reading the text form -/

/-- The text form reads as the table of the attacks with their flips carried, in whatever order the
attacks are, if no row ends before. -/
theorem ofLog_toText_eq_ofAttacks (h : ∀ a ∈ t.attacks, ∀ f ∈ a.flips, f.InRow r.cellSize) :
    ofLog r (t.toText w) = .ok (ofAttacks (t.carry r.cellSize).attacks) := by
  rw [ofLog_eq, told_toText h, Option.elim_none, (Alike.joinNeighbours _).ofAttacks_eq,
    (alike_shown t r.cellSize w.baseline).ofAttacks_eq]

/-- The text form reads as the table with its flips carried, if no row ends before. -/
theorem ofLog_toText (ht : t.Canonical)
    (h : ∀ a ∈ t.attacks, ∀ f ∈ a.flips, f.InRow r.cellSize) :
    ofLog r (t.toText w) = .ok (t.carry r.cellSize) ∧
      (Reader.ofContent r none (t.toText w)).items = (t.carry r.cellSize).attacks.map .ok := by
  constructor
  · rw [ofLog_toText_eq_ofAttacks h, (ht.carry r.cellSize).ofAttacks_eq]
  · rw [Reader.items_ofContent, told_toText h, Reader.answers, joinNeighbours_shown ht]

/-- The text form is malformed if some flip is behind the last column. -/
theorem ofLog_toText_eq_error {a : Attack} {f : Flip} (ha : a ∈ t.attacks) (hf : f ∈ a.flips)
    (h : ¬f.InRow r.cellSize) :
    ∃ n cause, ofLog r (t.toText w) = .error (.parse n cause) ∧
      .error (.parse n cause) ∈ (Reader.ofContent r none (t.toText w)).items := by
  obtain ⟨n, cause, htold⟩ :
      ∃ n cause, (Reader.told r.cellSize none 0 (Text.lines (t.toText w))).2 =
        some (.parse n cause) :=
    told_toText_error ha hf h
  rw [ofLog_eq, Reader.items_ofContent]
  cases hlog : Reader.told r.cellSize none 0 (Text.lines (t.toText w)) with
  | mk as e =>
    rw [hlog] at htold
    cases htold
    exact ⟨n, cause, rfl, List.mem_append_right _ (List.mem_singleton_self _)⟩

/-- **The text form of a table reads back as the table exactly if each flip lies in its cell**, with
any configuration `w` to write it and any `r` to read it. `inCells` says that no flip of `t` is in a
byte from `size` on, the bytes that `r` takes a cell to hold. Then and only then the items of
`reader` are the attacks of `t`, one after the other, and `ofLog` gives `t` back. `behind` says that
the byte of some flip, taken as a byte of cells of `size` bytes, is past column 65535. Then and only
then the text is malformed to `ofLog`. Otherwise it reads as `t.carry r.cellSize`, which has each
flip in the column and byte in which it lies for `r`. -/
theorem roundtrip_toText (ht : t.Canonical) (w r : Config) :
    let size := max r.cellSize 1
    let reader := Reader.ofContent r none (t.toText w)
    let inCells := ∀ a ∈ t.attacks, ∀ f ∈ a.flips, f.bit / 8 < size
    let behind := ∃ a ∈ t.attacks, ∃ f ∈ a.flips,
      65535 < f.addr.col.toNat + (f.bit / 8 / size).toNat
    (reader.items = t.attacks.map .ok ↔ inCells) ∧
    (ofLog r (t.toText w) = .ok t ↔ inCells) ∧
    ((∃ line cause, ofLog r (t.toText w) = .error (.parse line cause)) ↔ behind) ∧
    (¬behind → reader.items = (t.carry r.cellSize).attacks.map .ok ∧
      ofLog r (t.toText w) = .ok (t.carry r.cellSize)) := by
  intro size reader inCells behind
  have hbehind {f : Flip} : ¬f.InRow r.cellSize ↔
      65535 < f.addr.col.toNat + (f.bit / 8 / size).toNat := by
    rw [Flip.InRow, UInt16.size, Nat.not_lt]
    rfl
  -- Either some flip is behind the last column and the log is malformed, or all is told.
  by_cases h : ∀ a ∈ t.attacks, ∀ f ∈ a.flips, f.InRow r.cellSize
  · obtain ⟨hlog, hitems⟩ := ofLog_toText (w := w) ht h
    have hnot : ¬behind := by
      rintro ⟨a, ha, f, hf, hfar⟩
      exact hbehind.2 hfar (h a ha f hf)
    have hself : t.carry r.cellSize = t ↔ inCells := carry_eq_self_iff
    have hattacks : (t.carry r.cellSize).attacks = t.attacks ↔ t.carry r.cellSize = t :=
      ⟨fun heq => congrArg Table.mk heq, fun heq => congrArg Table.attacks heq⟩
    refine ⟨?_, ?_, ?_, fun _ => ⟨hitems, hlog⟩⟩
    · rw [hitems, List.map_inj_right fun _ _ => Except.ok.inj, hattacks, hself]
    · rw [hlog, Except.ok.injEq, hself]
    · refine iff_of_false ?_ hnot
      rintro ⟨n, cause, herror⟩
      rw [hlog] at herror
      cases herror
  · push Not at h
    obtain ⟨a, ha, f, hf, hrow⟩ := h
    obtain ⟨n, cause, hlog, hitem⟩ := ofLog_toText_eq_error (w := w) ha hf hrow
    have hfar : behind := ⟨a, ha, f, hf, hbehind.1 hrow⟩
    have hnot : ¬inCells := fun hin => hrow (Flip.inRow_of_cellByte_lt (hin a ha f hf))
    refine ⟨iff_of_false ?_ hnot, iff_of_false ?_ hnot, iff_of_true ⟨n, cause, hlog⟩ hfar,
      fun h => absurd hfar h⟩
    · intro hitems
      rw [hitems] at hitem
      obtain ⟨b, -, hb⟩ := List.mem_map.1 hitem
      cases hb
    · intro hok
      rw [hlog] at hok
      cases hok

/-- Two attacks of which one has no flips and the other two, in the first and the ninth byte of
one cell. -/
def ninthByte : Table :=
  let cell (row : UInt16) : Address := ⟨0, 0, 1, 2, row, 4⟩
  ⟨[⟨⟨cell 10, cell 12⟩, SortedSet.empty⟩,
    ⟨.single (cell 11), ⟨[⟨cell 12, 3, .up⟩, ⟨cell 12, 67, .down⟩], by decide⟩⟩]⟩

/-- A table that survives its text form if cells are large enough, and else has a flip carried to
the next column. -/
theorem roundtrip_toText_ninthByte :
    ninthByte.Canonical ∧
      ofLog { cellSize := 16 } (ninthByte.toText { baseline := 0x55 }) = .ok ninthByte ∧
      ofLog { cellSize := 8 } (ninthByte.toText { baseline := 0xff }) =
        .ok (ninthByte.carry 8) := by
  have hcanonical : ninthByte.Canonical := by decide
  have hin : ∀ a ∈ ninthByte.attacks, ∀ f ∈ a.flips.toList, f.bit / 8 < 16 := by decide
  have hnot : ¬∃ a ∈ ninthByte.attacks, ∃ f ∈ a.flips.toList,
      65535 < f.addr.col.toNat + (f.bit / 8 / 8).toNat := by decide
  obtain ⟨-, hback, -⟩ := roundtrip_toText hcanonical { baseline := 0x55 } { cellSize := 16 }
  obtain ⟨-, -, -, hcarried⟩ := roundtrip_toText hcanonical { baseline := 0xff } { cellSize := 8 }
  exact ⟨hcanonical, hback.2 hin, (hcarried hnot).2⟩

end Table

end RowFlips
