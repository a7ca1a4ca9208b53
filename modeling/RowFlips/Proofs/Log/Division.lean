import RowFlips.Proofs.Log.Corruption

/-!
# Attacks divided into runs

The runs of an attack divide its flips: one corruption of one run tells of each, in the run against
the byte that the flip shows against, and nothing else is told. A reader could not find out that a
flip was told twice, since it would read the same flip again. That none is rests on the corruptions
of a run being in different places, as those of the bytes of an attack are, and on a flip showing
against either a byte or its complement, never both.

## Main results

* `ByteMask.tells_corruption_iff`: what the corruption of a byte tells.
* `Run.numTelling_le_one`: corruptions in different places tell of no flip twice.
* `Attack.nodup_place_found`: the corruptions of the run against a byte are in different places.
* `Attack.records_runAgainst`: the run against a byte records the flips that show against it.
* `Attack.runs_cases`, `Attack.numTelling_runs_eq`: which runs are kept, and what they tell of.
* `Attack.runs_divide`: the runs of an attack divide its flips.
-/

namespace RowFlips

/-- The corruption of a byte tells of the flips of the byte that show. -/
theorem ByteMask.tells_corruption_iff {m : ByteMask} {e : UInt8} {c : Corruption} (hm : m.Fits)
    (h : m.corruption? e = some c) {f : Flip} :
    c.Tells m.addr f ↔ f ∈ m.flips ∧ f.ShowsAgainst e := by
  obtain ⟨hoffset, -, -⟩ := corruption?_eq_some h
  rw [Corruption.Tells, ← Corruption.testBit_mask_iff, testBit_mask_corruption h, Bool.and_eq_true,
    beq_iff_eq, hoffset, mem_flips hm, Covers, Flip.ShowsAgainst]
  simp only [and_assoc]

namespace Run

variable {found : List (Address × Corruption)} {f : Flip}

/-! ### Corruptions and their places -/

/-- How many corruptions tell of a flip. -/
def numTelling (found : List (Address × Corruption)) (f : Flip) : Nat :=
  found.countP fun p => p.2.Tells p.1 f

/-- A flip is told of at all if some corruption tells of it. -/
theorem numTelling_pos_iff : 0 < numTelling found f ↔ ∃ p ∈ found, p.2.Tells p.1 f := by
  simp only [numTelling, List.countP_pos_iff, decide_eq_true_eq]

/-- A run without victims tells of no flip. -/
theorem numTelling_of_isEmpty {r : Run} (h : r.isEmpty = true) :
    numTelling (foundOf r.victims) f = 0 := by
  rw [isEmpty, List.isEmpty_iff] at h
  rw [h]
  rfl

/-- Where a corruption is: its victim and the offset from there. -/
def place (p : Address × Corruption) : Address × UInt32 := (p.1, p.2.offset)

/-- Of corruptions in different places only one can tell of a flip. -/
theorem numTelling_le_one (h : (found.map place).Nodup) (f : Flip) : numTelling found f ≤ 1 := by
  have hplace : ∀ p ∈ found, decide (p.2.Tells p.1 f) = true →
      (place p == (f.addr, f.cellByte)) = true := by
    intro p _ htells
    obtain ⟨haddr, hbyte, -⟩ := of_decide_eq_true htells
    rw [place, haddr, hbyte]
    exact beq_self_eq_true _
  calc
    numTelling found f ≤ found.countP fun p => place p == (f.addr, f.cellByte) :=
      List.countP_mono_left hplace
    _ = (found.map place).count (f.addr, f.cellByte) := by
      rw [List.count, List.countP_map]
      rfl
    _ ≤ 1 := List.nodup_iff_count_le_one.1 h _

/-- Victims whose corruptions are in different places have none at an offset twice. -/
theorem nodup_offset_of_mem {vs : List (Address × List Corruption)}
    (h : ((foundOf vs).map place).Nodup) {v : Address × List Corruption} (hv : v ∈ vs) :
    (v.2.map Corruption.offset).Nodup := by
  have hsub : (v.2.map (v.1, ·)).Sublist (foundOf vs) :=
    List.sublist_flatten_of_mem (List.mem_map_of_mem hv)
  have hplaces : (v.2.map (v.1, ·)).map place = (v.2.map Corruption.offset).map (v.1, ·) := by
    rw [List.map_map, List.map_map]
    rfl
  exact (hplaces ▸ h.sublist (hsub.map place)).of_map _

/-! ### What a run records -/

/-- The run carries the flip: one of its corruptions tells of it. -/
def Carries (r : Run) (f : Flip) : Prop := ∃ v ∈ r.victims, ∃ c ∈ v.2, c.Tells v.1 f

/-- The run records the attack against `e`. It has the rows hammered, each once, and each victim
once, with corruptions at different offsets, each of a byte that was `e` and is not now. One of them
tells of each flip of the attack that shows against `e`, none of any other flip, and each bit that
differs is the bit of a flip. -/
structure Records (r : Run) (a : Attack) (e : UInt8) : Prop where
  targets_eq : r.targets =
    if a.targets.first = a.targets.second then [a.targets.first]
    else [a.targets.first, a.targets.second]
  victims_nodup : (r.victims.map Prod.fst).Nodup
  corruptions_ne_nil : ∀ v ∈ r.victims, v.2 ≠ []
  offsets_nodup : ∀ v ∈ r.victims, (v.2.map Corruption.offset).Nodup
  expected_eq : ∀ v ∈ r.victims, ∀ c ∈ v.2, c.expected = e
  got_ne : ∀ v ∈ r.victims, ∀ c ∈ v.2, c.got ≠ c.expected
  numTelling_eq : ∀ f, numTelling (foundOf r.victims) f =
    if f ∈ a.flips ∧ f.ShowsAgainst e then 1 else 0
  exists_flip : ∀ v ∈ r.victims, ∀ c ∈ v.2, ∀ b : Fin 8,
    c.got.toNat.testBit b ≠ c.expected.toNat.testBit b →
      ∃ f ∈ a.flips, f.bitInByte = b ∧ c.Tells v.1 f

/-- A run that records an attack carries the flips that show. -/
theorem Records.carries_iff {r : Run} {a : Attack} {e : UInt8} (h : r.Records a e) :
    r.Carries f ↔ f ∈ a.flips ∧ f.ShowsAgainst e := by
  have hcarries : r.Carries f ↔ 0 < numTelling (foundOf r.victims) f := by
    rw [numTelling_pos_iff, Carries]
    constructor
    · rintro ⟨v, hv, c, hc, htells⟩
      exact ⟨(v.1, c), mem_foundOf.2 ⟨v, hv, c, hc, rfl⟩, htells⟩
    · rintro ⟨p, hp, htells⟩
      obtain ⟨v, hv, c, hc, rfl⟩ := mem_foundOf.1 hp
      exact ⟨v, hv, c, hc, htells⟩
  rw [hcarries, h.numTelling_eq]
  split
  · rename_i hshows
    exact iff_of_true Nat.one_pos hshows
  · rename_i hshows
    exact iff_of_false (Nat.lt_irrefl 0) hshows

end Run

namespace Attack

variable {a : Attack} {e : UInt8} {f : Flip}

/-! ### The run against a byte -/

/-- The corruptions of the run against a byte are in different places, since the bytes of an attack
are. -/
theorem nodup_place_found (a : Attack) (e : UInt8) : ((a.found e).map Run.place).Nodup := by
  refine List.pairwise_map.2 ((ByteMask.ascending_group a.flips.ascending).filterMap _ ?_)
  intro m n hlt p hp q hq hplace
  obtain ⟨c, hc, rfl⟩ := Option.map_eq_some_iff.1 hp
  obtain ⟨d, hd, rfl⟩ := Option.map_eq_some_iff.1 hq
  have haddr : m.addr = n.addr := congrArg Prod.fst hplace
  have hoffset : c.offset = d.offset := congrArg Prod.snd hplace
  rw [(ByteMask.corruption?_eq_some hc).1, (ByteMask.corruption?_eq_some hd).1] at hoffset
  rw [ByteMask.position, ByteMask.position, haddr, hoffset] at hlt
  exact Nat.lt_irrefl _ hlt

/-- A corruption of the run against a byte tells of flips of the attack that show. -/
theorem mem_of_tells {p : Address × Corruption} (hp : p ∈ a.found e) (htells : p.2.Tells p.1 f) :
    f ∈ a.flips ∧ f.ShowsAgainst e := by
  obtain ⟨m, hfits, haddr, hc, hsub, -⟩ := exists_mem_of_mem_found hp
  rw [← haddr, ByteMask.tells_corruption_iff hfits hc] at htells
  exact ⟨hsub f htells.1, htells.2⟩

/-- One corruption of the run against a byte tells of each flip that shows, and none of others. -/
theorem numTelling_found (a : Attack) (e : UInt8) (f : Flip) :
    Run.numTelling (a.found e) f = if f ∈ a.flips ∧ f.ShowsAgainst e then 1 else 0 := by
  split
  · rename_i h
    obtain ⟨m, c, hfits, hfm, hc, hp⟩ := exists_corruption_of_mem h.1 h.2
    have htells : c.Tells m.addr f := (ByteMask.tells_corruption_iff hfits hc).2 ⟨hfm, h.2⟩
    exact Nat.le_antisymm (Run.numTelling_le_one (a.nodup_place_found e) f)
      (Run.numTelling_pos_iff.2 ⟨(m.addr, c), hp, htells⟩)
  · rename_i h
    refine Nat.eq_zero_of_not_pos fun hpos => h ?_
    obtain ⟨p, hp, htells⟩ := Run.numTelling_pos_iff.1 hpos
    exact mem_of_tells hp htells

/-- **The run against a byte records the attack against it.** -/
theorem records_runAgainst (a : Attack) (e : UInt8) : (a.runAgainst e).Records a e := by
  rw [runAgainst_eq]
  obtain ⟨hne, hnodup⟩ := Run.gather_spec (a.found e)
  have hperm := Run.foundOf_gather_perm (a.found e)
  have hplaces : ((Run.foundOf (Run.gather (a.found e))).map Run.place).Nodup :=
    (hperm.map _).nodup_iff.2 (a.nodup_place_found e)
  have hfound {v : Address × List Corruption} (hv : v ∈ Run.gather (a.found e)) {c : Corruption}
      (hc : c ∈ v.2) : (v.1, c) ∈ a.found e :=
    hperm.mem_iff.1 (Run.mem_foundOf.2 ⟨v, hv, c, hc, rfl⟩)
  refine
    { targets_eq := ?_
      victims_nodup := hnodup
      corruptions_ne_nil := hne
      offsets_nodup := fun v hv => Run.nodup_offset_of_mem hplaces hv
      expected_eq := ?_
      got_ne := ?_
      numTelling_eq := fun f => (hperm.countP_eq _).trans (a.numTelling_found e f)
      exists_flip := ?_ }
  · simp only [Run.ofFound, Targets.toList, Targets.isSingle, decide_eq_true_eq]
  · intro v hv c hc
    obtain ⟨m, -, -, hm, -, -⟩ := exists_mem_of_mem_found (hfound hv hc)
    exact (ByteMask.corruption?_eq_some hm).2.1
  · intro v hv c hc
    obtain ⟨m, -, -, hm, -, -⟩ := exists_mem_of_mem_found (hfound hv hc)
    exact ByteMask.got_ne_of_corruption?_eq_some hm
  · intro v hv c hc b hb
    obtain ⟨m, hfits, -, hm, -, -⟩ := exists_mem_of_mem_found (hfound hv hc)
    have hoffset : c.offset.toNat < 1 <<< 29 := (ByteMask.corruption?_eq_some hm).1 ▸ hfits
    obtain ⟨f, hbit, htells⟩ := Corruption.exists_tells v.1 hoffset hb
    exact ⟨f, (mem_of_tells (hfound hv hc) htells).1, hbit, htells⟩

/-- The run against a byte is empty exactly if it carries no flip. -/
theorem isEmpty_runAgainst_iff_carries :
    (a.runAgainst e).isEmpty = true ↔ ¬∃ f, (a.runAgainst e).Carries f := by
  simp only [isEmpty_runAgainst_iff, (a.records_runAgainst e).carries_iff, not_exists, not_and]

/-! ### Both runs -/

/-- A run that is left out would tell of no flip, so the runs that are kept tell of as many as both
together. -/
theorem numTelling_runs (a : Attack) (baseline : UInt8) (f : Flip) :
    Run.numTelling ((a.runs baseline).flatMap fun r => Run.foundOf r.victims) f =
      Run.numTelling (Run.foundOf (a.runAgainst baseline).victims) f +
        Run.numTelling (Run.foundOf (a.runAgainst (~~~baseline)).victims) f := by
  simp only [runs]
  split
  · rename_i hinverse
    rw [List.flatMap_singleton, Run.numTelling_of_isEmpty hinverse, Nat.add_zero]
  · split
    · rename_i hprimary
      rw [List.flatMap_singleton, Run.numTelling_of_isEmpty hprimary, Nat.zero_add]
    · rw [List.flatMap_cons, List.flatMap_singleton]
      exact List.countP_append

/-- The runs of an attack tell of its flips once each, for a flip shows against the baseline or its
complement, never both. -/
theorem numTelling_runs_eq (a : Attack) (baseline : UInt8) (f : Flip) :
    Run.numTelling ((a.runs baseline).flatMap fun r => Run.foundOf r.victims) f =
      if f ∈ a.flips then 1 else 0 := by
  rw [numTelling_runs, (a.records_runAgainst baseline).numTelling_eq,
    (a.records_runAgainst (~~~baseline)).numTelling_eq]
  simp only [Flip.showsAgainst_complement_iff]
  by_cases hf : f ∈ a.flips <;> by_cases hshows : f.ShowsAgainst baseline <;> simp [hf, hshows]

/-- Which runs are kept hangs on which carry a flip. -/
theorem runs_cases (a : Attack) (baseline : UInt8) :
    a.runs baseline = [a.runAgainst baseline] ∧ (¬∃ f, (a.runAgainst (~~~baseline)).Carries f) ∨
      a.runs baseline = [a.runAgainst (~~~baseline)] ∧
        (¬∃ f, (a.runAgainst baseline).Carries f) ∧
          (∃ f, (a.runAgainst (~~~baseline)).Carries f) ∨
      a.runs baseline = [a.runAgainst baseline, a.runAgainst (~~~baseline)] ∧
        (∃ f, (a.runAgainst baseline).Carries f) ∧
          ∃ f, (a.runAgainst (~~~baseline)).Carries f := by
  have hcarries {e : UInt8} (h : ¬(a.runAgainst e).isEmpty = true) :
      ∃ f, (a.runAgainst e).Carries f :=
    not_not.1 (mt isEmpty_runAgainst_iff_carries.2 h)
  simp only [runs]
  split
  · rename_i hinverse
    exact .inl ⟨rfl, isEmpty_runAgainst_iff_carries.1 hinverse⟩
  · rename_i hinverse
    split
    · rename_i hprimary
      exact .inr (.inl ⟨rfl, isEmpty_runAgainst_iff_carries.1 hprimary, hcarries hinverse⟩)
    · rename_i hprimary
      exact .inr (.inr ⟨rfl, hcarries hprimary, hcarries hinverse⟩)

/-- **The runs of an attack divide its flips.** Of two runs, `primary` `Records` the attack `a`
against the `baseline`, and `inverse` against its complement. Its `runs` are both, less `inverse` if
it `Carries` no flip, and less `primary` if this carries none and `inverse` carries one. In what all
of them found, by `numTelling` exactly one corruption tells of each flip of `a`, and none of any
other flip. -/
theorem runs_divide (a : Attack) (baseline : UInt8) : ∃ primary inverse : Run,
    primary.Records a baseline ∧ inverse.Records a (~~~baseline) ∧
      (a.runs baseline = [primary] ∧ (¬∃ f, inverse.Carries f) ∨
        a.runs baseline = [inverse] ∧ (¬∃ f, primary.Carries f) ∧ (∃ f, inverse.Carries f) ∨
        a.runs baseline = [primary, inverse] ∧ (∃ f, primary.Carries f) ∧
          ∃ f, inverse.Carries f) ∧
      ∀ f, Run.numTelling ((a.runs baseline).flatMap fun r => Run.foundOf r.victims) f =
        if f ∈ a.flips then 1 else 0 :=
  ⟨_, _, a.records_runAgainst baseline, a.records_runAgainst (~~~baseline), a.runs_cases baseline,
    a.numTelling_runs_eq baseline⟩

/-- A bit that flipped both ways shows in both runs, once each way; a run that would be empty is
left out. -/
example :
    let a : Attack := ⟨.single ⟨0, 0, 0, 0, 100, 0⟩, .ofList
      [⟨⟨0, 0, 0, 0, 101, 0⟩, 3, .up⟩, ⟨⟨0, 0, 0, 0, 101, 0⟩, 3, .down⟩]⟩
    a.runs 0xff =
      [⟨[⟨0, 0, 0, 0, 100, 0⟩], [(⟨0, 0, 0, 0, 101, 0⟩, [⟨0, 0xf7, 0xff⟩])]⟩,
        ⟨[⟨0, 0, 0, 0, 100, 0⟩], [(⟨0, 0, 0, 0, 101, 0⟩, [⟨0, 0x08, 0x00⟩])]⟩] := by
  cbv

end Attack

end RowFlips
