import Mathlib.Data.List.Perm.Basic
import RowFlips.Proofs.Image.Build
import RowFlips.Proofs.Image.Codec
import RowFlips.Proofs.Table.Canonical

/-!
# Reading attacks back from an image

An image holds first targets only where a range starts, and second targets nowhere. Still every
attack is read back: its place in its range tells its first target, and the distance of the image
tells its second. Sorting the ranges changes the order in which attacks are read back, but not
that of the attacks of a table, where ranges ascend as they are.

## Main results

* `Stores.forall₂_records?`: each hammering names the flip records of its attack.
* `Describes.forall₂_attacks?`: each range stands for the attacks of its stretch.
* `Describes.attacks?_perm`, `Describes.attacks?_of_ascending`: what the whole image stands for.
* `Describes.wellFormed`: the image of fewer than 2³² attacks can be written as a file.
* `roundtrip_ofAttacks`: attacks survive the binary form.
-/

namespace RowFlips.Image

/-! ### The flips of a hammering -/

/-- A record holds the flips of the byte mask that it was made of. -/
theorem flips_recordOf {m : ByteMask} (h : m.cellByte.toNat < UInt16.size) :
    (recordOf m).flips = m.flips := by
  have hbyte : m.cellByte.toUInt16.toUInt32 = m.cellByte := by
    rw [← UInt32.toNat_inj, UInt16.toNat_toUInt32, UInt32.toNat_toUInt16]
    exact Nat.mod_eq_of_lt h
  rw [Record.flips, recordOf, hbyte]
  rfl

/-- The records of an attack expand to its flips, each once. -/
theorem flatMap_flips_recordsOf_perm {a : Attack}
    (h : ∀ m ∈ a.flips.byteMasks, m.cellByte.toNat < UInt16.size) :
    ((recordsOf a).flatMap Record.flips).Perm a.flips.toList := by
  have hflips : (recordsOf a).flatMap Record.flips = a.flips.byteMasks.flatMap ByteMask.flips := by
    rw [recordsOf, List.flatMap_map]
    exact List.flatMap_congr fun m hm => flips_recordOf (h m hm)
  rw [hflips]
  exact a.flips.flatMap_flips_byteMasks_perm

/-- The set of the flips that the records of an attack hold is that of its flips. -/
theorem ofList_flips_recordsOf {a : Attack}
    (h : ∀ m ∈ a.flips.byteMasks, m.cellByte.toNat < UInt16.size) :
    SortedSet.ofList ((recordsOf a).flatMap Record.flips) = a.flips :=
  SortedSet.ext fun f => by
    rw [SortedSet.mem_ofList, (flatMap_flips_recordsOf_perm h).mem_iff]
    rfl

/-- Each hammering names the flip records of its attack. -/
theorem Stores.forall₂_records? {hs : List Hammering} {rs : List Record} {as : List Attack}
    (h : Stores hs rs as) :
    List.Forall₂ (fun h a => h.records? rs.toArray = some (recordsOf a)) hs as := by
  obtain ⟨rfl, rfl, hfits, -⟩ := h
  have hrecords : List.Forall₂ (fun h records =>
      Hammering.records? (as.map recordsOf).flatten.toArray h = some records)
      ((withStarts 0 (as.map recordsOf)).map hammeringOf) (as.map recordsOf) :=
    forall₂_withStarts fun p hp => slice?_of_mem_withStarts hp (hfits p hp).1 (hfits p hp).2
  exact (List.forall₂_map_right_iff (f := recordsOf)).1 hrecords

namespace Describes

variable {img : Image} {ss : List (List Attack)}

/-- The hammering of an attack stands for it, if it is given the first target. -/
theorem attack?_eq (h : img.Describes ss) {a : Attack} (ha : a ∈ ss.flatten) {hammering : Hammering}
    (hrecords : hammering.records? img.records.toArray = some (recordsOf a)) :
    hammering.attack? img.distance img.records.toArray a.targets.first = some a := by
  have hsecond := Address.addRows_eq_of_addRows? (h.targets a ha)
  rw [Hammering.attack?, hrecords, Option.map_some, hsecond,
    ofList_flips_recordsOf (h.stores.cellByte_lt a ha)]

/-! ### The attacks of a range -/

/-- A stretch is no longer than a bank has rows, so a word counts its attacks. -/
theorem length_lt_of_mem (h : img.Describes ss) {s : List Attack} (hs : s ∈ ss) :
    s.length < UInt32.size :=
  Nat.lt_of_le_of_lt (length_le_of_isChain (h.stretches.follows s hs)) (by decide)

/-- Each range of the image is that of a stretch. -/
theorem exists_rangeOf (h : img.Describes ss) {r : Range} (hr : r ∈ img.ranges) :
    ∃ p ∈ withStarts 0 ss, rangeOf p = r := by
  rw [h.ranges_eq, mem_sortOn] at hr
  exact List.mem_map.1 hr

/-- A range names hammerings from the first of its stretch on. -/
theorem toNat_first_rangeOf (h : img.Describes ss) {p : Nat × List Attack}
    (hp : p ∈ withStarts 0 ss) : (rangeOf p).first.toNat = p.1 :=
  UInt32.toNat_ofNat_of_lt' (h.start_lt p hp)

/-- A range has as many rows as its stretch has attacks. -/
theorem toNat_count_rangeOf (h : img.Describes ss) {p : Nat × List Attack}
    (hp : p ∈ withStarts 0 ss) : (rangeOf p).count.toNat = p.2.length :=
  UInt32.toNat_ofNat_of_lt' (h.length_lt_of_mem (mem_of_mem_withStarts hp))

/-- Each range stands for the attacks of its stretch. -/
theorem forall₂_attacks? (h : img.Describes ss) :
    List.Forall₂ (fun r s =>
      Range.attacks? img.distance img.hammerings.toArray img.records.toArray r = some s)
      (rangesOf ss) ss := by
  refine forall₂_withStarts ?_
  intro p hp
  have hmem := mem_of_mem_withStarts hp
  -- The slice of the hammering table that the range names belongs to the stretch.
  obtain ⟨hs, hslice, hrecords⟩ := slice?_of_forall₂ h.stores.forall₂_records?
    (slice?_of_mem_withStarts hp (h.start_lt p hp) (h.length_lt_of_mem hmem))
  rw [Range.attacks?, rangeOf, hslice, Option.bind_eq_bind, Option.bind_some, mapM_eq_some,
    List.forall₂_iff_get]
  obtain ⟨hlen, hget⟩ := List.forall₂_iff_get.1 hrecords
  refine ⟨by rw [List.length_zipIdx, hlen], ?_⟩
  intro i hi hi'
  have ha : p.2[i] ∈ ss.flatten := List.mem_flatten.2 ⟨p.2, hmem, List.getElem_mem _⟩
  have hfirst : (startOf p.2).addRows i = p.2[i].targets.first :=
    Address.addRows_eq_of_addRows?
      (addRows?_startOf (h.stretches.follows p.2 hmem) (List.getElem?_eq_getElem hi'))
  simp only [List.get_eq_getElem, List.getElem_zipIdx, Nat.zero_add, hfirst]
  exact h.attack?_eq ha (hget i _ _)

/-! ### All attacks -/

/-- The image stands for the attacks it was made of, in some order. -/
theorem attacks?_perm (h : img.Describes ss) :
    ∃ as, img.attacks? = some as ∧ as.Perm ss.flatten := by
  have hperm : img.ranges.Perm (rangesOf ss) := h.ranges_eq ▸ sortOn_perm _ _
  obtain ⟨ss', hattacks, hss'⟩ := List.perm_comp_forall₂ hperm h.forall₂_attacks?
  refine ⟨ss'.flatten, ?_, hss'.flatten⟩
  rw [attacks?, mapM_eq_some.2 hattacks, Option.map_some]

/-- The first targets of a table's attacks ascend, as all second targets are equally far away. -/
theorem pairwise_first_lt (h : img.Describes ss) (hasc : Ascending Attack.targets ss.flatten) :
    ss.flatten.Pairwise fun a b => key a.targets.first < key b.targets.first := by
  refine List.Pairwise.imp_of_mem ?_ hasc
  intro a b ha hb hab
  have hkey (t : Targets) : key t = key t.first <<< 64 + key t.second := rfl
  have hne : a.targets.first ≠ b.targets.first := by
    intro hfirst
    have hsecond : a.targets.second = b.targets.second := by
      have ha' := h.targets a ha
      rw [hfirst, h.targets b hb] at ha'
      exact (Option.some.inj ha').symm
    rw [hkey, hkey, hfirst, hsecond] at hab
    omega
  have hkeyne : key a.targets.first ≠ key b.targets.first := fun hk => hne (Keyed.eq_of_key_eq hk)
  have hlt : key b.targets.second < 1 <<< 64 := b.targets.second.packed.toNat_lt
  rw [hkey, hkey] at hab
  omega

/-- The ranges of a table ascend as they are. -/
theorem ascending_rangesOf (h : img.Describes ss)
    (hasc : Ascending Attack.targets ss.flatten) : Ascending Range.start (rangesOf ss) := by
  have hstart : (rangesOf ss).map Range.start = ss.map startOf := by
    rw [rangesOf, List.map_map, ← map_snd_withStarts 0 ss, List.map_map, map_snd_withStarts]
    rfl
  have hpair : ss.Pairwise fun s t => key (startOf s) < key (startOf t) := by
    refine (List.pairwise_flatten.1 (h.pairwise_first_lt hasc)).2.imp_of_mem ?_
    intro s t hs ht hst
    cases s with
    | nil => exact absurd rfl (h.stretches.ne_nil _ hs)
    | cons a s =>
      cases t with
      | nil => exact absurd rfl (h.stretches.ne_nil _ ht)
      | cons b t => exact hst a List.mem_cons_self b List.mem_cons_self
  have hmap : ((rangesOf ss).map Range.start).Pairwise fun a b => key a < key b := by
    rw [hstart]
    exact List.pairwise_map.2 hpair
  exact (List.pairwise_map (f := Range.start)).1 hmap

/-- The ranges of a table's image are in the order of its attacks. -/
theorem ranges_eq_of_ascending (h : img.Describes ss)
    (hasc : Ascending Attack.targets ss.flatten) : img.ranges = rangesOf ss := by
  rw [h.ranges_eq, sortOn_of_ascending (h.ascending_rangesOf hasc)]

/-- The image of a table stands for its attacks in their order. -/
theorem attacks?_of_ascending (h : img.Describes ss)
    (hasc : Ascending Attack.targets ss.flatten) : img.attacks? = some ss.flatten := by
  rw [attacks?, h.ranges_eq_of_ascending hasc, mapM_eq_some.2 h.forall₂_attacks?, Option.map_some]

/-! ### Files -/

/-- There is a range for each stretch. -/
theorem length_ranges (h : img.Describes ss) : img.ranges.length = ss.length := by
  rw [h.ranges_eq, (sortOn_perm _ _).length_eq, rangesOf, List.length_map, length_withStarts]

/-- All indices lie in their tables, and fewer than 2³² attacks give tables that can be counted. -/
theorem wellFormed (h : img.Describes ss) (hlen : ss.flatten.length < UInt32.size) :
    img.WellFormed where
  ranges_lt := by
    rw [h.length_ranges]
    exact Nat.lt_of_le_of_lt (length_le_length_flatten h.stretches.ne_nil) hlen
  hammerings_lt := by rwa [h.stores.length_hammerings]
  records_lt := h.records_lt
  range_le r hr := by
    obtain ⟨p, hp, rfl⟩ := h.exists_rangeOf hr
    rw [h.stores.length_hammerings, h.toNat_first_rangeOf hp, h.toNat_count_rangeOf hp]
    exact end_le_of_mem_withStarts hp
  hammering_le hammering hh := by
    rw [h.stores.hammerings_eq] at hh
    obtain ⟨p, hp, rfl⟩ := List.mem_map.1 hh
    have hend := end_le_of_mem_withStarts hp
    obtain ⟨hstart, hcount⟩ := h.stores.fits p hp
    rw [h.stores.records_eq, hammeringOf, UInt32.toNat_ofNat_of_lt' hstart,
      UInt32.toNat_ofNat_of_lt' hcount]
    exact hend

end Describes

/-- **Attacks survive the binary form.** An image `img` that `ofAttacks` makes of fewer than 2³²
attacks, in whatever order and with targets repeated, is what `decode` reads back from its own
`encode`, and `toTable?` of it is the table made of these attacks. If they are those of a canonical
table `t`, then `attacks?` of the image gives exactly these, in their order. -/
theorem roundtrip_ofAttacks {attacks : List Attack} (hlen : attacks.length < UInt32.size)
    {distance : Option UInt32} {img : Image} (h : ofAttacks attacks distance = .ok img) :
    decode img.encode = .ok img ∧ img.toTable? = some (Table.ofAttacks attacks) ∧
      ∀ t : Table, t.Canonical → t.attacks = attacks → img.attacks? = some t.attacks := by
  obtain ⟨ss, rfl, hss⟩ := describes_of_ofAttacks h
  refine ⟨decode_encode (hss.wellFormed hlen), ?_, ?_⟩
  · obtain ⟨as, has, hperm⟩ := hss.attacks?_perm
    rw [toTable?, has, Option.map_some, Table.ofAttacks_perm hperm]
  · intro t ht hattacks
    rw [hattacks]
    refine hss.attacks?_of_ascending ?_
    rw [← hattacks]
    exact ht

/-- A cell of some bank. -/
def bankCell (row col : UInt16) : Address := ⟨0, 0, 0, 0, row, col⟩

/-- An attack on a row of that bank and the row two after it, with one flip. -/
def rowAttack (row col : UInt16) (bit : UInt32) : Attack :=
  ⟨⟨bankCell row col, bankCell (row + 2) col⟩,
    ⟨[⟨bankCell (row + 1) col, bit, .up⟩], List.pairwise_singleton _ _⟩⟩

/-- The image of such attacks, given their ranges in any order and their records. -/
def rowImage (ranges : List Range) (records : List Record) : Image where
  distance := 2
  ranges := sortOn Range.start ranges
  hammerings := (List.range records.length).map fun i => ⟨1, .ofNat i⟩
  records := records

/-- Attacks whose ranges are not in order, with a row twice, and the attacks of a table. -/
theorem roundtrip_rowAttack :
    let scattered := [rowAttack 5 9 0, rowAttack 6 9 9, rowAttack 4 9 8, rowAttack 5 9 1]
    let img := rowImage [⟨bankCell 5 9, 2, 0⟩, ⟨bankCell 4 9, 2, 2⟩]
      [⟨bankCell 6 9, 0, 1, 0⟩, ⟨bankCell 7 9, 1, 2, 0⟩, ⟨bankCell 5 9, 1, 1, 0⟩,
        ⟨bankCell 6 9, 0, 2, 0⟩]
    let table := Table.mk [rowAttack 4 9 8, rowAttack 5 9 0, rowAttack 7 9 1]
    let img' := rowImage [⟨bankCell 4 9, 2, 0⟩, ⟨bankCell 7 9, 1, 2⟩]
      [⟨bankCell 5 9, 1, 1, 0⟩, ⟨bankCell 6 9, 0, 1, 0⟩, ⟨bankCell 8 9, 0, 2, 0⟩]
    (ofAttacks scattered none = .ok img ∧ decode img.encode = .ok img ∧
      img.toTable? = some (Table.ofAttacks scattered)) ∧
    table.Canonical ∧ ofTable table (some 2) = .ok img' ∧ img'.attacks? = some table.attacks := by
  intro scattered img table img'
  have hscattered : ofAttacks scattered none = .ok img := rfl
  have htable : ofAttacks table.attacks (some 2) = .ok img' := rfl
  have hcanonical : table.Canonical := by decide
  obtain ⟨hfile, hback, -⟩ := roundtrip_ofAttacks (by decide) hscattered
  obtain ⟨-, -, hattacks⟩ := roundtrip_ofAttacks (by decide) htable
  exact ⟨⟨hscattered, hfile, hback⟩, hcanonical, htable, hattacks table hcanonical rfl⟩

end RowFlips.Image
