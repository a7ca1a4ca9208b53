import Mathlib.Data.List.Permutation
import RowFlips.Proofs.Image.Roundtrip

/-!
# How an image parts its tables

The ranges of an image part its hammerings between them: each range names some, and none is named
twice or left out. The hammerings part the flip records in the same way, and these even in the
order of their table. Sorting changes the order of the ranges only, so each keeps the hammerings
that it had.

A range goes on for as long as attacks follow each other. Where attacks ascend by their targets, as
those of a table do, ranges are in the order of their hammerings, and none could go on in the next.

## Main results

* `Describes.flatMap_indices_perm`: ranges part the hammerings.
* `Stores.tiles`: hammerings part the flip records.
* `Describes.exists_attack_of_lt`: which attack a hammering of a range belongs to.
* `Describes.isChain_rangesOf`: no range could go on in the next.
* `layout_ofAttacks`: the layout of an image made of any attacks.
-/

namespace RowFlips.Image

/-! ### Hammerings -/

/-- The hammerings name the flip records from index `n` up to index `m`, each those that follow the
ones of the hammering before it. -/
inductive Tiles : Nat → List Hammering → Nat → Prop
  | nil (n : Nat) : Tiles n [] n
  | cons {n m : Nat} {h : Hammering} {hs : List Hammering} (hfirst : h.first.toNat = n)
      (hrest : Tiles (n + h.count.toNat) hs m) : Tiles n (h :: hs) m

/-- Hammerings of lists that are put one after the other name all records, in order. -/
theorem tiles_withStarts {n : Nat} {ls : List (List Record)}
    (hfits : ∀ p ∈ withStarts n ls, p.1 < UInt32.size ∧ p.2.length < UInt32.size) :
    Tiles n ((withStarts n ls).map hammeringOf) (n + ls.flatten.length) := by
  induction ls generalizing n with
  | nil => exact .nil n
  | cons l ls ih =>
    obtain ⟨⟨hstart, hcount⟩, hfits⟩ := List.forall_mem_cons.1 hfits
    have hrest := ih hfits
    rw [List.flatten_cons, List.length_append, ← Nat.add_assoc]
    refine .cons (UInt32.toNat_ofNat_of_lt' hstart) ?_
    rwa [hammeringOf, UInt32.toNat_ofNat_of_lt' hcount]

/-- The hammerings of attacks part the flip records of these. -/
theorem Stores.tiles {hs : List Hammering} {rs : List Record} {as : List Attack}
    (h : Stores hs rs as) : Tiles 0 hs rs.length := by
  have htiles := tiles_withStarts h.fits
  rwa [← h.hammerings_eq, ← h.records_eq, Nat.zero_add] at htiles

/-! ### Ranges -/

/-- The indices of the hammerings that the range names. -/
def Range.indices (r : Range) : List Nat := List.range' r.first.toNat r.count.toNat

namespace Describes

variable {img : Image} {ss : List (List Attack)} {p : Nat × List Attack}

/-- No range of a stretch is without hammerings. -/
theorem count_rangeOf_pos (h : img.Describes ss) (hp : p ∈ withStarts 0 ss) :
    0 < (rangeOf p).count.toNat := by
  rw [h.toNat_count_rangeOf hp]
  exact List.length_pos_iff.2 (h.stretches.ne_nil p.2 (mem_of_mem_withStarts hp))

/-- The ranges name each hammering once. -/
theorem flatMap_indices_perm (h : img.Describes ss) :
    (img.ranges.flatMap Range.indices).Perm (List.range img.hammerings.length) := by
  have hindices : (rangesOf ss).flatMap Range.indices =
      (withStarts 0 ss).flatMap fun p => List.range' p.1 p.2.length := by
    rw [rangesOf, List.flatMap_map]
    refine List.flatMap_congr fun p hp => ?_
    rw [Range.indices, h.toNat_first_rangeOf hp, h.toNat_count_rangeOf hp]
  rw [h.stores.length_hammerings, List.range_eq_range', ← flatMap_range'_withStarts 0 ss,
    ← hindices, h.ranges_eq]
  exact (sortOn_perm _ _).flatMap_right _

/-- Each hammering of a range belongs to the attack as many rows after the start of the range. -/
theorem exists_attack_of_lt (h : img.Describes ss) {r : Range} (hr : r ∈ img.ranges) {i : Nat}
    (hi : i < r.count.toNat) : ∃ a, ss.flatten[r.first.toNat + i]? = some a ∧
      r.start.addRows? i = some a.targets.first := by
  obtain ⟨p, hp, rfl⟩ := h.exists_rangeOf hr
  rw [h.toNat_count_rangeOf hp] at hi
  have ha := List.getElem?_eq_getElem hi
  refine ⟨p.2[i], ?_, addRows?_startOf (h.stretches.follows p.2 (mem_of_mem_withStarts hp)) ha⟩
  rw [h.toNat_first_rangeOf hp, getElem?_of_mem_withStarts hp ha]

/-- A range ends within its bank. -/
theorem row_add_count_le (h : img.Describes ss) {r : Range} (hr : r ∈ img.ranges) :
    0 < r.count.toNat ∧ r.start.row.toNat + r.count.toNat ≤ UInt16.size := by
  obtain ⟨p, hp, rfl⟩ := h.exists_rangeOf hr
  have hpos := h.count_rangeOf_pos hp
  obtain ⟨a, -, hlast⟩ := h.exists_attack_of_lt hr (Nat.sub_one_lt_of_lt hpos)
  have hrow := (Address.addRows?_eq_some_iff.1 hlast).2.2
  have hlt := a.targets.first.row.toNat_lt
  refine ⟨hpos, ?_⟩
  rw [UInt16.size]
  omega

/-- Each hammering stands for its attack. -/
theorem forall₂_attack? (h : img.Describes ss) : List.Forall₂ (fun hammering a =>
    hammering.attack? img.distance img.records.toArray a.targets.first = some a)
    img.hammerings ss.flatten := by
  obtain ⟨hlen, hget⟩ := List.forall₂_iff_get.1 h.stores.forall₂_records?
  exact List.forall₂_iff_get.2
    ⟨hlen, fun i hi hi' => h.attack?_eq (List.getElem_mem hi') (hget i hi hi')⟩

/-- No range starts where the one before it could go on. -/
theorem isChain_rangesOf (h : img.Describes ss) : (rangesOf ss).IsChain fun r s =>
    ∀ a, ss.flatten[r.first.toNat + r.count.toNat - 1]? = some a →
      a.targets.first.addRows? 1 ≠ some s.start := by
  have hapart : (withStarts 0 ss).IsChain fun p q =>
      ∀ a ∈ p.2.getLast?, ∀ b ∈ q.2.head?, ¬Follows a b := by
    have hapart := h.stretches.apart
    rwa [← map_snd_withStarts 0 ss, List.isChain_map] at hapart
  rw [rangesOf, List.isChain_map]
  refine hapart.imp_of_mem_imp fun p q hp hq hapart a ha => ?_
  have hlen := h.toNat_count_rangeOf hp
  have hpos := h.count_rangeOf_pos hp
  -- The hammering before the end of the range is that of the last attack of its stretch.
  have hlast : p.2.getLast? = some a := by
    have hlt : p.2.length - 1 < p.2.length := by omega
    have hget := getElem?_of_mem_withStarts hp (List.getElem?_eq_getElem hlt)
    rw [h.toNat_first_rangeOf hp, hlen, Nat.add_sub_assoc (by omega), hget] at ha
    rw [List.getLast?_eq_getElem?, List.getElem?_eq_getElem hlt, ha]
  obtain ⟨b, s, hs⟩ := List.exists_cons_of_ne_nil
    (h.stretches.ne_nil q.2 (mem_of_mem_withStarts hq))
  have hstart : (rangeOf q).start = b.targets.first := by
    rw [rangeOf, hs]
    rfl
  rw [hstart]
  exact hapart a hlast b (by rw [hs]; rfl)

end Describes

/-- **An image parts its tables, and its ranges are as long as they can be.** Each of the attacks
`as` has a hammering, in their order, that stands for it by `attack?`. The hammerings name the flip
records one after the other, as `Tiles` says, and the `indices` of the ranges are those of the
hammerings, each once. No range `r` is empty or goes past the last row of its bank, and its
hammering `i` is that of an attack on the row `i` rows from its start. The ranges are sorted by
`key`. If `as` are the attacks of a canonical table `t`, no two ranges have the same key, they are
in the order of their hammerings as well, and no range `s` starts one row after the last row of the
range before it. -/
theorem layout_ofAttacks {as : List Attack} {distance : Option UInt32} {img : Image}
    (h : ofAttacks as distance = .ok img) :
    (List.Forall₂ (fun hammering a =>
        hammering.attack? img.distance img.records.toArray a.targets.first = some a)
      img.hammerings as) ∧
    Tiles 0 img.hammerings img.records.length ∧
    (img.ranges.flatMap Range.indices).Perm (List.range img.hammerings.length) ∧
    (∀ r ∈ img.ranges, 0 < r.count.toNat ∧ r.start.row.toNat + r.count.toNat ≤ UInt16.size ∧
      ∀ i < r.count.toNat, ∃ a, as[r.first.toNat + i]? = some a ∧
        r.start.addRows? i = some a.targets.first) ∧
    (img.ranges.Pairwise fun r s => key r.start ≤ key s.start) ∧
    ∀ t : Table, t.Canonical → t.attacks = as →
      (img.ranges.Pairwise fun r s => key r.start < key s.start ∧ r.first.toNat < s.first.toNat) ∧
      img.ranges.IsChain fun r s => ∀ a, as[r.first.toNat + r.count.toNat - 1]? = some a →
        a.targets.first.addRows? 1 ≠ some s.start := by
  obtain ⟨ss, rfl, hss⟩ := describes_of_ofAttacks h
  refine ⟨hss.forall₂_attack?, hss.stores.tiles, hss.flatMap_indices_perm, fun r hr => ?_, ?_, ?_⟩
  · obtain ⟨hpos, hle⟩ := hss.row_add_count_le hr
    exact ⟨hpos, hle, fun i hi => hss.exists_attack_of_lt hr hi⟩
  · rw [hss.ranges_eq]
    exact pairwise_sortOn _ _
  · intro t ht hattacks
    have hasc : Ascending Attack.targets ss.flatten := hattacks ▸ ht
    have hfirst : (rangesOf ss).Pairwise fun r s => r.first.toNat < s.first.toNat := by
      refine List.pairwise_map.2 ((pairwise_withStarts hss.stretches.ne_nil).imp_of_mem ?_)
      intro p q hp hq hpq
      rwa [hss.toNat_first_rangeOf hp, hss.toNat_first_rangeOf hq]
    rw [hss.ranges_eq_of_ascending hasc]
    exact ⟨(hss.ascending_rangesOf hasc).and hfirst, hss.isChain_rangesOf⟩

/-- Attacks whose ranges change places when they are sorted, and the attacks of a table. -/
theorem layout_ofAttacks_rowAttack :
    let scattered := [rowAttack 5 9 0, rowAttack 6 9 9, rowAttack 4 9 8, rowAttack 5 9 1]
    let img := rowImage [⟨bankCell 5 9, 2, 0⟩, ⟨bankCell 4 9, 2, 2⟩]
      [⟨bankCell 6 9, 0, 1, 0⟩, ⟨bankCell 7 9, 1, 2, 0⟩, ⟨bankCell 5 9, 1, 1, 0⟩,
        ⟨bankCell 6 9, 0, 2, 0⟩]
    let table := Table.mk [rowAttack 4 9 8, rowAttack 5 9 0, rowAttack 7 9 1]
    let img' := rowImage [⟨bankCell 4 9, 2, 0⟩, ⟨bankCell 7 9, 1, 2⟩]
      [⟨bankCell 5 9, 1, 1, 0⟩, ⟨bankCell 6 9, 0, 1, 0⟩, ⟨bankCell 8 9, 0, 2, 0⟩]
    (ofAttacks scattered none = .ok img ∧
      img.ranges = [⟨bankCell 4 9, 2, 2⟩, ⟨bankCell 5 9, 2, 0⟩] ∧
      Tiles 0 img.hammerings 4 ∧
      (img.ranges.flatMap Range.indices).Perm (List.range 4) ∧
      ∃ a, scattered[3]? = some a ∧ (bankCell 4 9).addRows? 1 = some a.targets.first) ∧
    table.Canonical ∧ ofTable table (some 2) = .ok img' ∧
      img'.ranges = [⟨bankCell 4 9, 2, 0⟩, ⟨bankCell 7 9, 1, 2⟩] ∧
      (rowAttack 5 9 0).targets.first.addRows? 1 ≠ some (bankCell 7 9) := by
  intro scattered img table img'
  have hscattered : ofAttacks scattered none = .ok img := rfl
  have htable : ofAttacks table.attacks (some 2) = .ok img' := rfl
  have hcanonical : table.Canonical := by decide
  have hranges : img.ranges = [⟨bankCell 4 9, 2, 2⟩, ⟨bankCell 5 9, 2, 0⟩] := by cbv
  have hranges' : img'.ranges = [⟨bankCell 4 9, 2, 0⟩, ⟨bankCell 7 9, 1, 2⟩] := by cbv
  obtain ⟨-, htiles, hperm, hrows, -⟩ := layout_ofAttacks hscattered
  obtain ⟨-, -, -, -, -, hmaximal⟩ := layout_ofAttacks htable
  obtain ⟨-, hchain⟩ := hmaximal table hcanonical rfl
  obtain ⟨-, -, hattack⟩ := hrows ⟨bankCell 4 9, 2, 2⟩ (hranges ▸ List.mem_cons_self)
  rw [hranges', List.isChain_pair] at hchain
  exact ⟨⟨hscattered, hranges, htiles, hperm, hattack 1 (by decide)⟩, hcanonical, htable, hranges',
    hchain (rowAttack 5 9 0) rfl⟩

end RowFlips.Image
