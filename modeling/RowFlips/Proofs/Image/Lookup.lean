import Mathlib.Data.List.MinMax
import RowFlips.Image.Lookup
import RowFlips.Proofs.Image.Partition

/-!
# Which rows a lookup knows

A lookup looks into one range: the last that starts no later than the row asked for. In the image
of a table this is the right one. All ranges up to that of an attack start no later than its row,
and those behind start later, or else in the same row at a greater column. So if the row was
hammered, the range that is looked into holds the attack of the greatest column on it.

A row that stands in for another is one of its range, hence hammered itself. An answer from the
row asked for, without an offset, therefore always tells that this row was hammered.

## Main results

* `Describes.exactPlace?_eq_some_iff`: a range has exactly the rows of its attacks.
* `Describes.rangesUpTo_eq`: the ranges that start no later than a row go up to that of an attack.
* `standInRow?_lt`: rows that stand in for others are rows of their range.
* `Describes.onRow_of_place?`: a place without an offset is one of the row asked for.
* `lookup?_exact`: which rows are answered from themselves, and how.
-/

namespace RowFlips.Image

/-- The first row that the attack hammers is that of `q`, whatever the columns. -/
def OnRow (q : Address) (a : Attack) : Prop :=
  a.targets.first.SameBank q ∧ a.targets.first.row = q.row

instance (q : Address) (a : Attack) : Decidable (OnRow q a) := inferInstanceAs (Decidable (_ ∧ _))

/-- Attacks on one row share its key. -/
theorem onRow_iff_rowKey {q : Address} {a : Attack} :
    OnRow q a ↔ a.targets.first.rowKey = q.rowKey :=
  Address.rowKey_eq_iff.symm

/-- Of the attacks on a row, one has the greatest column. -/
theorem exists_greatest {q : Address} {as : List Attack} (h : ∃ a ∈ as, OnRow q a) :
    ∃ a ∈ as, OnRow q a ∧
      ∀ b ∈ as, OnRow q b → b.targets.first.col ≤ a.targets.first.col := by
  obtain ⟨a, ha, hrow⟩ := h
  have hmem {b : Attack} : b ∈ as.filter (OnRow q ·) ↔ b ∈ as ∧ OnRow q b := by
    rw [List.mem_filter, decide_eq_true_eq]
  have hne : as.filter (OnRow q ·) ≠ [] := List.ne_nil_of_mem (hmem.2 ⟨ha, hrow⟩)
  obtain ⟨b, hb⟩ := Option.ne_none_iff_exists'.1
    (mt (List.argmax_eq_none (f := fun b : Attack => b.targets.first.col.toNat)).1 hne)
  obtain ⟨hbmem, hbrow⟩ := hmem.1 (List.argmax_mem hb)
  refine ⟨b, hbmem, hbrow, fun c hc hcrow => UInt16.le_iff_toNat_le.2 ?_⟩
  exact List.le_of_mem_argmax (f := fun b : Attack => b.targets.first.col.toNat)
    (hmem.2 ⟨hc, hcrow⟩) hb

/-! ### Moduli -/

/-- Doubling stops as soon as the number is above `x`, so half of it is not. -/
theorem doubleAbove?_half_le {x p r : UInt32} {steps : Nat} (h : doubleAbove? x steps p = some r)
    (hp : p.toNat / 2 ≤ x.toNat) : r.toNat / 2 ≤ x.toNat := by
  induction steps generalizing p with
  | zero => cases h
  | succ steps ih =>
    rw [doubleAbove?] at h
    split at h
    · rename_i hle
      refine ih h ?_
      have hle := UInt32.le_iff_toNat_le.1 hle
      have hshift : (p <<< 1).toNat = p.toNat <<< 1 % 2 ^ 32 := UInt32.toNat_shiftLeft p 1
      rw [hshift]
      omega
    · cases h
      exact hp

/-- So half of the least power above `x` is not above `x`. -/
theorem powerAbove?_half_le {x r : UInt32} (h : powerAbove? x = some r) :
    r.toNat / 2 ≤ x.toNat :=
  doubleAbove?_half_le h (Nat.zero_le _)

/-- A row that stands in for another is a row of its range. -/
theorem standInRow?_lt {mode : Extrapolation} {r : Range} {q : Address} {modulus d : Nat}
    (hm : modulus? mode r.count = some modulus) (hd : standInRow? mode r q modulus = some d) :
    d < r.count.toNat := by
  have hne : modulus ≠ 0 := by
    rintro rfl
    cases hd
  -- Remainders are below the modulus, which is at most the number of rows in two of the modes.
  have hmod : (q.rowsFrom r.start % (modulus : Int)).toNat < modulus := by
    have := Int.emod_lt_of_pos (q.rowsFrom r.start) (by omega : (0 : Int) < modulus)
    have := Int.emod_nonneg (q.rowsFrom r.start) (by omega : (modulus : Int) ≠ 0)
    omega
  cases mode with
  | none =>
    cases hm
    exact absurd rfl hne
  | perBank =>
    cases hm
    simp only [standInRow?, if_neg hne] at hd
    cases hd
    exact hmod
  | perBankTrunc =>
    obtain ⟨p, hp, rfl⟩ := Option.map_eq_some_iff.1 hm
    simp only [standInRow?, if_neg hne] at hd
    cases hd
    exact Nat.lt_of_lt_of_le hmod (powerAbove?_half_le hp)
  | perBankFit =>
    simp only [standInRow?, if_neg hne, fittedRow?] at hd
    split at hd
    · cases hd
    · rename_i hwindow
      cases hd
      omega

/-! ### Places -/

/-- Ranges start where their stretches do. -/
theorem exists_startOf {ss : List (List Attack)} {n : Nat} {r : Range}
    (h : r ∈ (withStarts n ss).map rangeOf) : ∃ s ∈ ss, r.start = startOf s := by
  obtain ⟨p, hp, rfl⟩ := List.mem_map.1 h
  exact ⟨p.2, map_snd_withStarts n ss ▸ List.mem_map_of_mem hp, rfl⟩

/-- A stretch starts with one of its attacks. -/
theorem exists_first_eq_startOf {s : List Attack} (h : s ≠ []) :
    ∃ a ∈ s, a.targets.first = startOf s := by
  cases s with
  | nil => exact absurd rfl h
  | cons a s => exact ⟨a, List.mem_cons_self, rfl⟩

/-- If the first ranges start no later than the row asked for and the next one later, the search
stops between them. -/
theorem rangesUpTo_eq_length {img : Image} {q : Address} {before after : List Range}
    (h : img.ranges = before ++ after) (hbefore : ∀ r ∈ before, r.start.rowKey ≤ q.rowKey)
    (hafter : ∀ r ∈ after, q.rowKey < r.start.rowKey) : img.rangesUpTo q = before.length := by
  have hstop : after.takeWhile (fun r => r.start.rowKey ≤ q.rowKey) = [] := by
    cases after with
    | nil => rfl
    | cons r after =>
      have := hafter r List.mem_cons_self
      exact List.takeWhile_cons_of_neg (by simpa using this)
  rw [rangesUpTo, h, List.takeWhile_append_of_pos (by simpa using hbefore), hstop,
    List.append_nil]

/-- The range before the cut is one of the image. -/
theorem mem_ranges_of_before {img : Image} {cut : Nat} {r : Range}
    (h : (if cut = 0 then none else img.ranges[cut - 1]?) = some r) : r ∈ img.ranges := by
  split at h
  · cases h
  · exact List.mem_of_getElem? h

/-- The range that a lookup goes to when the first `cut` ranges are taken as those that start no
later than the row asked for: the first in its bank of the last of them and the next one. -/
def consulted? (img : Image) (q : Address) (cut : Nat) : Option Range :=
  ((if cut = 0 then none else img.ranges[cut - 1]?).toList ++ img.ranges[cut]?.toList).find?
    fun r => r.start.SameBank q

/-- The range consulted is one of the image, in the bank asked for. -/
theorem mem_ranges_of_consulted? {img : Image} {q : Address} {cut : Nat} {r : Range}
    (h : img.consulted? q cut = some r) : r ∈ img.ranges ∧ r.start.SameBank q := by
  refine ⟨?_, by simpa using List.find?_some h⟩
  rcases List.mem_append.1 (List.mem_of_find?_eq_some h) with hr | hr
  · exact mem_ranges_of_before (Option.mem_toList.1 hr)
  · exact List.mem_of_getElem? (Option.mem_toList.1 hr)

/-- A place comes from a range of the image: exactly, or in the bank asked for by a row that
stands in. -/
theorem exists_range_of_placeAt? {img : Image} {q : Address} {mode : Extrapolation} {cut : Nat}
    {place : Place} (h : img.placeAt? q mode cut = some place) :
    ∃ r ∈ img.ranges, exactPlace? r q = some place ∨
      mode ≠ .none ∧ r.start.SameBank q ∧ extrapolatedPlace? mode q r = some place := by
  cases hexact : (if cut = 0 then none else img.ranges[cut - 1]?).bind (exactPlace? · q) with
  | some found =>
    simp only [placeAt?, hexact] at h
    obtain ⟨r, hr, hplace⟩ := Option.bind_eq_some_iff.1 hexact
    exact ⟨r, mem_ranges_of_before hr, Or.inl (hplace.trans h)⟩
  | none =>
    simp only [placeAt?, hexact] at h
    have hmode : mode ≠ .none := by
      rintro rfl
      cases h
    have h : (img.consulted? q cut).bind (extrapolatedPlace? mode q) = some place := by
      cases mode with
      | none => exact absurd rfl hmode
      | _ => exact h
    obtain ⟨r, hfind, hplace⟩ := Option.bind_eq_some_iff.1 h
    obtain ⟨hr, hbank⟩ := mem_ranges_of_consulted? hfind
    exact ⟨r, hr, Or.inr ⟨hmode, hbank, hplace⟩⟩

namespace Describes

variable {img : Image} {ss : List (List Attack)} {q : Address}

/-- A range has exactly the rows of its attacks. -/
theorem exactPlace?_eq_some_iff (h : img.Describes ss) {p : Nat × List Attack}
    (hp : p ∈ withStarts 0 ss) {place : Place} :
    exactPlace? (rangeOf p) q = some place ↔
      ∃ i a, p.2[i]? = some a ∧ OnRow q a ∧ place = ⟨p.1 + i, 0⟩ := by
  have hmem := mem_of_mem_withStarts hp
  have hfirst := h.toNat_first_rangeOf hp
  have hcount := h.toNat_count_rangeOf hp
  have hrow {i : Nat} {a : Attack} (ha : p.2[i]? = some a) :=
    Address.addRows?_eq_some_iff.1 (addRows?_startOf (h.stretches.follows p.2 hmem) ha)
  have hstart : (rangeOf p).start = startOf p.2 := rfl
  simp only [exactPlace?, hfirst, hcount, hstart, Address.rowsFrom]
  constructor
  · intro hplace
    split at hplace
    · rename_i hcond
      obtain ⟨hbank, hle, hlt⟩ := hcond
      obtain ⟨i, hi⟩ := Int.eq_ofNat_of_zero_le hle
      rw [hi] at hlt hplace
      have ha := List.getElem?_eq_getElem (Int.ofNat_lt.1 hlt)
      obtain ⟨hbank', -, hrow'⟩ := hrow ha
      refine ⟨i, _, ha, ⟨hbank'.symm.trans hbank, ?_⟩, (Option.some.inj hplace).symm⟩
      rw [← UInt16.toNat_inj]
      omega
    · cases hplace
  · rintro ⟨i, a, ha, ⟨hbank, hrowq⟩, rfl⟩
    obtain ⟨hbank', -, hrow'⟩ := hrow ha
    obtain ⟨hi, -⟩ := List.getElem?_eq_some_iff.1 ha
    rw [hrowq] at hrow'
    have hd : (q.row.toNat : Int) - (startOf p.2).row.toNat = i := by omega
    rw [hd, if_pos ⟨hbank'.trans hbank, by omega, by omega⟩]
    rfl

/-- A hammering answers with the flip records of its attack. -/
theorem hitAt?_eq (h : img.Describes ss) {i : Nat} {a : Attack} (ha : ss.flatten[i]? = some a)
    (rowOffset : Int) : img.hitAt? ⟨i, rowOffset⟩ = some ⟨recordsOf a, rowOffset⟩ := by
  obtain ⟨hi, rfl⟩ := List.getElem?_eq_some_iff.1 ha
  obtain ⟨hlen, hget⟩ := List.forall₂_iff_get.1 h.stores.forall₂_records?
  have hi' : i < img.hammerings.length := by omega
  have hrecords := hget i hi' hi
  rw [hitAt?, List.getElem?_eq_getElem hi']
  simp only [List.get_eq_getElem] at hrecords
  simp only [Option.bind_eq_bind, Option.bind_some, hrecords]
  rfl

/-- A place without an offset is one of the row asked for, and so is every place that is not
extrapolated. -/
theorem onRow_of_place? (h : img.Describes ss) {mode : Extrapolation} {place : Place}
    (hplace : img.place? q mode = some place) (hexact : mode = .none ∨ place.rowOffset = 0) :
    ∃ a ∈ ss.flatten, OnRow q a := by
  obtain ⟨r, hr, hplace⟩ := exists_range_of_placeAt? hplace
  obtain ⟨p, hp, rfl⟩ := h.exists_rangeOf hr
  have hmem := mem_of_mem_withStarts hp
  rcases hplace with hplace | ⟨hmode, hbank, hplace⟩
  · obtain ⟨i, a, ha, hrow, -⟩ := (h.exactPlace?_eq_some_iff hp).1 hplace
    exact ⟨a, List.mem_flatten.2 ⟨p.2, hmem, List.mem_of_getElem? ha⟩, hrow⟩
  · obtain ⟨modulus, hm, hplace⟩ := Option.bind_eq_some_iff.1 hplace
    obtain ⟨d, hd, hplace⟩ := Option.bind_eq_some_iff.1 hplace
    cases hplace
    have hlt := standInRow?_lt hm hd
    rw [h.toNat_count_rangeOf hp] at hlt
    have hrows := addRows?_startOf (h.stretches.follows p.2 hmem) (List.getElem?_eq_getElem hlt)
    have hoffset := hexact.resolve_left hmode
    have hstart : (rangeOf p).start = startOf p.2 := rfl
    simp only [hstart, Address.addRows_eq_of_addRows? hrows, Address.rowsFrom] at hoffset
    refine ⟨p.2[d], List.mem_flatten.2 ⟨p.2, hmem, List.getElem_mem _⟩, ?_, ?_⟩
    · exact (Address.addRows?_eq_some_iff.1 hrows).1.symm.trans hbank
    · rw [← UInt16.toNat_inj]
      omega

variable {before after : List (List Attack)} {s : List Attack} {a : Attack}

/-- The ranges up to that of an attack start no later than its row. -/
theorem rowKey_start_le (h : img.Describes (before ++ s :: after))
    (hasc : Ascending Attack.targets (before ++ s :: after).flatten) (has : a ∈ s)
    (hrow : OnRow q a) : ∀ r ∈ rangesOf (before ++ [s]), r.start.rowKey ≤ q.rowKey := by
  intro r hr
  obtain ⟨t, ht, hstart⟩ := exists_startOf hr
  rw [hstart, ← onRow_iff_rowKey.1 hrow]
  rcases List.mem_append.1 ht with ht | ht
  · have hlt := h.pairwise_first_lt hasc
    rw [List.flatten_append, List.flatten_cons, List.pairwise_append] at hlt
    obtain ⟨b, hb, hfirst⟩ := exists_first_eq_startOf (h.stretches.ne_nil t
      (List.mem_append_left _ ht))
    rw [← hfirst]
    refine Address.rowKey_le_of_key_le (Nat.le_of_lt ?_)
    exact hlt.2.2 b (List.mem_flatten.2 ⟨t, ht, hb⟩) a (List.mem_append_left _ has)
  · obtain ⟨i, hi⟩ := List.mem_iff_getElem?.1 has
    have hs : s ∈ before ++ s :: after := List.mem_append_right _ List.mem_cons_self
    rw [List.mem_singleton.1 ht,
      Address.rowKey_of_addRows? (addRows?_startOf (h.stretches.follows s hs) hi)]
    exact Nat.le_add_right _ _

/-- The ranges behind that of the attack of the greatest column on a row start later. -/
theorem lt_rowKey_start (h : img.Describes (before ++ s :: after))
    (hasc : Ascending Attack.targets (before ++ s :: after).flatten) (has : a ∈ s)
    (hrow : OnRow q a)
    (hgreatest : ∀ b ∈ after.flatten, OnRow q b → b.targets.first.col ≤ a.targets.first.col)
    {n : Nat} : ∀ r ∈ (withStarts n after).map rangeOf, q.rowKey < r.start.rowKey := by
  intro r hr
  have hlt := h.pairwise_first_lt hasc
  rw [List.flatten_append, List.flatten_cons, List.pairwise_append] at hlt
  obtain ⟨t, ht, hstart⟩ := exists_startOf hr
  obtain ⟨b, hb, hfirst⟩ := exists_first_eq_startOf (h.stretches.ne_nil t
    (List.mem_append_right _ (List.mem_cons_of_mem _ ht)))
  have hbafter : b ∈ after.flatten := List.mem_flatten.2 ⟨t, ht, hb⟩
  have hkey := (List.pairwise_append.1 hlt.2.1).2.2 a has b hbafter
  have hle := Address.rowKey_le_of_key_le (Nat.le_of_lt hkey)
  rw [onRow_iff_rowKey.1 hrow] at hle
  rw [hstart, ← hfirst]
  refine Nat.lt_of_le_of_ne hle ?_
  intro hsame
  -- On the same row the order is that of the columns.
  have hcol := UInt16.le_iff_toNat_le.1 (hgreatest b hbafter (onRow_iff_rowKey.2 hsame.symm))
  rw [Address.key_eq_rowKey_add, Address.key_eq_rowKey_add, onRow_iff_rowKey.1 hrow,
    ← hsame] at hkey
  omega

/-- For ascending attacks, the ranges of stretches put behind others follow those of the others. -/
theorem ranges_eq_append (h : img.Describes (before ++ s :: after))
    (hasc : Ascending Attack.targets (before ++ s :: after).flatten) :
    img.ranges = rangesOf (before ++ [s]) ++
      (withStarts (before ++ [s]).flatten.length after).map rangeOf := by
  rw [h.ranges_eq_of_ascending hasc, ← rangesOf_append, List.append_assoc]
  rfl

/-- The ranges that start no later than a row go up to that of the attack of the greatest column
on it. -/
theorem rangesUpTo_eq (h : img.Describes (before ++ s :: after))
    (hasc : Ascending Attack.targets (before ++ s :: after).flatten) (has : a ∈ s)
    (hrow : OnRow q a)
    (hgreatest : ∀ b ∈ after.flatten, OnRow q b → b.targets.first.col ≤ a.targets.first.col) :
    img.rangesUpTo q = before.length + 1 := by
  rw [rangesUpTo_eq_length (h.ranges_eq_append hasc) (h.rowKey_start_le hasc has hrow)
    (h.lt_rowKey_start hasc has hrow hgreatest), rangesOf, List.length_map, length_withStarts,
    List.length_append]
  rfl

/-- The range of a stretch stands where the stretch does. -/
theorem getElem?_ranges (h : img.Describes (before ++ s :: after))
    (hasc : Ascending Attack.targets (before ++ s :: after).flatten) :
    img.ranges[before.length]? = some (rangeOf (before.flatten.length, s)) := by
  have hlen : (rangesOf before).length = before.length := by
    rw [rangesOf, List.length_map, length_withStarts]
  rw [h.ranges_eq_append hasc, rangesOf_append, List.append_assoc, ← hlen,
    List.getElem?_append_right (Nat.le_refl _), Nat.sub_self]
  rfl

/-- Of the attacks on a row, that of the greatest column is in the last range that starts no later
than the row. -/
theorem place?_of_greatest (h : img.Describes ss) (hasc : Ascending Attack.targets ss.flatten)
    (ha : a ∈ ss.flatten) (hrow : OnRow q a)
    (hgreatest : ∀ b ∈ ss.flatten, OnRow q b → b.targets.first.col ≤ a.targets.first.col)
    (mode : Extrapolation) :
    ∃ i, ss.flatten[i]? = some a ∧ img.place? q mode = some ⟨i, 0⟩ := by
  obtain ⟨s, hs, has⟩ := List.mem_flatten.1 ha
  obtain ⟨before, after, rfl⟩ := List.append_of_mem hs
  obtain ⟨i, hi⟩ := List.mem_iff_getElem?.1 has
  have hp : (before.flatten.length, s) ∈ withStarts 0 (before ++ s :: after) :=
    mem_withStarts.2 ⟨before, after, rfl, (Nat.zero_add _).symm⟩
  have hcut : img.rangesUpTo q = before.length + 1 := by
    refine h.rangesUpTo_eq hasc has hrow fun b hb => hgreatest b ?_
    rw [List.flatten_append, List.flatten_cons]
    exact List.mem_append_right _ (List.mem_append_right _ hb)
  have hexact : exactPlace? (rangeOf (before.flatten.length, s)) q =
      some ⟨before.flatten.length + i, 0⟩ :=
    (h.exactPlace?_eq_some_iff hp).2 ⟨i, a, hi, hrow, rfl⟩
  refine ⟨before.flatten.length + i, getElem?_of_mem_withStarts hp hi, ?_⟩
  rw [place?, hcut]
  simp only [placeAt?, Nat.add_one_ne_zero, if_false, Nat.add_sub_cancel, h.getElem?_ranges hasc,
    Option.bind_some, hexact]

end Describes

end RowFlips.Image
