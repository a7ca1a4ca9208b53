import RowFlips.Proofs.Image.Lookup
import RowFlips.Proofs.Image.StandIn

/-!
# What rows that were not hammered are told

An extrapolated lookup of a row that no attack hammered goes to one range of its bank: the last that
starts below the row, or else the first. Ranges ascend, so it is one of the two between which the
search stops. The range is no longer than a bank has rows, and none of its rows is the one asked
for. So the row that stands in is another one, hammered by an attack of the table, and the answer
is made of the flips of this attack, moved by as many rows.

## Main results

* `nearest?_eq_find?`: the range that stands in is next to where the search stops.
* `Describes.place?_eq_bind_nearest?`: lookups of rows that were not hammered go to that range.
* `Describes.extrapolatedPlace?_eq`: the place in a range of the row that stands in.
* `lookup?_extrapolated`: when such lookups are answered, and how.
-/

namespace RowFlips.Image

/-! ### The nearest range -/

/-- The range that extrapolated lookups go to: the last of the bank asked for that starts below the
row, or else the first of the bank. -/
def nearest? (img : Image) (q : Address) : Option Range :=
  let inBank := img.ranges.filter fun r => r.start.SameBank q
  (inBank.filter fun r => r.start.row < q.row).getLast?.or inBank.head?

/-- The range that lookups go to is one of the image, and in the bank asked for. -/
theorem mem_of_nearest? {img : Image} {q : Address} {r : Range} (h : img.nearest? q = some r) :
    r ∈ img.ranges ∧ r.start.SameBank q := by
  have hbank {l : List Range} (hl : l ⊆ img.ranges.filter fun r => r.start.SameBank q)
      (hr : r ∈ l) : r ∈ img.ranges ∧ r.start.SameBank q := by
    simpa using hl hr
  rcases Option.or_eq_some_iff.1 h with hr | ⟨-, hr⟩
  · exact hbank (List.filter_subset_self _) (List.mem_of_getLast? hr)
  · exact hbank (List.Subset.refl _) (List.mem_of_head? hr)

/-- There is no such range exactly if no range lies in the bank. -/
theorem nearest?_eq_none_iff {img : Image} {q : Address} :
    img.nearest? q = none ↔ ∀ r ∈ img.ranges, ¬r.start.SameBank q := by
  constructor
  · intro h
    have hhead := (Option.or_eq_none_iff.1 h).2
    simpa using List.filter_eq_nil_iff.1 (List.head?_eq_none_iff.1 hhead)
  · intro h
    have hnil : (img.ranges.filter fun r => r.start.SameBank q) = [] := by
      simpa [List.filter_eq_nil_iff] using h
    rw [nearest?, hnil]
    rfl

section Nearest

variable {img : Image} {q : Address} {front back : List Range}

/-- Of ranges in ascending order that start no later than the row asked for, the last is in its
bank as soon as any is. -/
theorem sameBank_getLast? (hsorted : front.Pairwise fun r s => r.start.rowKey ≤ s.start.rowKey)
    (hfront : ∀ r ∈ front, r.start.rowKey ≤ q.rowKey) {r s : Range} (hr : r ∈ front)
    (hs : s ∈ front.getLast?) (hbank : r.start.SameBank q) : s.start.SameBank q := by
  obtain ⟨init, rfl⟩ := List.getLast?_eq_some_iff.1 hs
  have hlast := hfront s (List.mem_append_right _ List.mem_cons_self)
  rcases List.mem_append.1 hr with hr | hr
  · have hle := (List.pairwise_append.1 hsorted).2.2 r hr s List.mem_cons_self
    exact hbank.of_rowKey_le hle hlast
  · rwa [← List.mem_singleton.1 hr]

/-- Of ranges in ascending order that start later, the first is in the bank as soon as any is. -/
theorem sameBank_head? (hsorted : back.Pairwise fun r s => r.start.rowKey ≤ s.start.rowKey)
    (hback : ∀ r ∈ back, q.rowKey < r.start.rowKey) {r s : Range} (hr : r ∈ back)
    (hs : s ∈ back.head?) (hbank : r.start.SameBank q) : s.start.SameBank q := by
  cases back with
  | nil => cases hr
  | cons t back =>
    obtain rfl : t = s := Option.some.inj hs
    have hfirst := Nat.le_of_lt (hback t List.mem_cons_self)
    rcases List.mem_cons.1 hr with rfl | hr
    · exact hbank
    · have hle := (List.pairwise_cons.1 hsorted).1 r hr
      exact (hbank.symm.of_rowKey_le hfirst hle).trans hbank

/-- No range of the bank starts in the row asked for, so those that start below it are those in
front. -/
theorem filter_below_eq_filter_front (hfront : ∀ r ∈ front, r.start.rowKey ≤ q.rowKey)
    (hback : ∀ r ∈ back, q.rowKey < r.start.rowKey)
    (hrow : ∀ r ∈ front ++ back, r.start.SameBank q → r.start.row ≠ q.row) :
    (((front ++ back).filter fun r => r.start.SameBank q).filter fun r => r.start.row < q.row) =
      front.filter fun r => r.start.SameBank q := by
  have hlow : ∀ r ∈ front.filter fun r => r.start.SameBank q, decide (r.start.row < q.row) := by
    intro r hr
    obtain ⟨hr, hbank⟩ := List.mem_filter.1 hr
    have hbank : r.start.SameBank q := by simpa using hbank
    have hle := hbank.rowKey_le_iff.1 (hfront r hr)
    have hne := hrow r (List.mem_append_left _ hr) hbank
    simpa using UInt16.lt_of_le_of_ne hle hne
  have hhigh : ∀ r ∈ back.filter fun r => r.start.SameBank q,
      ¬decide (r.start.row < q.row) := by
    intro r hr
    obtain ⟨hr, hbank⟩ := List.mem_filter.1 hr
    have hbank : r.start.SameBank q := by simpa using hbank
    have hlt := hback r hr
    rw [← Nat.not_le, hbank.rowKey_le_iff] at hlt
    simpa using fun hrow => hlt (UInt16.le_of_lt hrow)
  rw [List.filter_append, List.filter_append, List.filter_eq_self.2 hlow,
    List.filter_eq_nil_iff.2 hhigh, List.append_nil]

/-- The nearest range is the first in the bank of the two between which the search stops. -/
theorem nearest?_eq_find? (h : img.ranges = front ++ back)
    (hsorted : img.ranges.Pairwise fun r s => r.start.rowKey ≤ s.start.rowKey)
    (hfront : ∀ r ∈ front, r.start.rowKey ≤ q.rowKey)
    (hback : ∀ r ∈ back, q.rowKey < r.start.rowKey)
    (hrow : ∀ r ∈ img.ranges, r.start.SameBank q → r.start.row ≠ q.row) :
    img.nearest? q =
      (front.getLast?.toList ++ back.head?.toList).find? fun r => r.start.SameBank q := by
  rw [h] at hsorted hrow
  obtain ⟨hsfront, hsback, -⟩ := List.pairwise_append.1 hsorted
  -- On either side of the cut, the range next to it is in the bank as soon as any is.
  have hlast : (front.reverse.find? fun r => r.start.SameBank q) =
      front.getLast?.filter fun r => r.start.SameBank q := by
    rw [← List.head?_reverse]
    refine find?_eq_filter_head? ?_
    intro r hr hbank s hs
    rw [List.head?_reverse] at hs
    simpa using sameBank_getLast? hsfront hfront (List.mem_reverse.1 hr) hs (by simpa using hbank)
  have hfirst : (back.find? fun r => r.start.SameBank q) =
      back.head?.filter fun r => r.start.SameBank q := by
    refine find?_eq_filter_head? ?_
    intro r hr hbank s hs
    simpa using sameBank_head? hsback hback hr hs (by simpa using hbank)
  rw [nearest?, h, filter_below_eq_filter_front hfront hback hrow, List.getLast?_filter,
    List.head?_filter, List.find?_append, find?_toList_append, ← hlast, ← hfirst]
  cases hfind : front.reverse.find? fun r => r.start.SameBank q with
  | some r => rfl
  | none =>
    have hnone : (front.find? fun r => r.start.SameBank q) = none := by
      rw [List.find?_eq_none] at hfind ⊢
      exact fun r hr => hfind r (List.mem_reverse.2 hr)
    rw [hnone]
    rfl

/-- Without an exact answer, a lookup goes to the first in the bank of the two ranges between which
the search stops. -/
theorem placeAt?_eq_bind_find? {mode : Extrapolation} (hmode : mode ≠ .none)
    (h : img.ranges = front ++ back) (hexact : ∀ r ∈ img.ranges, exactPlace? r q = none) :
    img.placeAt? q mode front.length =
      ((front.getLast?.toList ++ back.head?.toList).find? fun r => r.start.SameBank q).bind
        (extrapolatedPlace? mode q) := by
  have hbefore : (if front.length = 0 then none else img.ranges[front.length - 1]?) =
      front.getLast? := by
    rw [h]
    cases hlast : front.getLast? with
    | none => rw [List.getLast?_eq_none_iff.1 hlast]; rfl
    | some r =>
      obtain ⟨init, rfl⟩ := List.getLast?_eq_some_iff.1 hlast
      simp
  have hafter : img.ranges[front.length]? = back.head? := by
    rw [h, List.getElem?_append_right (Nat.le_refl _), Nat.sub_self, List.head?_eq_getElem?]
  have hnone : front.getLast?.bind (exactPlace? · q) = none := by
    rw [Option.bind_eq_none_iff]
    intro r hr
    refine hexact r ?_
    rw [h]
    exact List.mem_append_left _ (List.mem_of_getLast? hr)
  simp only [placeAt?, hbefore, hafter, hnone]

end Nearest

/-! ### The image of a table -/

namespace Describes

variable {img : Image} {ss : List (List Attack)} {q : Address} {mode : Extrapolation}

/-- Every row of a range is hammered by the attack of its stretch that comes as far after the
first. -/
theorem exists_attack_of_hasRow (h : img.Describes ss) {p : Nat × List Attack}
    (hp : p ∈ withStarts 0 ss) {u : Nat} (hu : (rangeOf p).HasRow u) :
    ∃ a, p.2[u - (rangeOf p).start.row.toNat]? = some a ∧
      (rangeOf p).start.addRows? (u - (rangeOf p).start.row.toNat : Nat) =
        some a.targets.first := by
  obtain ⟨hge, hlt⟩ := hu
  rw [h.toNat_count_rangeOf hp] at hlt
  have hindex : u - (rangeOf p).start.row.toNat < p.2.length := by omega
  have hget := List.getElem?_eq_getElem hindex
  exact ⟨_, hget, addRows?_startOf (h.stretches.follows p.2 (mem_of_mem_withStarts hp)) hget⟩

/-- A range has no more rows than a bank. -/
theorem count_rangeOf_le (h : img.Describes ss) {p : Nat × List Attack}
    (hp : p ∈ withStarts 0 ss) : (rangeOf p).count.toNat ≤ UInt16.size := by
  rw [h.toNat_count_rangeOf hp]
  exact length_le_of_isChain (h.stretches.follows p.2 (mem_of_mem_withStarts hp))

/-- The first row of a range is hammered. -/
theorem exists_onRow_of_start_row_eq (h : img.Describes ss) {r : Range} (hr : r ∈ img.ranges)
    (hbank : r.start.SameBank q) (hrow : r.start.row = q.row) : ∃ a ∈ ss.flatten, OnRow q a := by
  obtain ⟨p, hp, rfl⟩ := h.exists_rangeOf hr
  have hmem := mem_of_mem_withStarts hp
  obtain ⟨a, ha, hfirst⟩ := exists_first_eq_startOf (h.stretches.ne_nil p.2 hmem)
  have hfirst : a.targets.first = (rangeOf p).start := hfirst
  refine ⟨a, List.mem_flatten.2 ⟨p.2, hmem, ha⟩, ?_⟩
  rw [OnRow, hfirst]
  exact ⟨hbank, hrow⟩

/-- Lookups of rows that were not hammered go to the nearest range. -/
theorem place?_eq_bind_nearest? (h : img.Describes ss) (hasc : Ascending Attack.targets ss.flatten)
    (hq : ¬∃ a ∈ ss.flatten, OnRow q a) (hmode : mode ≠ .none) :
    img.place? q mode = (img.nearest? q).bind (extrapolatedPlace? mode q) := by
  have hsorted : img.ranges.Pairwise fun r s => r.start.rowKey ≤ s.start.rowKey := by
    rw [h.ranges_eq_of_ascending hasc]
    exact (h.ascending_rangesOf hasc).imp fun hlt => Address.rowKey_le_of_key_le (Nat.le_of_lt hlt)
  have hexact : ∀ r ∈ img.ranges, exactPlace? r q = none := by
    intro r hr
    obtain ⟨p, hp, rfl⟩ := h.exists_rangeOf hr
    rw [Option.eq_none_iff_forall_ne_some]
    intro place hplace
    obtain ⟨i, a, ha, hrow, -⟩ := (h.exactPlace?_eq_some_iff hp).1 hplace
    refine hq ⟨a, List.mem_flatten.2 ⟨p.2, mem_of_mem_withStarts hp, ?_⟩, hrow⟩
    exact List.mem_of_getElem? ha
  have hrow : ∀ r ∈ img.ranges, r.start.SameBank q → r.start.row ≠ q.row :=
    fun r hr hbank hrow => hq (h.exists_onRow_of_start_row_eq hr hbank hrow)
  have hsplit : img.ranges = (img.ranges.takeWhile fun r => r.start.rowKey ≤ q.rowKey) ++
      img.ranges.dropWhile fun r => r.start.rowKey ≤ q.rowKey := by
    rw [List.takeWhile_append_dropWhile]
  have hfront : ∀ r ∈ img.ranges.takeWhile fun r => r.start.rowKey ≤ q.rowKey,
      r.start.rowKey ≤ q.rowKey := by
    intro r hr
    simpa using List.all_eq_true.1 List.all_takeWhile r hr
  have hback := lt_of_mem_dropWhile (n := q.rowKey) hsorted
  rw [place?, rangesUpTo, placeAt?_eq_bind_find? hmode hsplit hexact,
    nearest?_eq_find? hsplit hsorted hfront hback hrow]

/-- The place in a range of the row that stands in, if the range has it. -/
theorem extrapolatedPlace?_eq (h : img.Describes ss) {p : Nat × List Attack}
    (hp : p ∈ withStarts 0 ss) {modulus u : Nat}
    (hm : modulus? mode (rangeOf p).count = some modulus)
    (hmodulus : IsModulus mode (rangeOf p).count.toNat modulus)
    (hu : StandsIn mode (rangeOf p).start.row.toNat modulus q.row.toNat u) :
    extrapolatedPlace? mode q (rangeOf p) =
      if (rangeOf p).HasRow u then
        some ⟨p.1 + (u - (rangeOf p).start.row.toNat), q.row.toNat - u⟩
      else none := by
  have hfirst : (rangeOf p).first.toNat = p.1 := UInt32.toNat_ofNat_of_lt' (h.start_lt p hp)
  rw [extrapolatedPlace?, hm]
  simp only [Option.bind_eq_bind, Option.bind_some]
  rw [standInRow?_eq hmodulus (h.count_rangeOf_pos hp) (h.count_rangeOf_le hp) hu]
  by_cases hrow : (rangeOf p).HasRow u
  · obtain ⟨a, -, hrows⟩ := h.exists_attack_of_hasRow hp hrow
    have hu' := (Address.addRows?_eq_some_iff.1 hrows).2.2
    have hge := hrow.1
    rw [if_pos hrow, if_pos hrow, Option.bind_some, Address.addRows_eq_of_addRows? hrows, hfirst,
      Address.rowsFrom, show (a.targets.first.row.toNat : Int) = u by omega]
    rfl
  · rw [if_neg hrow, if_neg hrow, Option.bind_none]

end Describes

/-! ### Answers -/

/-- The lookup of `q` is answered from row `u` of the range: with the flip records that the
hammering of the row names, a multiple of the modulus away, and hence with the flips of the attack
on the row, moved by as many rows. -/
structure AnsweredFrom (t : Table) (img : Image) (q : Address) (r : Range) (modulus u : Nat)
    (hit : Hit) : Prop where
  records : ∃ h, img.hammerings[r.first.toNat + (u - r.start.row.toNat)]? = some h ∧
    h.records? img.records.toArray = some hit.records
  rowOffset_eq : hit.rowOffset = q.row.toNat - u
  rowOffset_ne : hit.rowOffset ≠ 0
  dvd_rowOffset : (modulus : Int) ∣ hit.rowOffset
  flips : ∃ a ∈ t.attacks, a.targets.first.SameBank q ∧ a.targets.first.row.toNat = u ∧
    a.targets.first.col = r.start.col ∧
    hit.flips.Perm
      (a.flips.toList.map fun f => { f with addr := f.addr.addRows (q.row.toNat - u) })

/-- A row of a range that stands in gives an answer, made of the flips of the attack on it. -/
theorem Describes.exists_answeredFrom {img : Image} {ss : List (List Attack)}
    (h : img.Describes ss) {t : Table} (ht : t.attacks = ss.flatten) {q : Address}
    (hq : ¬∃ a ∈ ss.flatten, OnRow q a) {p : Nat × List Attack} (hp : p ∈ withStarts 0 ss)
    (hbank : (rangeOf p).start.SameBank q) {mode : Extrapolation} {modulus u : Nat}
    (hu : StandsIn mode (rangeOf p).start.row.toNat modulus q.row.toNat u)
    (hrow : (rangeOf p).HasRow u) :
    ∃ hit, img.hitAt? ⟨p.1 + (u - (rangeOf p).start.row.toNat), q.row.toNat - u⟩ = some hit ∧
      AnsweredFrom t img q (rangeOf p) modulus u hit := by
  obtain ⟨a, ha, hrows⟩ := h.exists_attack_of_hasRow hp hrow
  obtain ⟨hsame, hcol, hu'⟩ := Address.addRows?_eq_some_iff.1 hrows
  have hge := hrow.1
  have hrowa : a.targets.first.row.toNat = u := by omega
  have hbanka : a.targets.first.SameBank q := hsame.symm.trans hbank
  have hmem : a ∈ ss.flatten :=
    List.mem_flatten.2 ⟨p.2, mem_of_mem_withStarts hp, List.mem_of_getElem? ha⟩
  have hhit := h.hitAt?_eq (getElem?_of_mem_withStarts hp ha) (q.row.toNat - u : Int)
  refine ⟨_, hhit, ?_, rfl, ?_, hu.dvd_sub, a, ht ▸ hmem, hbanka, hrowa, hcol.symm, ?_⟩
  · obtain ⟨hammering, hget, hrecords⟩ := Option.bind_eq_some_iff.1 hhit
    obtain ⟨records, hrecords, ⟨⟩⟩ := Option.bind_eq_some_iff.1 hrecords
    have hfirst : (rangeOf p).first.toNat = p.1 := UInt32.toNat_ofNat_of_lt' (h.start_lt p hp)
    rw [hfirst]
    exact ⟨hammering, hget, hrecords⟩
  · -- The row itself would be hammered.
    intro hzero
    have hzero : (q.row.toNat : Int) - u = 0 := hzero
    refine hq ⟨a, hmem, hbanka, ?_⟩
    rw [← UInt16.toNat_inj]
    omega
  · exact (flatMap_flips_recordsOf_perm (h.stores.cellByte_lt a hmem)).map _

end RowFlips.Image
