import Mathlib.Data.List.Induction
import Mathlib.Tactic.TFAE
import RowFlips.Proofs.Image.Consistent

/-!
# How far tables can be counted

A header counts the records of each table in 32 bits. Only the flip records are counted when an
image is finished. Hammerings are counted where a range starts, before the first hammering of that
range is added, and ranges are not counted at all. So 2³² attacks can make an image, and some more
if the last ones are on consecutive rows; then the header does not count them, but what is left of
their number in 32 bits.

## Main results

* `toNat_count_header`: the counts in a header are those of the tables up to multiples of 2³².
* `Describes.length_le`, `Describes.length_flatten_lt`: how many ranges and hammerings an image of
  attacks can have.
* `header_counts_tfae`: the header of an image of attacks counts its tables exactly if there are
  fewer than 2³² attacks.
* `encode_of_count_eq_zero`: an image whose header counts nothing is written as an empty one.
* `exists_ofAttacks_replicate`: an attack without flips makes an image as often as 2³² times.
-/

namespace RowFlips.Image

open Text (Bytes)

variable {img : Image} {ss : List (List Attack)} {a : Attack}

/-! ### Tables of attacks -/

/-- A header holds as much of the length of a table as 32 bits can. -/
theorem toNat_count_header (img : Image) (table : Section) :
    (img.header.count table).toNat = img.numRecords table % UInt32.size := by
  cases table <;> exact UInt32.toNat_ofNat'

namespace Describes

/-- All stretches but the last lie before a range whose start was counted. -/
theorem length_le (h : img.Describes ss) : ss.length ≤ UInt32.size := by
  rcases List.eq_nil_or_concat ss with rfl | ⟨before, s, rfl⟩
  · exact Nat.zero_le _
  · rw [List.concat_eq_append] at h ⊢
    have hstart := (forall_start_append.1 h.start_lt).2
    have hbefore := length_le_length_flatten fun t ht =>
      h.stretches.ne_nil t (List.mem_append_left _ ht)
    rw [List.length_append, List.length_singleton]
    omega

/-- The hammerings behind the last that was counted belong to one stretch, which is no longer than
a bank has rows. -/
theorem length_flatten_lt (h : img.Describes ss) :
    ss.flatten.length < UInt32.size + UInt16.size := by
  rcases List.eq_nil_or_concat ss with rfl | ⟨before, s, rfl⟩
  · decide
  · rw [List.concat_eq_append] at h ⊢
    have hstart := (forall_start_append.1 h.start_lt).2
    have hlast := length_le_of_isChain (h.stretches.follows s (by simp))
    rw [List.flatten_append, List.length_append, List.flatten_singleton]
    omega

end Describes

/-- **Which images have the right counts.** An image `img` made of the attacks `as` has by
`numRecords` a hammering for each of them, at most 2³² ranges, fewer than 2³² + 2¹⁶ hammerings and
fewer than 2³² flip records. These are the same: there are fewer than 2³² attacks; the records of
each `table` can be counted in 32 bits; and the `header` of the image counts those of each `table`
right. -/
theorem header_counts_tfae {as : List Attack} {distance : Option UInt32}
    (h : ofAttacks as distance = .ok img) :
    img.numRecords .hammering = as.length ∧
    img.numRecords .range ≤ UInt32.size ∧
    img.numRecords .hammering < UInt32.size + UInt16.size ∧
    img.numRecords .flip < UInt32.size ∧
    List.TFAE [as.length < UInt32.size, ∀ table, img.numRecords table < UInt32.size,
      ∀ table, (img.header.count table).toNat = img.numRecords table] := by
  obtain ⟨ss, rfl, hss⟩ := describes_of_ofAttacks h
  have hranges : img.numRecords .range = ss.length := hss.length_ranges
  have hhammerings : img.numRecords .hammering = ss.flatten.length := hss.stores.length_hammerings
  have hle := length_le_length_flatten hss.stretches.ne_nil
  refine ⟨hhammerings, hranges ▸ hss.length_le, hhammerings ▸ hss.length_flatten_lt,
    hss.records_lt, ?_⟩
  tfae_have 1 → 2 := by
    intro hlength table
    cases table with
    | range => omega
    | hammering => omega
    | flip => exact hss.records_lt
  tfae_have 2 → 3 := by
    intro hlt table
    rw [toNat_count_header, Nat.mod_eq_of_lt (hlt table)]
  tfae_have 3 → 1 := by
    intro hcount
    rw [← hhammerings, ← hcount]
    exact (img.header.count .hammering).toNat_lt
  tfae_finish

/-- Two attacks on consecutive rows and one elsewhere. -/
theorem header_counts_tfae_rowAttack :
    let attacks := [rowAttack 5 9 0, rowAttack 6 9 9, rowAttack 4 9 8]
    let img := rowImage [⟨bankCell 5 9, 2, 0⟩, ⟨bankCell 4 9, 1, 2⟩]
      [⟨bankCell 6 9, 0, 1, 0⟩, ⟨bankCell 7 9, 1, 2, 0⟩, ⟨bankCell 5 9, 1, 1, 0⟩]
    ofAttacks attacks none = .ok img ∧ img.numRecords .hammering = 3 ∧
      (∀ table, img.numRecords table < UInt32.size) ∧
      ∀ table, (img.header.count table).toNat = img.numRecords table := by
  intro attacks img
  have himg : ofAttacks attacks none = .ok img := rfl
  obtain ⟨hhammerings, -, -, -, hcounts⟩ := header_counts_tfae himg
  have hlength : attacks.length < UInt32.size := by decide
  exact ⟨himg, hhammerings, (hcounts.out 0 1).1 hlength, (hcounts.out 0 2).1 hlength⟩

/-! ### Images that the header says are empty -/

/-- What was put behind bytes is lost if these are all that is kept. -/
theorem resize_resize_append (size : Nat) (b c : Bytes) :
    resize size (resize size b ++ c) = resize size b := by
  have hlength := length_resize size b
  rw [resize, List.take_left' hlength, List.length_append, hlength,
    Nat.sub_eq_zero_of_le (Nat.le_add_right _ _), List.replicate_zero, List.append_nil]

/-- If the header counts nothing, all tables start where the file ends. -/
theorem encode_of_header_eq (h : img.header = Header.layout img.distance 0 0 0) :
    img.encode = resize 128 (Header.layout img.distance 0 0 0).encode := by
  have hoffset (table : Section) : (img.header.offset table).toNat = 128 := by
    rw [h]
    cases table with
    | range => exact Header.toNat_rangeOffset ..
    | hammering => exact Header.toNat_hammeringOffset ..
    | flip => exact Header.toNat_flipOffset ..
  have hsize : img.encodedSize = 128 := by
    rw [encodedSize, h]
    exact Header.toNat_size ..
  simp only [encode, hsize, List.foldl_cons, List.foldl_nil, appendTable, hoffset,
    resize_resize_append]
  rw [h]

/-- An image whose header gives every table 0 records is written like one that has none. -/
theorem encode_of_count_eq_zero (h : ∀ table, img.header.count table = 0) :
    img.encode = encode ⟨img.distance, [], [], []⟩ := by
  have hheader : img.header = Header.layout img.distance 0 0 0 := by
    have hranges : UInt32.ofNat img.ranges.length = 0 := h .range
    have hhammerings : UInt32.ofNat img.hammerings.length = 0 := h .hammering
    have hrecords : UInt32.ofNat img.records.length = 0 := h .flip
    rw [header, hranges, hhammerings, hrecords]
  have hempty : header ⟨img.distance, [], [], []⟩ = Header.layout img.distance 0 0 0 := rfl
  rw [encode_of_header_eq hheader, encode_of_header_eq hempty]

/-! ### One attack again and again -/

/-- No attack is one row further than itself. -/
theorem not_follows_self (a : Attack) : ¬Follows a a := by
  intro h
  have hrow := (Address.addRows?_eq_some_iff.1 h).2.2
  omega

/-- Attacks that do not follow each other are a stretch each. -/
theorem Stretches.length_eq_length_flatten (h : Stretches ss)
    (hno : ∀ a ∈ ss.flatten, ∀ b ∈ ss.flatten, ¬Follows a b) : ss.length = ss.flatten.length := by
  have hone : ∀ s ∈ ss, s.length = 1 := by
    intro s hs
    have hmem : ∀ a ∈ s, a ∈ ss.flatten := fun a ha => List.mem_flatten.2 ⟨s, hs, ha⟩
    match s, h.ne_nil s hs, h.follows s hs, hmem with
    | [_], _, _, _ => rfl
    | a :: b :: _, _, hchain, hmem =>
      exact absurd (List.isChain_cons_cons.1 hchain).1
        (hno a (hmem a (by simp)) b (hmem b (by simp)))
  rw [List.length_flatten, List.map_congr_left hone, List.map_const', List.sum_replicate_nat,
    Nat.mul_one]

/-- An attack without flips makes an image as often as 2³² times, with a range each time. -/
theorem exists_ofAttacks_replicate (ha : a.Fits a.targets.distance) (hflips : a.flips = .empty)
    {n : Nat} (hn : n + 1 ≤ UInt32.size) :
    ∃ img, ofAttacks (List.replicate (n + 1) a) none = .ok img ∧
      img.numRecords .range = n + 1 ∧ img.numRecords .hammering = n + 1 ∧
      img.numRecords .flip = 0 := by
  have hbytes : bytesOf (List.replicate (n + 1) a) = [] := by
    refine List.flatMap_eq_nil_iff.2 fun b hb => ?_
    rw [List.eq_of_mem_replicate hb, hflips]
    rfl
  obtain ⟨img, himg⟩ : ∃ img, ofAttacks (List.replicate (n + 1) a) none = .ok img := by
    refine exists_ofAttacks_of_length_le ?_ ?_ ?_
    · rwa [← List.replicate_succ, List.length_replicate]
    · rw [← List.replicate_succ, hbytes]
      decide
    · intro b hb
      rw [← List.replicate_succ] at hb
      rw [List.eq_of_mem_replicate hb]
      exact ha
  obtain ⟨ss, hflatten, hss⟩ := describes_of_ofAttacks himg
  have hlength : ss.flatten.length = n + 1 := by rw [hflatten, List.length_replicate]
  have hno : ∀ b ∈ ss.flatten, ∀ c ∈ ss.flatten, ¬Follows b c := by
    intro b hb c hc
    rw [hflatten] at hb hc
    rw [List.eq_of_mem_replicate hb, List.eq_of_mem_replicate hc]
    exact not_follows_self a
  refine ⟨img, himg, ?_, ?_, ?_⟩
  · rw [← hlength, ← hss.stretches.length_eq_length_flatten hno]
    exact hss.length_ranges
  · rw [← hlength]
    exact hss.stores.length_hammerings
  · have hrecords : img.numRecords .flip = (bytesOf ss.flatten).length := hss.length_records
    rw [hrecords, hflatten, hbytes, List.length_nil]

/-- **2³² attacks are not refused.** An attack on one row, without flips, taken in 2³² times makes
an image with 2³² ranges and as many hammerings. Its header says that there are none, and the file
that is written is that of an image without attacks. -/
theorem not_refused_repeatedRow :
    let a : Attack := ⟨.single (bankCell 5 9), .empty⟩
    ∃ img, ofAttacks (List.replicate UInt32.size a) none = .ok img ∧
      img.numRecords .range = UInt32.size ∧ img.numRecords .hammering = UInt32.size ∧
      (∀ table, img.header.count table = 0) ∧
      ∃ distance, decode img.encode = .ok ⟨distance, [], [], []⟩ := by
  intro a
  have hfits : a.Fits a.targets.distance :=
    ⟨⟨by decide, ⟨rfl, rfl, rfl, rfl⟩, rfl, by decide⟩, fun f hf => absurd hf List.not_mem_nil⟩
  obtain ⟨n, hn⟩ : ∃ n, UInt32.size = n + 1 := Nat.exists_eq_add_one.2 (by decide)
  obtain ⟨img, himg, hranges, hhammerings, hrecords⟩ :=
    exists_ofAttacks_replicate hfits rfl (Nat.le_of_eq hn.symm)
  rw [← hn] at himg hranges hhammerings
  have hcounts (table : Section) : img.header.count table = 0 := by
    rw [← UInt32.toNat_inj, toNat_count_header]
    cases table with
    | range => rw [hranges]; rfl
    | hammering => rw [hhammerings]; rfl
    | flip => rw [hrecords]; rfl
  have hpos : 0 < UInt32.size := by decide
  have hempty : WellFormed ⟨img.distance, [], [], []⟩ :=
    ⟨hpos, hpos, hpos, List.forall_mem_nil _, List.forall_mem_nil _⟩
  refine ⟨img, himg, hranges, hhammerings, hcounts, img.distance, ?_⟩
  rw [encode_of_count_eq_zero hcounts, decode_encode hempty]

end RowFlips.Image
