import RowFlips.Proofs.Image.Lookup
import RowFlips.Proofs.Image.Lossless
import RowFlips.Proofs.Image.StandIn

/-!
# Lookups stay inside the tables

An accepted file can hold any ranges whose hammerings exist: out of order, without hammerings, or
with more of them than a bank has rows. Here lookups are made in it with every step checked that
could go wrong (`Checked.lookupAt`): an index may lie outside its table, a remainder may be by zero,
and what is computed in a word may not fit it.

No such step goes wrong. A row that stands in for another is one of its range, wherever the search
stopped, and so its hammering is one of those that the decoder has checked. Moduli are at most the
least power of two above the number of hammerings, and three times that fits a word if there are
fewer than 2³⁰ of them.

## Main results

* `WellFormed.exists_attacks?`: a well-formed image stands for some attacks.
* `WellFormed.lt_of_placeAt?`: places are those of hammerings of the image.
* `Checked.lookupAt_eq`: checked lookups never fail, and answer what lookups do.
* `inside_of_decode`: whatever is asked of an accepted file stays inside its tables.
-/

namespace RowFlips.Image

open Text (Bytes)

variable {img : Image}

/-! ### Hammerings and attacks -/

namespace WellFormed

/-- The flip records that a hammering names exist. -/
theorem exists_records? (h : img.WellFormed) {hammering : Hammering}
    (hmem : hammering ∈ img.hammerings) :
    ∃ records, hammering.records? img.records.toArray = some records := by
  rw [Hammering.records?, slice?_toArray, if_pos (h.hammering_le hammering hmem)]
  exact ⟨_, rfl⟩

/-- The hammerings that a range names exist, and are some of those of the image. -/
theorem exists_slice? (h : img.WellFormed) {r : Range} (hr : r ∈ img.ranges) :
    ∃ hs, slice? img.hammerings.toArray r.first r.count = some hs ∧ hs ⊆ img.hammerings := by
  rw [slice?_toArray, if_pos (h.range_le r hr)]
  exact ⟨_, rfl, fun _ hmem => List.mem_of_mem_drop (List.mem_of_mem_take hmem)⟩

/-- The end of a range fits a word. -/
theorem range_lt (h : img.WellFormed) {r : Range} (hr : r ∈ img.ranges) :
    r.first.toNat + r.count.toNat < UInt32.size :=
  Nat.lt_of_le_of_lt (h.range_le r hr) h.hammerings_lt

/-- A range stands for some attacks. -/
theorem exists_range_attacks? (h : img.WellFormed) {r : Range} (hr : r ∈ img.ranges) :
    ∃ attacks, Range.attacks? img.distance img.hammerings.toArray img.records.toArray r =
      some attacks := by
  obtain ⟨hs, hslice, hsub⟩ := h.exists_slice? hr
  rw [Range.attacks?, hslice, Option.bind_eq_bind, Option.bind_some, exists_mapM_eq_some]
  rintro ⟨hammering, i⟩ hi
  obtain ⟨records, hrecords⟩ := h.exists_records? (hsub (List.fst_mem_of_mem_zipIdx hi))
  exact ⟨_, Option.map_eq_some_iff.2 ⟨records, hrecords, rfl⟩⟩

/-- A well-formed image stands for some attacks. -/
theorem exists_attacks? (h : img.WellFormed) : ∃ attacks, img.attacks? = some attacks := by
  obtain ⟨attacks, hattacks⟩ := exists_mapM_eq_some.2 fun r hr => h.exists_range_attacks? hr
  exact ⟨attacks.flatten, by rw [Image.attacks?, hattacks, Option.map_some]⟩

/-! ### Places -/

variable {q : Address} {mode : Extrapolation} {cut : Nat} {place : Place}

/-- Wherever the search stops, a place is that of a hammering of the image. -/
theorem lt_of_placeAt? (h : img.WellFormed) (hplace : img.placeAt? q mode cut = some place) :
    place.hammering < img.hammerings.length := by
  obtain ⟨r, hr, hplace⟩ := exists_range_of_placeAt? hplace
  have hle := h.range_le r hr
  rcases hplace with hplace | ⟨-, -, hplace⟩
  · rw [exactPlace?] at hplace
    split at hplace
    · rename_i hrow
      cases hplace
      have hlt : (q.rowsFrom r.start).toNat < r.count.toNat := by omega
      exact Nat.lt_of_lt_of_le (Nat.add_lt_add_left hlt _) hle
    · cases hplace
  · obtain ⟨modulus, hm, hplace⟩ := Option.bind_eq_some_iff.1 hplace
    obtain ⟨d, hd, hplace⟩ := Option.bind_eq_some_iff.1 hplace
    cases hplace
    have hlt := standInRow?_lt hm hd
    exact Nat.lt_of_lt_of_le (Nat.add_lt_add_left hlt _) hle

/-- At the place of a hammering there is an answer, and no step to it fails. -/
theorem exists_hitAt? (h : img.WellFormed) (hlt : place.hammering < img.hammerings.length) :
    ∃ hit, Checked.hitAt img place = .ok hit ∧ img.hitAt? place = some hit := by
  have hget := List.getElem?_eq_getElem hlt
  obtain ⟨records, hrecords⟩ := h.exists_records? (List.getElem_mem hlt)
  have hword := Checked.word32_eq (hlt.trans h.hammerings_lt)
  refine ⟨⟨records, place.rowOffset⟩, ?_, ?_⟩
  · simp only [Checked.hitAt, hword, bind, Except.bind, hget, hrecords, Checked.orTrap]
    rfl
  · rw [hitAt?, hget, Option.bind_eq_bind, Option.bind_some, hrecords]
    rfl

end WellFormed

/-! ### Checked lookups -/

namespace Checked

variable {mode : Extrapolation} {r : Range} {q : Address} {m : Nat}

/-- Moduli of fewer than 2³⁰ hammerings are computed without overflow, and are small. -/
theorem exists_modulus_eq (mode : Extrapolation) {n : UInt32} (hn : n.toNat < 2 ^ 30) :
    ∃ m ≤ 2 ^ 30, modulus mode n = .ok m ∧ modulus? mode n = some m := by
  obtain ⟨p, hp, hpow⟩ := exists_powerAbove?_eq (hn.trans (by decide))
  have hle : p.toNat ≤ 2 ^ 30 := by
    rw [hpow]
    exact Nat.pow_le_pow_right (by decide) (Nat.size_le.2 hn)
  cases mode with
  | none => exact ⟨0, Nat.zero_le _, rfl, rfl⟩
  | perBank => exact ⟨n.toNat, Nat.le_of_lt hn, rfl, rfl⟩
  | perBankTrunc =>
    refine ⟨p.toNat / 2, (Nat.div_le_self _ _).trans hle, ?_, ?_⟩
    · rw [modulus, hp]
      rfl
    · rw [modulus?, hp]
      rfl
  | perBankFit =>
    -- Both products are at most three or four times 2³⁰.
    have hfilled : word32 (4 * n.toNat) = .ok (4 * n.toNat) :=
      word32_eq (by rw [UInt32.size]; omega)
    have henough : word32 (3 * p.toNat) = .ok (3 * p.toNat) :=
      word32_eq (by rw [UInt32.size]; omega)
    refine ⟨if 4 * n.toNat < 3 * p.toNat then p.toNat / 2 else p.toNat, ?_, ?_, ?_⟩
    · split <;> omega
    · simp only [modulus, hp, orTrap, hfilled, henough, bind, Except.bind]
      rfl
    · rw [modulus?, hp]
      rfl

/-- A row is looked for in the window of a range without a step that fails. -/
theorem fittedRow_eq (hne : m ≠ 0) (hm : m ≤ 2 ^ 30) (hr : r.count.toNat < 2 ^ 30) :
    fittedRow r q m = .ok (fittedRow? r q m) := by
  have hlt : m < 1 <<< 31 := Nat.lt_of_le_of_lt hm (by decide)
  have hbelow : ((r.start.row.toNat : Int) % m).toNat = r.start.row.toNat % m := by omega
  have hstop : word32 (r.start.row.toNat % m + r.count.toNat) =
      .ok (r.start.row.toNat % m + r.count.toNat) := by
    have := Nat.mod_lt r.start.row.toNat (Nat.pos_of_ne_zero hne)
    exact word32_eq (by rw [UInt32.size]; omega)
  simp only [fittedRow, remainder_eq _ hne hlt, bind, Except.bind, hbelow, hstop]
  rfl

/-- So is one that stands in, in any mode. -/
theorem standInRow_eq (hm : m ≤ 2 ^ 30) (hr : r.count.toNat < 2 ^ 30) :
    standInRow mode r q m = .ok (standInRow? mode r q m) := by
  by_cases hzero : m = 0
  · simp only [standInRow, standInRow?, if_pos hzero]
    rfl
  · have hlt : m < 1 <<< 31 := Nat.lt_of_le_of_lt hm (by decide)
    simp only [standInRow, standInRow?, if_neg hzero]
    cases mode with
    | perBankFit => exact fittedRow_eq hzero hm hr
    | _ => exact congrArg (Except.map some) (remainder_eq _ hzero hlt)

/-- So is its place, with the modulus of the range. -/
theorem extrapolatedPlace_eq (hr : r.count.toNat < 2 ^ 30) :
    extrapolatedPlace mode q r = .ok (extrapolatedPlace? mode q r) := by
  obtain ⟨m, hle, hm, hm?⟩ := exists_modulus_eq mode hr
  simp only [extrapolatedPlace, hm, bind, Except.bind, standInRow_eq hle hr, extrapolatedPlace?,
    hm?, Option.bind_some, Option.map_eq_bind]
  rfl

variable {cut : Nat}

/-- Ranges of fewer than 2³⁰ hammerings are looked into without a step that fails. -/
theorem placeAt_eq (h : ∀ r ∈ img.ranges, r.count.toNat < 2 ^ 30) :
    placeAt img q mode cut = .ok (img.placeAt? q mode cut) := by
  cases hexact : (if cut = 0 then none else img.ranges[cut - 1]?).bind (exactPlace? · q) with
  | some place => simp only [placeAt, placeAt?, hexact]; rfl
  | none =>
    cases hfind : img.consulted? q cut with
    | none =>
      rw [consulted?] at hfind
      cases mode <;> simp only [placeAt, placeAt?, hexact, hfind] <;> rfl
    | some r =>
      have hr := h r (mem_ranges_of_consulted? hfind).1
      rw [consulted?] at hfind
      cases mode with
      | none => simp only [placeAt, placeAt?, hexact]; rfl
      | _ => simp only [placeAt, placeAt?, hexact, hfind, extrapolatedPlace_eq hr, Option.bind_some]

/-- In a well-formed image with such ranges, no step of a lookup fails, and it answers what the
lookup does. -/
theorem lookupAt_eq (hwell : img.WellFormed) (h : ∀ r ∈ img.ranges, r.count.toNat < 2 ^ 30) :
    lookupAt img q mode cut = .ok ((img.placeAt? q mode cut).bind img.hitAt?) := by
  simp only [lookupAt, placeAt_eq h, bind, Except.bind]
  cases hplace : img.placeAt? q mode cut with
  | none => rfl
  | some place =>
    obtain ⟨hit, hchecked, hhit⟩ := hwell.exists_hitAt? (hwell.lt_of_placeAt? hplace)
    rw [Option.bind_some, hhit]
    exact congrArg (Except.map some) hchecked

/-- The bound is sharp: four times 2³⁰ does not fit a word. -/
example : modulus .perBankFit 1073741824 = .error .overflow := rfl

end Checked

/-- **Whatever is asked of an accepted file stays inside its tables.** In the image `img` that
`decode` gives, each `hammering` has its flip `records`, the end of each range fits a word, and all
`attacks` and the table made of them exist. Wherever the search of a lookup stops, that is, for
every `cut`, a `place` that `placeAt?` finds names a hammering of the image and gives a `hit`. And
if each range counts fewer than 2³⁰ hammerings, `Checked.lookupAt`, which fails at an index outside
its table, a modulus of 0 or a number that does not fit its word, does not fail and gives the
same. -/
theorem inside_of_decode {b : Bytes} (h : decode b = .ok img) :
    (∀ hammering ∈ img.hammerings, ∃ records,
      hammering.records? img.records.toArray = some records) ∧
    (∀ r ∈ img.ranges, r.first.toNat + r.count.toNat < UInt32.size) ∧
    (∃ attacks, img.attacks? = some attacks ∧
      img.toTable? = some (Table.ofAttacks attacks)) ∧
    (∀ q mode cut place, img.placeAt? q mode cut = some place →
      place.hammering < img.hammerings.length ∧ ∃ hit, img.hitAt? place = some hit) ∧
    ((∀ r ∈ img.ranges, r.count.toNat < 2 ^ 30) → ∀ q mode cut,
      Checked.lookupAt img q mode cut = .ok ((img.placeAt? q mode cut).bind img.hitAt?)) := by
  have hwell := wellFormed_of_decode h
  refine ⟨fun hammering => hwell.exists_records?, fun r => hwell.range_lt, ?_, ?_, ?_⟩
  · obtain ⟨attacks, hattacks⟩ := hwell.exists_attacks?
    exact ⟨attacks, hattacks, by rw [toTable?, hattacks, Option.map_some]⟩
  · intro q mode cut place hplace
    have hlt := hwell.lt_of_placeAt? hplace
    obtain ⟨hit, -, hhit⟩ := hwell.exists_hitAt? hlt
    exact ⟨hlt, hit, hhit⟩
  · intro hcount q mode cut
    exact Checked.lookupAt_eq hwell hcount

/-- A file with ranges out of order, one of them without hammerings: where the search stops before
that range, a row of another stands in; where it stops behind it, no row can. -/
theorem inside_of_decode_emptyRange :
    let img : Image :=
      ⟨2, [⟨bankCell 9 9, 2, 0⟩, ⟨bankCell 4 9, 1, 1⟩, ⟨bankCell 4 9, 0, 2⟩], [⟨1, 0⟩, ⟨0, 1⟩],
        [⟨bankCell 10 9, 1, 1, 0⟩]⟩
    let q := bankCell 12 0
    decode img.encode = .ok img ∧ (∃ attacks, img.attacks? = some attacks) ∧
      Checked.lookupAt img q .perBankTrunc 1 = .ok (some ⟨[], 2⟩) ∧
      Checked.lookupAt img q .perBankFit 3 = .ok none := by
  intro img q
  have himg : decode img.encode = .ok img :=
    decode_encode ⟨by decide, by decide, by decide, by decide, by decide⟩
  obtain ⟨-, -, ⟨attacks, hattacks, -⟩, -, hlookup⟩ := inside_of_decode himg
  have hcount : ∀ r ∈ img.ranges, r.count.toNat < 2 ^ 30 := by decide
  refine ⟨himg, ⟨attacks, hattacks⟩, ?_, ?_⟩
  · have hplace : img.placeAt? q .perBankTrunc 1 = some ⟨1, 2⟩ := by decide
    have hhit : img.hitAt? ⟨1, 2⟩ = some ⟨[], 2⟩ := by decide
    rw [hlookup hcount q .perBankTrunc 1, hplace, Option.bind_some, hhit]
  · rw [hlookup hcount q .perBankFit 3]
    rfl

end RowFlips.Image
