import Mathlib.Data.Int.ModEq
import RowFlips.Image.Lookup
import RowFlips.Proofs.Bits

/-!
# Rows that stand in for others

A row of a range stands in for another row if it lies in a certain window and a multiple of a
modulus away. The window has as many rows as the modulus, so that there is exactly one such row in
it. Two of the modes place the window at the start of the range, where it stays within the range;
the third takes a window that starts at a multiple of its modulus and holds the start of the
range, so that its rows may lie off the range.

The modulus depends on the number of rows of the range only. It is found by doubling a word, which
ends before the word overflows if the range is not longer than half of what the word can count.

## Main results

* `exists_powerAbove?_eq`: doubling finds the least power of two above a number.
* `exists_modulus?_eq`: every mode has its modulus.
* `standsIn_iff`: the one row of a window that stands in.
* `standInRow?_eq`: the row that a lookup takes is that row, if the range has it.
-/

namespace RowFlips.Image

/-! ### Powers of two -/

/-- Doubling a power of two that is not yet above `x` ends at the first that is. -/
theorem exists_doubleAbove?_eq {x p : UInt32} {k steps : Nat} (hx : x.toNat < 2 ^ 31)
    (hp : p.toNat = 2 ^ k) (hk : k ≤ x.toNat.size) (hsteps : x.toNat.size < k + steps) :
    ∃ r, doubleAbove? x steps p = some r ∧ r.toNat = 2 ^ x.toNat.size := by
  induction steps generalizing p k with
  | zero => omega
  | succ steps ih =>
    have hsize : x.toNat.size ≤ 31 := Nat.size_le.2 hx
    rw [doubleAbove?]
    split
    · rename_i hle
      rw [UInt32.le_iff_toNat_le, hp, ← Nat.lt_size] at hle
      have hshift : (p <<< 1).toNat = p.toNat <<< 1 % 2 ^ 32 := UInt32.toNat_shiftLeft p 1
      have hlt : 2 ^ (k + 1) < 2 ^ 32 := Nat.pow_lt_pow_right (by decide) (by omega)
      rw [hp, Nat.shiftLeft_eq, pow_one, ← pow_succ, Nat.mod_eq_of_lt hlt] at hshift
      exact ih hshift hle (by omega)
    · rename_i hle
      rw [UInt32.le_iff_toNat_le, hp, not_le, ← Nat.size_le] at hle
      exact ⟨p, rfl, by rw [hp, Nat.le_antisymm hk hle]⟩

/-- Doubling ends if the number is below half of what a word can hold. -/
theorem exists_powerAbove?_eq {x : UInt32} (hx : x.toNat < 2 ^ 31) :
    ∃ r, powerAbove? x = some r ∧ r.toNat = 2 ^ x.toNat.size := by
  have hsize : x.toNat.size ≤ 31 := Nat.size_le.2 hx
  exact exists_doubleAbove?_eq hx (pow_zero 2).symm (Nat.zero_le _) (by omega)

/-! ### Moduli -/

/-- The modulus of a range of `n` rows: as many as it has, or the greatest power of two not above
that, or the least power of two above it, halved if the range fills less than three quarters of
it. Without extrapolation there is none. -/
def IsModulus (mode : Extrapolation) (n modulus : Nat) : Prop :=
  match mode with
  | .none => False
  | .perBank => modulus = n
  | .perBankTrunc => IsGreatest {p | (∃ k, p = 2 ^ k) ∧ p ≤ n} modulus
  | .perBankFit => ∃ p, IsLeast {p | (∃ k, p = 2 ^ k) ∧ n < p} p ∧
      modulus = if 3 * p ≤ 4 * n then p else p / 2

/-- Every mode that extrapolates has its modulus for a range with rows. -/
theorem exists_modulus?_eq {mode : Extrapolation} {n : UInt32} (hmode : mode ≠ .none)
    (hpos : 0 < n.toNat) (hn : n.toNat < 2 ^ 31) :
    ∃ modulus, modulus? mode n = some modulus ∧ IsModulus mode n.toNat modulus := by
  obtain ⟨p, hp, hpow⟩ := exists_powerAbove?_eq hn
  cases mode with
  | none => exact absurd rfl hmode
  | perBank => exact ⟨_, rfl, rfl⟩
  | perBankTrunc =>
    refine ⟨p.toNat / 2, by rw [modulus?, hp]; rfl, ?_⟩
    rw [hpow]
    exact isGreatest_two_pow_size hpos
  | perBankFit =>
    refine ⟨if 4 * n.toNat < 3 * p.toNat then p.toNat / 2 else p.toNat,
      by rw [modulus?, hp]; rfl, 2 ^ n.toNat.size, isLeast_two_pow_size _, ?_⟩
    rw [hpow]
    split <;> split <;> omega

/-- Except with `.perBankFit`, a modulus is no greater than the number of hammerings. -/
theorem IsModulus.le {mode : Extrapolation} {n modulus : Nat} (h : IsModulus mode n modulus)
    (hmode : mode ≠ .perBankFit) : modulus ≤ n := by
  cases mode with
  | none => exact h.elim
  | perBank => exact Nat.le_of_eq h
  | perBankTrunc => exact h.1.2
  | perBankFit => exact absurd rfl hmode

/-- A range with rows has a modulus above zero. -/
theorem IsModulus.pos {mode : Extrapolation} {n modulus : Nat} (h : IsModulus mode n modulus)
    (hpos : 0 < n) : 0 < modulus := by
  cases mode with
  | none => exact h.elim
  | perBank => exact Nat.lt_of_lt_of_eq hpos h.symm
  | perBankTrunc =>
    obtain ⟨⟨⟨k, rfl⟩, -⟩, -⟩ := h
    exact Nat.two_pow_pos k
  | perBankFit =>
    obtain ⟨p, ⟨⟨-, hlt⟩, -⟩, rfl⟩ := h
    split <;> omega

/-- The window of a range is a power of two: one above its rows, three quarters of which they fill
at least, or one not above them, of which they fill less than one and a half. -/
theorem IsModulus.exists_pow {n modulus : Nat} (h : IsModulus .perBankFit n modulus)
    (hpos : 0 < n) :
    ∃ k, modulus = 2 ^ k ∧
      (n < modulus ∧ 3 * modulus ≤ 4 * n ∨ modulus ≤ n ∧ 2 * n < 3 * modulus) := by
  obtain ⟨p, hp, rfl⟩ := h
  obtain rfl : p = 2 ^ n.size := hp.unique (isLeast_two_pow_size n)
  obtain ⟨m, hm⟩ := Nat.exists_eq_succ_of_ne_zero (Nat.size_pos.2 hpos).ne'
  have hhalf : 2 ^ n.size = 2 ^ m * 2 := by rw [hm, Nat.pow_succ]
  have hle : 2 ^ m ≤ n := Nat.lt_size.1 (by omega)
  have hlt : n < 2 ^ n.size := Nat.lt_size_self n
  split
  · rename_i hfull
    exact ⟨n.size, rfl, Or.inl ⟨hlt, hfull⟩⟩
  · rename_i hfull
    refine ⟨m, by omega, Or.inr ⟨?_, ?_⟩⟩ <;> omega

/-- The window of a range that fits a bank fits the bank too. -/
theorem IsModulus.exists_pow_le {n modulus : Nat} (h : IsModulus .perBankFit n modulus)
    (hpos : 0 < n) (hn : n ≤ UInt16.size) : ∃ k ≤ 16, modulus = 2 ^ k := by
  obtain ⟨k, rfl, hfill⟩ := h.exists_pow hpos
  refine ⟨k, Nat.le_of_lt_succ ?_, rfl⟩
  rw [← Nat.pow_lt_pow_iff_right (by decide : 1 < 2)]
  rw [UInt16.size] at hn
  omega

/-! ### Windows -/

/-- The first row of the window that a row standing in is taken from, for a range that starts at
row `start`. -/
def windowStart (mode : Extrapolation) (start modulus : Nat) : Nat :=
  match mode with
  | .perBankFit => start / modulus * modulus
  | _ => start

/-- Row `u` lies in the window, and is congruent to row `q`. -/
structure StandsIn (mode : Extrapolation) (start modulus q u : Nat) : Prop where
  ge : windowStart mode start modulus ≤ u
  lt : u < windowStart mode start modulus + modulus
  mod_eq : u % modulus = q % modulus

variable {mode : Extrapolation} {start modulus q u : Nat}

/-- A row stands in for another only by a modulus other than 0. -/
theorem StandsIn.pos (h : StandsIn mode start modulus q u) : 0 < modulus := by
  have := h.ge
  have := h.lt
  omega

/-- The row that stands in lies a remainder behind the start of the window. -/
theorem standsIn_iff (hpos : 0 < modulus) :
    StandsIn mode start modulus q u ↔
      (u : Int) = windowStart mode start modulus +
        ((q : Int) - windowStart mode start modulus) % modulus := by
  obtain ⟨w, hw⟩ : ∃ w, w = windowStart mode start modulus := ⟨_, rfl⟩
  have hlt := Int.emod_lt_of_pos ((q : Int) - w) (Int.ofNat_lt.2 hpos)
  have hnonneg := Int.emod_nonneg ((q : Int) - w) (by omega : (modulus : Int) ≠ 0)
  constructor
  · rintro ⟨hge, hu, hmod⟩
    rw [← hw] at hge hu ⊢
    have hdvd : (q : Int) - w ≡ u - w [ZMOD modulus] :=
      (Int.natCast_modEq_iff.2 hmod.symm).sub_right _
    rw [hdvd, Int.emod_eq_of_lt (by omega) (by omega)]
    omega
  · intro hu
    rw [← hw] at hu
    have hmod : (u : Int) ≡ q [ZMOD modulus] := by
      rw [hu]
      simpa using (Int.mod_modEq ((q : Int) - w) modulus).add_left (w : Int)
    refine ⟨?_, ?_, Int.natCast_modEq_iff.1 hmod⟩
    · omega
    · omega

/-- Exactly one row of the window stands in. -/
theorem exists_standsIn (hpos : 0 < modulus) : ∃ u, StandsIn mode start modulus q u := by
  have hnonneg := Int.emod_nonneg ((q : Int) - windowStart mode start modulus)
    (by omega : (modulus : Int) ≠ 0)
  refine ⟨windowStart mode start modulus +
    (((q : Int) - windowStart mode start modulus) % modulus).toNat, (standsIn_iff hpos).2 ?_⟩
  omega

/-- There is only one row that stands in for another by a given modulus. -/
theorem StandsIn.unique {v : Nat} (hu : StandsIn mode start modulus q u)
    (hv : StandsIn mode start modulus q v) : u = v := by
  have hu' := (standsIn_iff hu.pos).1 hu
  have hv' := (standsIn_iff hu.pos).1 hv
  omega

/-- Rows that stand in for each other lie a multiple of the modulus apart. -/
theorem StandsIn.dvd_sub (h : StandsIn mode start modulus q u) :
    (modulus : Int) ∣ (q : Int) - u := by
  have hmod : (u : Int) ≡ q [ZMOD modulus] := Int.natCast_modEq_iff.2 h.mod_eq
  exact hmod.dvd

/-! ### The row that a lookup takes -/

/-- Row `u` is one of the range. -/
def Range.HasRow (r : Range) (u : Nat) : Prop :=
  r.start.row.toNat ≤ u ∧ u < r.start.row.toNat + r.count.toNat

instance (r : Range) (u : Nat) : Decidable (r.HasRow u) := inferInstanceAs (Decidable (_ ∧ _))

/-- Clearing the low bits of a row gives the start of its window. -/
theorem toNat_windowStart {k : Nat} (row : UInt16) :
    (row &&& ~~~(UInt16.ofNat (2 ^ k - 1))).toNat = row.toNat / 2 ^ k * 2 ^ k := by
  have h := toNat_and_not row.toBitVec k
  rw [Nat.one_shiftLeft] at h
  exact h

/-- Except with `.perBankFit`, the window starts with the range. -/
theorem windowStart_eq (hmode : mode ≠ .perBankFit) :
    windowStart mode start modulus = start := by
  cases mode with
  | perBankFit => exact absurd rfl hmode
  | _ => rfl

/-- The window of two of the modes is made of rows of the range. -/
theorem StandsIn.hasRow {r : Range} (h : StandsIn mode r.start.row.toNat modulus q u)
    (hmodulus : IsModulus mode r.count.toNat modulus) (hmode : mode ≠ .perBankFit) :
    r.HasRow u := by
  have hge := h.ge
  have hlt := h.lt
  have hle := hmodulus.le hmode
  rw [windowStart_eq hmode] at hge hlt
  exact ⟨hge, by omega⟩

/-- The row taken is the one that stands in, if the range has it. -/
theorem standInRow?_eq {r : Range} {addr : Address}
    (hmodulus : IsModulus mode r.count.toNat modulus) (hpos : 0 < r.count.toNat)
    (hcount : r.count.toNat ≤ UInt16.size)
    (h : StandsIn mode r.start.row.toNat modulus addr.row.toNat u) :
    standInRow? mode r addr modulus =
      if r.HasRow u then some (u - r.start.row.toNat) else none := by
  have hu := (standsIn_iff h.pos).1 h
  have hne := h.pos.ne'
  have hwhole (hmode : mode ≠ .perBankFit) : some (addr.rowsFrom r.start % modulus).toNat =
      if r.HasRow u then some (u - r.start.row.toNat) else none := by
    rw [windowStart_eq hmode] at hu
    rw [if_pos (h.hasRow hmodulus hmode), Address.rowsFrom]
    congr 1
    omega
  cases mode with
  | none => exact hmodulus.elim
  | perBank =>
    simp only [standInRow?, if_neg hne]
    exact hwhole nofun
  | perBankTrunc =>
    simp only [standInRow?, if_neg hne]
    exact hwhole nofun
  | perBankFit =>
    obtain ⟨k, -, hk⟩ := hmodulus.exists_pow_le hpos hcount
    have hstart : (r.start.row &&& ~~~(UInt16.ofNat (modulus - 1))).toNat =
        windowStart .perBankFit r.start.row.toNat modulus := by
      rw [hk, toNat_windowStart]
      rfl
    have hbelow : windowStart .perBankFit r.start.row.toNat modulus +
        r.start.row.toNat % modulus = r.start.row.toNat := Nat.div_add_mod' _ _
    have hge := h.ge
    simp only [standInRow?, if_neg hne, fittedRow?, hstart]
    split
    · rename_i hoff
      refine (if_neg ?_).symm
      rintro ⟨hfrom, hto⟩
      omega
    · rename_i hoff
      rw [if_pos ⟨by omega, by omega⟩]
      congr 1
      omega

end RowFlips.Image
