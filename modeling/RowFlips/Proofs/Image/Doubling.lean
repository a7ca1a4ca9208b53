import RowFlips.Proofs.Image.Bounds

/-!
# When doubling ends

The modulus of a range is found by doubling a word, from 1 on, for as long as it is not above the
number of hammerings. `Doubles` is a run of this, with its rounds counted; it says nothing of how
many rounds there may be. A word keeps its powers of two only up to 2³¹. The round after that one
leaves 0, which no round changes any more, so a number of 2³¹ or above is never passed. Every
smaller one is passed at the least power of two above it.

`doubleAbove?` is given a number of steps to do this in. It finds exactly the runs that have fewer
rounds, and 32 steps are enough for every run that ends.

## Main results

* `doubleAbove?_eq_some_iff`: the runs that are found in a number of steps.
* `exists_doubles_iff`: which runs end.
* `Doubles.toNat_eq`: where a run ends, and after how many rounds.
* `lookupAt_of_count_eq_zero`: lookups that go to a range without hammerings.
* `moduli_of_doubling`: all of it, and the moduli that come from it.
-/

namespace RowFlips.Image

/-! ### Runs -/

/-- Doubling `p` until it is above `x` ends after `n` rounds, at `r`. -/
inductive Doubles (x : UInt32) : UInt32 → Nat → UInt32 → Prop where
  /-- A word above `x` is left as it is. -/
  | stop {p : UInt32} (h : x < p) : Doubles x p 0 p
  /-- Any other is doubled, and loses its highest bit. -/
  | double {p r : UInt32} {n : Nat} (h : p ≤ x) (rest : Doubles x (p <<< 1) n r) :
    Doubles x p (n + 1) r

variable {x p r : UInt32} {n steps : Nat}

/-- In a number of steps, the runs of fewer rounds are found. -/
theorem doubleAbove?_eq_some_iff :
    doubleAbove? x steps p = some r ↔ ∃ n < steps, Doubles x p n r := by
  induction steps generalizing p with
  | zero => exact ⟨nofun, fun ⟨n, hn, _⟩ => absurd hn (Nat.not_lt_zero n)⟩
  | succ steps ih =>
    rw [doubleAbove?]
    split
    · rename_i hle
      rw [ih]
      constructor
      · rintro ⟨n, hn, hrun⟩
        exact ⟨n + 1, Nat.succ_lt_succ hn, .double hle hrun⟩
      · rintro ⟨_, hn, hrun⟩
        cases hrun with
        | stop h => exact absurd hle (UInt32.not_le.2 h)
        | double _ rest => exact ⟨_, Nat.lt_of_succ_lt_succ hn, rest⟩
    · rename_i hle
      constructor
      · rintro ⟨⟩
        exact ⟨0, Nat.succ_pos steps, .stop (UInt32.not_le.1 hle)⟩
      · rintro ⟨_, -, hrun⟩
        cases hrun with
        | stop _ => rfl
        | double h _ => exact absurd h hle

namespace Doubles

/-- A run ends above the number. -/
theorem lt (h : Doubles x p n r) : x < r := by
  induction h with
  | stop h => exact h
  | double _ _ ih => exact ih

/-- From every word there is at most one run. -/
theorem unique {n' : Nat} {r' : UInt32} (h : Doubles x p n r) (h' : Doubles x p n' r') :
    n = n' ∧ r = r' := by
  induction h generalizing n' with
  | stop hlt =>
    cases h' with
    | stop _ => exact ⟨rfl, rfl⟩
    | double hle _ => exact absurd hle (UInt32.not_le.2 hlt)
  | double hle _ ih =>
    cases h' with
    | stop hlt => exact absurd hle (UInt32.not_le.2 hlt)
    | double _ rest =>
      obtain ⟨rfl, rfl⟩ := ih rest
      exact ⟨rfl, rfl⟩

end Doubles

/-- A run from a power of two ends at what a word keeps of another. -/
theorem Doubles.eq_ofNat_two_pow {k : Nat} (h : Doubles x p n r) (hp : p = .ofNat (2 ^ k)) :
    r = .ofNat (2 ^ (k + n)) := by
  induction h generalizing k with
  | stop _ => exact hp
  | double _ _ ih =>
    rw [ih (by rw [hp, ofNat_two_pow_shiftLeft]), Nat.add_right_comm, Nat.add_assoc]

/-! ### Runs that end -/

/-- A power that is found is reached by fewer than 32 doublings. -/
theorem exists_doubles_of_powerAbove? (h : powerAbove? x = some r) :
    ∃ n < 32, Doubles x 1 n r :=
  doubleAbove?_eq_some_iff.1 h

/-- Doubling ends exactly if the number is below half of what a word can hold. -/
theorem exists_doubles_iff : (∃ n r, Doubles x 1 n r) ↔ x.toNat < 2 ^ 31 := by
  constructor
  · rintro ⟨n, r, h⟩
    have hr : r = .ofNat (2 ^ (0 + n)) := h.eq_ofNat_two_pow rfl
    have hlt := UInt32.lt_iff_toNat_lt.1 h.lt
    rw [hr] at hlt
    exact Nat.lt_of_lt_of_le hlt (toNat_ofNat_two_pow_le _)
  · intro hx
    obtain ⟨r, hr, -⟩ := exists_powerAbove?_eq hx
    obtain ⟨n, -, h⟩ := exists_doubles_of_powerAbove? hr
    exact ⟨n, r, h⟩

/-- The runs that end are found in 32 steps. -/
theorem powerAbove?_eq_some_iff : powerAbove? x = some r ↔ ∃ n, Doubles x 1 n r := by
  constructor
  · intro h
    obtain ⟨n, -, h⟩ := exists_doubles_of_powerAbove? h
    exact ⟨n, h⟩
  · rintro ⟨n, h⟩
    obtain ⟨r', hr', -⟩ := exists_powerAbove?_eq (exists_doubles_iff.1 ⟨n, r, h⟩)
    obtain ⟨n', -, h'⟩ := exists_doubles_of_powerAbove? hr'
    rw [hr', (h.unique h').2]

/-- A run has as many rounds as the number has bits, and ends at the least power of two above it. -/
theorem Doubles.toNat_eq (h : Doubles x 1 n r) :
    n = x.toNat.size ∧ r.toNat = 2 ^ x.toNat.size := by
  obtain ⟨r', hr', hpow⟩ := exists_powerAbove?_eq (exists_doubles_iff.1 ⟨n, r, h⟩)
  obtain ⟨n', hn', h'⟩ := exists_doubles_of_powerAbove? hr'
  obtain ⟨rfl, rfl⟩ := h.unique h'
  have hr : r = .ofNat (2 ^ (0 + n)) := h.eq_ofNat_two_pow rfl
  refine ⟨?_, hpow⟩
  have hlt : 2 ^ n < 2 ^ 32 := Nat.pow_lt_pow_right (by decide) hn'
  rw [hr, Nat.zero_add, UInt32.toNat_ofNat', Nat.mod_eq_of_lt hlt] at hpow
  exact Nat.pow_right_injective (Nat.le_refl 2) hpow

/-! ### Ranges without hammerings -/

/-- For 0 hammerings the modulus is 0 in every mode, and computing it does not fail. -/
theorem Checked.modulus_zero (mode : Extrapolation) : Checked.modulus mode 0 = .ok 0 := by
  cases mode <;> rfl

/-- So it is by `modulus?`. -/
theorem modulus?_zero (mode : Extrapolation) : modulus? mode 0 = some 0 := by
  cases mode <;> rfl

section Empty

variable {img : Image} {q : Address} {mode : Extrapolation} {cut : Nat} {s : Range}

/-- The range before the cut has no row asked for, if the one consulted has no rows. -/
theorem bind_exactPlace?_of_count_eq_zero (hs : img.consulted? q cut = some s)
    (hcount : s.count = 0) :
    (if cut = 0 then none else img.ranges[cut - 1]?).bind (exactPlace? · q) = none := by
  rw [Option.bind_eq_none_iff]
  intro before hbefore
  refine if_neg ?_
  rintro ⟨hbank, hle, hlt⟩
  -- In the bank asked for, the range before the cut is the one consulted.
  have hsame : before = s := by
    rw [consulted?, hbefore] at hs
    simpa [hbank] using hs
  rw [hsame, hcount] at hlt
  exact Int.not_le.2 hlt (hsame ▸ hle)

/-- If the range consulted has no hammerings, there is no answer. -/
theorem placeAt?_of_count_eq_zero (hs : img.consulted? q cut = some s) (hcount : s.count = 0) :
    img.placeAt? q mode cut = none := by
  have hexact := bind_exactPlace?_of_count_eq_zero hs hcount
  have hplace : extrapolatedPlace? mode q s = none := by
    rw [extrapolatedPlace?, hcount, modulus?_zero]
    rfl
  rw [consulted?] at hs
  cases mode <;> simp only [placeAt?, hexact, hs, Option.bind_some, hplace]

/-- A lookup that goes to a range without hammerings has no answer, and no step of it fails. -/
theorem lookupAt_of_count_eq_zero (hs : img.consulted? q cut = some s) (hcount : s.count = 0) :
    Checked.lookupAt img q mode cut = .ok none := by
  have hexact := bind_exactPlace?_of_count_eq_zero hs hcount
  have hplace : Checked.extrapolatedPlace mode q s = .ok none := by
    rw [Checked.extrapolatedPlace, hcount, Checked.modulus_zero]
    rfl
  rw [consulted?] at hs
  have hat : Checked.placeAt img q mode cut = .ok none := by
    cases mode with
    | none => simp only [Checked.placeAt, hexact]; rfl
    | _ => simp only [Checked.placeAt, hexact, hs, hplace]
  rw [Checked.lookupAt, hat]
  rfl

end Empty

/-! ### Moduli -/

/-- The modulus that is computed for 1 up to 2³¹ hammerings is the one that its mode asks for. -/
theorem isModulus_of_modulus? {mode : Extrapolation} {m : Nat} (hmode : mode ≠ .none)
    (hpos : 0 < x.toNat) (hx : x.toNat < 2 ^ 31) (hm : modulus? mode x = some m) :
    IsModulus mode x.toNat m := by
  obtain ⟨m', hm', hmodulus⟩ := exists_modulus?_eq hmode hpos hx
  obtain rfl : m = m' := Option.some.inj (hm.symm.trans hm')
  exact hmodulus

/-- **Doubling ends below 2³¹, and moduli come from it.** `Doubles n 1 rounds p` says that doubling
1 until it is above `n` ends after some `rounds` at `p`. It ends exactly if `n` is below 2³¹. It
then takes as many rounds as `n` has bits, ends at the least power of two above `n`, and `p` is what
`powerAbove?` finds. For a range of `n` hammerings, from 1 to below 2³⁰, every `mode` that
extrapolates has a modulus `m` above 0, which `Checked.modulus` computes without overflow. In the
mode `.perBankTrunc` it is the greatest power of two not above `n`. In the mode `.perBankFit` it is
a power of two above `n` with at least three quarters of it filled by `n`, or one not above `n` with
`n` less than one and a half of it. If `n` is 0, every modulus is 0. Then a lookup of `q` that goes
to such a range, as `consulted?` says, has no answer, wherever its search stopped, at any `cut` or
at `rangesUpTo q`. -/
theorem moduli_of_doubling (n : UInt32) :
    ((∃ rounds p, Doubles n 1 rounds p) ↔ n.toNat < 2 ^ 31) ∧
    (∀ rounds p, Doubles n 1 rounds p →
      rounds = n.toNat.size ∧ IsLeast {q | (∃ k, q = 2 ^ k) ∧ n.toNat < q} p.toNat) ∧
    (∀ p, powerAbove? n = some p ↔ ∃ rounds, Doubles n 1 rounds p) ∧
    (0 < n.toNat → n.toNat < 2 ^ 30 →
      (∀ mode, mode ≠ .none →
        ∃ m, Checked.modulus mode n = .ok m ∧ modulus? mode n = some m ∧ 0 < m) ∧
      (∀ m, modulus? .perBankTrunc n = some m →
        IsGreatest {q | (∃ k, q = 2 ^ k) ∧ q ≤ n.toNat} m) ∧
      ∀ m, modulus? .perBankFit n = some m → ∃ k, m = 2 ^ k ∧
        (n.toNat < m ∧ 3 * m ≤ 4 * n.toNat ∨ m ≤ n.toNat ∧ 2 * n.toNat < 3 * m)) ∧
    (n = 0 → ∀ mode,
      Checked.modulus mode n = .ok 0 ∧ modulus? mode n = some 0 ∧
      (∀ (img : Image) (q : Address) (cut : Nat) (r : Range),
        img.consulted? q cut = some r → r.count = n →
        Checked.lookupAt img q mode cut = .ok none ∧ img.placeAt? q mode cut = none) ∧
      ∀ (img : Image) (q : Address) (r : Range),
        img.consulted? q (img.rangesUpTo q) = some r → r.count = n →
        img.lookup? q mode = none) := by
  refine ⟨exists_doubles_iff, ?_, fun p => powerAbove?_eq_some_iff, ?_, ?_⟩
  · intro rounds p h
    obtain ⟨hrounds, hpow⟩ := h.toNat_eq
    exact ⟨hrounds, hpow ▸ isLeast_two_pow_size n.toNat⟩
  · intro hpos hlt
    have hlt' : n.toNat < 2 ^ 31 := hlt.trans (by decide)
    refine ⟨?_, ?_, ?_⟩
    · intro mode hmode
      obtain ⟨m, -, hchecked, hm⟩ := Checked.exists_modulus_eq mode hlt
      exact ⟨m, hchecked, hm, (isModulus_of_modulus? hmode hpos hlt' hm).pos hpos⟩
    · intro m hm
      have hmodulus : IsModulus .perBankTrunc n.toNat m :=
        isModulus_of_modulus? nofun hpos hlt' hm
      exact hmodulus
    · intro m hm
      have hmodulus : IsModulus .perBankFit n.toNat m :=
        isModulus_of_modulus? nofun hpos hlt' hm
      exact hmodulus.exists_pow hpos
  · rintro rfl mode
    refine ⟨Checked.modulus_zero mode, modulus?_zero mode, ?_, ?_⟩
    · intro img q cut r hr hcount
      exact ⟨lookupAt_of_count_eq_zero hr hcount, placeAt?_of_count_eq_zero hr hcount⟩
    · intro img q r hr hcount
      rw [lookup?, place?, placeAt?_of_count_eq_zero hr hcount, Option.bind_none]

/-- Six hammerings fill three quarters of eight rows, so these are the window. A range without
hammerings leaves a lookup without an answer, though the range before it could give one. -/
theorem moduli_of_doubling_sixHammerings :
    let img : Image := ⟨2, [⟨bankCell 4 9, 1, 0⟩, ⟨bankCell 9 9, 0, 1⟩], [⟨0, 0⟩], []⟩
    let q := bankCell 12 0
    Doubles 6 1 3 8 ∧ IsLeast {p | (∃ k, p = 2 ^ k) ∧ 6 < p} 8 ∧
      (∃ m, Checked.modulus .perBankFit 6 = .ok m ∧ 0 < m) ∧
      IsGreatest {p | (∃ k, p = 2 ^ k) ∧ p ≤ 6} 4 ∧ (∃ k, 8 = 2 ^ k) ∧
      img.consulted? q 2 = some ⟨bankCell 9 9, 0, 1⟩ ∧
      Checked.lookupAt img q .perBankFit 2 = .ok none ∧ img.lookup? q .perBank = none := by
  intro img q
  have hpos : 0 < (6 : UInt32).toNat := Nat.succ_pos 5
  have hlt : (6 : UInt32).toNat < 2 ^ 30 := by decide
  obtain ⟨-, hends, hfound, hmoduli, -⟩ := moduli_of_doubling 6
  obtain ⟨-, -, -, -, hempty⟩ := moduli_of_doubling 0
  obtain ⟨rounds, hrun⟩ := (hfound 8).1 rfl
  obtain ⟨rfl, hleast⟩ := hends rounds 8 hrun
  obtain ⟨hmodes, htrunc, hfit⟩ := hmoduli hpos hlt
  obtain ⟨m, hm, -, hmpos⟩ := hmodes .perBankFit nofun
  obtain ⟨k, hk, -⟩ := hfit 8 rfl
  have hconsulted : img.consulted? q 2 = some ⟨bankCell 9 9, 0, 1⟩ := rfl
  have hcut : img.rangesUpTo q = 2 := by decide
  obtain ⟨-, -, hchecked, -⟩ := hempty rfl .perBankFit
  obtain ⟨-, -, -, hlookup⟩ := hempty rfl .perBank
  obtain ⟨hnone, -⟩ := hchecked img q 2 _ hconsulted rfl
  exact ⟨hrun, hleast, ⟨m, hm, hmpos⟩, htrunc 4 rfl, ⟨k, hk⟩, hconsulted, hnone,
    hlookup img q _ (hcut ▸ hconsulted) rfl⟩

end RowFlips.Image
