import Mathlib.Data.Nat.Size
import Mathlib.Data.UInt
import Mathlib.Order.Bounds.Basic
import RowFlips.Bits

/-!
# Numbers, words and their bits

What is true of numbers and words whatever they stand for: how numbers compare that are put
together from digits, which powers of two are next to a number and what a word keeps of them, and
what clearing and complementing bits does to a word.

## Main results

* `compare_shiftLeft_add`: numbers are compared digit by digit.
* `isLeast_two_pow_size`, `isGreatest_two_pow_size`: the powers of two next to a number.
* `ofNat_two_pow_shiftLeft`: doubling what a word keeps of a power of two.
* `toNat_and_not`: clearing the lowest bits rounds down to a multiple of a power of two.
* `byte_ext`: bytes with the same bits are equal.
-/

namespace RowFlips

/-! ### Digits -/

/-- A greater digit counts for more than all below it. -/
theorem shiftLeft_add_lt {x y r i : Nat} (hxy : x < y) (hr : r < 1 <<< i) :
    x <<< i + r < y <<< i := by
  have hmul := Nat.mul_le_mul_right (1 <<< i) (Nat.succ_le_of_lt hxy)
  rw [Nat.succ_mul, Nat.one_shiftLeft, ← Nat.shiftLeft_eq, ← Nat.shiftLeft_eq] at hmul
  rw [Nat.one_shiftLeft] at hr
  omega

/-- Numbers compare by what stands above some lowest bits, and then by these. -/
theorem compare_shiftLeft_add {x y r s i : Nat} (hr : r < 1 <<< i) (hs : s < 1 <<< i) :
    compare (x <<< i + r) (y <<< i + s) = (compare x y).then (compare r s) := by
  rcases Nat.lt_trichotomy x y with hxy | rfl | hyx
  · have hlt := Nat.lt_add_right s (shiftLeft_add_lt hxy hr)
    rw [Nat.compare_eq_lt.2 hxy, Nat.compare_eq_lt.2 hlt, Ordering.lt_then]
  · rw [Nat.compare_eq_eq.2 rfl, Ordering.eq_then]
    rcases Nat.lt_trichotomy r s with hrs | rfl | hsr
    · rw [Nat.compare_eq_lt.2 hrs, Nat.compare_eq_lt.2 (Nat.add_lt_add_left hrs _)]
    · rw [Nat.compare_eq_eq.2 rfl, Nat.compare_eq_eq.2 rfl]
    · rw [Nat.compare_eq_gt.2 hsr, Nat.compare_eq_gt.2 (Nat.add_lt_add_left hsr _)]
  · have hlt := Nat.lt_add_right r (shiftLeft_add_lt hyx hs)
    rw [Nat.compare_eq_gt.2 hyx, Nat.compare_eq_gt.2 hlt, Ordering.gt_then]

/-! ### Powers of two -/

/-- The least power of two above `n` has the number of bits of `n` for its exponent. -/
theorem isLeast_two_pow_size (n : Nat) : IsLeast {p | (∃ k, p = 2 ^ k) ∧ n < p} (2 ^ n.size) := by
  refine ⟨⟨⟨_, rfl⟩, Nat.lt_size_self n⟩, ?_⟩
  rintro _ ⟨⟨k, rfl⟩, hk⟩
  exact Nat.pow_le_pow_right (by decide) (Nat.size_le.2 hk)

/-- Half of it is the greatest power of two that is not above `n`. -/
theorem isGreatest_two_pow_size {n : Nat} (h : 0 < n) :
    IsGreatest {p | (∃ k, p = 2 ^ k) ∧ p ≤ n} (2 ^ n.size / 2) := by
  obtain ⟨m, hm⟩ := Nat.exists_eq_succ_of_ne_zero (Nat.size_pos.2 h).ne'
  have hhalf : 2 ^ n.size / 2 = 2 ^ m := by
    rw [hm, Nat.pow_succ, Nat.mul_div_cancel _ (by decide)]
  rw [hhalf]
  refine ⟨⟨⟨m, rfl⟩, Nat.lt_size.1 (by omega)⟩, ?_⟩
  rintro _ ⟨⟨k, rfl⟩, hk⟩
  have := Nat.lt_size.2 hk
  exact Nat.pow_le_pow_right (by decide) (by omega)

/-- Doubling takes what a word keeps of a power of two to what it keeps of the next. -/
theorem ofNat_two_pow_shiftLeft (k : Nat) :
    UInt32.ofNat (2 ^ k) <<< 1 = UInt32.ofNat (2 ^ (k + 1)) := by
  have hshift : (UInt32.ofNat (2 ^ k) <<< 1).toNat = (UInt32.ofNat (2 ^ k)).toNat <<< 1 % 2 ^ 32 :=
    UInt32.toNat_shiftLeft _ 1
  rw [← UInt32.toNat_inj, hshift, UInt32.toNat_ofNat', UInt32.toNat_ofNat', Nat.shiftLeft_eq,
    pow_one, Nat.mod_mul_mod, pow_succ 2 k]

/-- A word keeps at most 2³¹ of a power of two. -/
theorem toNat_ofNat_two_pow_le (k : Nat) : (UInt32.ofNat (2 ^ k)).toNat ≤ 2 ^ 31 := by
  rw [UInt32.toNat_ofNat']
  rcases Nat.lt_or_ge k 32 with hk | hk
  · exact (Nat.mod_le _ _).trans (Nat.pow_le_pow_right (by decide) (Nat.le_of_lt_succ hk))
  · rw [Nat.mod_eq_zero_of_dvd (Nat.pow_dvd_pow 2 hk)]
    exact Nat.zero_le _

/-! ### Words that count at least one -/

/-- Taking 0 for 1 in words is the same as in numbers. -/
theorem toNat_max_one (n : UInt32) : (max n 1).toNat = max n.toNat 1 := by
  have hmax : max n 1 = if n ≤ 1 then 1 else n := rfl
  rw [hmax]
  split
  · rename_i h
    exact (Nat.max_eq_right (UInt32.le_iff_toNat_le.1 h)).symm
  · rename_i h
    exact (Nat.max_eq_left (Nat.le_of_lt (UInt32.lt_iff_toNat_lt.1 (UInt32.not_le.1 h)))).symm

/-- So there is at least one of what it counts. -/
theorem max_one_pos (n : UInt32) : 0 < max n 1 := by
  rw [UInt32.lt_iff_toNat_lt, toNat_max_one]
  exact Nat.lt_of_lt_of_le Nat.one_pos (Nat.le_max_right _ _)

/-! ### Clearing bits -/

/-- Clearing the `k` lowest bits shifts them out and zeros in. -/
theorem and_not_eq_shiftLeft {w : Nat} (x : BitVec w) (k : Nat) :
    x &&& ~~~BitVec.ofNat w (1 <<< k - 1) = (x >>> k) <<< k := by
  apply BitVec.eq_of_getLsbD_eq
  intro i hi
  rw [BitVec.getLsbD_and, BitVec.getLsbD_not, BitVec.getLsbD_ofNat, Nat.one_shiftLeft,
    Nat.testBit_two_pow_sub_one, BitVec.getLsbD_shiftLeft, BitVec.getLsbD_ushiftRight]
  by_cases hk : i < k
  · simp [hk, hi]
  · simp [hk, hi, show k + (i - k) = i by omega]

/-- Clearing the `k` lowest bits rounds down to a multiple of `2 ^ k`. -/
theorem toNat_and_not {w : Nat} (x : BitVec w) (k : Nat) :
    (x &&& ~~~BitVec.ofNat w (1 <<< k - 1)).toNat = x.toNat / 1 <<< k * 1 <<< k := by
  have hle := Nat.div_mul_le_self x.toNat (1 <<< k)
  rw [and_not_eq_shiftLeft, BitVec.toNat_shiftLeft, BitVec.toNat_ushiftRight, Nat.shiftLeft_eq,
    Nat.shiftRight_eq_div_pow, ← Nat.one_shiftLeft k, Nat.mod_eq_of_lt (by omega)]

/-! ### Bytes -/

/-- The complement of a byte has the other bits. -/
theorem testBit_complement (x : UInt8) (b : Fin 8) :
    (~~~x).toNat.testBit b = !x.toNat.testBit b := by
  have h (y : UInt8) : y.toNat.testBit b = y.toBitVec.getLsbD b := BitVec.testBit_toNat _
  simp only [h, UInt8.toBitVec_not, BitVec.getLsbD_not, b.isLt, decide_true, Bool.true_and]

/-- Bytes with the same bits are equal. -/
theorem byte_ext {x y : UInt8} (h : ∀ b : Fin 8, x.toNat.testBit b = y.toNat.testBit b) :
    x = y := by
  refine UInt8.toNat_inj.1 (Nat.eq_of_testBit_eq fun i => ?_)
  by_cases hi : i < 8
  · exact h ⟨i, hi⟩
  · have hlt (z : UInt8) : z.toNat < 2 ^ i :=
      Nat.lt_of_lt_of_le z.toNat_lt (Nat.pow_le_pow_right (by decide) (Nat.le_of_not_lt hi))
    rw [Nat.testBit_lt_two_pow (hlt x), Nat.testBit_lt_two_pow (hlt y)]

end RowFlips
