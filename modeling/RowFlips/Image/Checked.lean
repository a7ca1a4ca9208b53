import RowFlips.Bits

/-!
# Checked steps

What is computed in words wraps, a remainder by zero does not exist, and neither does what lies
outside of a table. Here are the steps that say so: each gives what it is meant to give, or fails.
Functions that look into images and lay out their files have a variant made of such steps beside
them, under the same name in `Checked`, which tells whether they ever rely on a step that fails.

## Main results

* `Checked.word32_eq`, `Checked.remainder_eq`: when steps on numbers do not fail.
* `Checked.add64_eq`, `Checked.sub64_eq`, `Checked.mul64_eq`: when steps on words do not fail.
-/

namespace RowFlips.Image

/-- What can go wrong in a step. -/
inductive Trap where
  /-- An index lies outside its table. -/
  | outside
  /-- A remainder by zero. -/
  | zeroModulus
  /-- A number that does not fit its word. -/
  | overflow
deriving DecidableEq, Repr

namespace Checked

/-! ### Numbers -/

/-- The value, if there is one. -/
def orTrap {α : Type} (trap : Trap) : Option α → Except Trap α
  | some a => .ok a
  | none => .error trap

/-- The number, if a word of 32 bits holds it. -/
def word32 (n : Nat) : Except Trap Nat :=
  if n < UInt32.size then .ok n else .error .overflow

/-- The remainder by a modulus that a signed word holds. -/
def remainder (n : Int) (modulus : Nat) : Except Trap Nat :=
  if modulus = 0 then .error .zeroModulus
  else if 1 <<< 31 ≤ modulus then .error .overflow
  else .ok (n % modulus).toNat

/-- A number below 2³² is its own word. -/
theorem word32_eq {n : Nat} (h : n < UInt32.size) : word32 n = .ok n := if_pos h

/-- Remainders by moduli from 1 up to 2³¹ do not fail. -/
theorem remainder_eq {m : Nat} (n : Int) (hne : m ≠ 0) (hlt : m < 1 <<< 31) :
    remainder n m = .ok (n % m).toNat := by
  rw [remainder, if_neg hne, if_neg (Nat.not_le.2 hlt)]

/-! ### Words of 64 bits -/

/-- The word that a step gave, if it is the exact result of the step. -/
def exactly (exact : Int) (word : UInt64) : Except Trap UInt64 :=
  if word.toNat = exact then .ok word else .error .overflow

/-- A sum of words. -/
def add64 (a b : UInt64) : Except Trap UInt64 := exactly (a.toNat + b.toNat) (a + b)

/-- A difference of words. -/
def sub64 (a b : UInt64) : Except Trap UInt64 := exactly (a.toNat - b.toNat) (a - b)

/-- A product of words. -/
def mul64 (a b : UInt64) : Except Trap UInt64 := exactly (a.toNat * b.toNat) (a * b)

section Words

variable {a b : UInt64}

/-- A sum below 2⁶⁴ does not fail. -/
theorem add64_eq (h : a.toNat + b.toNat < UInt64.size) : add64 a b = .ok (a + b) := by
  refine if_pos ?_
  rw [UInt64.size] at h
  rw [UInt64.toNat_add, Nat.mod_eq_of_lt h]
  exact Int.natCast_add _ _

/-- A difference that is not negative does not fail. -/
theorem sub64_eq (h : b.toNat ≤ a.toNat) : sub64 a b = .ok (a - b) := by
  refine if_pos ?_
  rw [UInt64.toNat_sub_of_le _ _ (UInt64.le_iff_toNat_le.2 h)]
  exact Int.natCast_sub h

/-- A product below 2⁶⁴ does not fail. -/
theorem mul64_eq (h : a.toNat * b.toNat < UInt64.size) : mul64 a b = .ok (a * b) := by
  refine if_pos ?_
  rw [UInt64.size] at h
  rw [UInt64.toNat_mul, Nat.mod_eq_of_lt h]
  exact Int.natCast_mul _ _

end Words

/-- `RowFlips.alignUp`, with every step checked. -/
def alignUp (n align : UInt64) : Except Trap UInt64 := do
  let sum ← add64 n align
  let last ← sub64 sum 1
  let mask ← sub64 align 1
  pure (last &&& ~~~mask)

end Checked

end RowFlips.Image
