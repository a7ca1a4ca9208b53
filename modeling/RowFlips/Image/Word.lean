import RowFlips.Text.Bytes

/-!
# Words in bytes

Numbers are stored with their lowest byte first. Reading takes bytes off the front and fails if
there are too few.

## Main results

* `takeWord?_word_append`: a stored number reads back, and leaves what follows it.
-/

namespace RowFlips.Image

open Text (Bytes)

/-- The lowest `width` bytes of a number, lowest first. -/
def word : Nat → Nat → Bytes
  | 0, _ => []
  | width + 1, n => UInt8.ofNat n :: word width (n / 256)

/-- The number that `width` bytes at the front store, and what follows them; `none` if there are
fewer. -/
def takeWord? : Nat → Bytes → Option (Nat × Bytes)
  | 0, b => some (0, b)
  | _ + 1, [] => none
  | width + 1, x :: b => (takeWord? width b).map fun (n, rest) => (x.toNat + 256 * n, rest)

/-- A number is stored in `width` bytes, whatever it is. -/
@[simp] theorem length_word (width n : Nat) : (word width n).length = width := by
  induction width generalizing n with
  | zero => rfl
  | succ width ih => simp [word, ih]

/-- A stored number reads back, and leaves what follows it. -/
theorem takeWord?_word_append {width n : Nat} (h : n < 1 <<< (8 * width)) (rest : Bytes) :
    takeWord? width (word width n ++ rest) = some (n, rest) := by
  induction width generalizing n with
  | zero => simp [word, takeWord?, show n = 0 by omega]
  | succ width ih =>
    have hlt : n / 256 < 1 <<< (8 * width) := by
      rw [Nat.one_shiftLeft] at h ⊢
      rw [Nat.mul_succ, Nat.pow_add] at h
      omega
    simp only [word, List.cons_append, takeWord?, ih hlt, Option.map_some, UInt8.toNat_ofNat']
    rw [show n % 2 ^ 8 + 256 * (n / 256) = n by omega]

/-- The values that `count` readings take off the front one after the other, behind those in `done`,
the last one first. -/
def takeMany? {α : Type} (take? : Bytes → Option (α × Bytes)) :
    Nat → List α → Bytes → Option (List α)
  | 0, done, _ => some done.reverse
  | count + 1, done, b =>
    match take? b with
    | none => none
    | some (a, rest) => takeMany? take? count (a :: done) rest

end RowFlips.Image
