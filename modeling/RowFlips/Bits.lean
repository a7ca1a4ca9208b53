/-!
# Bits of bytes and words

The bits of a byte are numbered from 0, the lowest. File offsets are 64 bit words, which wrap.
-/

namespace RowFlips

/-- The numbers of the bits set in a byte, lowest first. -/
def setBits (mask : UInt8) : List (Fin 8) :=
  (List.finRange 8).filter fun b => mask.toNat.testBit b

/-- A bit is listed exactly if it is set. -/
@[simp] theorem mem_setBits {mask : UInt8} {b : Fin 8} :
    b ∈ setBits mask ↔ mask.toNat.testBit b = true := by
  simp [setBits]

/-- The byte with the one bit `b` set. -/
def bitMask (b : Fin 8) : UInt8 := 1 <<< UInt8.ofNat b

/-- A number of `i` bits and one that starts behind them share no bit, so joining their bits adds
them. -/
theorem or_shiftLeft_of_lt {x i : Nat} (y : Nat) (h : x < 1 <<< i) :
    x ||| y <<< i = x + y <<< i := by
  rw [Nat.one_shiftLeft] at h
  rw [Nat.or_comm, ← Nat.shiftLeft_add_eq_or_of_lt h, Nat.add_comm]

/-- Clears the bits of `align - 1` in `n + align - 1`: when `align` is a power of two and nothing
wraps, this is the least multiple of `align` that is not below `n`. -/
def alignUp (n align : UInt64) : UInt64 := (n + align - 1) &&& ~~~(align - 1)

end RowFlips
