import RowFlips.Config
import RowFlips.Image.Basic
import RowFlips.Image.Checked

/-!
# Looking up rows

An image tells what hammering a row does to its neighbours. If the row was hammered, its own
hammering answers. Otherwise another row of the bank may stand in for it: one of a range near by,
at a distance that is a multiple of the range's modulus.

Functions whose steps could go wrong have a variant in `Checked` that checks each of them.
-/

namespace RowFlips

namespace Image

/-! ### Moduli -/

/-- The number doubled, up to `steps` times, until it is above `x`. -/
def doubleAbove? (x : UInt32) : Nat → UInt32 → Option UInt32
  | 0, _ => none
  | steps + 1, p => if p ≤ x then doubleAbove? x steps (p <<< 1) else some p

/-- The least power of two above `x`; `none` if 32 bits do not hold it. -/
def powerAbove? (x : UInt32) : Option UInt32 := doubleAbove? x 32 1

/-- How many rows apart two rows must be, or a multiple of that, for one to stand in for the other
by a range of `n` hammerings; 0 if none can. -/
def modulus? (mode : Extrapolation) (n : UInt32) : Option Nat :=
  match mode with
  | .none => some 0
  | .perBank => some n.toNat
  | .perBankTrunc => (powerAbove? n).map fun p => p.toNat / 2
  | .perBankFit =>
    (powerAbove? n).map fun p => if 4 * n.toNat < 3 * p.toNat then p.toNat / 2 else p.toNat

/-- `modulus?`, with its products computed in words. -/
def Checked.modulus (mode : Extrapolation) (n : UInt32) : Except Trap Nat :=
  match mode with
  | .none => .ok 0
  | .perBank => .ok n.toNat
  | .perBankTrunc => do
    let p ← orTrap .overflow (powerAbove? n)
    pure (p.toNat / 2)
  | .perBankFit => do
    let p ← orTrap .overflow (powerAbove? n)
    let filled ← word32 (4 * n.toNat)
    let enough ← word32 (3 * p.toNat)
    pure (if filled < enough then p.toNat / 2 else p.toNat)

/-! ### Finding the hammering -/

/-- The hammering that answers a lookup. -/
structure Place where
  /-- The index of the hammering. -/
  hammering : Nat
  /-- How many rows above the hammered row the one asked for lies. -/
  rowOffset : Int
deriving DecidableEq, Repr

/-- The place in a range of its own row `row`, if the range has it. -/
def exactPlace? (r : Range) (q : Address) : Option Place :=
  let d := q.rowsFrom r.start
  if r.start.SameBank q ∧ 0 ≤ d ∧ d < r.count.toNat then some ⟨r.first.toNat + d.toNat, 0⟩
  else none

/-- The row of a window of `modulus` rows around the start of the range that stands in for the
row asked for, counted from the start of the range; `none` if the range does not have it. -/
def fittedRow? (r : Range) (q : Address) (modulus : Nat) : Option Nat :=
  let below := r.start.row.toNat % modulus
  let windowStart := r.start.row &&& ~~~(UInt16.ofNat (modulus - 1))
  let d := (((q.row.toNat : Int) - windowStart.toNat) % modulus).toNat
  if d < below ∨ below + r.count.toNat ≤ d then none else some (d - below)

/-- `fittedRow?`, with the end of the range in the window computed in a word. -/
def Checked.fittedRow (r : Range) (q : Address) (modulus : Nat) : Except Trap (Option Nat) := do
  let below ← remainder r.start.row.toNat modulus
  let windowStart := r.start.row &&& ~~~(UInt16.ofNat (modulus - 1))
  let d ← remainder ((q.row.toNat : Int) - windowStart.toNat) modulus
  let stop ← word32 (below + r.count.toNat)
  pure (if d < below ∨ stop ≤ d then none else some (d - below))

/-- The row of the range that stands in for the row asked for, counted from the start of the
range. -/
def standInRow? (mode : Extrapolation) (r : Range) (q : Address) (modulus : Nat) : Option Nat :=
  if modulus = 0 then none
  else
    match mode with
    | .perBankFit => fittedRow? r q modulus
    | _ => some (q.rowsFrom r.start % modulus).toNat

/-- `standInRow?`, with checked remainders. -/
def Checked.standInRow (mode : Extrapolation) (r : Range) (q : Address) (modulus : Nat) :
    Except Trap (Option Nat) :=
  if modulus = 0 then pure none
  else
    match mode with
    | .perBankFit => fittedRow r q modulus
    | _ => (remainder (q.rowsFrom r.start) modulus).map some

/-- The place of a row of the range that stands in for the row asked for. -/
def extrapolatedPlace? (mode : Extrapolation) (q : Address) (r : Range) : Option Place := do
  let modulus ← modulus? mode r.count
  let d ← standInRow? mode r q modulus
  pure ⟨r.first.toNat + d, q.rowsFrom (r.start.addRows d)⟩

/-- `extrapolatedPlace?`, with every step checked. -/
def Checked.extrapolatedPlace (mode : Extrapolation) (q : Address) (r : Range) :
    Except Trap (Option Place) := do
  let modulus ← modulus mode r.count
  let d ← standInRow mode r q modulus
  pure (d.map fun d => ⟨r.first.toNat + d, q.rowsFrom (r.start.addRows d)⟩)

/-- The number of ranges at the front that start no later than the row asked for, whatever their
column. -/
def rangesUpTo (img : Image) (q : Address) : Nat :=
  (img.ranges.takeWhile fun r => r.start.rowKey ≤ q.rowKey).length

/-- The place that answers a lookup when the first `cut` ranges are taken as those that start no
later than the row asked for. The last of them answers if it has the row. Otherwise, if lookups
are extrapolated, it or the next one stands in, whichever first lies in the bank. -/
def placeAt? (img : Image) (q : Address) (mode : Extrapolation) (cut : Nat) : Option Place :=
  let before := if cut = 0 then none else img.ranges[cut - 1]?
  let after := img.ranges[cut]?
  match before.bind (exactPlace? · q) with
  | some place => some place
  | none =>
    match mode with
    | .none => none
    | mode =>
      ((before.toList ++ after.toList).find? fun r => r.start.SameBank q).bind
        (extrapolatedPlace? mode q)

/-- `placeAt?`, with every step checked. -/
def Checked.placeAt (img : Image) (q : Address) (mode : Extrapolation) (cut : Nat) :
    Except Trap (Option Place) :=
  let before := if cut = 0 then none else img.ranges[cut - 1]?
  let after := img.ranges[cut]?
  match before.bind (exactPlace? · q) with
  | some place => pure (some place)
  | none =>
    match mode with
    | .none => pure none
    | mode =>
      match (before.toList ++ after.toList).find? fun r => r.start.SameBank q with
      | none => pure none
      | some r => extrapolatedPlace mode q r

/-- The place that answers a lookup. -/
def place? (img : Image) (q : Address) (mode : Extrapolation) : Option Place :=
  img.placeAt? q mode (img.rangesUpTo q)

/-! ### Answers -/

/-- The answer to a lookup. -/
structure Hit where
  /-- The flip records of the hammering that answers. -/
  records : List Record
  /-- How many rows above the hammered row the one asked for lies. -/
  rowOffset : Int
deriving DecidableEq, Repr

namespace Hit

/-- The answer comes from another row. -/
def isExtrapolated (h : Hit) : Bool := h.rowOffset ≠ 0

/-- The flips to expect: those of the hammering that answers, moved by the offset. -/
def flips (h : Hit) : List Flip :=
  (h.records.flatMap Record.flips).map fun f => { f with addr := f.addr.addRows h.rowOffset }

end Hit

/-- The answer that a place gives; `none` if an index lies outside its table. -/
def hitAt? (img : Image) (p : Place) : Option Hit := do
  let h ← img.hammerings[p.hammering]?
  let records ← h.records? img.records.toArray
  pure ⟨records, p.rowOffset⟩

/-- `hitAt?`, with the index of the hammering computed in a word. -/
def Checked.hitAt (img : Image) (place : Place) : Except Trap Hit := do
  let index ← word32 place.hammering
  let h ← orTrap .outside img.hammerings[index]?
  let records ← orTrap .outside (h.records? img.records.toArray)
  pure ⟨records, place.rowOffset⟩

/-- What hammering `q` first does, as far as the image tells. -/
def lookup? (img : Image) (q : Address) (mode : Extrapolation) : Option Hit :=
  (img.place? q mode).bind img.hitAt?

/-- `lookup?`, with every step checked and wherever the search stops. -/
def Checked.lookupAt (img : Image) (q : Address) (mode : Extrapolation) (cut : Nat) :
    Except Trap (Option Hit) := do
  match ← placeAt img q mode cut with
  | none => pure none
  | some place => (hitAt img place).map some

end Image

end RowFlips
