import RowFlips.Log.Corruption

/-!
# Flips byte by byte

The flips in one byte of a cell fit two masks, one for each direction. Both stored forms of an
attack, the text and the binary image, hold its flips this way.
-/

namespace RowFlips

/-- The flips in one byte of a cell. -/
structure ByteMask where
  /-- The cell that holds the byte. -/
  addr : Address
  /-- The number of the byte in its cell. -/
  cellByte : UInt32
  /-- The bits that went from 0 to 1. -/
  pullup : UInt8
  /-- The bits that went from 1 to 0. -/
  pulldown : UInt8
deriving DecidableEq, Repr, Inhabited

namespace ByteMask

/-- The masks with the bit of `f` set in the mask of its direction. -/
def insert (m : ByteMask) (f : Flip) : ByteMask :=
  match f.direction with
  | .up => { m with pullup := m.pullup ||| bitMask f.bitInByte }
  | .down => { m with pulldown := m.pulldown ||| bitMask f.bitInByte }

/-- The masks of a byte with the one flip `f`. -/
def single (f : Flip) : ByteMask := insert ⟨f.addr, f.cellByte, 0, 0⟩ f

/-- The flip lies in the byte that the masks describe. -/
def Covers (m : ByteMask) (f : Flip) : Prop := f.addr = m.addr ∧ f.cellByte = m.cellByte

instance (m : ByteMask) (f : Flip) : Decidable (m.Covers f) :=
  inferInstanceAs (Decidable (_ ∧ _))

/-- The masks of the flips that follow those gathered in `m`, with neighbours in one byte put
together. -/
def groupFrom (m : ByteMask) : List Flip → List ByteMask
  | [] => [m]
  | f :: fs => if m.Covers f then groupFrom (m.insert f) fs else m :: groupFrom (single f) fs

/-- The masks of a list of flips, with neighbours in one byte put together. -/
def group : List Flip → List ByteMask
  | [] => []
  | f :: fs => groupFrom (single f) fs

/-- The flips that the masks record. -/
def flips (m : ByteMask) : List Flip := maskFlips m.addr m.cellByte m.pullup m.pulldown

end ByteMask

/-- The masks of a set of flips, one for each byte that has a flip. -/
def FlipSet.byteMasks (s : FlipSet) : List ByteMask := ByteMask.group s.toList

end RowFlips
