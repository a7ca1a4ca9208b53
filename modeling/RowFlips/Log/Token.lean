import RowFlips.Error
import RowFlips.Text.Blank

/-!
# Words of a log

A line of a log is made of addresses and corruptions. An address is five or six hexadecimal
fields between parentheses; a missing sixth field, the column, is 0. A corruption is three
hexadecimal numerals joined by bars. Blanks may surround either.

## Main results

* `Token.length_read_lt`: reading a token uses up text, so reading a line ends.
-/

namespace RowFlips

/-! ### Fields -/

/-- The numeral without a plus sign at its start. -/
def dropPlus : List Char → List Char
  | '+' :: cs => cs
  | cs => cs

/-- The number that a field of an address or a corruption stands for. -/
def Field.read (field : Field) (cs : List Char) : Except Malformed Nat :=
  match Hex.valueBelow? UInt64.size (dropPlus cs) with
  | none => .error (.notHex field cs)
  | some n => if field.size ≤ n then .error (.outOfRange field cs) else .ok n

/-! ### Addresses -/

namespace Address

/-- The address with the given fields, the column 0 if it is missing. -/
def ofFields (chan dimm rank bank row : List Char) (col : Option (List Char)) :
    Except Malformed Address := do
  let chan ← Field.channel.read chan
  let dimm ← Field.dimm.read dimm
  let rank ← Field.rank.read rank
  let bank ← Field.bank.read bank
  let row ← Field.row.read row
  let col ← match col with
    | none => pure 0
    | some col => Field.column.read col
  pure ⟨.ofNat chan, .ofNat dimm, .ofNat rank, .ofNat bank, .ofNat row, .ofNat col⟩

/-- The address whose fields stand in `inner`, separated by blanks. -/
def ofInner (inner : List Char) : Except Malformed Address :=
  match Text.words inner with
  | [chan, dimm, rank, bank, row] => ofFields chan dimm rank bank row none
  | [chan, dimm, rank, bank, row, col] => ofFields chan dimm rank bank row (some col)
  | fields => .error (.fieldCount fields.length inner)

/-- The text between an opening parenthesis at the start and a closing one at the end; the whole
text unless it has both. -/
def stripParens (s : List Char) : List Char :=
  match s with
  | '(' :: rest => if rest.getLast? = some ')' then rest.dropLast else s
  | _ => s

/-- The address that a text stands for, with or without its parentheses. -/
def parse (s : List Char) : Except Malformed Address := ofInner (stripParens (Text.trim s))

end Address

/-! ### Tokens -/

/-- An element of a line. -/
inductive Token where
  | address (a : Address)
  | corruption (c : Corruption)
deriving DecidableEq, Repr

namespace Token

/-- The character may stand between the parentheses of an address. -/
def isInner (c : Char) : Bool := c != '(' && c != ')'

/-- The longest numeral at the start of a text, and what follows it. -/
def numeral? (cs : List Char) : Option (List Char × List Char) :=
  if (cs.takeWhile Hex.isDigit).isEmpty then none
  else some (cs.takeWhile Hex.isDigit, cs.dropWhile Hex.isDigit)

/-- The longest numeral at the start of a text if a bar follows it, and what follows the bar. -/
def numeralBar? (cs : List Char) : Option (List Char × List Char) :=
  match numeral? cs with
  | some (n, '|' :: rest) => some (n, rest)
  | _ => none

/-- The three numerals of a corruption at the start of a text, and what follows them. -/
def numerals? (cs : List Char) : Option (List Char × List Char × List Char × List Char) := do
  let (offset, cs) ← numeralBar? cs
  let (got, cs) ← numeralBar? cs
  let (expected, cs) ← numeral? cs
  pure (offset, got, expected, cs)

/-- The corruption with the given numerals. -/
def corruptionOf (offset got expected : List Char) : Except Malformed Corruption := do
  let offset ← Field.offset.read offset
  let got ← Field.observed.read got
  let expected ← Field.expected.read expected
  pure ⟨.ofNat offset, .ofNat got, .ofNat expected⟩

/-- The token at the start of a text, and what follows it. -/
def read (cs : List Char) : Except Malformed (Token × List Char) :=
  match cs with
  | '(' :: rest =>
    match rest.dropWhile isInner with
    | ')' :: after => (Address.ofInner (rest.takeWhile isInner)).map (address ·, after)
    | _ => .error (.unexpected cs)
  | _ =>
    match numerals? cs with
    | some (offset, got, expected, after) =>
      (corruptionOf offset got expected).map (corruption ·, after)
    | none => .error (.unexpected cs)

/-! ### Progress -/

/-- Reading a numeral leaves fewer characters than there were. -/
theorem length_numeral?_lt {cs n rest : List Char} (h : numeral? cs = some (n, rest)) :
    rest.length < cs.length := by
  rw [numeral?] at h
  split at h
  · cases h
  · rename_i hne
    cases h
    have happ := congrArg List.length (List.takeWhile_append_dropWhile (p := Hex.isDigit) (l := cs))
    rw [List.length_append] at happ
    have hpos : 0 < (cs.takeWhile Hex.isDigit).length :=
      List.length_pos_iff.2 fun hnil => hne (by rw [hnil]; rfl)
    omega

/-- So does reading one with a bar behind it. -/
theorem length_numeralBar?_lt {cs n rest : List Char} (h : numeralBar? cs = some (n, rest)) :
    rest.length < cs.length := by
  rw [numeralBar?] at h
  split at h
  · rename_i hn
    cases h
    have := length_numeral?_lt hn
    simp only [List.length_cons] at this
    omega
  · cases h

/-- So does reading the three numerals of a corruption. -/
theorem length_numerals?_lt {cs o g e rest : List Char} (h : numerals? cs = some (o, g, e, rest)) :
    rest.length < cs.length := by
  simp only [numerals?, Option.bind_eq_bind, Option.bind_eq_some_iff, Option.pure_def,
    Option.some.injEq, Prod.exists, Prod.mk.injEq] at h
  obtain ⟨_, _, h₁, _, _, h₂, _, _, h₃, _, _, _, rfl⟩ := h
  have := length_numeralBar?_lt h₁
  have := length_numeralBar?_lt h₂
  have := length_numeral?_lt h₃
  omega

/-- Reading a token leaves less text than there was. -/
theorem length_read_lt {cs rest : List Char} {t : Token} (h : read cs = .ok (t, rest)) :
    rest.length < cs.length := by
  unfold read at h
  split at h
  · rename_i inner
    split at h
    · rename_i after hafter
      cases ha : Address.ofInner (inner.takeWhile isInner) with
      | error => rw [ha] at h; cases h
      | ok a =>
        rw [ha] at h
        cases h
        have := (List.dropWhile_sublist isInner (l := inner)).length_le
        rw [hafter] at this
        simp only [List.length_cons] at this ⊢
        omega
    · cases h
  · split at h
    · rename_i o g e after hnum
      cases hc : corruptionOf o g e with
      | error => rw [hc] at h; cases h
      | ok c =>
        rw [hc] at h
        cases h
        exact length_numerals?_lt hnum
    · cases h

/-- The tokens of a text, in order. -/
def tokens (cs : List Char) : Except Malformed (List Token) :=
  match _hs : Text.trimStart cs with
  | [] => .ok []
  | c :: s =>
    match _hr : read (c :: s) with
    | .error e => .error e
    | .ok (t, rest) => (tokens rest).map (t :: ·)
termination_by cs.length
decreasing_by
  have h₁ := length_read_lt _hr
  have h₂ := Text.length_trimStart_le cs
  rw [_hs] at h₂
  omega

end Token

end RowFlips
