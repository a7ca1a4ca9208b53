import RowFlips.Text.Hex

/-!
# Words of a JSON text

A JSON text is made of punctuation marks, the words `null`, `true` and `false`, numbers and
strings, with blanks between them at will.

## Main results

* `Token.length_read?_lt`: reading a token uses up text, so reading a text ends.
-/

namespace RowFlips.Json

/-- An element of a JSON text. -/
inductive Token where
  | openBrace | closeBrace | openBracket | closeBracket | colon | comma
  | null | true | false
  /-- A number as it is written. -/
  | number (literal : List Char)
  /-- A string, with its text if it has one. -/
  | string (text : Option String)
deriving DecidableEq, Repr

namespace Token

/-- The character may stand between tokens. -/
def isBlank (c : Char) : Bool := c == ' ' || c == '\t' || c == '\n' || c == '\r'

/-! ### Strings -/

/-- What a string is written with: characters, and 16 bit units given by number. -/
inductive Piece where
  | char (c : Char)
  | unit (u : Nat)

/-- The text that pieces spell. Two units that make a surrogate pair spell one character; `none`
for half a pair. -/
def spell : List Piece → Option (List Char)
  | [] => some []
  | .char c :: ps => (spell ps).map (c :: ·)
  | .unit u :: .unit v :: ps =>
    if 0xD800 ≤ u ∧ u < 0xDC00 ∧ 0xDC00 ≤ v ∧ v < 0xE000 then
      (spell ps).map (Char.ofNat (0x10000 + (u - 0xD800) * 0x400 + (v - 0xDC00)) :: ·)
    else if 0xD800 ≤ u ∧ u < 0xE000 then none
    else (spell (.unit v :: ps)).map (Char.ofNat u :: ·)
  | .unit u :: ps => if 0xD800 ≤ u ∧ u < 0xE000 then none else (spell ps).map (Char.ofNat u :: ·)

/-- The character that a letter after a backslash stands for. -/
def escape? : Char → Option Char
  | '"' => some '"'
  | '\\' => some '\\'
  | '/' => some '/'
  | 'b' => some '\x08'
  | 'f' => some '\x0c'
  | 'n' => some '\n'
  | 'r' => some '\r'
  | 't' => some '\t'
  | _ => none

/-- The number of four hexadecimal digits. -/
def unit? (a b c d : Char) : Option Nat := do
  let a ← Hex.digit? a
  let b ← Hex.digit? b
  let c ← Hex.digit? c
  let d ← Hex.digit? d
  pure (((a * 16 + b) * 16 + c) * 16 + d)

/-- The pieces up to the closing quote, behind those in `done`, the last one first, and what
follows the quote. -/
def takePieces? (done : List Piece) : List Char → Option (List Piece × List Char)
  | [] => none
  | '"' :: cs => some (done.reverse, cs)
  | '\\' :: 'u' :: a :: b :: c :: d :: cs =>
    match unit? a b c d with
    | none => none
    | some u => takePieces? (.unit u :: done) cs
  | '\\' :: e :: cs =>
    match escape? e with
    | none => none
    | some c => takePieces? (.char c :: done) cs
  | c :: cs => if c.toNat < 0x20 then none else takePieces? (.char c :: done) cs

/-! ### Numbers -/

/-- The longest run of digits at the start, which must not be empty, and what follows it. -/
def takeDigits? (cs : List Char) : Option (List Char × List Char) :=
  if (cs.takeWhile Char.isDigit).isEmpty then none
  else some (cs.takeWhile Char.isDigit, cs.dropWhile Char.isDigit)

/-- The digits before the point: a zero alone, or digits of which the first is not zero. -/
def takeWhole? : List Char → Option (List Char × List Char)
  | '0' :: cs => some (['0'], cs)
  | cs => takeDigits? cs

/-- A point and the digits after it, if there is a point. -/
def takeFraction? : List Char → Option (List Char × List Char)
  | '.' :: cs => (takeDigits? cs).map fun (ds, cs) => ('.' :: ds, cs)
  | cs => some ([], cs)

/-- The sign of an exponent, if there is one. -/
def takeSign : List Char → List Char × List Char
  | '+' :: cs => (['+'], cs)
  | '-' :: cs => (['-'], cs)
  | cs => ([], cs)

/-- A letter `e` or `E` with the exponent after it, if there is such a letter. -/
def takeExponent? : List Char → Option (List Char × List Char)
  | [] => some ([], [])
  | e :: cs =>
    if e == 'e' || e == 'E' then
      (takeDigits? (takeSign cs).2).map fun (ds, rest) => (e :: (takeSign cs).1 ++ ds, rest)
    else some ([], e :: cs)

/-- A number without a minus sign, and what follows it. -/
def takeUnsigned? (cs : List Char) : Option (List Char × List Char) := do
  let (whole, cs) ← takeWhole? cs
  let (fraction, cs) ← takeFraction? cs
  let (exponent, cs) ← takeExponent? cs
  pure (whole ++ fraction ++ exponent, cs)

/-- A number, and what follows it. -/
def takeNumber? : List Char → Option (List Char × List Char)
  | '-' :: cs => (takeUnsigned? cs).map fun (ds, cs) => ('-' :: ds, cs)
  | cs => takeUnsigned? cs

/-! ### Tokens -/

/-- The token at the start of a text that does not start with a blank, and what follows it. -/
def read? : List Char → Option (Token × List Char)
  | '{' :: cs => some (openBrace, cs)
  | '}' :: cs => some (closeBrace, cs)
  | '[' :: cs => some (openBracket, cs)
  | ']' :: cs => some (closeBracket, cs)
  | ':' :: cs => some (colon, cs)
  | ',' :: cs => some (comma, cs)
  | 'n' :: 'u' :: 'l' :: 'l' :: cs => some (null, cs)
  | 't' :: 'r' :: 'u' :: 'e' :: cs => some (true, cs)
  | 'f' :: 'a' :: 'l' :: 's' :: 'e' :: cs => some (false, cs)
  | '"' :: cs => (takePieces? [] cs).map fun (ps, cs) => (string ((spell ps).map String.ofList), cs)
  | cs => (takeNumber? cs).map fun (literal, cs) => (number literal, cs)

/-! ### Progress -/

/-- Reading the pieces of a string leaves no more characters than there were. -/
theorem length_takePieces?_le {done ps : List Piece} {cs rest : List Char}
    (h : takePieces? done cs = some (ps, rest)) : rest.length ≤ cs.length := by
  fun_induction takePieces? done cs <;> simp_all <;> omega

/-- Reading digits leaves fewer characters than there were. -/
theorem length_takeDigits?_lt {cs ds rest : List Char} (h : takeDigits? cs = some (ds, rest)) :
    rest.length < cs.length := by
  rw [takeDigits?] at h
  split at h
  · cases h
  · rename_i hne
    cases h
    have happ := congrArg List.length
      (List.takeWhile_append_dropWhile (p := Char.isDigit) (l := cs))
    rw [List.length_append] at happ
    have hpos : 0 < (cs.takeWhile Char.isDigit).length :=
      List.length_pos_iff.2 fun hnil => hne (by rw [hnil]; rfl)
    omega

/-- So does reading the part of a number before its point. -/
theorem length_takeWhole?_lt {cs ds rest : List Char} (h : takeWhole? cs = some (ds, rest)) :
    rest.length < cs.length := by
  unfold takeWhole? at h
  split at h
  · cases h; simp
  · exact length_takeDigits?_lt h

/-- The part behind the point may be missing, so that no character is taken. -/
theorem length_takeFraction?_le {cs ds rest : List Char} (h : takeFraction? cs = some (ds, rest)) :
    rest.length ≤ cs.length := by
  unfold takeFraction? at h
  split at h
  · obtain ⟨⟨ds, r⟩, hd, he⟩ := Option.map_eq_some_iff.1 h
    cases he
    have := length_takeDigits?_lt hd
    simp only [List.length_cons]
    omega
  · cases h; exact Nat.le_refl _

/-- So may the sign. -/
theorem length_takeSign_le (cs : List Char) : (takeSign cs).2.length ≤ cs.length := by
  unfold takeSign
  split <;> simp

/-- So may the exponent. -/
theorem length_takeExponent?_le {cs ds rest : List Char} (h : takeExponent? cs = some (ds, rest)) :
    rest.length ≤ cs.length := by
  unfold takeExponent? at h
  split at h
  · cases h; exact Nat.le_refl _
  · rename_i e cs
    split at h
    · obtain ⟨⟨ds, r⟩, hd, he⟩ := Option.map_eq_some_iff.1 h
      cases he
      have h₁ := length_takeDigits?_lt hd
      have h₂ := length_takeSign_le cs
      simp only [List.length_cons]
      omega
    · cases h; exact Nat.le_refl _

/-- Reading a number without a sign leaves fewer characters than there were. -/
theorem length_takeUnsigned?_lt {cs ds rest : List Char} (h : takeUnsigned? cs = some (ds, rest)) :
    rest.length < cs.length := by
  simp only [takeUnsigned?, Option.bind_eq_bind, Option.bind_eq_some_iff, Option.pure_def,
    Option.some.injEq, Prod.exists, Prod.mk.injEq] at h
  obtain ⟨_, _, h₁, _, _, h₂, _, _, h₃, _, rfl⟩ := h
  have := length_takeWhole?_lt h₁
  have := length_takeFraction?_le h₂
  have := length_takeExponent?_le h₃
  omega

/-- So does reading a number with a sign. -/
theorem length_takeNumber?_lt {cs ds rest : List Char} (h : takeNumber? cs = some (ds, rest)) :
    rest.length < cs.length := by
  unfold takeNumber? at h
  split at h
  · obtain ⟨⟨ds, r⟩, hd, he⟩ := Option.map_eq_some_iff.1 h
    cases he
    have := length_takeUnsigned?_lt hd
    simp only [List.length_cons]
    omega
  · exact length_takeUnsigned?_lt h

/-- Reading a token leaves less text than there was. -/
theorem length_read?_lt {cs rest : List Char} {t : Token} (h : read? cs = some (t, rest)) :
    rest.length < cs.length := by
  unfold read? at h
  split at h
  case h_10 cs =>
    obtain ⟨⟨ps, r⟩, hp, he⟩ := Option.map_eq_some_iff.1 h
    cases he
    have := length_takePieces?_le hp
    simp only [List.length_cons]
    omega
  case h_11 =>
    obtain ⟨⟨ds, r⟩, hd, he⟩ := Option.map_eq_some_iff.1 h
    cases he
    exact length_takeNumber?_lt hd
  all_goals
    cases h
    simp only [List.length_cons]
    omega

/-- The tokens of a text behind those in `done`, the last one first; `none` if the text has
anything but tokens and blanks. -/
def readAll? (done : List Token) (cs : List Char) : Option (List Token) :=
  match _hc : cs.dropWhile isBlank with
  | [] => some done.reverse
  | c :: s =>
    match _hr : read? (c :: s) with
    | none => none
    | some (t, rest) => readAll? (t :: done) rest
termination_by cs.length
decreasing_by
  have h₁ := length_read?_lt _hr
  have h₂ := (List.dropWhile_sublist isBlank (l := cs)).length_le
  rw [_hc] at h₂
  omega

end Token

end RowFlips.Json
