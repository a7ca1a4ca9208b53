import RowFlips.Log.Token
import RowFlips.Proofs.Text

/-!
# Words of a log read back

The text of an address or a corruption reads back as what it shows. An address ends at its closing
parenthesis, whatever follows it. A corruption ends with a numeral, so no digit may follow it.
Tokens with spaces between them, or around them, therefore all read back.

## Main results

* `Field.read_padded`: the numbers of fields read back.
* `Address.ofInner_innerText`: an address reads back from its fields.
* `Address.parse_parens`: an argument between parentheses is read as what they hold.
* `Token.read_text`: a token reads back from the front of a text.
* `Token.tokens_spaceAfter`, `Token.tokens_spaceBefore`: all tokens of a text read back.
-/

namespace RowFlips

/-! ### Fields -/

/-- Digits have no plus sign before them. -/
theorem dropPlus_eq_self {cs : List Char} (h : ∀ c ∈ cs, Hex.isDigit c = true) :
    dropPlus cs = cs := by
  cases cs with
  | nil => rfl
  | cons c cs =>
    have hc : c ≠ '+' := by
      rintro rfl
      exact absurd (h '+' List.mem_cons_self) (by decide)
    rw [dropPlus.eq_def]
    split
    · rename_i heq
      exact absurd (List.cons.inj heq).1 hc
    · rfl

/-- Every field holds numbers of at most 64 bits. -/
theorem Field.size_le (field : Field) : field.size ≤ UInt64.size := by
  cases field <;> decide

/-- The number of a field reads back from its digits, with zeros before them or not. -/
theorem Field.read_padded {field : Field} {n : Nat} (h : n < field.size) (width : Nat) :
    field.read (Hex.padded width n) = .ok n := by
  have hvalue : Hex.valueBelow? UInt64.size (Hex.padded width n) = some n :=
    Hex.valueBelow?_padded (Nat.lt_of_lt_of_le h field.size_le) width
  rw [Field.read, dropPlus_eq_self fun c hc => Hex.isDigit_of_mem_padded hc, hvalue]
  simp only [if_neg (Nat.not_le_of_lt h)]

/-- A field is read from the digits of a number that it holds. -/
theorem Field.read_digits {field : Field} {n : Nat} (h : n < field.size) :
    field.read (Hex.digits n) = .ok n := by
  rw [← Hex.padded_zero, Field.read_padded h]

/-! ### Addresses -/

namespace Address

/-- What stands between the parentheses of an address. -/
def innerText (a : Address) : List Char :=
  Hex.digits a.chan.toNat ++ ' ' :: (Hex.digits a.dimm.toNat ++ ' ' ::
    (Hex.digits a.rank.toNat ++ ' ' :: (Hex.digits a.bank.toNat ++ ' ' ::
      ((Hex.digits a.row.toNat).leftpad 4 ' ' ++ ' ' :: (Hex.digits a.col.toNat).leftpad 3 ' '))))

/-- An address is printed as its `innerText` between parentheses. -/
theorem text_eq (a : Address) : a.text = '(' :: (a.innerText ++ [')']) := by
  simp only [text, innerText, List.cons_append, List.append_assoc]

/-- The six fields are the words between the parentheses. -/
theorem words_innerText (a : Address) :
    Text.words a.innerText = [Hex.digits a.chan.toNat, Hex.digits a.dimm.toNat,
      Hex.digits a.rank.toNat, Hex.digits a.bank.toNat, Hex.digits a.row.toNat,
      Hex.digits a.col.toNat] := by
  have hblank (n : Nat) : ∀ c ∈ Hex.digits n, Text.isBlank c = false := fun c hc =>
    Text.isBlank_of_isDigit (Hex.isDigit_of_mem_digits hc)
  have hword (n : Nat) (s : List Char) := Text.words_append (Hex.digits_ne_nil n) (hblank n) s
  have hlast (n : Nat) := Text.words_eq_singleton (Hex.digits_ne_nil n) (hblank n)
  rw [innerText, hword, hword, hword, hword, List.leftpad, List.append_assoc, Text.words_replicate,
    hword, List.leftpad, Text.words_replicate, hlast]

/-- An address reads back from its fields. -/
theorem ofInner_innerText (a : Address) : ofInner a.innerText = .ok a := by
  have hchan : Field.channel.read (Hex.digits a.chan.toNat) = .ok a.chan.toNat :=
    Field.read_digits a.chan.toNat_lt
  have hdimm : Field.dimm.read (Hex.digits a.dimm.toNat) = .ok a.dimm.toNat :=
    Field.read_digits a.dimm.toNat_lt
  have hrank : Field.rank.read (Hex.digits a.rank.toNat) = .ok a.rank.toNat :=
    Field.read_digits a.rank.toNat_lt
  have hbank : Field.bank.read (Hex.digits a.bank.toNat) = .ok a.bank.toNat :=
    Field.read_digits a.bank.toNat_lt
  have hrow : Field.row.read (Hex.digits a.row.toNat) = .ok a.row.toNat :=
    Field.read_digits a.row.toNat_lt
  have hcol : Field.column.read (Hex.digits a.col.toNat) = .ok a.col.toNat :=
    Field.read_digits a.col.toNat_lt
  rw [ofInner, words_innerText]
  simp only [ofFields, hchan, hdimm, hrank, hbank, hrow, hcol, bind, Except.bind, pure,
    Except.pure, UInt8.ofNat_toNat, UInt16.ofNat_toNat]

/-- Between the parentheses stand digits and spaces. -/
theorem isDigit_or_eq_of_mem_innerText {a : Address} {c : Char} (h : c ∈ a.innerText) :
    Hex.isDigit c = true ∨ c = ' ' := by
  have hpad (width n : Nat) (hc : c ∈ (Hex.digits n).leftpad width ' ') :
      Hex.isDigit c = true ∨ c = ' ' := by
    rcases List.mem_append.1 hc with hc | hc
    · exact Or.inr (List.eq_of_mem_replicate hc)
    · exact Or.inl (Hex.isDigit_of_mem_digits hc)
  simp only [innerText, List.mem_append, List.mem_cons] at h
  rcases h with h | rfl | h | rfl | h | rfl | h | rfl | h | rfl | h
  all_goals first
    | exact Or.inr rfl
    | exact Or.inl (Hex.isDigit_of_mem_digits h)
    | exact hpad _ _ h

/-! ### Parentheses -/

/-- Taking parentheses off what stands between a pair of them leaves it whole. -/
theorem stripParens_parens (inner : List Char) : stripParens ('(' :: (inner ++ [')'])) = inner := by
  rw [stripParens, if_pos List.getLast?_concat, List.dropLast_concat]

/-- A text without parentheses at both its ends is left as it is. -/
theorem stripParens_eq_self {s : List Char} (h : ∀ inner, s ≠ '(' :: (inner ++ [')'])) :
    stripParens s = s := by
  rw [stripParens.eq_def]
  split
  · rename_i rest
    refine if_neg fun hlast => ?_
    obtain ⟨inner, hinner⟩ := List.getLast?_eq_some_iff.1 hlast
    exact h inner (congrArg _ hinner)
  · rfl

/-- What stands between parentheses is read as the fields of an address. -/
theorem parse_parens (inner : List Char) : parse ('(' :: (inner ++ [')'])) = ofInner inner := by
  have htrim : Text.trim ('(' :: (inner ++ [')'])) = '(' :: (inner ++ [')']) := by
    refine Text.trim_eq_self ?_ ?_
    · rintro c ⟨⟩
      decide
    · rw [← List.cons_append, List.getLast?_concat]
      rintro c ⟨⟩
      decide
  rw [parse, htrim, stripParens_parens]

end Address

/-! ### Corruptions -/

/-- A text that a numeral may stand before: it does not go on with a digit. -/
def EndsNumeral (rest : List Char) : Prop := ∀ c ∈ rest.head?, Hex.isDigit c = false

/-- A numeral may end with the text. -/
theorem endsNumeral_nil : EndsNumeral [] := nofun

/-- A numeral may end before what is not a digit. -/
theorem endsNumeral_cons {c : Char} {rest : List Char} (h : Hex.isDigit c = false) :
    EndsNumeral (c :: rest) := by
  rintro d ⟨⟩
  exact h

/-- The text of a corruption starts with a digit. -/
theorem Corruption.exists_text_eq_cons (c : Corruption) :
    ∃ d s, c.text = d :: s ∧ Hex.isDigit d = true := by
  have hne : Hex.padded 4 c.offset.toNat ≠ [] :=
    List.append_ne_nil_of_right_ne_nil _ (Hex.digits_ne_nil _)
  obtain ⟨d, s, hds⟩ := List.exists_cons_of_ne_nil hne
  refine ⟨d, s ++ '|' :: (Hex.padded 2 c.got.toNat ++ '|' :: Hex.padded 2 c.expected.toNat), ?_,
    Hex.isDigit_of_mem_padded (hds ▸ List.mem_cons_self)⟩
  simp only [Corruption.text, hds, List.cons_append, List.append_assoc]

namespace Token

/-- A numeral is found in front of what ends it. -/
theorem numeral?_append {cs rest : List Char} (hne : cs ≠ [])
    (hcs : ∀ c ∈ cs, Hex.isDigit c = true) (hrest : EndsNumeral rest) :
    numeral? (cs ++ rest) = some (cs, rest) := by
  have hstop : rest.takeWhile Hex.isDigit = [] ∧ rest.dropWhile Hex.isDigit = rest := by
    cases rest with
    | nil => exact ⟨rfl, rfl⟩
    | cons c rest =>
      have hc : ¬Hex.isDigit c = true := by
        rw [hrest c rfl]
        exact Bool.false_ne_true
      exact ⟨List.takeWhile_cons_of_neg hc, List.dropWhile_cons_of_neg hc⟩
  have htake : (cs ++ rest).takeWhile Hex.isDigit = cs := by
    rw [List.takeWhile_append_of_pos hcs, hstop.1, List.append_nil]
  have hdrop : (cs ++ rest).dropWhile Hex.isDigit = rest := by
    rw [List.dropWhile_append_of_pos hcs, hstop.2]
  rw [numeral?, htake, hdrop, if_neg (by simpa using hne)]

/-- Digits before a bar are read as a numeral, and the bar is taken with them. -/
theorem numeralBar?_append {cs : List Char} (hne : cs ≠ [])
    (hcs : ∀ c ∈ cs, Hex.isDigit c = true) (rest : List Char) :
    numeralBar? (cs ++ '|' :: rest) = some (cs, rest) := by
  rw [numeralBar?, numeral?_append hne hcs (endsNumeral_cons (by decide))]
  rfl

/-- The numerals of a corruption are found in front of what ends the last. -/
theorem numerals?_text (c : Corruption) {rest : List Char} (h : EndsNumeral rest) :
    numerals? (c.text ++ rest) = some (Hex.padded 4 c.offset.toNat, Hex.padded 2 c.got.toNat,
      Hex.padded 2 c.expected.toNat, rest) := by
  have hne (width n : Nat) : Hex.padded width n ≠ [] :=
    List.append_ne_nil_of_right_ne_nil _ (Hex.digits_ne_nil n)
  have hdigit (width n : Nat) : ∀ d ∈ Hex.padded width n, Hex.isDigit d = true := fun d hd =>
    Hex.isDigit_of_mem_padded hd
  simp only [numerals?, Corruption.text, List.append_assoc, List.cons_append,
    numeralBar?_append (hne _ _) (hdigit _ _), numeral?_append (hne _ _) (hdigit _ _) h,
    Option.bind_eq_bind, Option.bind_some]
  rfl

/-- A corruption reads back from its numerals. -/
theorem corruptionOf_padded (c : Corruption) :
    corruptionOf (Hex.padded 4 c.offset.toNat) (Hex.padded 2 c.got.toNat)
      (Hex.padded 2 c.expected.toNat) = .ok c := by
  have hoffset : Field.offset.read (Hex.padded 4 c.offset.toNat) = .ok c.offset.toNat :=
    Field.read_padded c.offset.toNat_lt 4
  have hgot : Field.observed.read (Hex.padded 2 c.got.toNat) = .ok c.got.toNat :=
    Field.read_padded c.got.toNat_lt 2
  have hexpected : Field.expected.read (Hex.padded 2 c.expected.toNat) = .ok c.expected.toNat :=
    Field.read_padded c.expected.toNat_lt 2
  simp only [corruptionOf, hoffset, hgot, hexpected, bind, Except.bind, pure, Except.pure,
    UInt8.ofNat_toNat, UInt32.ofNat_toNat]

/-! ### Tokens -/

/-- The token as logs show it. -/
def text : Token → List Char
  | address a => a.text
  | corruption c => c.text

/-- A token starts with a character that is not blank. -/
theorem exists_text_eq_cons (t : Token) : ∃ c s, t.text = c :: s ∧ Text.isBlank c = false := by
  cases t with
  | address a => exact ⟨'(', _, a.text_eq, by decide⟩
  | corruption c =>
    obtain ⟨d, s, hds, hd⟩ := c.exists_text_eq_cons
    exact ⟨d, s, hds, Text.isBlank_of_isDigit hd⟩

/-- A token reads back from the front of a text. -/
theorem read_text (t : Token) {rest : List Char} (h : EndsNumeral rest) :
    read (t.text ++ rest) = .ok (t, rest) := by
  cases t with
  | address a =>
    have hinner : ∀ c ∈ a.innerText, isInner c = true := by
      intro c hc
      rcases a.isDigit_or_eq_of_mem_innerText hc with hc | rfl
      · have hc := Hex.toNat_of_isDigit hc
        rw [isInner, Bool.and_eq_true, bne_iff_ne, bne_iff_ne]
        constructor <;> rintro rfl <;> simp at hc
      · decide
    have hclose : ¬isInner ')' = true := by decide
    have htake : (a.innerText ++ ')' :: rest).takeWhile isInner = a.innerText := by
      rw [List.takeWhile_append_of_pos hinner, List.takeWhile_cons_of_neg hclose, List.append_nil]
    have hdrop : (a.innerText ++ ')' :: rest).dropWhile isInner = ')' :: rest := by
      rw [List.dropWhile_append_of_pos hinner, List.dropWhile_cons_of_neg hclose]
    rw [text, a.text_eq, List.cons_append, List.append_assoc, List.cons_append, List.nil_append,
      read, hdrop, htake, a.ofInner_innerText]
    rfl
  | corruption c =>
    obtain ⟨d, s, hds, hd⟩ := c.exists_text_eq_cons
    rw [text, read.eq_def]
    split
    · rename_i after heq
      rw [hds] at heq
      rw [(List.cons.inj heq).1] at hd
      exact absurd hd (by decide)
    · simp only [numerals?_text c h, corruptionOf_padded]
      rfl

/-- The text of a token is made of digits, spaces, parentheses and bars. -/
theorem isDigit_or_mem_of_mem_text {t : Token} {c : Char} (h : c ∈ t.text) :
    Hex.isDigit c = true ∨ c ∈ [' ', '(', ')', '|'] := by
  cases t with
  | address a =>
    rw [text, a.text_eq, List.mem_cons, List.mem_append, List.mem_singleton] at h
    rcases h with rfl | h | rfl
    · exact Or.inr (by decide)
    · rcases a.isDigit_or_eq_of_mem_innerText h with h | rfl
      · exact Or.inl h
      · exact Or.inr (by decide)
    · exact Or.inr (by decide)
  | corruption c =>
    simp only [text, Corruption.text, List.mem_append, List.mem_cons] at h
    rcases h with (h | rfl | h) | rfl | h
    · exact Or.inl (Hex.isDigit_of_mem_padded h)
    · exact Or.inr (by decide)
    · exact Or.inl (Hex.isDigit_of_mem_padded h)
    · exact Or.inr (by decide)
    · exact Or.inl (Hex.isDigit_of_mem_padded h)

/-- The text of a token is ASCII, of printable characters other than the colon. -/
theorem toNat_of_mem_text {t : Token} {c : Char} (h : c ∈ t.text) :
    32 ≤ c.toNat ∧ c.toNat < 128 ∧ c.toNat ≠ 58 := by
  rcases isDigit_or_mem_of_mem_text h with h | h
  · have := Hex.toNat_of_isDigit h
    omega
  · obtain rfl | rfl | rfl | rfl : c = ' ' ∨ c = '(' ∨ c = ')' ∨ c = '|' := by simpa using h
    all_goals decide

/-! ### All tokens of a text -/

/-- There is no token where there are only blanks. -/
theorem tokens_of_blank {cs : List Char} (h : Text.trimStart cs = []) : tokens cs = .ok [] := by
  rw [tokens]
  split
  · rfl
  · rename_i heq
    rw [h] at heq
    cases heq

/-- The first token is read behind the blanks, and the others behind it. -/
theorem tokens_of_read {cs rest : List Char} {c : Char} {s : List Char} {t : Token}
    (h : Text.trimStart cs = c :: s) (hread : read (c :: s) = .ok (t, rest)) :
    tokens cs = (tokens rest).map (t :: ·) := by
  rw [tokens]
  split
  · rename_i heq
    rw [h] at heq
    cases heq
  · rename_i heq
    rw [h] at heq
    cases heq
    split
    · rename_i heq
      rw [hread] at heq
      cases heq
    · rename_i heq
      rw [hread] at heq
      cases heq
      rfl

/-- The token at the front of a text is the first of its tokens. -/
theorem tokens_text (t : Token) {rest : List Char} (h : EndsNumeral rest) :
    tokens (t.text ++ rest) = (tokens rest).map (t :: ·) ∧
      tokens (' ' :: (t.text ++ rest)) = (tokens rest).map (t :: ·) := by
  obtain ⟨c, s, hcs, hc⟩ := t.exists_text_eq_cons
  have hread := read_text t h
  have htrim : Text.trimStart (t.text ++ rest) = c :: (s ++ rest) := by
    rw [hcs, List.cons_append, Text.trimStart_eq_self hc]
  rw [hcs, List.cons_append] at hread
  refine ⟨tokens_of_read htrim hread, tokens_of_read ?_ hread⟩
  rw [Text.trimStart_space, htrim]

/-- Tokens with a space behind each read back. -/
theorem tokens_spaceAfter (ts : List Token) :
    tokens (ts.flatMap fun t => t.text ++ [' ']) = .ok ts ∧
      tokens (' ' :: ts.flatMap fun t => t.text ++ [' ']) = .ok ts := by
  have hends (rest : List Char) : EndsNumeral (' ' :: rest) := endsNumeral_cons (by decide)
  induction ts with
  | nil => exact ⟨tokens_of_blank rfl, tokens_of_blank (by decide)⟩
  | cons t ts ih =>
    rw [List.flatMap_cons, List.append_assoc, List.cons_append, List.nil_append,
      (tokens_text t (hends _)).1, (tokens_text t (hends _)).2, ih.2]
    exact ⟨rfl, rfl⟩

/-- Tokens with a space before each read back. -/
theorem tokens_spaceBefore (ts : List Token) :
    tokens (ts.flatMap fun t => ' ' :: t.text) = .ok ts := by
  induction ts with
  | nil => exact tokens_of_blank rfl
  | cons t ts ih =>
    have hends : EndsNumeral (ts.flatMap fun t => ' ' :: t.text) := by
      cases ts with
      | nil => exact endsNumeral_nil
      | cons u ts => exact endsNumeral_cons (by decide)
    rw [List.flatMap_cons, List.cons_append, (tokens_text t hends).2, ih]
    rfl

end Token

end RowFlips
