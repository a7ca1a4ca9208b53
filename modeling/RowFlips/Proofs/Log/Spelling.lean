import RowFlips.Proofs.Log.Token
import RowFlips.Proofs.Outcome

/-!
# How addresses and corruptions are spelled

An address may be written in many ways: blanks of any kind may separate and surround its fields,
each field may have a plus sign, leading zeros and digits of either case, and the last may be left
out. A corruption has the same freedom in its numerals but for the plus sign. Spellings are defined
here apart from how they are read, and reading finds exactly what is spelled.

What is spelled is the number that a field holds, so a numeral too great for the field spells
nothing.

## Main results

* `Text.words_eq_iff`: the words of a text.
* `Hex.valueBelow?_eq_some_iff`: the numbers that numerals stand for.
* `Address.ofInner_eq_ok_iff`: what stands between the parentheses of an address.
* `Token.corruptionOf_eq_ok_iff`: the numerals of a corruption.
-/

namespace RowFlips

/-! ### Words -/

namespace Text

/-- All characters of the text are blank. -/
def AllBlank (s : List Char) : Prop := ∀ c ∈ s, isBlank c = true

/-- The text is over or goes on with a blank. -/
def EndsWord (s : List Char) : Prop := ∀ c ∈ s.head?, isBlank c = true

/-- The text spells words: they stand in it in order, with blanks between them, and other blanks
may surround them. -/
inductive SpellsWords : List (List Char) → List Char → Prop
  | nil {s : List Char} (h : AllBlank s) : SpellsWords [] s
  | cons {blanks w s : List Char} {ws : List (List Char)} (hblanks : AllBlank blanks)
      (hne : w ≠ []) (hw : ∀ c ∈ w, isBlank c = false) (hend : EndsWord s)
      (hs : SpellsWords ws s) : SpellsWords (w :: ws) (blanks ++ (w ++ s))

/-- A blank may stand before the words of a text. -/
theorem SpellsWords.cons_blank {c : Char} {s : List Char} {ws : List (List Char)}
    (h : SpellsWords ws s) (hc : isBlank c = true) : SpellsWords ws (c :: s) := by
  cases h with
  | nil h => exact .nil (List.forall_mem_cons.2 ⟨hc, h⟩)
  | cons hblanks hne hw hend hs =>
    rw [← List.cons_append]
    exact .cons (List.forall_mem_cons.2 ⟨hc, hblanks⟩) hne hw hend hs

/-- The words found behind the start of a word are spelled by the whole. -/
theorem spellsWords_wordsFrom {word : List Char} (hword : ∀ c ∈ word, isBlank c = false)
    (s : List Char) : SpellsWords (wordsFrom word s) (word.reverse ++ s) := by
  have hstart {word s : List Char} {ws : List (List Char)} (hne : ¬word.isEmpty = true)
      (hword : ∀ c ∈ word, isBlank c = false) (hend : EndsWord s) (hs : SpellsWords ws s) :
      SpellsWords (word.reverse :: ws) (word.reverse ++ s) :=
    .cons (List.forall_mem_nil _) (by simpa using hne) (by simpa using hword) hend hs
  fun_induction wordsFrom word s with
  | case1 word hempty =>
    rw [List.isEmpty_iff.1 hempty]
    exact .nil (List.forall_mem_nil _)
  | case2 word hne => exact hstart hne hword nofun (.nil (List.forall_mem_nil _))
  | case3 word c s hc hempty ih =>
    rw [List.isEmpty_iff.1 hempty]
    exact (ih (List.forall_mem_nil _)).cons_blank hc
  | case4 word c s hc hne ih =>
    refine hstart hne hword ?_ ((ih (List.forall_mem_nil _)).cons_blank hc)
    rintro d ⟨⟩
    exact hc
  | case5 word c s hc ih =>
    have hall : ∀ d ∈ c :: word, isBlank d = false :=
      List.forall_mem_cons.2 ⟨Bool.eq_false_iff.2 hc, hword⟩
    simpa using ih hall

/-- Blanks at the start change no word. -/
theorem words_append_of_allBlank {blanks : List Char} (h : AllBlank blanks) (s : List Char) :
    words (blanks ++ s) = words s := by
  induction blanks with
  | nil => rfl
  | cons c blanks ih =>
    obtain ⟨hc, hblanks⟩ := List.forall_mem_cons.1 h
    rw [List.cons_append, words, wordsFrom, if_pos hc]
    exact ih hblanks

/-- A word ends where the text does or goes on with a blank. -/
theorem words_append_of_endsWord {w s : List Char} (hne : w ≠ [])
    (hw : ∀ c ∈ w, isBlank c = false) (hend : EndsWord s) : words (w ++ s) = w :: words s := by
  have hne' : ¬(w.reverse ++ []).isEmpty = true := by simpa using hne
  cases s with
  | nil => rw [List.append_nil, words_eq_singleton hne hw]; rfl
  | cons c s =>
    have hc : isBlank c = true := hend c rfl
    rw [words, wordsFrom_append hw, wordsFrom, if_pos hc, if_neg hne', List.append_nil,
      List.reverse_reverse, words, wordsFrom, if_pos hc]
    rfl

/-- The words of a text are those that it spells. -/
theorem words_eq_iff {s : List Char} {ws : List (List Char)} :
    words s = ws ↔ SpellsWords ws s := by
  constructor
  · rintro rfl
    exact spellsWords_wordsFrom (List.forall_mem_nil _) s
  · intro h
    induction h with
    | @nil s h =>
      rw [← List.append_nil s, words_append_of_allBlank h]
      rfl
    | cons hblanks hne hw hend _ ih =>
      rw [words_append_of_allBlank hblanks, words_append_of_endsWord hne hw hend, ih]

end Text

/-! ### Numerals -/

namespace Hex

/-- The number that digits continue when `n` stands before them. -/
def continued (n : Nat) (cs : List Char) : Nat :=
  cs.foldl (fun n c => 16 * n + (digit? c).getD 0) n

/-- The text is a numeral of the number: one or more digits of either case that have its value,
among them any number of zeros at the start. -/
def Numeral (cs : List Char) (n : Nat) : Prop :=
  cs ≠ [] ∧ (∀ c ∈ cs, isDigit c = true) ∧ continued 0 cs = n

/-- The text is a numeral of the number, perhaps with a plus sign before it. -/
def Signed (cs : List Char) (n : Nat) : Prop :=
  Numeral cs n ∨ ∃ digits, cs = '+' :: digits ∧ Numeral digits n

/-- Further digits do not make a number less. -/
theorem le_continued (n : Nat) (cs : List Char) : n ≤ continued n cs := by
  induction cs generalizing n with
  | nil => exact Nat.le_refl n
  | cons c cs ih =>
    have := ih (16 * n + (digit? c).getD 0)
    rw [continued, List.foldl_cons]
    rw [continued] at this
    omega

/-- Reading digits below a bound gives their number if it is below the bound. Digits only make a
number greater, so it is enough that the last number is. -/
theorem continuedBelow?_eq_some_iff {bound m n : Nat} {cs : List Char} (hm : m < bound) :
    Text.continuedBelow? digit? 16 bound m cs = some n ↔
      (∀ c ∈ cs, isDigit c = true) ∧ continued m cs = n ∧ n < bound := by
  induction cs generalizing m with
  | nil =>
    rw [Text.continuedBelow?, Option.some.injEq]
    constructor
    · rintro rfl
      exact ⟨List.forall_mem_nil _, rfl, hm⟩
    · exact fun h => h.2.1
  | cons c cs ih =>
    rw [Text.continuedBelow?, List.forall_mem_cons, isDigit]
    cases hc : digit? c with
    | none => simp
    | some d =>
      have hcontinued : continued m (c :: cs) = continued (16 * m + d) cs := by
        rw [continued, List.foldl_cons, hc]
        rfl
      simp only [hcontinued, Option.isSome_some, true_and]
      split
      · rename_i hlt
        exact ih hlt
      · rename_i hge
        refine iff_of_false (Option.some_ne_none n).symm ?_
        rintro ⟨-, rfl, hlt⟩
        exact hge (Nat.lt_of_le_of_lt (le_continued _ _) hlt)

/-- Numerals are read as the numbers below the bound that they stand for. -/
theorem valueBelow?_eq_some_iff {bound n : Nat} {cs : List Char} (hbound : 0 < bound) :
    valueBelow? bound cs = some n ↔ Numeral cs n ∧ n < bound := by
  rw [valueBelow?, Text.numeralBelow?, Numeral]
  split
  · rename_i hempty
    rw [List.isEmpty_iff.1 hempty]
    exact iff_of_false (Option.some_ne_none n).symm fun h => h.1.1 rfl
  · rename_i hne
    have hne' : cs ≠ [] := by simpa using hne
    rw [continuedBelow?_eq_some_iff hbound, and_assoc, and_assoc, and_iff_right hne']

/-- Numerals with a plus sign or without are those that are numerals once the sign is dropped. -/
theorem signed_iff {cs : List Char} {n : Nat} : Signed cs n ↔ Numeral (dropPlus cs) n := by
  constructor
  · rintro (h | ⟨digits, rfl, h⟩)
    · rwa [dropPlus_eq_self h.2.1]
    · exact h
  · intro h
    match cs, h with
    | [], h => exact Or.inl h
    | c :: cs, h =>
      by_cases hc : c = '+'
      · subst hc
        exact Or.inr ⟨cs, rfl, h⟩
      · have hdrop : dropPlus (c :: cs) = c :: cs := by
          rw [dropPlus.eq_def]
          split
          · rename_i heq
            exact absurd (List.cons.inj heq).1 hc
          · rfl
        exact Or.inl (hdrop ▸ h)

/-- Where only digits stand there is no sign. -/
theorem signed_iff_of_isDigit {cs : List Char} {n : Nat} (h : ∀ c ∈ cs, isDigit c = true) :
    Signed cs n ↔ Numeral cs n := by
  rw [signed_iff, dropPlus_eq_self h]

end Hex

/-! ### Fields -/

/-- A field is read as the number that is spelled, if the field has that number. -/
theorem Field.read_eq_ok_iff {field : Field} {cs : List Char} {n : Nat} :
    field.read cs = .ok n ↔ Hex.Signed cs n ∧ n < field.size := by
  have hread : field.read cs = .ok n ↔
      Hex.valueBelow? UInt64.size (dropPlus cs) = some n ∧ n < field.size := by
    rw [read]
    cases Hex.valueBelow? UInt64.size (dropPlus cs) with
    | none => simp
    | some m =>
      simp only [Option.some.injEq]
      split
      · rename_i hle
        refine iff_of_false error_ne_ok ?_
        rintro ⟨rfl, hlt⟩
        exact Nat.not_lt_of_le hle hlt
      · rename_i hlt
        rw [Except.ok.injEq]
        refine (and_iff_left_of_imp ?_).symm
        rintro rfl
        exact Nat.lt_of_not_le hlt
  rw [hread, Hex.valueBelow?_eq_some_iff (by decide), Hex.signed_iff, and_assoc]
  exact and_congr_right fun _ => and_iff_right_of_imp fun h => Nat.lt_of_lt_of_le h field.size_le

/-- A word that holds the numbers of a field is read exactly if its number is spelled. -/
theorem Field.exists_word_iff {W : Type} {ofNat : Nat → W} {toNat : W → Nat} {field : Field}
    (hlt : ∀ x, toNat x < field.size) (hto : ∀ n < field.size, toNat (ofNat n) = n)
    (hof : ∀ x, ofNat (toNat x) = x) {cs : List Char} {x : W} :
    (∃ n, field.read cs = .ok n ∧ ofNat n = x) ↔ Hex.Signed cs (toNat x) := by
  constructor
  · rintro ⟨n, hread, rfl⟩
    obtain ⟨hcs, hn⟩ := Field.read_eq_ok_iff.1 hread
    rwa [hto n hn]
  · intro hcs
    exact ⟨toNat x, Field.read_eq_ok_iff.2 ⟨hcs, hlt x⟩, hof x⟩

/-- A field of 8 bits is read as `x` exactly from the numerals of `x`, with a plus sign or not. -/
theorem Field.exists_uint8_iff (field : Field) (h : field.size = UInt8.size) {cs : List Char}
    {x : UInt8} : (∃ n, field.read cs = .ok n ∧ UInt8.ofNat n = x) ↔ Hex.Signed cs x.toNat :=
  Field.exists_word_iff (fun x => h ▸ x.toNat_lt)
    (fun _ hn => UInt8.toNat_ofNat_of_lt' (h ▸ hn)) fun _ => UInt8.ofNat_toNat

/-- So is a field of 16 bits. -/
theorem Field.exists_uint16_iff (field : Field) (h : field.size = UInt16.size) {cs : List Char}
    {x : UInt16} : (∃ n, field.read cs = .ok n ∧ UInt16.ofNat n = x) ↔ Hex.Signed cs x.toNat :=
  Field.exists_word_iff (fun x => h ▸ x.toNat_lt)
    (fun _ hn => UInt16.toNat_ofNat_of_lt' (h ▸ hn)) fun _ => UInt16.ofNat_toNat

/-! ### Addresses -/

namespace Address

variable {a : Address}

/-- The numbers of the fields but for the column, in the order in which they are spelled. -/
def rowFields (a : Address) : List Nat :=
  [a.chan.toNat, a.dimm.toNat, a.rank.toNat, a.bank.toNat, a.row.toNat]

/-- The text spells the address between its parentheses: its words are numerals of the fields,
the last of which may be missing if it is 0. The first four fields lie below 256, the others below
65536, so no greater numeral spells one. -/
def Spelled (a : Address) (inner : List Char) : Prop :=
  ∃ ws, Text.SpellsWords ws inner ∧
    (List.Forall₂ Hex.Signed ws (a.rowFields ++ [a.col.toNat]) ∨
      List.Forall₂ Hex.Signed ws a.rowFields ∧ a.col = 0)

/-- The column is read as what is spelled, or as 0 if it is missing. -/
theorem exists_column_iff {col : Option (List Char)} {x : UInt16} :
    (∃ n, col.elim (pure 0) Field.column.read = .ok n ∧ UInt16.ofNat n = x) ↔
      col.elim (x = 0) (Hex.Signed · x.toNat) := by
  cases col with
  | none =>
    constructor
    · rintro ⟨_, ⟨⟩, rfl⟩
      rfl
    · rintro rfl
      exact ⟨0, rfl, rfl⟩
  | some col => exact Field.exists_uint16_iff .column rfl

/-- The fields of an address are read as what is spelled. -/
theorem ofFields_eq_ok_iff {chan dimm rank bank row : List Char} {col : Option (List Char)} :
    ofFields chan dimm rank bank row col = .ok a ↔
      List.Forall₂ Hex.Signed [chan, dimm, rank, bank, row] a.rowFields ∧
        col.elim (a.col = 0) (Hex.Signed · a.col.toNat) := by
  have hfields : ofFields chan dimm rank bank row col = (do
      let c ← Field.channel.read chan
      let d ← Field.dimm.read dimm
      let r ← Field.rank.read rank
      let b ← Field.bank.read bank
      let w ← Field.row.read row
      let n ← col.elim (pure 0) Field.column.read
      pure ⟨.ofNat c, .ofNat d, .ofNat r, .ofNat b, .ofNat w, .ofNat n⟩) := by
    cases col <;> rfl
  rw [hfields, ← exists_column_iff]
  simp only [rowFields, List.forall₂_cons, List.Forall₂.nil, and_true, bind_eq_ok]
  constructor
  · rintro ⟨c, hc, d, hd, r, hr, b, hb, w, hw, n, hn, ⟨⟩⟩
    refine ⟨⟨?_, ?_, ?_, ?_, ?_⟩, n, hn, rfl⟩
    · exact (Field.exists_uint8_iff .channel rfl).1 ⟨c, hc, rfl⟩
    · exact (Field.exists_uint8_iff .dimm rfl).1 ⟨d, hd, rfl⟩
    · exact (Field.exists_uint8_iff .rank rfl).1 ⟨r, hr, rfl⟩
    · exact (Field.exists_uint8_iff .bank rfl).1 ⟨b, hb, rfl⟩
    · exact (Field.exists_uint16_iff .row rfl).1 ⟨w, hw, rfl⟩
  · rintro ⟨⟨hc, hd, hr, hb, hw⟩, n, hn, hcol⟩
    obtain ⟨c, hc, hchan⟩ := (Field.exists_uint8_iff .channel rfl).2 hc
    obtain ⟨d, hd, hdimm⟩ := (Field.exists_uint8_iff .dimm rfl).2 hd
    obtain ⟨r, hr, hrank⟩ := (Field.exists_uint8_iff .rank rfl).2 hr
    obtain ⟨b, hb, hbank⟩ := (Field.exists_uint8_iff .bank rfl).2 hb
    obtain ⟨w, hw, hrow⟩ := (Field.exists_uint16_iff .row rfl).2 hw
    refine ⟨c, hc, d, hd, r, hr, b, hb, w, hw, n, hn, ?_⟩
    rw [hchan, hdimm, hrank, hbank, hrow, hcol]
    rfl

/-- The text between parentheses is read as the address that it spells. -/
theorem ofInner_eq_ok_iff {inner : List Char} : ofInner inner = .ok a ↔ a.Spelled inner := by
  simp only [Spelled, ← Text.words_eq_iff, exists_eq_left']
  rw [ofInner]
  split
  · rename_i hws
    rw [ofFields_eq_ok_iff, hws]
    simp [rowFields]
  · rename_i hws
    rw [ofFields_eq_ok_iff, hws]
    simp [rowFields, and_assoc]
  · rename_i h5 h6
    refine iff_of_false error_ne_ok ?_
    simp only [rowFields, List.cons_append, List.nil_append, List.forall₂_cons_right_iff,
      List.forall₂_nil_right_iff]
    rintro (h | ⟨h, -⟩)
    · obtain ⟨c, _, -, ⟨d, _, -, ⟨r, _, -, ⟨b, _, -, ⟨w, _, -, ⟨n, _, -, rfl, rfl⟩, rfl⟩, rfl⟩,
        rfl⟩, rfl⟩, hws⟩ := h
      exact h6 c d r b w n hws
    · obtain ⟨c, _, -, ⟨d, _, -, ⟨r, _, -, ⟨b, _, -, ⟨w, _, -, rfl, rfl⟩, rfl⟩, rfl⟩, rfl⟩, hws⟩ :=
        h
      exact h5 c d r b w hws

end Address

/-! ### Corruptions -/

/-- The numerals spell the corruption: they are its offset, which lies below 2 ^ 32, the byte read
back and the byte written, which lie below 256. -/
structure Corruption.Spelled (c : Corruption) (offset got expected : List Char) : Prop where
  offset : Hex.Numeral offset c.offset.toNat
  got : Hex.Numeral got c.got.toNat
  expected : Hex.Numeral expected c.expected.toNat

namespace Token

/-- The numerals of a corruption are read as what they spell. -/
theorem corruptionOf_eq_ok_iff {c : Corruption} {offset got expected : List Char}
    (hoffset : ∀ d ∈ offset, Hex.isDigit d = true) (hgot : ∀ d ∈ got, Hex.isDigit d = true)
    (hexpected : ∀ d ∈ expected, Hex.isDigit d = true) :
    corruptionOf offset got expected = .ok c ↔ c.Spelled offset got expected := by
  have hword {x : UInt32} : (∃ n, Field.offset.read offset = .ok n ∧ UInt32.ofNat n = x) ↔
      Hex.Signed offset x.toNat :=
    Field.exists_word_iff UInt32.toNat_lt (fun _ => UInt32.toNat_ofNat_of_lt')
      fun _ => UInt32.ofNat_toNat
  have hspelled : c.Spelled offset got expected ↔ Hex.Signed offset c.offset.toNat ∧
      Hex.Signed got c.got.toNat ∧ Hex.Signed expected c.expected.toNat := by
    rw [Hex.signed_iff_of_isDigit hoffset, Hex.signed_iff_of_isDigit hgot,
      Hex.signed_iff_of_isDigit hexpected]
    constructor
    · rintro ⟨ho, hg, he⟩
      exact ⟨ho, hg, he⟩
    · rintro ⟨ho, hg, he⟩
      exact ⟨ho, hg, he⟩
  simp only [hspelled, corruptionOf, bind_eq_ok]
  constructor
  · rintro ⟨o, ho, g, hg, e, he, ⟨⟩⟩
    refine ⟨hword.1 ⟨o, ho, rfl⟩, ?_, ?_⟩
    · exact (Field.exists_uint8_iff .observed rfl).1 ⟨g, hg, rfl⟩
    · exact (Field.exists_uint8_iff .expected rfl).1 ⟨e, he, rfl⟩
  · rintro ⟨ho, hg, he⟩
    obtain ⟨o, ho, hoffset⟩ := hword.2 ho
    obtain ⟨g, hg, hgot⟩ := (Field.exists_uint8_iff .observed rfl).2 hg
    obtain ⟨e, he, hexpected⟩ := (Field.exists_uint8_iff .expected rfl).2 he
    refine ⟨o, ho, g, hg, e, he, ?_⟩
    rw [hoffset, hgot, hexpected]
    rfl

end Token

end RowFlips
