import RowFlips.Text.Blank
import RowFlips.Text.Bytes
import RowFlips.Text.Hex

/-!
# Text that reads back

Numbers, words and lines are found again in a text that was put together from them: a number from
its hexadecimal digits, words from a text with blanks between them, and lines from bytes with a
line feed behind each.

## Main results

* `Hex.valueBelow?_padded`: hexadecimal digits have the value that they were printed for.
* `Text.words_append`, `Text.words_replicate`: words between blanks.
* `Text.lines_append_feed`, `Text.lines_flatMap`: lines with line feeds behind them.
* `Text.encode_eq_map`: ASCII text is stored byte by byte.
-/

namespace RowFlips

/-! ### Digits -/

namespace Text

variable {digit? : Char → Option Nat} {base bound n : Nat}

/-- Digits may be read in two parts. -/
theorem continuedBelow?_append (cs ds : List Char) :
    continuedBelow? digit? base bound n (cs ++ ds) =
      (continuedBelow? digit? base bound n cs).bind
        fun m => continuedBelow? digit? base bound m ds := by
  fun_induction continuedBelow? digit? base bound n cs with
  | case1 => rfl
  | case2 n c cs hd => rw [List.cons_append, continuedBelow?, hd]; rfl
  | case3 n c cs d hd hlt ih =>
    rw [List.cons_append, continuedBelow?, hd]
    simp only [if_pos hlt, ih]
  | case4 n c cs d hd hlt =>
    rw [List.cons_append, continuedBelow?, hd]
    simp only [if_neg hlt]
    rfl

end Text

namespace Hex

/-- Each hexadecimal digit is read as the number that it was printed for. -/
theorem digit?_digitChar : ∀ d < 16, digit? d.digitChar = some d := by
  decide

/-- A number has at least one digit, also 0. -/
theorem digits_ne_nil (n : Nat) : digits n ≠ [] :=
  List.length_pos_iff.1 Nat.length_toDigits_pos

/-- The digits of a number have its value. -/
theorem continuedBelow?_digits {bound n : Nat} (h : n < bound) :
    Text.continuedBelow? digit? 16 bound 0 (digits n) = some n := by
  induction n using Nat.strongRecOn with
  | ind n ih =>
    by_cases hn : n < 16
    · rw [digits, Nat.toDigits_of_lt_base hn, Text.continuedBelow?, digit?_digitChar n hn]
      simp only [Nat.mul_zero, Nat.zero_add, if_pos h]
      rfl
    · have hprev := ih (n / 16) (by omega) (by omega)
      rw [digits] at hprev
      rw [digits, Nat.toDigits_of_base_le (by decide) (by omega), Text.continuedBelow?_append,
        hprev, Option.bind_some, Text.continuedBelow?,
        digit?_digitChar _ (Nat.mod_lt _ (by decide))]
      simp only [Nat.div_add_mod, if_pos h]
      rfl

/-- Zeros before digits change nothing. -/
theorem continuedBelow?_zeros {bound : Nat} (h : 0 < bound) (k : Nat) (cs : List Char) :
    Text.continuedBelow? digit? 16 bound 0 (List.replicate k '0' ++ cs) =
      Text.continuedBelow? digit? 16 bound 0 cs := by
  induction k with
  | zero => rfl
  | succ k ih =>
    have hzero : digit? '0' = some 0 := by decide
    rw [List.replicate_succ, List.cons_append, Text.continuedBelow?, hzero]
    simp only [Nat.mul_zero, Nat.add_zero, if_pos h, ih]

/-- Digits have the value that they were printed for, however many zeros precede them. -/
theorem valueBelow?_padded {bound n : Nat} (h : n < bound) (width : Nat) :
    valueBelow? bound (padded width n) = some n := by
  have hne : padded width n ≠ [] :=
    List.append_ne_nil_of_right_ne_nil _ (digits_ne_nil n)
  rw [valueBelow?, Text.numeralBelow?, if_neg (by simpa using hne), padded, List.leftpad,
    continuedBelow?_zeros (by omega), continuedBelow?_digits h]

/-- Digits are not padded to a width of 0. -/
theorem padded_zero (n : Nat) : padded 0 n = digits n := by
  rw [padded, List.leftpad, Nat.zero_sub]
  rfl

/-- A number is printed with hexadecimal digits only. -/
theorem isDigit_of_mem_digits {n : Nat} {c : Char} (h : c ∈ digits n) : isDigit c = true := by
  have hdigit : ∀ d < 16, isDigit (Nat.digitChar d) = true := by decide
  induction n using Nat.strongRecOn with
  | ind n ih =>
    by_cases hn : n < 16
    · rw [digits, Nat.toDigits_of_lt_base hn, List.mem_singleton] at h
      rw [h]
      exact hdigit n hn
    · rw [digits, Nat.toDigits_of_base_le (by decide) (by omega), List.mem_append,
        List.mem_singleton] at h
      rcases h with h | rfl
      · exact ih (n / 16) (by omega) h
      · exact hdigit _ (Nat.mod_lt _ (by decide))

/-- Padding puts only digits before digits. -/
theorem isDigit_of_mem_padded {width n : Nat} {c : Char} (h : c ∈ padded width n) :
    isDigit c = true := by
  rcases List.mem_append.1 h with h | h
  · rw [List.eq_of_mem_replicate h]
    decide
  · exact isDigit_of_mem_digits h

/-- Digits are ASCII digits, or ASCII letters of either case. -/
theorem toNat_of_isDigit {c : Char} (h : isDigit c = true) :
    48 ≤ c.toNat ∧ c.toNat ≤ 57 ∨ 97 ≤ c.toNat ∧ c.toNat ≤ 102 ∨
      65 ≤ c.toNat ∧ c.toNat ≤ 70 := by
  have hle {a b : Char} : a ≤ b ↔ a.toNat ≤ b.toNat := Iff.rfl
  rw [isDigit, digit?] at h
  split at h
  · rename_i hc
    exact Or.inl ⟨hle.1 hc.1, hle.1 hc.2⟩
  · split at h
    · rename_i hc
      exact Or.inr (Or.inl ⟨hle.1 hc.1, hle.1 hc.2⟩)
    · split at h
      · rename_i hc
        exact Or.inr (Or.inr ⟨hle.1 hc.1, hle.1 hc.2⟩)
      · cases h

end Hex

/-! ### Words -/

namespace Text

/-- No hexadecimal digit is blank. -/
theorem isBlank_of_isDigit {c : Char} (h : Hex.isDigit c = true) : isBlank c = false := by
  have hc := Hex.toNat_of_isDigit h
  simp only [isBlank, blankRanges, List.any_cons, List.any_nil, Bool.or_false, Bool.or_eq_false_iff,
    Bool.and_eq_false_iff, decide_eq_false_iff_not]
  omega

/-- Characters that are not blank go on with the word begun before them. -/
theorem wordsFrom_append {word w : List Char} (hw : ∀ c ∈ w, isBlank c = false) (s : List Char) :
    wordsFrom word (w ++ s) = wordsFrom (w.reverse ++ word) s := by
  induction w generalizing word with
  | nil => rfl
  | cons c w ih =>
    have hc := hw c List.mem_cons_self
    rw [List.cons_append, wordsFrom, hc, if_neg Bool.false_ne_true,
      ih fun d hd => hw d (List.mem_cons_of_mem _ hd), List.reverse_cons, List.append_assoc]
    rfl

/-- A word ends at a space. -/
theorem words_append {w : List Char} (hne : w ≠ []) (hw : ∀ c ∈ w, isBlank c = false)
    (s : List Char) : words (w ++ ' ' :: s) = w :: words s := by
  have hblank : isBlank ' ' = true := by decide
  have hne' : ¬(w.reverse ++ []).isEmpty = true := by simpa using hne
  rw [words, wordsFrom_append hw, wordsFrom, if_pos hblank, if_neg hne', List.append_nil,
    List.reverse_reverse]
  rfl

/-- Text without blanks is one word. -/
theorem words_eq_singleton {w : List Char} (hne : w ≠ []) (hw : ∀ c ∈ w, isBlank c = false) :
    words w = [w] := by
  have h : wordsFrom [] (w ++ []) = wordsFrom (w.reverse ++ []) [] := wordsFrom_append hw []
  have hne' : ¬(w.reverse ++ []).isEmpty = true := by simpa using hne
  rw [List.append_nil] at h
  rw [words, h, wordsFrom, if_neg hne', List.append_nil, List.reverse_reverse]

/-- Spaces before words change nothing. -/
theorem words_replicate (k : Nat) (s : List Char) :
    words (List.replicate k ' ' ++ s) = words s := by
  have hblank : isBlank ' ' = true := by decide
  induction k with
  | zero => rfl
  | succ k ih =>
    rw [List.replicate_succ, List.cons_append, words, wordsFrom, if_pos hblank]
    exact ih

/-- Nothing is cut off before a character that is not blank. -/
theorem trimStart_eq_self {c : Char} {s : List Char} (h : isBlank c = false) :
    trimStart (c :: s) = c :: s := by
  rw [trimStart, List.dropWhile_cons_of_neg (by rw [h]; exact Bool.false_ne_true)]

/-- A space at the start is cut off. -/
theorem trimStart_space (s : List Char) : trimStart (' ' :: s) = trimStart s :=
  List.dropWhile_cons_of_pos (by decide)

/-- A text that neither starts nor ends with a blank is trimmed already. -/
theorem trim_eq_self {s : List Char} (hfirst : ∀ c ∈ s.head?, isBlank c = false)
    (hlast : ∀ c ∈ s.getLast?, isBlank c = false) : trim s = s := by
  have hstart {s : List Char} (h : ∀ c ∈ s.head?, isBlank c = false) : trimStart s = s := by
    cases s with
    | nil => rfl
    | cons c s => exact trimStart_eq_self (h c rfl)
  rw [trim, trimEnd, hstart hfirst, hstart (by rwa [List.head?_reverse]), List.reverse_reverse]

/-! ### Lines -/

/-- ASCII text is stored byte by byte. -/
theorem encode_eq_map {s : List Char} (h : ∀ c ∈ s, c.toNat < 128) :
    encode s = s.map fun c => c.toNat.toUInt8 := by
  induction s with
  | nil => rfl
  | cons c s ih =>
    have hc : String.utf8EncodeChar c = [c.toNat.toUInt8] := by
      have hle : c.val ≤ 0x7f :=
        UInt32.le_iff_toNat_le.2 (Nat.le_of_lt_succ (h c List.mem_cons_self))
      exact String.utf8EncodeChar_eq_singleton (if_pos hle)
    rw [encode, List.flatMap_cons, hc, List.map_cons]
    exact congrArg _ (ih fun d hd => h d (List.mem_cons_of_mem _ hd))

/-- Texts are encoded one after the other. -/
theorem encode_append (s t : List Char) : encode (s ++ t) = encode s ++ encode t :=
  List.flatMap_append

/-- The bytes up to a line feed end the line begun before them. -/
theorem linesFrom_append {line l : Bytes} (h : 10 ∉ l) (rest : Bytes) :
    linesFrom line (l ++ 10 :: rest) = (dropReturn (l.reverse ++ line)).reverse ::
      linesFrom [] rest := by
  induction l generalizing line with
  | nil => rw [List.nil_append, linesFrom, if_pos rfl]; rfl
  | cons b l ih =>
    have hb : b ≠ 10 := fun hb => h (hb ▸ List.mem_cons_self)
    rw [List.cons_append, linesFrom, if_neg hb, ih fun hl => h (List.mem_cons_of_mem _ hl),
      List.reverse_cons, List.append_assoc]
    rfl

/-- A line feed ends a line, so what follows it has lines of its own. -/
theorem linesFrom_append_feed (line front behind : Bytes) :
    linesFrom line (front ++ 10 :: behind) =
      linesFrom line (front ++ [10]) ++ linesFrom [] behind := by
  induction front generalizing line with
  | nil => rfl
  | cons b front ih =>
    simp only [List.cons_append, linesFrom]
    split
    · rw [ih, List.cons_append]
    · rw [ih]

/-- The lines before a line feed are found apart from those behind it. -/
theorem lines_append_feed (front behind : Bytes) :
    lines (front ++ 10 :: behind) = lines (front ++ [10]) ++ lines behind :=
  linesFrom_append_feed [] front behind

/-- Nothing is cut off a line without a carriage return. -/
theorem dropReturn_eq_self {line : Bytes} (h : 13 ∉ line) : dropReturn line = line := by
  rw [dropReturn.eq_def]
  split
  · exact absurd List.mem_cons_self h
  · rfl

/-- Lines without line ends in them are found again when line feeds stand behind them. -/
theorem lines_flatMap {ls : List Bytes} (h : ∀ l ∈ ls, 10 ∉ l ∧ 13 ∉ l) :
    lines (ls.flatMap (· ++ [10])) = ls := by
  induction ls with
  | nil => rfl
  | cons l ls ih =>
    obtain ⟨hfeed, hreturn⟩ := h l List.mem_cons_self
    have hdrop : dropReturn (l.reverse ++ []) = l.reverse := by
      rw [List.append_nil, dropReturn_eq_self (by simpa using hreturn)]
    rw [lines, List.flatMap_cons, List.append_assoc, List.cons_append, List.nil_append,
      linesFrom_append hfeed, hdrop, List.reverse_reverse]
    exact congrArg _ (ih fun l hl => h l (List.mem_cons_of_mem _ hl))

end Text

end RowFlips
