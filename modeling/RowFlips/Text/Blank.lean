/-!
# White space

A character is blank if it has the Unicode property White_Space. Words are the longest stretches
of characters that are not blank. Reports are set in columns with blanks, and have a line feed
before each line but the first.

## Main results

* `splitOn_append_join`: lines put together are found again.
-/

namespace RowFlips.Text

/-- The code points with the property White_Space, as inclusive ranges. -/
def blankRanges : List (Nat × Nat) :=
  [(0x09, 0x0D), (0x20, 0x20), (0x85, 0x85), (0xA0, 0xA0), (0x1680, 0x1680), (0x2000, 0x200A),
    (0x2028, 0x2029), (0x202F, 0x202F), (0x205F, 0x205F), (0x3000, 0x3000)]

/-- The character has the property White_Space. -/
def isBlank (c : Char) : Bool := blankRanges.any fun r => r.1 ≤ c.toNat && c.toNat ≤ r.2

/-- The text without the blanks at its start. -/
def trimStart (s : List Char) : List Char := s.dropWhile isBlank

/-- The text without the blanks at its end. -/
def trimEnd (s : List Char) : List Char := (trimStart s.reverse).reverse

/-- The text without the blanks at its start and end. -/
def trim (s : List Char) : List Char := trimEnd (trimStart s)

/-- Cutting blanks off does not make a text longer. -/
theorem length_trimStart_le (s : List Char) : (trimStart s).length ≤ s.length :=
  List.Sublist.length_le (List.dropWhile_sublist isBlank)

/-- The words of a text, where `word` holds the characters of a word begun before it, the last
one first. -/
def wordsFrom (word : List Char) : List Char → List (List Char)
  | [] => if word.isEmpty then [] else [word.reverse]
  | c :: s =>
    if isBlank c then
      if word.isEmpty then wordsFrom [] s else word.reverse :: wordsFrom [] s
    else wordsFrom (c :: word) s

/-- The words of a text in order. -/
def words (s : List Char) : List (List Char) := wordsFrom [] s

/-! ### Lines of reports -/

/-- The text moved to the right end of a field of `width` places; a longer text stays whole. -/
def alignRight (width : Nat) (s : String) : String := String.ofList (s.toList.leftpad width ' ')

/-- Moving a text to the right puts no line feed before it. -/
@[simp] theorem newline_mem_alignRight {width : Nat} {s : String} :
    '\n' ∈ (alignRight width s).toList ↔ '\n' ∈ s.toList := by
  simp [alignRight, List.leftpad]

/-- Decimal digits are on one line. -/
@[simp] theorem newline_not_mem_toDigits (n : Nat) : '\n' ∉ Nat.toDigits 10 n := by
  intro h
  exact absurd (Nat.isDigit_of_mem_toDigits (by decide) (by decide) h) (by decide)

/-- Texts on one line each, put behind each other with a line feed before each, are the lines of
the whole. -/
theorem splitOn_append_join {front : List Char} {lines : List String} (hfront : '\n' ∉ front)
    (h : ∀ s ∈ lines, '\n' ∉ s.toList) :
    (front ++ (String.join (lines.map ("\n" ++ ·))).toList).splitOn '\n' =
      front :: lines.map String.toList := by
  induction lines generalizing front with
  | nil => simpa using List.splitOn_eq_singleton hfront
  | cons s lines ih =>
    obtain ⟨hs, hlines⟩ := List.forall_mem_cons.1 h
    have hjoin : (String.join ((s :: lines).map ("\n" ++ ·))).toList =
        '\n' :: (s.toList ++ (String.join (lines.map ("\n" ++ ·))).toList) := by
      simp [String.toList_join]
    rw [hjoin, List.splitOn_append_cons_self, List.splitOn_eq_singleton hfront, ih hs hlines]
    rfl

end RowFlips.Text
