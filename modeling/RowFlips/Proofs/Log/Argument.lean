import RowFlips.Proofs.Log.Grammar

/-!
# Addresses on their own

An address may be given on its own, as an argument, instead of in a line of a log. Its parentheses
may then be left out. A reader of an argument cuts off the parentheses at its ends and looks at the
words between them, while a reader of a line looks for the first closing parenthesis. Neither takes
what the other refuses or reads it as another address: no field can hold a parenthesis, so an
argument that is accepted has none but those at its ends.

## Main results

* `Text.exists_eq_trim`, `Text.trim_append`, `Text.words_trim`: blanks at the ends of a text.
* `Address.Spelled.ne_paren`: no parenthesis stands between those of an address.
* `Address.parse_eq_ok_iff`: which arguments stand for an address.
* `Run.parse_colon_eq_ok_iff`: which texts before a colon name one target and nothing else.
* `Address.parse_iff_logged`: arguments and logged addresses are one language.
-/

namespace RowFlips

/-! ### Blanks around a text -/

namespace Text

/-- Only blanks are cut off at the start. -/
theorem exists_eq_trimStart (s : List Char) : ∃ front, AllBlank front ∧ s = front ++ trimStart s :=
  ⟨s.takeWhile isBlank, fun _ hc => List.mem_takeWhile_imp hc,
    List.takeWhile_append_dropWhile.symm⟩

/-- Only blanks are cut off at the end. -/
theorem exists_trimStart_eq (s : List Char) :
    ∃ behind, AllBlank behind ∧ trimStart s = trim s ++ behind := by
  obtain ⟨behind, hbehind, hr⟩ := exists_eq_trimStart (trimStart s).reverse
  refine ⟨behind.reverse, fun c hc => hbehind c (List.mem_reverse.1 hc), ?_⟩
  rw [trim, trimEnd, ← List.reverse_append, ← hr, List.reverse_reverse]

/-- A text is what trimming leaves of it, between blanks. -/
theorem exists_eq_trim (s : List Char) :
    ∃ front behind, AllBlank front ∧ AllBlank behind ∧ s = front ++ (trim s ++ behind) := by
  obtain ⟨front, hfront, hs⟩ := exists_eq_trimStart s
  obtain ⟨behind, hbehind, hstart⟩ := exists_trimStart_eq s
  exact ⟨front, behind, hfront, hbehind, hstart ▸ hs⟩

/-- Trimming leaves a text that neither starts nor ends with a blank of it and blanks around it. -/
theorem trim_append {front t behind : List Char} (hne : t ≠ []) (hfront : AllBlank front)
    (hbehind : AllBlank behind) (hfirst : ∀ c ∈ t.head?, isBlank c = false)
    (hlast : ∀ c ∈ t.getLast?, isBlank c = false) : trim (front ++ (t ++ behind)) = t := by
  have hstart : trimStart (front ++ (t ++ behind)) = t ++ behind := by
    refine (longest_iff.2 ⟨rfl, hfront, ?_⟩).2
    rwa [List.head?_append_of_ne_nil _ hne]
  have hend : trimStart (t ++ behind).reverse = t.reverse := by
    have hblank : AllBlank behind.reverse := fun c hc => hbehind c (List.mem_reverse.1 hc)
    refine (longest_iff.2 ⟨List.reverse_append, hblank, ?_⟩).2
    rwa [List.head?_reverse]
  rw [trim, trimEnd, hstart, hend, List.reverse_reverse]

/-- Blanks may follow the words of a text. -/
theorem SpellsWords.append_blanks {ws : List (List Char)} {s blanks : List Char}
    (h : SpellsWords ws s) (hblanks : AllBlank blanks) : SpellsWords ws (s ++ blanks) := by
  induction h with
  | nil h => exact .nil (List.forall_mem_append.2 ⟨h, hblanks⟩)
  | @cons front w s ws hfront hne hw hend hs ih =>
    rw [List.append_assoc, List.append_assoc]
    refine .cons hfront hne hw ?_ ih
    cases s with
    | nil => exact fun c hc => hblanks c (List.mem_of_mem_head? hc)
    | cons c s => exact hend

/-- Blanks at the ends of a text change no word. -/
theorem words_trim (s : List Char) : words (trim s) = words s := by
  obtain ⟨front, behind, hfront, hbehind, hs⟩ := exists_eq_trim s
  have htrim : SpellsWords (words (trim s)) (trim s) := words_eq_iff.1 rfl
  have hwords := words_eq_iff.2 (htrim.append_blanks hbehind)
  rw [← words_append_of_allBlank hfront, ← hs] at hwords
  exact hwords.symm

/-- Each character of a text is blank or in a word. -/
theorem SpellsWords.isBlank_or_mem {ws : List (List Char)} {s : List Char} (h : SpellsWords ws s)
    {c : Char} (hc : c ∈ s) : isBlank c = true ∨ ∃ w ∈ ws, c ∈ w := by
  induction h with
  | nil h => exact Or.inl (h c hc)
  | @cons front w s ws hfront hne hw hend hs ih =>
    rw [List.mem_append, List.mem_append] at hc
    rcases hc with hc | hc | hc
    · exact Or.inl (hfront c hc)
    · exact Or.inr ⟨w, List.mem_cons_self, hc⟩
    · exact (ih hc).imp_right fun ⟨w', hw', hcw⟩ => ⟨w', List.mem_cons_of_mem _ hw', hcw⟩

end Text

/-- A numeral has digits, and at most a plus sign besides. -/
theorem Hex.Signed.isDigit_or_eq_plus {cs : List Char} {n : Nat} (h : Hex.Signed cs n) {c : Char}
    (hc : c ∈ cs) : Hex.isDigit c = true ∨ c = '+' := by
  obtain ⟨-, hdigits, -⟩ | ⟨digits, rfl, -, hdigits, -⟩ := h
  · exact Or.inl (hdigits c hc)
  · rcases List.mem_cons.1 hc with rfl | hc
    · exact Or.inr rfl
    · exact Or.inl (hdigits c hc)

namespace Address

variable {a : Address} {s inner : List Char}

/-! ### Parentheses -/

/-- Whether a text spells an address hangs on its words alone. -/
theorem spelled_iff_of_words_eq {inner' : List Char} (h : Text.words inner = Text.words inner') :
    a.Spelled inner ↔ a.Spelled inner' := by
  simp only [Spelled, ← Text.words_eq_iff, exists_eq_left', h]

/-- No parenthesis stands between those of an address. -/
theorem Spelled.ne_paren (h : a.Spelled inner) {c : Char} (hc : c ∈ inner) :
    c ≠ '(' ∧ c ≠ ')' := by
  obtain ⟨ws, hws, hfields⟩ := h
  have hsigned : ∀ w ∈ ws, ∃ n, Hex.Signed w n :=
    exists_forall₂_iff.1 (hfields.elim (fun h => ⟨_, h⟩) fun h => ⟨_, h.1⟩)
  have hall : Text.isBlank c = true ∨ Hex.isDigit c = true ∨ c = '+' := by
    refine (hws.isBlank_or_mem hc).imp_right ?_
    rintro ⟨w, hw, hcw⟩
    obtain ⟨n, hn⟩ := hsigned w hw
    exact hn.isDigit_or_eq_plus hcw
  constructor <;> rintro rfl <;> revert hall <;> decide

/-- An argument stands for an address if it spells its fields, between parentheses or without. -/
theorem parse_eq_ok_iff : parse s = .ok a ↔
    a.Spelled s ∨ ∃ inner, Text.trim s = '(' :: (inner ++ [')']) ∧ a.Spelled inner := by
  have hparen {inner t : List Char} (ht : t = '(' :: (inner ++ [')'])) : ¬a.Spelled t := by
    intro h
    exact (h.ne_paren (ht ▸ List.mem_cons_self)).1 rfl
  have hwords : a.Spelled s ↔ a.Spelled (Text.trim s) :=
    spelled_iff_of_words_eq (Text.words_trim s).symm
  rw [parse, ofInner_eq_ok_iff, hwords]
  by_cases h : ∃ inner, Text.trim s = '(' :: (inner ++ [')'])
  · obtain ⟨inner, hinner⟩ := h
    rw [or_iff_right (hparen hinner), hinner, stripParens_parens]
    simp only [List.cons.injEq, true_and, List.append_left_inj, exists_eq_left']
  · have hnone : ¬∃ inner, Text.trim s = '(' :: (inner ++ [')']) ∧ a.Spelled inner :=
      fun hinner => h (hinner.imp fun _ => And.left)
    rw [or_iff_left hnone, stripParens_eq_self (not_exists.1 h)]

end Address

/-- A text spells one address and no other token if it spells it between parentheses. -/
theorem Token.spellsTokens_address_iff {a : Address} {s : List Char} :
    SpellsTokens [.address a] s ↔
      ∃ inner, Text.trim s = '(' :: (inner ++ [')']) ∧ a.Spelled inner := by
  have hlast (inner : List Char) : ('(' :: (inner ++ [')'])).getLast? = some ')' := by
    rw [← List.cons_append, List.getLast?_concat]
  constructor
  · rintro (_ | ⟨hfront, hword, -, ⟨hbehind⟩⟩)
    rename_i front word behind
    cases hword with
    | @address _ inner hinner h =>
      refine ⟨inner, Text.trim_append (List.cons_ne_nil _ _) hfront hbehind ?_ ?_, h⟩
      · rintro c ⟨⟩
        decide
      · rw [hlast]
        rintro c ⟨⟩
        decide
  · rintro ⟨inner, htrim, h⟩
    obtain ⟨front, behind, hfront, hbehind, hs⟩ := Text.exists_eq_trim s
    rw [hs, htrim]
    exact .cons hfront (.address (fun c hc => h.ne_paren hc) h) nofun (.nil hbehind)

/-- A text before a colon names one target, with nothing behind the colon, if it spells its address
between parentheses. -/
theorem Run.parse_colon_eq_ok_iff {a : Address} {s : List Char} (hcolon : ':' ∉ s) :
    parse (s ++ [':']) = .ok ⟨[a], []⟩ ↔
      ∃ inner, Text.trim s = '(' :: (inner ++ [')']) ∧ a.Spelled inner := by
  have hs : ∀ c ∈ s, (c != ':') = true := by
    intro c hc
    rw [bne_iff_ne]
    rintro rfl
    exact hcolon hc
  obtain ⟨htake, hdrop⟩ := longest_iff (p := (· != ':')) (l := s ++ [':']).2
    ⟨rfl, hs, by rintro c ⟨⟩; rfl⟩
  have hparse : parse (s ++ [':']) = parseSides s [] := by
    rw [parse]
    simp only [hdrop, htake]
  rw [hparse, parseSides_eq_ok_iff, ← Token.spellsTokens_address_iff]
  constructor
  · rintro ⟨targets, groups, -, htargets, -, -, heq⟩
    rwa [← (Run.mk.inj heq).1] at htargets
  · intro htargets
    refine ⟨[a], [], List.cons_ne_nil _ _, htargets, List.forall_mem_nil _,
      .nil (List.forall_mem_nil _), rfl⟩

/-- **Arguments and logged addresses are one language.** Let `s` start with a parenthesis, but for
blanks, and have no colon. Then `parse` gives the address `a` for it exactly if `Run.parse` gives
the run with the one target `a` and no victims for the line that has a colon behind `s`. A text that
starts in another way stands for an address `a` exactly if it does so with parentheses around it. -/
theorem Address.parse_iff_logged (s : List Char) :
    (∀ rest, Text.trimStart s = '(' :: rest → ':' ∉ s →
      ∀ a, parse s = .ok a ↔ Run.parse (s ++ [':']) = .ok ⟨[a], []⟩) ∧
    ((∀ rest, Text.trimStart s ≠ '(' :: rest) →
      ∀ a, parse s = .ok a ↔ parse ('(' :: (s ++ [')'])) = .ok a) := by
  refine ⟨?_, ?_⟩
  · intro rest hstart hcolon a
    have hmem : '(' ∈ s := by
      obtain ⟨front, -, hs⟩ := Text.exists_eq_trimStart s
      rw [hs, hstart]
      exact List.mem_append_right _ List.mem_cons_self
    have hbare : ¬a.Spelled s := fun h => (h.ne_paren hmem).1 rfl
    rw [parse_eq_ok_iff, or_iff_right hbare, Run.parse_colon_eq_ok_iff hcolon]
  · intro hstart a
    have hnone : ¬∃ inner, Text.trim s = '(' :: (inner ++ [')']) ∧ a.Spelled inner := by
      rintro ⟨inner, htrim, -⟩
      obtain ⟨behind, -, hs⟩ := Text.exists_trimStart_eq s
      rw [htrim] at hs
      exact hstart _ hs
    rw [parse_eq_ok_iff, or_iff_left hnone, parse_parens, ofInner_eq_ok_iff]

/-- A sign, zeros, letters of either case and a missing column are the same to both. Parentheses
within parentheses are refused by both, and so is a second address behind the first. -/
theorem Address.parse_iff_logged_nested :
    Run.parse "\u3000(+0 1\t0 a 0001F )  :".toList = .ok ⟨[⟨0, 1, 0, 10, 31, 0⟩], []⟩ ∧
      (∀ a, Run.parse "((0 1 0 a 1f)):".toList ≠ .ok ⟨[a], []⟩) ∧
      (∀ a, Run.parse "(0 1 0 a 1f)(0 1 0 a 1f):".toList ≠ .ok ⟨[a], []⟩) ∧
      parse "( 0 1 0 a 1F 2c )".toList = .ok ⟨0, 1, 0, 10, 31, 44⟩ := by
  have hrefused {s : List Char} {cause : Malformed} (h : parse s = .error cause) (a : Address) :
      parse s ≠ .ok a := by
    rw [h]
    exact error_ne_ok
  refine ⟨?_, ?_, ?_, ?_⟩
  · have hparse : parse "\u3000(+0 1\t0 a 0001F )  ".toList = .ok ⟨0, 1, 0, 10, 31, 0⟩ := by cbv
    exact ((parse_iff_logged _).1 _ rfl (by decide) _).1 hparse
  · have hparse : parse "((0 1 0 a 1f))".toList =
        .error (.notHex .channel "(0".toList) := by cbv
    exact fun a h => hrefused hparse a (((parse_iff_logged _).1 _ rfl (by decide) a).2 h)
  · have hparse : parse "(0 1 0 a 1f)(0 1 0 a 1f)".toList =
        .error (.fieldCount 9 "0 1 0 a 1f)(0 1 0 a 1f".toList) := by cbv
    exact fun a h => hrefused hparse a (((parse_iff_logged _).1 _ rfl (by decide) a).2 h)
  · have hparse : parse " 0 1 0 a 1F 2c ".toList = .ok ⟨0, 1, 0, 10, 31, 44⟩ := by cbv
    have hstart : (Text.trimStart " 0 1 0 a 1F 2c ".toList).head? ≠ some '(' := by decide
    exact ((parse_iff_logged _).2 (fun _ h => hstart (congrArg List.head? h)) _).1 hparse

end RowFlips
