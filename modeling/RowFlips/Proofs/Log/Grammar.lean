import Mathlib
import RowFlips.Proofs.Log.Run
import RowFlips.Proofs.Log.Spelling

/-!
# The grammar of lines

A line is one or more addresses, a colon, and groups of an address with one or more corruptions.
Blanks may surround all of these, but only between two corruptions must there be one: all else ends
by itself. The grammar is defined here apart from how lines are read, and a line stands for a run
exactly if it spells the run.

A reader takes the longest numeral that it finds, so two numerals that touch are one to it. That no
digit follows a corruption is therefore what the blank between corruptions comes to.

## Main results

* `Token.read_eq_ok_iff`: the token at the start of a text.
* `Token.tokens_eq_ok_iff`: the tokens of a text.
* `Run.corruptionsOf_eq_ok_iff`, `Run.gather_eq_listed`: the groups behind the colon, and what they
  list.
* `Run.parse_iff_spelled`: which lines stand for runs, and for which.
-/

namespace RowFlips

namespace Token

/-! ### The start of a text -/

/-- The longest numeral at the start of a text is one that no digit follows. -/
theorem numeral?_eq_some_iff {cs n rest : List Char} : numeral? cs = some (n, rest) ↔
    cs = n ++ rest ∧ n ≠ [] ∧ (∀ c ∈ n, Hex.isDigit c = true) ∧ EndsNumeral rest := by
  constructor
  · intro h
    rw [numeral?] at h
    split at h
    · cases h
    · rename_i hne
      cases h
      obtain ⟨hcs, hdigits, hend⟩ := longest_iff.1 ⟨rfl, rfl⟩
      exact ⟨hcs, by simpa using hne, hdigits, hend⟩
  · rintro ⟨rfl, hne, hn, hrest⟩
    exact numeral?_append hne hn hrest

/-- A numeral before a bar is any digits up to the bar, but at least one. -/
theorem numeralBar?_eq_some_iff {cs n rest : List Char} : numeralBar? cs = some (n, rest) ↔
    cs = n ++ '|' :: rest ∧ n ≠ [] ∧ ∀ c ∈ n, Hex.isDigit c = true := by
  constructor
  · intro h
    rw [numeralBar?] at h
    split at h
    · rename_i hnumeral
      cases h
      obtain ⟨hcs, hne, hn, -⟩ := numeral?_eq_some_iff.1 hnumeral
      exact ⟨hcs, hne, hn⟩
    · cases h
  · rintro ⟨rfl, hne, hn⟩
    exact numeralBar?_append hne hn rest

/-- Three numerals at the start of a text, and the bars that join them. -/
theorem numerals?_eq_some_iff {cs o g e rest : List Char} :
    numerals? cs = some (o, g, e, rest) ↔ cs = o ++ '|' :: (g ++ '|' :: e) ++ rest ∧
      (o ≠ [] ∧ ∀ c ∈ o, Hex.isDigit c = true) ∧ (g ≠ [] ∧ ∀ c ∈ g, Hex.isDigit c = true) ∧
        (e ≠ [] ∧ ∀ c ∈ e, Hex.isDigit c = true) ∧ EndsNumeral rest := by
  simp only [numerals?, Option.bind_eq_bind, Option.bind_eq_some_iff, Prod.exists,
    numeralBar?_eq_some_iff, numeral?_eq_some_iff, Option.pure_def, Option.some.injEq,
    Prod.mk.injEq]
  constructor
  · rintro ⟨_, _, ⟨rfl, ho⟩, _, _, ⟨rfl, hg⟩, _, _, ⟨rfl, hene, he, hend⟩, rfl, rfl, rfl, rfl⟩
    exact ⟨by simp only [List.cons_append, List.append_assoc], ho, hg, ⟨hene, he⟩, hend⟩
  · rintro ⟨rfl, ho, hg, ⟨hene, he⟩, hend⟩
    refine ⟨o, _, ⟨?_, ho⟩, g, _, ⟨rfl, hg⟩, e, rest, ⟨rfl, hene, he, hend⟩, rfl, rfl, rfl, rfl⟩
    simp only [List.cons_append, List.append_assoc]

/-- The text spells the token: an address stands between parentheses, and bars join the numerals of
a corruption. -/
inductive Spelled : Token → List Char → Prop
  | address {a : Address} {inner : List Char} (hinner : ∀ c ∈ inner, c ≠ '(' ∧ c ≠ ')')
      (h : a.Spelled inner) : Spelled (.address a) ('(' :: (inner ++ [')']))
  | corruption {c : Corruption} {offset got expected : List Char}
      (h : c.Spelled offset got expected) :
      Spelled (.corruption c) (offset ++ '|' :: (got ++ '|' :: expected))

/-- A token starts with a character that is not blank, and a corruption with a digit. -/
theorem Spelled.exists_eq_cons {t : Token} {word : List Char} (h : t.Spelled word) :
    ∃ c s, word = c :: s ∧ Text.isBlank c = false ∧
      (Hex.isDigit c = true ↔ ∃ d, t = .corruption d) := by
  cases h with
  | address hinner h => exact ⟨'(', _, rfl, by decide, iff_of_false (by decide) nofun⟩
  | @corruption c o g e h =>
    obtain ⟨d, o, rfl⟩ := List.exists_cons_of_ne_nil h.offset.1
    have hd : Hex.isDigit d = true := h.offset.2.1 d List.mem_cons_self
    exact ⟨d, _, rfl, Text.isBlank_of_isDigit hd, iff_of_true hd ⟨c, rfl⟩⟩

/-- Between parentheses anything may stand but parentheses. -/
theorem isInner_iff {c : Char} : isInner c = true ↔ c ≠ '(' ∧ c ≠ ')' := by
  rw [isInner, Bool.and_eq_true, bne_iff_ne, bne_iff_ne]

/-- The token at the start of a text is one that it spells there. No digit may follow a
corruption. -/
theorem read_eq_ok_iff {cs rest : List Char} {t : Token} : read cs = .ok (t, rest) ↔
    ∃ word, cs = word ++ rest ∧ t.Spelled word ∧ ∀ c, t = .corruption c → EndsNumeral rest := by
  constructor
  · intro h
    rw [read.eq_def] at h
    split at h
    · rename_i text
      split at h
      · rename_i after hafter
        obtain ⟨a, ha, ⟨⟩⟩ := map_eq_ok.1 h
        obtain ⟨htext, hinner, -⟩ := longest_iff.1 ⟨rfl, hafter⟩
        refine ⟨'(' :: (text.takeWhile isInner ++ [')']), ?_,
          .address (fun c hc => isInner_iff.1 (hinner c hc)) (Address.ofInner_eq_ok_iff.1 ha), ?_⟩
        · rw [List.cons_append, List.append_assoc]
          exact congrArg _ htext
        · rintro c ⟨⟩
      · cases h
    · split at h
      · rename_i o g e after hnumerals
        obtain ⟨c, hc, ⟨⟩⟩ := map_eq_ok.1 h
        obtain ⟨rfl, ⟨-, ho⟩, ⟨-, hg⟩, ⟨-, he⟩, hend⟩ := numerals?_eq_some_iff.1 hnumerals
        exact ⟨_, rfl, .corruption ((corruptionOf_eq_ok_iff ho hg he).1 hc), fun _ _ => hend⟩
      · cases h
  · rintro ⟨word, rfl, hword, hend⟩
    cases hword with
    | @address a inner hinner h =>
      obtain ⟨htake, hdrop⟩ := longest_iff (p := isInner) (l := inner ++ ')' :: rest).2
        ⟨rfl, fun c hc => isInner_iff.2 (hinner c hc), by rintro c ⟨⟩; rfl⟩
      rw [List.cons_append, List.append_assoc, List.cons_append, List.nil_append, read]
      simp only [hdrop, htake, Address.ofInner_eq_ok_iff.2 h]
      rfl
    | @corruption c o g e h =>
      obtain ⟨⟨hone, ho, -⟩, ⟨hgne, hg, -⟩, ⟨hene, he, -⟩⟩ := id h
      have hnumerals : numerals? (o ++ '|' :: (g ++ '|' :: e) ++ rest) = some (o, g, e, rest) :=
        numerals?_eq_some_iff.2 ⟨rfl, ⟨hone, ho⟩, ⟨hgne, hg⟩, ⟨hene, he⟩, hend c rfl⟩
      rw [read.eq_def]
      split
      · rename_i text heq
        obtain ⟨d, o, rfl⟩ := List.exists_cons_of_ne_nil hone
        have hd := ho d List.mem_cons_self
        rw [(List.cons.inj heq).1] at hd
        exact absurd hd (by decide)
      · simp only [hnumerals, (corruptionOf_eq_ok_iff ho hg he).2 h]
        rfl

/-! ### All tokens of a text -/

/-- The text spells tokens one after the other. Blanks may surround them, and one must stand between
two corruptions. -/
inductive SpellsTokens : List Token → List Char → Prop
  | nil {blanks : List Char} (h : Text.AllBlank blanks) : SpellsTokens [] blanks
  | cons {blanks word rest : List Char} {t : Token} {ts : List Token}
      (hblanks : Text.AllBlank blanks) (hword : t.Spelled word)
      (hgap : ∀ c d, t = .corruption c → ts.head? = some (.corruption d) →
        ∃ b ∈ rest.head?, Text.isBlank b = true)
      (hrest : SpellsTokens ts rest) : SpellsTokens (t :: ts) (blanks ++ (word ++ rest))

/-- A corruption may stand before the spelling of tokens exactly if these start with no other or a
blank stands before it. -/
theorem SpellsTokens.endsNumeral_iff {ts : List Token} {rest : List Char}
    (h : SpellsTokens ts rest) : EndsNumeral rest ↔
      ∀ d, ts.head? = some (.corruption d) → ∃ b ∈ rest.head?, Text.isBlank b = true := by
  have hblank {b : Char} {s : List Char} (hb : Text.isBlank b = true) : EndsNumeral (b :: s) := by
    refine endsNumeral_cons (Bool.eq_false_iff.2 fun hdigit => ?_)
    rw [Text.isBlank_of_isDigit hdigit] at hb
    cases hb
  cases h with
  | nil hblanks =>
    refine iff_of_true ?_ nofun
    cases rest with
    | nil => exact endsNumeral_nil
    | cons b rest => exact hblank (hblanks b List.mem_cons_self)
  | @cons blanks word rest t ts hblanks hword hgap hrest =>
    cases blanks with
    | cons b blanks =>
      have hb := hblanks b List.mem_cons_self
      exact iff_of_true (hblank hb) fun _ _ => ⟨b, rfl, hb⟩
    | nil =>
      obtain ⟨c, s, rfl, hc, hdigit⟩ := hword.exists_eq_cons
      constructor
      · rintro hend d ⟨⟩
        have hc' : Hex.isDigit c = false := hend c rfl
        rw [hdigit.2 ⟨d, rfl⟩] at hc'
        cases hc'
      · intro hgap'
        refine endsNumeral_cons (Bool.eq_false_iff.2 fun hc' => ?_)
        obtain ⟨d, rfl⟩ := hdigit.1 hc'
        obtain ⟨_, ⟨⟩, hb⟩ := hgap' d rfl
        rw [hc] at hb
        cases hb

/-- The tokens of a text are those that it spells. -/
theorem tokens_eq_ok_iff {cs : List Char} {ts : List Token} :
    tokens cs = .ok ts ↔ SpellsTokens ts cs := by
  constructor
  · intro h
    fun_induction tokens cs generalizing ts with
    | case1 cs htrim =>
      cases h
      exact .nil (List.dropWhile_eq_nil_iff.1 htrim)
    | case2 cs c s htrim e hread => cases h
    | case3 cs c s htrim t rest hread ih =>
      obtain ⟨ts, hts, rfl⟩ := map_eq_ok.1 h
      obtain ⟨hcs, hblanks, -⟩ := longest_iff.1 ⟨rfl, htrim⟩
      obtain ⟨word, hword, hspelled, hend⟩ := read_eq_ok_iff.1 hread
      have hrest := ih hts
      rw [hcs, hword]
      refine .cons hblanks hspelled ?_ hrest
      intro c d hc hd
      exact hrest.endsNumeral_iff.1 (hend c hc) d hd
  · intro h
    induction h with
    | nil h => exact tokens_of_blank (List.dropWhile_eq_nil_iff.2 h)
    | @cons blanks word rest t ts hblanks hword hgap hrest ih =>
      have hread : read (word ++ rest) = .ok (t, rest) :=
        read_eq_ok_iff.2 ⟨word, rfl, hword, fun c hc =>
          hrest.endsNumeral_iff.2 fun d => hgap c d hc⟩
      obtain ⟨c, s, rfl, hc, -⟩ := hword.exists_eq_cons
      have htrim : Text.trimStart (blanks ++ (c :: s ++ rest)) = c :: (s ++ rest) :=
        (longest_iff.2 ⟨rfl, hblanks, by rintro d ⟨⟩; exact hc⟩).2
      rw [tokens_of_read htrim hread, ih]
      rfl

end Token

namespace Run

/-! ### Both sides of the colon -/

/-- Tokens are targets exactly if all of them are addresses. -/
theorem targetsOf_eq_ok_iff {ts : List Token} {targets : List Address} :
    targetsOf ts = .ok targets ↔ ts = targets.map .address := by
  constructor
  · intro h
    fun_induction targetsOf ts generalizing targets with
    | case1 => cases h; rfl
    | case2 a ts ih =>
      obtain ⟨targets, hts, rfl⟩ := map_eq_ok.1 h
      rw [List.map_cons, ← ih hts]
    | case3 => cases h
  · rintro rfl
    exact targetsOf_address targets

/-- The tokens that may follow a victim, and the corruptions that they tell of: corruptions of the
victim, at least one if none followed it yet, and then groups of victims with theirs. -/
def Current.Continues (current : Current) (ts : List Token)
    (found : List (Address × Corruption)) : Prop :=
  ∃ groups, (∀ g ∈ groups, g.2 ≠ []) ∧
    match current with
    | .none => ts = victimTokens groups ∧ found = foundOf groups
    | .named v => ∃ (c : Corruption) (cs : List Corruption),
        ts = .corruption c :: (cs.map .corruption ++ victimTokens groups) ∧
          found = (v, c) :: (cs.map (v, ·) ++ foundOf groups)
    | .corrupted v => ∃ cs : List Corruption, ts = cs.map .corruption ++ victimTokens groups ∧
        found = cs.map (v, ·) ++ foundOf groups

/-- What is found behind the current victim is what the tokens go on with. -/
theorem continues_of_corruptionsOf {current : Current} {ts : List Token}
    {found : List (Address × Corruption)} (h : corruptionsOf current ts = .ok found) :
    current.Continues ts found := by
  fun_induction corruptionsOf current ts generalizing found with
  | case1 => cases h
  | case2 current hcurrent =>
    cases h
    cases current with
    | none => exact ⟨[], List.forall_mem_nil _, rfl, rfl⟩
    | named v => exact absurd rfl (hcurrent v)
    | corrupted v => exact ⟨[], List.forall_mem_nil _, [], rfl, rfl⟩
  | case3 => cases h
  | case4 current a ts hcurrent ih =>
    obtain ⟨groups, hgroups, c, cs, rfl, rfl⟩ := ih h
    have hgroups' : ∀ g ∈ (a, c :: cs) :: groups, g.2 ≠ [] :=
      List.forall_mem_cons.2 ⟨List.cons_ne_nil _ _, hgroups⟩
    cases current with
    | none => exact ⟨_, hgroups', rfl, rfl⟩
    | named v => exact absurd rfl (hcurrent v)
    | corrupted v => exact ⟨_, hgroups', [], rfl, rfl⟩
  | case5 => cases h
  | case6 v c ts ih =>
    obtain ⟨found, hfound, rfl⟩ := map_eq_ok.1 h
    obtain ⟨groups, hgroups, cs, rfl, rfl⟩ := ih hfound
    exact ⟨groups, hgroups, c, cs, rfl, rfl⟩
  | case7 v c ts ih =>
    obtain ⟨found, hfound, rfl⟩ := map_eq_ok.1 h
    obtain ⟨groups, hgroups, cs, rfl, rfl⟩ := ih hfound
    exact ⟨groups, hgroups, c :: cs, rfl, rfl⟩

/-- The corruptions behind the colon are told from groups of victims, each with corruptions. -/
theorem corruptionsOf_eq_ok_iff {ts : List Token} {found : List (Address × Corruption)} :
    corruptionsOf .none ts = .ok found ↔
      ∃ groups, (∀ g ∈ groups, g.2 ≠ []) ∧ ts = victimTokens groups ∧ found = foundOf groups := by
  constructor
  · exact continues_of_corruptionsOf
  · rintro ⟨groups, hgroups, rfl, rfl⟩
    exact corruptionsOf_victimTokens hgroups nofun

/-! ### What a run lists -/

/-- The victims of corruptions without repetition, in the order in which they first appear, each
with all its corruptions in order. -/
def listed (found : List (Address × Corruption)) : List (Address × List Corruption) :=
  (found.map Prod.fst).eraseDups.map fun v => (v, (found.filter fun f => f.1 = v).map Prod.snd)

/-- Gathering corruptions lists each victim once, where it was found first. -/
theorem gather_eq_listed (found : List (Address × Corruption)) : gather found = listed found := by
  fun_induction gather found with
  | case1 => rfl
  | case2 v c found ih =>
    have hvictims : (foundElsewhere v found).map Prod.fst =
        (found.map Prod.fst).filter fun w => !w == v := by
      rw [List.filter_map]
      refine congrArg _ (List.filter_congr fun p _ => ?_)
      by_cases hp : p.1 = v <;> simp [hp]
    have hin {w : Address} (hw : w ≠ v) :
        ((v, c) :: found).filter (fun f => f.1 = w) =
          (foundElsewhere v found).filter fun f => f.1 = w := by
      rw [List.filter_cons_of_neg (by simpa using hw.symm), foundElsewhere, List.filter_filter]
      refine List.filter_congr fun p _ => ?_
      by_cases hp : p.1 = w <;> simp [hp, hw]
    rw [ih, listed, listed, List.map_cons, List.eraseDups_cons, List.map_cons, hvictims]
    refine congrArg₂ _ ?_ (List.map_congr_left ?_)
    · simp [foundIn]
    · intro w hw
      have hne : w ≠ v := by simpa using (List.mem_filter.1 (List.mem_eraseDups.1 hw)).2
      rw [hin hne]

/-! ### Lines -/

/-- The line spells the run: one or more addresses, the targets, stand before its first colon, and
groups of a victim with one or more corruptions behind it. -/
inductive Spelled : Run → List Char → Prop
  | intro {before after : List Char} {targets : List Address}
      {groups : List (Address × List Corruption)} (hcolon : ':' ∉ before) (hne : targets ≠ [])
      (htargets : Token.SpellsTokens (targets.map .address) before)
      (hgroups : ∀ g ∈ groups, g.2 ≠ [])
      (hvictims : Token.SpellsTokens (victimTokens groups) after) :
      Spelled ⟨targets, listed (foundOf groups)⟩ (before ++ ':' :: after)

/-- The sides of a colon stand for a run if addresses stand before it and groups behind it. -/
theorem parseSides_eq_ok_iff {before after : List Char} {r : Run} :
    parseSides before after = .ok r ↔
      ∃ targets groups, targets ≠ [] ∧ Token.SpellsTokens (targets.map .address) before ∧
        (∀ g ∈ groups, g.2 ≠ []) ∧ Token.SpellsTokens (victimTokens groups) after ∧
          r = ⟨targets, listed (foundOf groups)⟩ := by
  simp only [parseSides, bind_eq_ok, check_eq_ok, Token.tokens_eq_ok_iff, targetsOf_eq_ok_iff,
    corruptionsOf_eq_ok_iff]
  constructor
  · rintro ⟨_, hbefore, targets, rfl, hne, _, hafter, _, ⟨groups, hgroups, rfl, rfl⟩, ⟨⟩⟩
    refine ⟨targets, groups, by simpa using hne, hbefore, hgroups, hafter, ?_⟩
    rw [ofFound, gather_eq_listed]
  · rintro ⟨targets, groups, hne, hbefore, hgroups, hafter, rfl⟩
    refine ⟨_, hbefore, targets, rfl, by simpa using hne, _, hafter, _,
      ⟨groups, hgroups, rfl, rfl⟩, ?_⟩
    rw [ofFound, gather_eq_listed]
    rfl

/-- A line stands for the run that it spells. -/
theorem parse_eq_ok_iff {line : List Char} {r : Run} : parse line = .ok r ↔ r.Spelled line := by
  constructor
  · intro h
    rw [parse] at h
    split at h
    · rename_i c after hdrop
      obtain ⟨hline, hbefore, hc⟩ := longest_iff.1 ⟨rfl, hdrop⟩
      obtain rfl : c = ':' := by simpa using hc c rfl
      obtain ⟨targets, groups, hne, htargets, hgroups, hvictims, rfl⟩ :=
        parseSides_eq_ok_iff.1 h
      rw [hline]
      refine .intro ?_ hne htargets hgroups hvictims
      intro hcolon
      exact absurd (hbefore ':' hcolon) (by decide)
    · cases h
  · rintro ⟨hcolon, hne, htargets, hgroups, hvictims⟩
    rename_i before after targets groups
    have hbefore : ∀ c ∈ before, (c != ':') = true := by
      intro c hc
      rw [bne_iff_ne]
      rintro rfl
      exact hcolon hc
    obtain ⟨htake, hdrop⟩ := longest_iff (p := (· != ':')) (l := before ++ ':' :: after).2
      ⟨rfl, hbefore, by rintro c ⟨⟩; rfl⟩
    rw [parse]
    simp only [hdrop, htake]
    exact parseSides_eq_ok_iff.2 ⟨targets, groups, hne, htargets, hgroups, hvictims, rfl⟩

/-- **Which lines stand for runs.** `parse` gives the run `r` for a line exactly if the line spells
it, as the grammar `Spelled` has it, so a line spells one run at most. A line that spells none is
malformed: its error is `Error.parse`, with the number of the line and some `cause`. -/
theorem parse_iff_spelled (line : List Char) :
    (∀ r, parse line = .ok r ↔ r.Spelled line) ∧
      ((¬∃ r : Run, r.Spelled line) →
        ∃ cause, (parse line).mapError (Error.parse 0) = .error (.parse 0 cause)) := by
  refine ⟨fun r => parse_eq_ok_iff, ?_⟩
  intro hnone
  cases hparse : parse line with
  | error cause => exact ⟨cause, rfl⟩
  | ok r => exact absurd ⟨r, parse_eq_ok_iff.1 hparse⟩ hnone

/-- Signs, zeros, letters of either case, blanks of any kind and a victim that comes back are all
spelled. Two corruptions that touch spell nothing, since the last numeral of one goes on in the
first of the other. -/
theorem parse_iff_spelled_touching :
    Spelled ⟨[⟨0, 0, 0, 0, 26, 0⟩, ⟨0, 0, 0, 0, 28, 1⟩],
        [(⟨0, 0, 0, 0, 27, 0⟩, [⟨16, 1, 0⟩, ⟨17, 2, 0⟩, ⟨18, 255, 254⟩]),
          (⟨0, 0, 0, 0, 29, 0⟩, [⟨0, 4, 5⟩])]⟩
      ("(+0 00 0 \t0 1A)( 0 0 0 0 1c 000000000000000000001 ):(0 0 0 0 1b)10|1|0 \u3000" ++
        "11|02|0(0 0 0 0 +1D)0|4|5(0 0 0 0 1B 0)12|fF|Fe ").toList ∧
      (¬∃ r : Run, r.Spelled "(0 0 0 0 1):(0 0 0 0 2)10|1|011|2|0".toList) ∧
      ∃ cause, (parse "(0 0 0 0 1):(0 0 0 0 2)10|1|011|2|0".toList).mapError (Error.parse 0) =
        .error (.parse 0 cause) := by
  have hnone : ¬∃ r : Run, r.Spelled "(0 0 0 0 1):(0 0 0 0 2)10|1|011|2|0".toList := by
    rintro ⟨r, hr⟩
    have hparse := ((parse_iff_spelled _).1 r).2 hr
    have herror : parse "(0 0 0 0 1):(0 0 0 0 2)10|1|011|2|0".toList =
        .error (.unexpected "|2|0".toList) := by
      cbv
    rw [herror] at hparse
    cases hparse
  refine ⟨((parse_iff_spelled _).1 _).1 ?_, hnone, (parse_iff_spelled _).2 hnone⟩
  cbv

end Run

end RowFlips
