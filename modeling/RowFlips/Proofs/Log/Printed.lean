import Mathlib.Data.List.Induction
import Mathlib.Tactic.TFAE
import RowFlips.Proofs.Log.Run

/-!
# Runs that read back

The line of a run lists its victims one after the other, and reading it gathers corruptions by
victim. So a line can only read back as its run if the run has a target, lists no victim twice and
no victim without corruptions. Pushing corruptions keeps all of this: a victim that is listed
already takes what is pushed, and another one is listed with it. What a line stands for has been
gathered corruption by corruption, which is pushing as well. Reading back is therefore the same as
having been pushed together, and the same as being what some line stands for.

## Main results

* `Run.Proper.push`, `Run.proper_pushAll`: one push, and many, keep a run proper.
* `Run.Proper.pushAll_eq`: a proper run is pushed together by its own corruptions.
* `Address.parse_text`, `Address.parse_innerText`: an address reads back with its parentheses and
  without.
* `Run.reads_back_tfae`: which runs read back.
-/

namespace RowFlips

/-! ### Addresses on their own -/

namespace Address

/-- The fields of an address start and end with a digit. -/
theorem isDigit_of_mem_ends_innerText {a : Address} {c : Char}
    (h : c ∈ a.innerText.head? ∨ c ∈ a.innerText.getLast?) : Hex.isDigit c = true := by
  have hchan := Hex.digits_ne_nil a.chan.toNat
  have hcol := Hex.digits_ne_nil a.col.toNat
  rcases h with h | h
  · rw [innerText, List.head?_append_of_ne_nil _ hchan] at h
    exact Hex.isDigit_of_mem_digits (List.mem_of_mem_head? h)
  · have hsplit : ∃ front, a.innerText = front ++ Hex.digits a.col.toNat := by
      simp only [innerText, List.leftpad, ← List.append_assoc, ← List.cons_append]
      exact ⟨_, rfl⟩
    obtain ⟨front, hfront⟩ := hsplit
    rw [hfront, List.getLast?_append_of_ne_nil _ hcol] at h
    exact Hex.isDigit_of_mem_digits (List.mem_of_mem_getLast? h)

/-- An address reads back from its text. -/
theorem parse_text (a : Address) : parse a.text = .ok a := by
  rw [a.text_eq, parse_parens, ofInner_innerText]

/-- It does so without its parentheses. -/
theorem parse_innerText (a : Address) : parse a.innerText = .ok a := by
  have hdigit {c : Char} (h : c ∈ a.innerText.head? ∨ c ∈ a.innerText.getLast?) :=
    isDigit_of_mem_ends_innerText h
  have htrim : Text.trim a.innerText = a.innerText :=
    Text.trim_eq_self (fun c hc => Text.isBlank_of_isDigit (hdigit (Or.inl hc)))
      fun c hc => Text.isBlank_of_isDigit (hdigit (Or.inr hc))
  have hstrip : stripParens a.innerText = a.innerText := by
    refine stripParens_eq_self fun inner heq => ?_
    have hopen : Hex.isDigit '(' = true := hdigit (Or.inl (heq ▸ rfl))
    exact absurd hopen (by decide)
  rw [parse, htrim, hstrip, ofInner_innerText]

/-- Without its first and last character, a printed address has no parentheses. -/
theorem dropLast_tail_text (a : Address) : a.text.tail.dropLast = a.innerText := by
  rw [a.text_eq, List.tail_cons, List.dropLast_concat]

end Address

namespace Run

variable {r : Run} {victim : Address} {c : Corruption}

/-! ### Pushing -/

/-- The run has a target, and lists victims once each, with their corruptions. -/
structure Proper (r : Run) : Prop where
  targets_ne_nil : r.targets ≠ []
  corruptions_ne_nil : ∀ v ∈ r.victims, v.2 ≠ []
  nodup_victims : (r.victims.map Prod.fst).Nodup

/-- The run of corruptions pushed one after the other, each given with its victim. -/
def pushAll (targets : List Address) (found : List (Address × Corruption)) : Run :=
  found.foldl (fun r p => r.push p.1 p.2) ⟨targets, []⟩

/-- A victim that is pushed is listed, and others stay listed. -/
theorem mem_map_fst_pushVictim {vs : List (Address × List Corruption)} {v : Address} :
    v ∈ (pushVictim victim c vs).map Prod.fst ↔ v = victim ∨ v ∈ vs.map Prod.fst := by
  fun_induction pushVictim victim c vs with
  | case1 => simp
  | case2 => simp
  | case3 w cs vs hw ih => rw [List.map_cons, List.mem_cons, ih, List.map_cons, List.mem_cons,
      or_left_comm]

/-- A victim that is listed already gets no entry of its own. -/
theorem nodup_map_fst_pushVictim {vs : List (Address × List Corruption)}
    (h : (vs.map Prod.fst).Nodup) : ((pushVictim victim c vs).map Prod.fst).Nodup := by
  fun_induction pushVictim victim c vs with
  | case1 => exact List.nodup_singleton _
  | case2 => exact h
  | case3 w cs vs hw ih =>
    obtain ⟨hmem, hnodup⟩ := List.nodup_cons.1 h
    refine List.nodup_cons.2 ⟨?_, ih hnodup⟩
    rw [mem_map_fst_pushVictim]
    exact not_or.2 ⟨hw, hmem⟩

/-- No victim is without corruptions after one is pushed. -/
theorem ne_nil_of_mem_pushVictim {vs : List (Address × List Corruption)}
    (h : ∀ v ∈ vs, v.2 ≠ []) : ∀ v ∈ pushVictim victim c vs, v.2 ≠ [] := by
  fun_induction pushVictim victim c vs with
  | case1 => exact List.forall_mem_singleton.2 (List.cons_ne_nil _ _)
  | case2 cs vs =>
    have happ : cs ++ [c] ≠ [] := List.append_ne_nil_of_right_ne_nil _ (List.cons_ne_nil _ _)
    exact List.forall_mem_cons.2 ⟨happ, (List.forall_mem_cons.1 h).2⟩
  | case3 w cs vs hw ih =>
    obtain ⟨hcs, hvs⟩ := List.forall_mem_cons.1 h
    exact List.forall_mem_cons.2 ⟨hcs, ih hvs⟩

/-- One push keeps a run proper. -/
theorem Proper.push (h : r.Proper) (victim : Address) (c : Corruption) :
    (r.push victim c).Proper where
  targets_ne_nil := h.targets_ne_nil
  corruptions_ne_nil := ne_nil_of_mem_pushVictim h.corruptions_ne_nil
  nodup_victims := nodup_map_fst_pushVictim h.nodup_victims

/-- So do many, and a run without victims is proper if it has a target. -/
theorem proper_pushAll {targets : List Address} (hne : targets ≠ [])
    (found : List (Address × Corruption)) : (pushAll targets found).Proper := by
  have hstart : Proper ⟨targets, []⟩ := ⟨hne, List.forall_mem_nil _, List.nodup_nil⟩
  rw [pushAll]
  generalize (⟨targets, []⟩ : Run) = r at hstart ⊢
  induction found generalizing r with
  | nil => exact hstart
  | cons p found ih => exact ih _ (hstart.push p.1 p.2)

/-- Pushing corruptions one after the other comes to gathering them at once. -/
theorem pushAll_eq_ofFound (targets : List Address) (found : List (Address × Corruption)) :
    pushAll targets found = ofFound targets found := by
  induction found using List.reverseRecOn with
  | nil => rw [ofFound, gather]; rfl
  | append_singleton found p ih =>
    rw [ofFound_append, ← ih, pushAll, pushAll, List.foldl_append]
    rfl

/-- A proper run is pushed together by its own corruptions. -/
theorem Proper.pushAll_eq (h : r.Proper) : pushAll r.targets (foundOf r.victims) = r := by
  rw [pushAll_eq_ofFound, ofFound, gather_foundOf h.corruptions_ne_nil h.nodup_victims]

/-! ### Reading back -/

/-- What a line stands for has a target and was gathered from corruptions. -/
theorem exists_ofFound_of_parse {line : List Char} (h : parse line = .ok r) :
    ∃ targets found, targets ≠ [] ∧ ofFound targets found = r := by
  rw [parse] at h
  split at h
  · obtain ⟨tokens, -, h⟩ := bind_eq_ok.1 h
    obtain ⟨targets, -, h⟩ := bind_eq_ok.1 h
    obtain ⟨hne, h⟩ := check_eq_ok.1 h
    obtain ⟨tokens', -, h⟩ := bind_eq_ok.1 h
    obtain ⟨found, -, h⟩ := bind_eq_ok.1 h
    cases h
    exact ⟨targets, found, by simpa using hne, rfl⟩
  · cases h

/-- **Exactly the runs that are pushed together read back.** For a run `r` these are the same:
`parse` gives `r` for its own `text`; it gives `r` for some `line`; `pushAll` makes `r` of one or
more `targets` and corruptions `found` in some order; and `r` is `Proper`. In any run, the text of
each address `a`, target or victim, is read by `Address.parse` as `a`, with its parentheses or
without. -/
theorem reads_back_tfae (r : Run) :
    List.TFAE [parse r.text = .ok r, ∃ line, parse line = .ok r,
        ∃ targets found, targets ≠ [] ∧ pushAll targets found = r, r.Proper] ∧
      ∀ a ∈ r.targets ++ r.victims.map Prod.fst,
        Address.parse a.text = .ok a ∧ Address.parse a.text.tail.dropLast = .ok a := by
  refine ⟨?_, fun a _ => ⟨a.parse_text, ?_⟩⟩
  · tfae_have 1 → 2 := fun h => ⟨r.text, h⟩
    tfae_have 2 → 3 := by
      rintro ⟨line, h⟩
      obtain ⟨targets, found, hne, hr⟩ := exists_ofFound_of_parse h
      exact ⟨targets, found, hne, (pushAll_eq_ofFound targets found).trans hr⟩
    tfae_have 3 → 4 := by
      rintro ⟨targets, found, hne, rfl⟩
      exact proper_pushAll hne found
    tfae_have 4 → 1 := by
      intro h
      have hback : parse (pushAll r.targets (foundOf r.victims)).text =
          .ok (pushAll r.targets (foundOf r.victims)) := by
        rw [pushAll_eq_ofFound]
        exact parse_text h.targets_ne_nil
      rwa [h.pushAll_eq] at hback
    tfae_finish
  · rw [a.dropLast_tail_text, a.parse_innerText]

/-- A victim that comes back behind another one is listed once, and its line reads back, as does
its address. -/
theorem reads_back_tfae_interleaved :
    let cell (row : UInt16) : Address := ⟨0, 255, 0, 10, row, 0⟩
    let r := pushAll [cell 7] [(cell 8, ⟨16, 1, 0⟩), (cell 6, ⟨70000, 0, 9⟩), (cell 8, ⟨16, 2, 0⟩)]
    r.victims = [(cell 8, [⟨16, 1, 0⟩, ⟨16, 2, 0⟩]), (cell 6, [⟨70000, 0, 9⟩])] ∧
      parse r.text = .ok r ∧ r.Proper ∧
      Address.parse "(0 ff 0 a    6   0)".toList = .ok (cell 6) ∧
      Address.parse "0 ff 0 a    6   0".toList = .ok (cell 6) := by
  intro cell r
  have hpushed : ∃ targets found, targets ≠ [] ∧ pushAll targets found = r :=
    ⟨[cell 7], _, List.cons_ne_nil _ _, rfl⟩
  have hvictims : r.victims = [(cell 8, [⟨16, 1, 0⟩, ⟨16, 2, 0⟩]), (cell 6, [⟨70000, 0, 9⟩])] := by
    decide
  have htext : (cell 6).text = "(0 ff 0 a    6   0)".toList := by cbv
  have hinner : (cell 6).text.tail.dropLast = "0 ff 0 a    6   0".toList := by
    rw [Address.dropLast_tail_text]
    cbv
  obtain ⟨hback, haddresses⟩ := reads_back_tfae r
  have hshown : cell 6 ∈ r.targets ++ r.victims.map Prod.fst := by
    rw [hvictims]
    simp
  obtain ⟨haddress, haddress'⟩ := haddresses (cell 6) hshown
  rw [htext] at haddress
  rw [hinner] at haddress'
  exact ⟨hvictims, (hback.out 0 2).2 hpushed, (hback.out 2 3).1 hpushed, haddress, haddress'⟩

end Run

end RowFlips
