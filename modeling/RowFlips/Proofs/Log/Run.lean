import Mathlib.Data.List.Nodup
import RowFlips.Log.Reader
import RowFlips.Proofs.Log.Token
import RowFlips.Proofs.Outcome

/-!
# Runs read back

A run lists its victims once each, so its corruptions can be told apart by victim again once they
have been written one after the other. Its line therefore reads back as the run. The flips that a
run records are those of its corruptions, and all of them can be told if those of each can.

## Main results

* `Run.foundOf_gather_perm`, `Run.gather_foundOf`: gathering corruptions only reorders them, and
  undoes writing them one after the other.
* `Run.mem_flips`, `Run.exists_flips_iff`: the flips of a run.
* `Run.parse_text`: the line of a run reads back.
-/

namespace RowFlips

namespace Run

/-! ### Gathering -/

/-- The corruptions of victims, each with its victim. -/
def foundOf (vs : List (Address × List Corruption)) : List (Address × Corruption) :=
  vs.flatMap fun v => v.2.map (v.1, ·)

/-- What was found are the corruptions of all victims, each with its victim. -/
theorem mem_foundOf {vs : List (Address × List Corruption)} {p : Address × Corruption} :
    p ∈ foundOf vs ↔ ∃ v ∈ vs, ∃ c ∈ v.2, (v.1, c) = p := by
  simp only [foundOf, List.mem_flatMap, List.mem_map]

/-- Gathering corruptions by victim only reorders them. -/
theorem foundOf_gather_perm (found : List (Address × Corruption)) :
    (foundOf (gather found)).Perm found := by
  fun_induction gather found with
  | case1 => exact .refl []
  | case2 v c found ih =>
    have hin : (foundIn v found).map (v, ·) = found.filter fun p => p.1 = v := by
      rw [foundIn, List.map_map]
      refine (List.map_congr_left fun p hp => ?_).trans (List.map_id _)
      rw [Function.comp_apply, id_eq, ← of_decide_eq_true (List.mem_filter.1 hp).2]
    have helse : foundElsewhere v found = found.filter fun p => !decide (p.1 = v) := by
      simp only [foundElsewhere, ne_eq, decide_not]
    rw [foundOf, List.flatMap_cons, List.map_cons, List.cons_append, hin, helse]
    rw [foundOf, helse] at ih
    exact ((ih.append_left _).trans (List.filter_append_perm _ found)).cons (v, c)

/-- Gathering loses no corruption and adds none. -/
theorem mem_foundOf_gather {found : List (Address × Corruption)} {p : Address × Corruption} :
    p ∈ foundOf (gather found) ↔ p ∈ found :=
  (foundOf_gather_perm found).mem_iff

/-- Each victim has corruptions, and is listed once. -/
theorem gather_spec (found : List (Address × Corruption)) :
    (∀ v ∈ gather found, v.2 ≠ []) ∧ ((gather found).map Prod.fst).Nodup := by
  fun_induction gather found with
  | case1 => exact ⟨List.forall_mem_nil _, List.nodup_nil⟩
  | case2 v c found ih =>
    obtain ⟨hne, hnodup⟩ := ih
    refine ⟨List.forall_mem_cons.2 ⟨List.cons_ne_nil _ _, hne⟩, List.nodup_cons.2 ⟨?_, hnodup⟩⟩
    intro hmem
    obtain ⟨w, hw, rfl⟩ := List.mem_map.1 hmem
    obtain ⟨d, ds, hds⟩ := List.exists_cons_of_ne_nil (hne w hw)
    have hfound : (w.1, d) ∈ foundOf (gather (foundElsewhere w.1 found)) :=
      mem_foundOf.2 ⟨w, hw, d, hds ▸ List.mem_cons_self, rfl⟩
    have helse := (List.mem_filter.1 (mem_foundOf_gather.1 hfound)).2
    simp at helse

/-- Gathering undoes writing the corruptions of victims one after the other. -/
theorem gather_foundOf {vs : List (Address × List Corruption)} (hne : ∀ v ∈ vs, v.2 ≠ [])
    (hnodup : (vs.map Prod.fst).Nodup) : gather (foundOf vs) = vs := by
  induction vs with
  | nil => rw [foundOf, List.flatMap_nil, gather]
  | cons v vs ih =>
    obtain ⟨v, cs⟩ := v
    obtain ⟨hv, hnodup'⟩ := List.nodup_cons.1 hnodup
    obtain ⟨c, cs, rfl⟩ := List.exists_cons_of_ne_nil (hne _ List.mem_cons_self)
    have helse : ∀ p ∈ foundOf vs, p.1 ≠ v := by
      intro p hp hpv
      obtain ⟨w, hw, d, -, rfl⟩ := mem_foundOf.1 hp
      exact hv (List.mem_map.2 ⟨w, hw, hpv⟩)
    have hin : foundIn v (cs.map (v, ·) ++ foundOf vs) = cs := by
      rw [foundIn, List.filter_append, List.filter_eq_self.2 (by simp),
        List.filter_eq_nil_iff.2 (by simpa using helse), List.append_nil, List.map_map]
      exact List.map_id cs
    have hout : foundElsewhere v (cs.map (v, ·) ++ foundOf vs) = foundOf vs := by
      rw [foundElsewhere, List.filter_append, List.filter_eq_nil_iff.2 (by simp),
        List.filter_eq_self.2 (by simpa using helse), List.nil_append]
    rw [foundOf, List.flatMap_cons, List.map_cons, List.cons_append, gather]
    rw [foundOf] at hin hout ih
    rw [hin, hout, ih (fun w hw => hne w (List.mem_cons_of_mem _ hw)) hnodup']

/-! ### Flips -/

variable {targets : List Address} {found : List (Address × Corruption)} {cellSize : UInt32}

/-- The flips of a run are those of its corruptions. -/
theorem mem_flips {fs : List Flip} (h : (ofFound targets found).flips cellSize = .ok fs)
    {f : Flip} : f ∈ fs ↔ ∃ p ∈ found, ∃ gs, p.2.flips p.1 cellSize = .ok gs ∧ f ∈ gs := by
  obtain ⟨fss, hfss, rfl⟩ := map_eq_ok.1 h
  have hvictim {v : Address} {cs : List Corruption} {gs : List Flip}
      (hgs : victimFlips cellSize v cs = .ok gs) :
      f ∈ gs ↔ ∃ c ∈ cs, ∃ gs, c.flips v cellSize = .ok gs ∧ f ∈ gs := by
    obtain ⟨gss, hgss, rfl⟩ := map_eq_ok.1 hgs
    simp only [List.mem_flatten, mem_of_mapM_eq_ok hgss]
    grind
  have hfound : f ∈ fss.flatten ↔ ∃ v ∈ gather found, ∃ c ∈ v.2, ∃ gs,
      c.flips v.1 cellSize = .ok gs ∧ f ∈ gs := by
    rw [List.mem_flatten]
    constructor
    · rintro ⟨gs, hgs, hf⟩
      obtain ⟨v, hv, hvgs⟩ := (mem_of_mapM_eq_ok hfss).1 hgs
      exact ⟨v, hv, (hvictim hvgs).1 hf⟩
    · rintro ⟨v, hv, hf⟩
      obtain ⟨gs, hvgs⟩ := exists_mapM_eq_ok.1 ⟨fss, hfss⟩ v hv
      exact ⟨gs, (mem_of_mapM_eq_ok hfss).2 ⟨v, hv, hvgs⟩, (hvictim hvgs).2 hf⟩
  rw [hfound]
  constructor
  · rintro ⟨v, hv, c, hc, gs, hgs, hf⟩
    exact ⟨(v.1, c), mem_foundOf_gather.1 (mem_foundOf.2 ⟨v, hv, c, hc, rfl⟩), gs, hgs, hf⟩
  · rintro ⟨p, hp, gs, hgs, hf⟩
    obtain ⟨v, hv, c, hc, rfl⟩ := mem_foundOf.1 (mem_foundOf_gather.2 hp)
    exact ⟨v, hv, c, hc, gs, hgs, hf⟩

/-- The flips of a run can be told exactly if those of each corruption can. -/
theorem exists_flips_iff : (∃ fs, (ofFound targets found).flips cellSize = .ok fs) ↔
    ∀ p ∈ found, ∃ gs, p.2.flips p.1 cellSize = .ok gs := by
  have hmap {α : Type} {x : Except Malformed (List (List α))} :
      (∃ fs, x.map List.flatten = .ok fs) ↔ ∃ fss, x = .ok fss := by
    cases x with
    | error e => exact ⟨nofun, nofun⟩
    | ok fss => exact ⟨fun _ => ⟨fss, rfl⟩, fun _ => ⟨fss.flatten, rfl⟩⟩
  simp only [flips, ofFound, hmap, exists_mapM_eq_ok, victimFlips]
  constructor
  · intro h p hp
    obtain ⟨v, hv, c, hc, rfl⟩ := mem_foundOf.1 (mem_foundOf_gather.2 hp)
    exact h v hv c hc
  · intro h v hv c hc
    exact h (v.1, c) (mem_foundOf_gather.1 (mem_foundOf.2 ⟨v, hv, c, hc, rfl⟩))

/-! ### Lines -/

/-- The tokens of victims. -/
def victimTokens (vs : List (Address × List Corruption)) : List Token :=
  vs.flatMap fun v => .address v.1 :: v.2.map .corruption

/-- Addresses are read as the targets that they are. -/
theorem targetsOf_address (ts : List Address) : targetsOf (ts.map .address) = .ok ts := by
  induction ts with
  | nil => rfl
  | cons t ts ih => rw [List.map_cons, targetsOf, ih]; rfl

/-- Corruptions that follow one of the same victim are its own. -/
theorem corruptionsOf_corruption (v : Address) (cs : List Corruption) (ts : List Token) :
    corruptionsOf (.corrupted v) (cs.map .corruption ++ ts) =
      (corruptionsOf (.corrupted v) ts).map (cs.map (v, ·) ++ ·) := by
  induction cs with
  | nil =>
    rw [List.map_nil, List.nil_append]
    cases corruptionsOf (.corrupted v) ts <;> rfl
  | cons c cs ih =>
    rw [List.map_cons, List.cons_append, corruptionsOf, ih]
    cases corruptionsOf (.corrupted v) ts <;> rfl

/-- Victims read back from their tokens. -/
theorem corruptionsOf_victimTokens {vs : List (Address × List Corruption)}
    (hne : ∀ v ∈ vs, v.2 ≠ []) {current : Current} (hcurrent : ∀ v, current ≠ .named v) :
    corruptionsOf current (victimTokens vs) = .ok (foundOf vs) := by
  induction vs generalizing current with
  | nil =>
    cases current with
    | named v => exact absurd rfl (hcurrent v)
    | none => rfl
    | corrupted v => rfl
  | cons v vs ih =>
    obtain ⟨v, cs⟩ := v
    obtain ⟨c, cs, rfl⟩ := List.exists_cons_of_ne_nil (hne _ List.mem_cons_self)
    have hrest : corruptionsOf (.corrupted v) (victimTokens vs) = .ok (foundOf vs) :=
      ih (fun w hw => hne w (List.mem_cons_of_mem _ hw)) nofun
    have hnamed : corruptionsOf current (victimTokens ((v, c :: cs) :: vs)) =
        corruptionsOf (.named v) (.corruption c :: (cs.map .corruption ++ victimTokens vs)) := by
      cases current with
      | named v => exact absurd rfl (hcurrent v)
      | none => rfl
      | corrupted v => rfl
    rw [hnamed, corruptionsOf, corruptionsOf_corruption, hrest]
    rfl

/-- The line of a run in terms of tokens. -/
theorem text_eq (r : Run) :
    r.text = ((r.targets.map Token.address).flatMap fun t => t.text ++ [' ']) ++
      ':' :: (victimTokens r.victims).flatMap fun t => ' ' :: t.text := by
  have hvictims : (victimTokens r.victims).flatMap (fun t => ' ' :: t.text) =
      r.victims.flatMap victimText := by
    rw [victimTokens, List.flatMap_assoc]
    refine List.flatMap_congr ?_
    intro v _
    rw [List.flatMap_cons, List.flatMap_map]
    rfl
  rw [hvictims, List.flatMap_map]
  rfl

/-- The characters of the line of a run are printable ASCII. -/
theorem toNat_of_mem_text {r : Run} {c : Char} (h : c ∈ r.text) : 32 ≤ c.toNat ∧ c.toNat < 128 := by
  have htoken {t : Token} (hc : c ∈ t.text) : 32 ≤ c.toNat ∧ c.toNat < 128 :=
    ⟨(Token.toNat_of_mem_text hc).1, (Token.toNat_of_mem_text hc).2.1⟩
  rw [text_eq, List.mem_append, List.mem_cons, List.mem_flatMap, List.mem_flatMap] at h
  rcases h with ⟨t, -, hc⟩ | rfl | ⟨t, -, hc⟩
  · rcases List.mem_append.1 hc with hc | hc
    · exact htoken hc
    · rw [List.mem_singleton.1 hc]
      decide
  · decide
  · rcases List.mem_cons.1 hc with rfl | hc
    · decide
    · exact htoken hc

/-- **The line of a run reads back.** -/
theorem parse_text (hne : targets ≠ []) :
    parse (ofFound targets found).text = .ok (ofFound targets found) := by
  have hcolon : ∀ c ∈ (targets.map Token.address).flatMap fun t => t.text ++ [' '],
      (c != ':') = true := by
    intro c hc
    obtain ⟨t, -, hc⟩ := List.mem_flatMap.1 hc
    rw [bne_iff_ne]
    rintro rfl
    rcases List.mem_append.1 hc with hc | hc
    · exact absurd rfl (Token.toNat_of_mem_text hc).2.2
    · cases List.mem_singleton.1 hc
  have hstop (s : List Char) : (':' :: s).takeWhile (· != ':') = [] ∧
      (':' :: s).dropWhile (· != ':') = ':' :: s :=
    ⟨rfl, rfl⟩
  have hne' : ¬targets.isEmpty = true := by simpa using hne
  obtain ⟨hvictims, hnodup⟩ := gather_spec found
  have hcorruptions : corruptionsOf .none (victimTokens (gather found)) =
      .ok (foundOf (gather found)) :=
    corruptionsOf_victimTokens hvictims nofun
  have hback : ofFound targets (foundOf (gather found)) = ofFound targets found := by
    rw [ofFound, gather_foundOf hvictims hnodup]
    rfl
  have htext : (ofFound targets found).text =
      ((targets.map Token.address).flatMap fun t => t.text ++ [' ']) ++
        ':' :: (victimTokens (gather found)).flatMap fun t => ' ' :: t.text :=
    text_eq _
  have htake : (ofFound targets found).text.takeWhile (· != ':') =
      (targets.map Token.address).flatMap fun t => t.text ++ [' '] := by
    rw [htext, List.takeWhile_append_of_pos hcolon, (hstop _).1, List.append_nil]
  have hdrop : (ofFound targets found).text.dropWhile (· != ':') =
      ':' :: (victimTokens (gather found)).flatMap fun t => ' ' :: t.text := by
    rw [htext, List.dropWhile_append_of_pos hcolon, (hstop _).2]
  rw [parse, hdrop, htake]
  simp only [parseSides, (Token.tokens_spaceAfter _).1, Token.tokens_spaceBefore,
    targetsOf_address, hcorruptions, if_neg hne', bind, Except.bind, pure, Except.pure, hback]

end Run

namespace Line

/-- The line of a run is not one that says nothing. -/
theorem isSkipped_text {r : Run} (h : r.targets ≠ []) : isSkipped r.text = false := by
  obtain ⟨t, ts, hts⟩ := List.exists_cons_of_ne_nil h
  have htext : ∃ s, r.text = '(' :: s := by
    rw [Run.text, hts, List.flatMap_cons, Address.text]
    exact ⟨_, rfl⟩
  obtain ⟨s, hs⟩ := htext
  rw [hs, isSkipped, Text.trimStart_eq_self (by decide)]
  rfl

/-- The stored line of a run tells of an attack with the flips of the run, if these can be told. -/
theorem read_text (t : Targets) (found : List (Address × Corruption)) (cellSize : UInt32) :
    read cellSize none (Text.encode (Run.ofFound t.toList found).text) =
      (((Run.ofFound t.toList found).flips cellSize).mapError (Error.parse 0)).map fun fs =>
        some ⟨t, SortedSet.ofList fs⟩ := by
  have htargets : Targets.ofList? t.toList = some t := by
    obtain ⟨a, b⟩ := t
    by_cases hab : a = b
    · subst hab
      simp [Targets.toList, Targets.isSingle, Targets.ofList?, Targets.single]
    · simp [Targets.toList, Targets.isSingle, Targets.ofList?, hab]
  have hne : t.toList ≠ [] := by
    intro hnil
    rw [hnil] at htargets
    cases htargets
  have hparse : Run.parse (Run.ofFound t.toList found).text = .ok (Run.ofFound t.toList found) :=
    Run.parse_text hne
  have hcheck : targets none (Run.ofFound t.toList found) = .ok t := by
    rw [targets, Run.ofFound, htargets]
  have hskip : isSkipped (Run.ofFound t.toList found).text = false :=
    isSkipped_text (show (Run.ofFound t.toList found).targets ≠ [] from hne)
  have hattack : attack cellSize none (Run.ofFound t.toList found).text =
      (((Run.ofFound t.toList found).flips cellSize).mapError (Error.parse 0)).map fun fs =>
        ⟨t, SortedSet.ofList fs⟩ := by
    rw [attack, hparse]
    simp only [Except.mapError, bind, Except.bind, hcheck]
    rfl
  rw [read, Text.decode?_encode]
  simp only [hskip, Bool.false_eq_true, if_false, hattack]
  cases (Run.ofFound t.toList found).flips cellSize <;> rfl

end Line

end RowFlips
