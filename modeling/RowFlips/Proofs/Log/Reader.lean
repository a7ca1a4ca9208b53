import RowFlips.Proofs.Outcome
import RowFlips.Proofs.Table.Canonical
import RowFlips.Table.Text

/-!
# What a reader yields

A log tells of attacks line by line, up to its end or to the first line that is not accepted. The
answers of a reader depend on nothing else: they are these attacks with neighbours on the same
targets put together, and then the error if there is one. With an error, the attack that was held
back last is lost.

## Main results

* `joinNeighbours_append_of_ne`: attacks on the same targets are put together as soon as one on
  other targets follows.
* `expected_of_scan`: one answer of a reader is the first of those expected.
* `items_ofContent`, `attacks_ofContent`: what a reader yields from a whole log.
* `Table.ofLog_eq`: the table that a log tells of.
-/

namespace RowFlips

/-! ### Neighbours on the same targets -/

/-- Joining depends only on what is joined, not on its order. -/
theorem Attack.joinAll_congr {a b : Attack} {as bs : List Attack} (ht : a.targets = b.targets)
    (h : ∀ c, c ∈ a :: as ↔ c ∈ b :: bs) : a.joinAll as = b.joinAll bs :=
  Attack.ext ht fun f => by simp only [mem_joinAll_flips, h]

namespace Table

/-- Attacks on the targets of the first are held back with it. -/
theorem joinFrom_append {a : Attack} {held l : List Attack} (h : ∀ b ∈ l, b.targets = a.targets)
    (rest : List Attack) : joinFrom a held (l ++ rest) = joinFrom a (l.reverse ++ held) rest := by
  induction l generalizing held with
  | nil => rfl
  | cons b l ih =>
    have hb := h b List.mem_cons_self
    rw [List.cons_append, joinFrom, if_pos hb.symm, ih fun c hc => h c (List.mem_cons_of_mem _ hc),
      List.reverse_cons, List.append_assoc]
    rfl

/-- Attacks on the same targets, latest first, are put together when the list ends with them or
goes on with an attack on other targets. -/
theorem joinNeighbours_append_of_ne {a : Attack} {held rest : List Attack}
    (hheld : ∀ b ∈ held, b.targets = a.targets) (hrest : ∀ b ∈ rest.head?, a.targets ≠ b.targets) :
    joinNeighbours ((a :: held).reverse ++ rest) = a.joinAll held :: joinNeighbours rest := by
  obtain ⟨b, l, hl⟩ : ∃ b l, (a :: held).reverse = b :: l :=
    List.exists_cons_of_ne_nil (by simp)
  have hmem (c : Attack) : c ∈ a :: held ↔ c ∈ b :: l := by
    rw [← hl, List.mem_reverse]
  have htargets : ∀ c ∈ a :: held, c.targets = a.targets := by
    simpa using hheld
  have hb : b.targets = a.targets := htargets b ((hmem b).2 List.mem_cons_self)
  have hjoin : b.joinAll (l.reverse ++ []) = a.joinAll held :=
    Attack.joinAll_congr hb fun c => by simp [hmem]
  have hl' : ∀ c ∈ l, c.targets = b.targets := fun c hc =>
    (htargets c ((hmem c).2 (List.mem_cons_of_mem _ hc))).trans hb.symm
  have hstart : joinNeighbours (b :: l ++ rest) = joinFrom b (l.reverse ++ []) rest :=
    joinFrom_append hl' rest
  rw [hl, hstart]
  cases rest with
  | nil => rw [joinFrom, hjoin]; rfl
  | cons c rest => rw [joinFrom, if_neg (by rw [hb]; exact hrest c rfl), hjoin]; rfl

/-- An attack that is held back is given in the end. -/
theorem joinFrom_ne_nil (a : Attack) (held as : List Attack) : joinFrom a held as ≠ [] := by
  fun_induction joinFrom a held as with
  | case1 => exact List.cons_ne_nil _ _
  | case2 _ _ _ _ _ ih => exact ih
  | case3 => exact List.cons_ne_nil _ _

end Table

namespace Reader

/-! ### What a log tells -/

/-- What lines tell before the first that is not accepted, and the error of that line. Their
numbers go on from `n`. -/
def told (cellSize : UInt32) (distance : Option Int) (n : Nat) :
    List Text.Bytes → List Attack × Option Error
  | [] => ([], none)
  | raw :: lines =>
    match Line.read cellSize distance raw with
    | .error e => ([], some (e.atLine (n + 1)))
    | .ok none => told cellSize distance (n + 1) lines
    | .ok (some a) =>
      let rest := told cellSize distance (n + 1) lines
      (a :: rest.1, rest.2)

/-- The answers that the attacks of a log make, with the error that ends it. -/
def answers : List Attack × Option Error → List (Except Error Attack)
  | (as, none) => (Table.joinNeighbours as).map .ok
  | (as, some e) => (Table.joinNeighbours as).dropLast.map .ok ++ [.error e]

/-- The answers still to come with `lines` to read, `n` lines read and `held` held back. -/
def expectedFrom (r : Reader) (n : Nat) (held : List Attack) (lines : List Text.Bytes) :
    List (Except Error Attack) :=
  let rest := told r.cellSize r.distance n lines
  answers (held.reverse ++ rest.1, rest.2)

/-- The answers still to come. -/
def expected (r : Reader) : List (Except Error Attack) :=
  if r.done then [] else r.expectedFrom r.lineNumber r.held r.lines

/-- All attacks held back are on the same targets. -/
def Together (held : List Attack) : Prop := ∀ a ∈ held, ∀ b ∈ held, a.targets = b.targets

/-- Attacks are on the same targets if they are on those of the first. -/
theorem together_cons_iff {a : Attack} {held : List Attack} :
    Together (a :: held) ↔ ∀ b ∈ held, b.targets = a.targets := by
  constructor
  · intro h b hb
    exact h b (List.mem_cons_of_mem _ hb) a List.mem_cons_self
  · intro h
    have hall : ∀ b ∈ a :: held, b.targets = a.targets := List.forall_mem_cons.2 ⟨rfl, h⟩
    exact fun b hb c hc => (hall b hb).trans (hall c hc).symm

/-- An attack that is complete is the first answer. -/
theorem answers_append_of_ne {a : Attack} {held : List Attack}
    (hheld : ∀ b ∈ held, b.targets = a.targets) {as : List Attack} {e : Option Error}
    (hne : ∀ b ∈ as.head?, a.targets ≠ b.targets) (h : e = none ∨ as ≠ []) :
    answers ((a :: held).reverse ++ as, e) = .ok (a.joinAll held) :: answers (as, e) := by
  cases e with
  | none => rw [answers, Table.joinNeighbours_append_of_ne hheld hne]; rfl
  | some e =>
    obtain ⟨b, bs, rfl⟩ := List.exists_cons_of_ne_nil (h.resolve_left nofun)
    have hrest : Table.joinNeighbours (b :: bs) ≠ [] := Table.joinFrom_ne_nil b [] bs
    rw [answers, Table.joinNeighbours_append_of_ne hheld hne, List.dropLast_cons_of_ne_nil hrest]
    rfl

/-- What is held back is complete when a log ends, and lost when it ends with an error. -/
theorem answers_reverse {held : List Attack} (hheld : Together held) :
    answers (held.reverse, none) = ((complete? held).map .ok).toList ∧
      ∀ e, answers (held.reverse, some e) = [.error e] := by
  cases held with
  | nil => exact ⟨rfl, fun _ => rfl⟩
  | cons a held =>
    have hjoin : Table.joinNeighbours (a :: held).reverse = [a.joinAll held] := by
      have h : Table.joinNeighbours ((a :: held).reverse ++ []) =
          a.joinAll held :: Table.joinNeighbours [] :=
        Table.joinNeighbours_append_of_ne (together_cons_iff.1 hheld) nofun
      rwa [List.append_nil] at h
    constructor
    · rw [answers, hjoin]
      rfl
    · intro e
      rw [answers, hjoin]
      rfl

/-- The answer of a reader is the first of those expected, and the rest are expected after it. -/
theorem expected_of_scan {r s : Reader} {n : Nat} {held : List Attack} {lines : List Text.Bytes}
    {x : Option (Except Error Attack)} (hdone : r.done = false) (hheld : Together held)
    (h : r.scan n held lines = (x, s)) :
    Together s.held ∧ r.expectedFrom n held lines = x.elim [] (· :: s.expected) := by
  induction lines generalizing n held with
  | nil =>
    cases h
    refine ⟨nofun, ?_⟩
    have htold : r.expectedFrom n held [] = answers (held.reverse, none) := by
      simp only [expectedFrom, told, List.append_nil]
    rw [htold, (answers_reverse hheld).1]
    cases complete? held <;> rfl
  | cons raw lines ih =>
    rw [scan] at h
    simp only [expectedFrom, told]
    cases hread : Line.read r.cellSize r.distance raw with
    | error e =>
      rw [hread] at h
      cases h
      refine ⟨nofun, ?_⟩
      simp only [List.append_nil, (answers_reverse hheld).2]
      rfl
    | ok told? =>
      rw [hread] at h
      cases told? with
      | none => exact ih hheld h
      | some a =>
        cases held with
        | nil => exact ih (together_cons_iff.2 (List.forall_mem_nil _)) h
        | cons b held =>
          have hsame := together_cons_iff.1 hheld
          simp only at h
          split at h
          · rename_i hab
            have hheld' : Together (a :: b :: held) :=
              together_cons_iff.2 (List.forall_mem_cons.2 ⟨hab, fun c hc => (hsame c hc).trans hab⟩)
            obtain ⟨htogether, hexpected⟩ := ih hheld' h
            have hreverse (l : List Attack) :
                (b :: held).reverse ++ a :: l = (a :: b :: held).reverse ++ l := by
              simp
            refine ⟨htogether, hexpected ▸ ?_⟩
            exact congrArg (fun l => answers (l, _)) (hreverse _)
          · rename_i hab
            cases h
            refine ⟨together_cons_iff.2 (List.forall_mem_nil _), ?_⟩
            simp only [expected, hdone, Bool.false_eq_true, if_false]
            refine answers_append_of_ne hsame ?_ (Or.inr (List.cons_ne_nil _ _))
            rintro c ⟨⟩
            exact hab

/-- A reader yields what is expected of it. -/
theorem items_eq_expected {r : Reader} (hheld : Together r.held) : r.items = r.expected := by
  fun_induction items r with
  | case1 r s hnext =>
    by_cases hdone : r.done = true
    · rw [expected, if_pos hdone]
    · rw [next, if_neg hdone] at hnext
      rw [expected, if_neg hdone]
      exact (expected_of_scan (Bool.eq_false_iff.2 hdone) hheld hnext).2.symm
  | case2 r x s hnext ih =>
    by_cases hdone : r.done = true
    · rw [next, if_pos hdone] at hnext
      cases hnext
    · rw [next, if_neg hdone] at hnext
      obtain ⟨htogether, hexpected⟩ :=
        expected_of_scan (Bool.eq_false_iff.2 hdone) hheld hnext
      have hr : r.expected = x :: s.expected := by
        rw [expected, if_neg hdone, hexpected]
        rfl
      rw [ih htogether, hr]

/-- **What a reader yields from a log.** -/
theorem items_ofContent (config : Config) (distance : Option Int) (content : Text.Bytes) :
    (ofContent config distance content).items =
      answers (told config.cellSize distance 0 (Text.lines content)) :=
  items_eq_expected nofun

/-- The attacks that a reader yields, or the error that ends the log. -/
theorem attacks_ofContent (config : Config) (distance : Option Int) (content : Text.Bytes) :
    (ofContent config distance content).attacks =
      let log := told config.cellSize distance 0 (Text.lines content)
      log.2.elim (.ok (Table.joinNeighbours log.1)) .error := by
  rw [attacks, items_ofContent]
  obtain ⟨as, e⟩ := told config.cellSize distance 0 (Text.lines content)
  cases e with
  | none =>
    simp only [answers, Option.elim_none, mapM_eq_ok, List.forall₂_map_left_iff]
    exact List.forall₂_same.2 fun _ _ => rfl
  | some e =>
    simp only [answers, Option.elim_some]
    induction (Table.joinNeighbours as).dropLast with
    | nil => rfl
    | cons a as ih =>
      rw [List.map_cons, List.cons_append, List.mapM_cons, ih]
      rfl

end Reader

/-- The table that a log tells of, or the error that ends it. -/
theorem Table.ofLog_eq (config : Config) (content : Text.Bytes) :
    ofLog config content =
      let log := Reader.told config.cellSize none 0 (Text.lines content)
      log.2.elim (.ok (ofAttacks (joinNeighbours log.1))) .error := by
  rw [ofLog, Reader.attacks_ofContent]
  obtain ⟨as, e⟩ := Reader.told config.cellSize none 0 (Text.lines content)
  cases e <;> rfl

end RowFlips
