import RowFlips.Proofs.Lists

/-!
# Computations that may fail

A chain of steps succeeds exactly if each step does on what the one before it gave, and else fails
as the first that does not. Doing a step for every element of a list succeeds exactly if it does for
each, and gives what each gave.

## Main results

* `bind_eq_ok`, `bind_eq_error`: when two steps succeed, and as which of them they fail.
* `mapM_eq_ok`, `mapM_eq_error`: what a step for every element gives, and when it fails.
-/

namespace RowFlips

section Except

variable {ε δ α β : Type}

/-- What fails does not succeed. -/
theorem error_ne_ok {e : ε} {a : α} : Except.error e ≠ .ok a := by
  rintro ⟨⟩

/-- A step that succeeded hands its value on to `f`. -/
theorem ok_bind (a : α) (f : α → Except ε β) : (Except.ok a >>= f) = f a := rfl

/-- A step that failed ends the chain, and `f` is not done. -/
theorem error_bind (e : ε) (f : α → Except ε β) : (Except.error e >>= f) = .error e := rfl

/-- Two steps succeed exactly if the first does and then `f` on what it gave. -/
theorem bind_eq_ok {x : Except ε α} {f : α → Except ε β} {b : β} :
    (x >>= f) = .ok b ↔ ∃ a, x = .ok a ∧ f a = .ok b := by
  cases x with
  | error e => exact ⟨nofun, nofun⟩
  | ok a =>
    constructor
    · intro h
      exact ⟨a, rfl, h⟩
    · rintro ⟨_, ⟨⟩, h⟩
      exact h

/-- Handing a value on does not fail. -/
theorem exists_pure_eq_ok (a : α) : ∃ b, (pure a : Except ε α) = .ok b := ⟨a, rfl⟩

/-- When two steps succeed, whatever they give. -/
theorem exists_bind_eq_ok {x : Except ε α} {f : α → Except ε β} :
    (∃ b, (x >>= f) = .ok b) ↔ ∃ a, x = .ok a ∧ ∃ b, f a = .ok b := by
  simp only [bind_eq_ok]
  rw [exists_comm]
  simp only [exists_and_left]

/-- Two steps fail with `e` exactly if the first does, or if it succeeds and `f` fails with `e`. -/
theorem bind_eq_error {x : Except ε α} {f : α → Except ε β} {e : ε} :
    (x >>= f) = .error e ↔ x = .error e ∨ ∃ a, x = .ok a ∧ f a = .error e := by
  cases x with
  | error e' =>
    constructor
    · rintro ⟨⟩
      exact Or.inl rfl
    · rintro (⟨⟨⟩⟩ | ⟨_, ⟨⟩, -⟩)
      rfl
  | ok a =>
    constructor
    · intro h
      exact Or.inr ⟨a, rfl, h⟩
    · rintro (⟨⟨⟩⟩ | ⟨_, ⟨⟩, h⟩)
      exact h

/-- A value that is changed by `f` was there before. -/
theorem map_eq_ok {x : Except ε α} {f : α → β} {b : β} :
    x.map f = .ok b ↔ ∃ a, x = .ok a ∧ f a = b := by
  cases x with
  | error e => exact ⟨nofun, nofun⟩
  | ok a =>
    constructor
    · rintro ⟨⟩
      exact ⟨a, rfl, rfl⟩
    · rintro ⟨_, ⟨⟩, rfl⟩
      rfl

/-- Changing the error leaves what succeeds as it is. -/
theorem mapError_eq_ok {x : Except ε α} {f : ε → δ} {a : α} :
    x.mapError f = .ok a ↔ x = .ok a := by
  cases x with
  | error e => exact ⟨nofun, nofun⟩
  | ok b => rw [Except.mapError, Except.ok.injEq, Except.ok.injEq]

/-- Changing the value leaves what fails as it is. -/
theorem map_eq_error {x : Except ε α} {f : α → β} {e : ε} :
    x.map f = .error e ↔ x = .error e := by
  cases x with
  | error e' => rw [Except.map, Except.error.injEq, Except.error.injEq]
  | ok a => exact ⟨nofun, nofun⟩

/-- An error that is changed by `f` was there before. -/
theorem mapError_eq_error {x : Except ε α} {f : ε → δ} {d : δ} :
    x.mapError f = .error d ↔ ∃ e, x = .error e ∧ f e = d := by
  cases x with
  | error e =>
    constructor
    · rintro ⟨⟩
      exact ⟨e, rfl, rfl⟩
    · rintro ⟨_, ⟨⟩, rfl⟩
      rfl
  | ok a => exact ⟨nofun, nofun⟩

/-- A check that throws lets through exactly what passes it. -/
theorem check_eq_ok {p : Prop} [Decidable p] {e : ε} {x : Except ε α} {a : α} :
    (if p then (throw e : Except ε PUnit) >>= fun _ => x else x) = .ok a ↔ ¬p ∧ x = .ok a := by
  split
  · rename_i hp
    exact iff_of_false nofun fun h => h.1 hp
  · rename_i hp
    exact (and_iff_right hp).symm

/-- Doing a step for every element gives a list exactly if it gives each of its elements. -/
theorem mapM_eq_ok {f : α → Except ε β} {l : List α} {m : List β} :
    l.mapM f = .ok m ↔ List.Forall₂ (fun a b => f a = .ok b) l m := by
  induction l generalizing m with
  | nil =>
    rw [List.mapM_nil, List.forall₂_nil_left_iff]
    constructor
    · rintro ⟨⟩
      rfl
    · rintro rfl
      rfl
  | cons a l ih =>
    rw [List.mapM_cons, List.forall₂_cons_left_iff, bind_eq_ok]
    refine exists_congr ?_
    intro b
    rw [bind_eq_ok]
    constructor
    · rintro ⟨hb, m, hm, ⟨⟩⟩
      exact ⟨m, hb, ih.1 hm, rfl⟩
    · rintro ⟨m, hb, hm, rfl⟩
      exact ⟨hb, m, ih.2 hm, rfl⟩

/-- What is given for a list is what is given for some element of it. -/
theorem mem_of_mapM_eq_ok {f : α → Except ε β} {l : List α} {m : List β} (h : l.mapM f = .ok m)
    {b : β} : b ∈ m ↔ ∃ a ∈ l, f a = .ok b := by
  rw [mapM_eq_ok] at h
  induction h with
  | nil => simp
  | cons ha _ ih =>
    simp only [List.mem_cons, exists_eq_or_imp, ha, Except.ok.injEq, ih]
    exact or_congr_left eq_comm

/-- Doing a step for every element succeeds exactly if it does for each on its own. -/
theorem exists_mapM_eq_ok {f : α → Except ε β} {l : List α} :
    (∃ m, l.mapM f = .ok m) ↔ ∀ a ∈ l, ∃ b, f a = .ok b := by
  simp only [mapM_eq_ok, exists_forall₂_iff]

/-- Doing a step for every element fails as it does for the first element for which it fails. -/
theorem mapM_eq_error {f : α → Except ε β} {l : List α} {e : ε} :
    l.mapM f = .error e ↔ ∃ before a behind, l = before ++ a :: behind ∧
      (∀ x ∈ before, ∃ b, f x = .ok b) ∧ f a = .error e := by
  induction l with
  | nil => simp [pure, Except.pure]
  | cons a l ih =>
    rw [List.mapM_cons, bind_eq_error]
    constructor
    · rintro (ha | ⟨b, hb, h⟩)
      · exact ⟨[], a, l, rfl, List.forall_mem_nil _, ha⟩
      · rcases bind_eq_error.1 h with h | ⟨m, -, hm⟩
        · obtain ⟨before, c, behind, rfl, hbefore, hc⟩ := ih.1 h
          exact ⟨a :: before, c, behind, rfl, List.forall_mem_cons.2 ⟨⟨b, hb⟩, hbefore⟩, hc⟩
        · cases hm
    · rintro ⟨before, c, behind, hl, hbefore, hc⟩
      cases before with
      | nil =>
        cases hl
        exact Or.inl hc
      | cons x before =>
        cases hl
        obtain ⟨⟨b, hb⟩, hbefore⟩ := List.forall_mem_cons.1 hbefore
        exact Or.inr ⟨b, hb, bind_eq_error.2 (Or.inl (ih.2 ⟨before, c, behind, rfl, hbefore, hc⟩))⟩

/-- Doing a step for the elements of many lists may be done list by list. -/
theorem mapM_flatMap_flatten {γ : Type} {f : α → Except ε (List β)} {g : γ → List α}
    {l : List γ} :
    ((l.flatMap g).mapM f).map List.flatten =
      (l.mapM fun c => ((g c).mapM f).map List.flatten).map List.flatten := by
  induction l with
  | nil => rfl
  | cons c l ih =>
    rw [List.flatMap_cons, List.mapM_append, List.mapM_cons]
    cases (g c).mapM f with
    | error e => rfl
    | ok fs =>
      cases hall : (l.flatMap g).mapM f with
      | error e =>
        rw [hall] at ih
        rw [map_eq_error.1 ih.symm]
        rfl
      | ok gs =>
        rw [hall] at ih
        obtain ⟨hs, hl, hflatten⟩ := map_eq_ok.1 ih.symm
        have hjoin : (fs ++ gs).flatten = (fs.flatten :: hs).flatten := by
          rw [List.flatten_append, List.flatten_cons, hflatten]
        rw [hl]
        exact congrArg Except.ok hjoin

end Except

/-- Looking every element up gives a list exactly if it gives each of its elements. -/
theorem mapM_eq_some {α β : Type} {f : α → Option β} {l : List α} {m : List β} :
    l.mapM f = some m ↔ List.Forall₂ (fun a b => f a = some b) l m := by
  induction l generalizing m with
  | nil =>
    rw [List.mapM_nil, List.forall₂_nil_left_iff]
    constructor
    · rintro ⟨⟩
      rfl
    · rintro rfl
      rfl
  | cons a l ih =>
    rw [List.mapM_cons, List.forall₂_cons_left_iff]
    simp only [Option.bind_eq_bind, Option.bind_eq_some_iff, ih]
    refine exists_congr ?_
    intro b
    constructor
    · rintro ⟨hb, m, hm, ⟨⟩⟩
      exact ⟨m, hb, hm, rfl⟩
    · rintro ⟨m, hb, hm, rfl⟩
      exact ⟨hb, m, hm, rfl⟩

/-- Looking every element up succeeds exactly if it does for each on its own. -/
theorem exists_mapM_eq_some {α β : Type} {f : α → Option β} {l : List α} :
    (∃ m, l.mapM f = some m) ↔ ∀ a ∈ l, ∃ b, f a = some b := by
  simp only [mapM_eq_some, exists_forall₂_iff]

end RowFlips
