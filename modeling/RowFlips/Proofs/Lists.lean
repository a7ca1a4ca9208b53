import Mathlib.Data.List.Forall2
import Mathlib.Data.List.Pairwise
import Mathlib.Data.List.TakeWhile

/-!
# Lists

What is true of lists whatever their elements are: where they are cut, what is found first in them,
how a list in ascending order falls into parts, where lists start that are put one after the other,
and that intervals which stand one behind the other have no place in common.

## Main results

* `longest_iff`: the longest start of a list with some property, and what follows it.
* `exists_splitOnP_append`: splitting a list that something is put behind.
* `eq_append_filter`, `lt_of_mem_dropWhile`: lists in ascending order.
* `mem_withStarts`, `flatMap_range'_withStarts`: lists put one after the other.
* `apart_of_pairwise`, `not_inside_of_pairwise`: intervals that stand one behind the other.
-/

namespace RowFlips

variable {α β : Type}

/-! ### Each element on its own -/

/-- Each element can be related to something on its own. -/
theorem exists_forall₂_iff {R : α → β → Prop} {l : List α} :
    (∃ m, List.Forall₂ R l m) ↔ ∀ a ∈ l, ∃ b, R a b := by
  induction l with
  | nil => exact ⟨fun _ => List.forall_mem_nil _, fun _ => ⟨[], .nil⟩⟩
  | cons a l ih =>
    rw [List.forall_mem_cons, ← ih]
    constructor
    · rintro ⟨_, _ | ⟨hb, hm⟩⟩
      exact ⟨⟨_, hb⟩, ⟨_, hm⟩⟩
    · rintro ⟨⟨b, hb⟩, ⟨m, hm⟩⟩
      exact ⟨b :: m, .cons hb hm⟩

/-- If each element gives `n` others, a list gives `n` times as many as it has. -/
theorem length_flatMap_of_forall {f : α → List β} {n : Nat} (h : ∀ a, (f a).length = n)
    (l : List α) : (l.flatMap f).length = l.length * n := by
  induction l with
  | nil => simp
  | cons a l ih => rw [List.flatMap_cons, List.length_append, h, ih, List.length_cons, Nat.succ_mul,
      Nat.add_comm]

/-- Lists of which none is empty have together at least as many elements as there are lists. -/
theorem length_le_length_flatten {ls : List (List α)} (hne : ∀ l ∈ ls, l ≠ []) :
    ls.length ≤ ls.flatten.length := by
  induction ls with
  | nil => exact Nat.le_refl _
  | cons l ls ih =>
    obtain ⟨hl, hls⟩ := List.forall_mem_cons.1 hne
    have hpos := List.length_pos_iff.2 hl
    have := ih hls
    rw [List.flatten_cons, List.length_append, List.length_cons]
    omega

/-! ### Cutting -/

/-- The longest start of a list whose elements all have the property `p`, and what follows it. -/
theorem longest_iff {p : α → Bool} {l front rest : List α} :
    l.takeWhile p = front ∧ l.dropWhile p = rest ↔
      l = front ++ rest ∧ (∀ a ∈ front, p a = true) ∧ ∀ a ∈ rest.head?, p a = false := by
  constructor
  · rintro ⟨rfl, rfl⟩
    refine ⟨List.takeWhile_append_dropWhile.symm, fun a ha => List.mem_takeWhile_imp ha, ?_⟩
    intro a ha
    have hstop := List.head?_dropWhile_not p l
    rw [Option.mem_def.1 ha] at hstop
    exact hstop
  · rintro ⟨rfl, hfront, hrest⟩
    rw [List.takeWhile_append_of_pos hfront, List.dropWhile_append_of_pos hfront]
    cases rest with
    | nil => exact ⟨List.append_nil _, rfl⟩
    | cons a rest =>
      have ha : ¬p a = true := Bool.eq_false_iff.1 (hrest a rfl)
      rw [List.takeWhile_cons_of_neg ha, List.dropWhile_cons_of_neg ha, List.append_nil]
      exact ⟨rfl, rfl⟩

/-- What is put behind a list is put behind the last of the parts that the list is split in, if it
is not split itself. -/
theorem exists_splitOnP_append (p : α → Bool) (l : List α) :
    ∃ above last, ∀ m, (∀ a ∈ m, p a = false) →
      (l ++ m).splitOnP p = above ++ [last ++ m] := by
  induction l with
  | nil => exact ⟨[], [], fun m hm => List.splitOnP_eq_singleton hm⟩
  | cons a l ih =>
    obtain ⟨above, last, h⟩ := ih
    by_cases ha : p a = true
    · refine ⟨[] :: above, last, fun m hm => ?_⟩
      rw [List.cons_append, List.splitOnP_cons_eq_if_modifyHead, if_pos ha, h m hm]
      rfl
    · cases above with
      | nil =>
        refine ⟨[], a :: last, fun m hm => ?_⟩
        rw [List.cons_append, List.splitOnP_cons_eq_if_modifyHead, if_neg ha, h m hm]
        rfl
      | cons first above =>
        refine ⟨(a :: first) :: above, last, fun m hm => ?_⟩
        rw [List.cons_append, List.splitOnP_cons_eq_if_modifyHead, if_neg ha, h m hm]
        rfl

/-! ### What is found first -/

section Find

variable {p : α → Bool}

/-- If the first element is found as soon as any is, only the first one matters. -/
theorem find?_eq_filter_head? {l : List α} (h : ∀ a ∈ l, p a → ∀ b ∈ l.head?, p b) :
    l.find? p = l.head?.filter p := by
  cases l with
  | nil => rfl
  | cons b l =>
    by_cases hb : p b
    · simp [Option.filter, hb]
    · have hnone : l.find? p = none := by
        rw [List.find?_eq_none]
        intro a ha hpa
        exact hb (h a (List.mem_cons_of_mem _ ha) hpa b rfl)
      simp [Option.filter, hb, hnone]

/-- Of two elements that there may be, the first with the property `p` is found. -/
theorem find?_toList_append (o o' : Option α) :
    (o.toList ++ o'.toList).find? p = (o.filter p).or (o'.filter p) := by
  have hfind (o : Option α) : o.toList.find? p = o.filter p := by
    cases o with
    | none => rfl
    | some a => by_cases ha : p a <;> simp [Option.filter, ha]
  rw [List.find?_append, hfind, hfind]

end Find

/-! ### Ascending order -/

section Order

variable {f : α → Nat} {l : List α} {n : Nat}

/-- Once a list in ascending order has come to greater elements, it stays there. -/
theorem lt_of_mem_dropWhile (h : l.Pairwise fun a b => f a ≤ f b) :
    ∀ a ∈ l.dropWhile (f · ≤ n), n < f a := by
  induction l with
  | nil => exact List.forall_mem_nil _
  | cons b l ih =>
    obtain ⟨hb, hl⟩ := List.pairwise_cons.1 h
    by_cases hle : f b ≤ n
    · rw [List.dropWhile_cons_of_pos (by simpa using hle)]
      exact ih hl
    · rw [List.dropWhile_cons_of_neg (by simpa using hle)]
      intro a ha
      rcases List.mem_cons.1 ha with rfl | ha
      · exact Nat.lt_of_not_le hle
      · exact Nat.lt_of_lt_of_le (Nat.lt_of_not_le hle) (hb a ha)

/-- In a sorted list come first the elements below a number, then those at it, then those above. -/
theorem eq_append_filter (h : l.Pairwise fun a b => f a ≤ f b) (n : Nat) :
    l = l.filter (f · < n) ++ (l.filter (f · = n) ++ l.filter (n < f ·)) := by
  induction l with
  | nil => rfl
  | cons a l ih =>
    obtain ⟨ha, hl⟩ := List.pairwise_cons.1 h
    have hnil {p : α → Bool} (hp : ∀ b, f a ≤ f b → p b = false) : l.filter p = [] :=
      List.filter_eq_nil_iff.2 fun b hb => by simp [hp b (ha b hb)]
    have ih := ih hl
    rcases Nat.lt_trichotomy (f a) n with hlt | heq | hgt
    · rw [List.filter_cons_of_pos (by simpa using hlt), List.filter_cons_of_neg (by grind),
        List.filter_cons_of_neg (by grind), List.cons_append, ← ih]
    · -- Nothing behind an element at the number is below it.
      have hbelow : l.filter (f · < n) = [] := hnil (by grind)
      rw [hbelow, List.nil_append] at ih
      rw [List.filter_cons_of_neg (by grind), List.filter_cons_of_pos (by simpa using heq),
        List.filter_cons_of_neg (by grind), hbelow, List.nil_append, List.cons_append, ← ih]
    · have hbelow : l.filter (f · < n) = [] := hnil (by grind)
      have hat : l.filter (f · = n) = [] := hnil (by grind)
      rw [hbelow, hat, List.nil_append, List.nil_append] at ih
      rw [List.filter_cons_of_neg (by grind), List.filter_cons_of_neg (by grind),
        List.filter_cons_of_pos (by simpa using hgt), hbelow, hat, List.nil_append,
        List.nil_append, ← ih]

end Order

/-! ### Lists put one after the other -/

/-- Each list with the index that its first element has when all lists are put one after the
other, from index `n` on. -/
def withStarts (n : Nat) : List (List α) → List (Nat × List α)
  | [] => []
  | l :: ls => (n, l) :: withStarts (n + l.length) ls

section Starts

variable {n : Nat} {ls : List (List α)} {p : Nat × List α}

/-- Lists put behind others start where these end. -/
theorem withStarts_append (n : Nat) (ls ms : List (List α)) :
    withStarts n (ls ++ ms) = withStarts n ls ++ withStarts (n + ls.flatten.length) ms := by
  induction ls generalizing n with
  | nil => rfl
  | cons l ls ih =>
    rw [List.cons_append, withStarts, ih, withStarts, List.cons_append, List.flatten_cons,
      List.length_append, Nat.add_assoc]

/-- The lists with their starts are the lists, in order. -/
@[simp] theorem map_snd_withStarts (n : Nat) (ls : List (List α)) :
    (withStarts n ls).map Prod.snd = ls := by
  induction ls generalizing n with
  | nil => rfl
  | cons l ls ih => rw [withStarts, List.map_cons, ih]

/-- Each list has one start. -/
@[simp] theorem length_withStarts (n : Nat) (ls : List (List α)) :
    (withStarts n ls).length = ls.length := by
  rw [← congrArg List.length (map_snd_withStarts n ls), List.length_map]

/-- A list starts behind all elements of the lists before it. -/
theorem mem_withStarts : p ∈ withStarts n ls ↔
    ∃ before after, ls = before ++ p.2 :: after ∧ p.1 = n + before.flatten.length := by
  constructor
  · intro h
    induction ls generalizing n with
    | nil => cases h
    | cons l ls ih =>
      rcases List.mem_cons.1 h with rfl | h
      · exact ⟨[], ls, rfl, rfl⟩
      · obtain ⟨before, after, hls, hp⟩ := ih h
        refine ⟨l :: before, after, by rw [hls, List.cons_append], ?_⟩
        rw [hp, List.flatten_cons, List.length_append, Nat.add_assoc]
  · rintro ⟨before, after, rfl, hp⟩
    rw [withStarts_append, withStarts, ← hp]
    exact List.mem_append_right _ List.mem_cons_self

/-- What has a start is one of the lists. -/
theorem mem_of_mem_withStarts (h : p ∈ withStarts n ls) : p.2 ∈ ls :=
  map_snd_withStarts n ls ▸ List.mem_map_of_mem h

/-- Where lists start depends on a list put behind them only through where it starts itself. -/
theorem forall_start_append {l : List α} :
    (∀ p ∈ withStarts 0 (ls ++ [l]), p.1 < n) ↔
      (∀ p ∈ withStarts 0 ls, p.1 < n) ∧ ls.flatten.length < n := by
  rw [withStarts_append, List.forall_mem_append, Nat.zero_add]
  exact and_congr_right fun _ => List.forall_mem_singleton

/-- A list ends within the elements of all lists. -/
theorem end_le_of_mem_withStarts (h : p ∈ withStarts 0 ls) :
    p.1 + p.2.length ≤ ls.flatten.length := by
  obtain ⟨before, after, hls, hp⟩ := mem_withStarts.1 h
  rw [hls, hp]
  simp only [List.flatten_append, List.flatten_cons, List.length_append]
  omega

/-- An element of a list is found in all lists as far behind the start of its own. -/
theorem getElem?_of_mem_withStarts (h : p ∈ withStarts 0 ls) {i : Nat} {a : α}
    (ha : p.2[i]? = some a) : ls.flatten[p.1 + i]? = some a := by
  obtain ⟨before, after, rfl, hp⟩ := mem_withStarts.1 h
  obtain ⟨hi, -⟩ := List.getElem?_eq_some_iff.1 ha
  rw [hp, Nat.zero_add, List.flatten_append, List.flatten_cons,
    List.getElem?_append_right (Nat.le_add_right _ _), Nat.add_sub_cancel_left,
    List.getElem?_append_left hi, ha]

/-- The indices of the elements of all lists are those of their elements one after the other. -/
theorem flatMap_range'_withStarts (n : Nat) (ls : List (List α)) :
    (withStarts n ls).flatMap (fun p => List.range' p.1 p.2.length) =
      List.range' n ls.flatten.length := by
  induction ls generalizing n with
  | nil => rfl
  | cons l ls ih =>
    rw [withStarts, List.flatMap_cons, ih, List.range'_append_1, List.flatten_cons,
      List.length_append]

/-- Lists that are not empty start one behind the other. -/
theorem pairwise_withStarts (hne : ∀ l ∈ ls, l ≠ []) :
    (withStarts n ls).Pairwise fun p q => p.1 < q.1 := by
  induction ls generalizing n with
  | nil => exact .nil
  | cons l ls ih =>
    obtain ⟨hl, hls⟩ := List.forall_mem_cons.1 hne
    refine List.pairwise_cons.2 ⟨fun q hq => ?_, ih hls⟩
    obtain ⟨before, after, -, hq⟩ := mem_withStarts.1 hq
    have := List.length_pos_iff.2 hl
    omega

/-- What holds of each list with its start relates a table of them to the lists. -/
theorem forall₂_withStarts {R : β → List α → Prop} {f : Nat × List α → β}
    (h : ∀ p ∈ withStarts n ls, R (f p) p.2) :
    List.Forall₂ R ((withStarts n ls).map f) ls := by
  have h' := List.forall₂_map_left_iff.2 (List.forall₂_map_right_iff.2 (List.forall₂_same.2 h))
  rwa [map_snd_withStarts] at h'

end Starts

/-! ### Intervals -/

section Intervals

variable {start stop : α → Nat} {l : List α} {a b : α}

/-- Of two intervals in a list where each stops before all behind it start, one stops before the
other starts. -/
theorem apart_of_pairwise (h : l.Pairwise fun a b => stop a ≤ start b) (ha : a ∈ l) (hb : b ∈ l)
    (hne : a ≠ b) : stop a ≤ start b ∨ stop b ≤ start a := by
  have hsymm : Std.Symm fun a b : α => stop a ≤ start b ∨ stop b ≤ start a := ⟨fun _ _ => Or.symm⟩
  have hapart : l.Pairwise fun a b => stop a ≤ start b ∨ stop b ≤ start a := h.imp Or.inl
  exact hapart.forall ha hb hne

/-- So no place lies in two of them. -/
theorem not_inside_of_pairwise (h : l.Pairwise fun a b => stop a ≤ start b) (ha : a ∈ l)
    (hb : b ∈ l) (hne : a ≠ b) {i : Nat} (hi : start a ≤ i ∧ i < stop a) :
    ¬(start b ≤ i ∧ i < stop b) := by
  have hapart := apart_of_pairwise h ha hb hne
  omega

end Intervals

end RowFlips
