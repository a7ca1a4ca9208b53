import RowFlips.Keyed

/-!
# Searching and aligning ascending lists

In an ascending list an element is found by looking at the middle and going on with one half. Two
ascending lists are walked through together by always taking the lesser of their first elements,
or both if they are level.

## Main results

* `bisect_eq_some_iff`: what is found in an ascending list.
* `mem_align`: what stands alone and what stands side by side when lists are aligned by keys.
* `ascending_align`: the aligned elements ascend.
* `align_swap`: aligning the other way round swaps the sides.
-/

namespace RowFlips

variable {α β : Type}

/-! ### Searching -/

/-- What lies before the middle is shorter than the list. -/
theorem length_below_lt {l above : List α} {a : α} (h : l.drop (l.length / 2) = a :: above) :
    (l.take (l.length / 2)).length < l.length := by
  have h := congrArg List.length h
  simp only [List.length_drop, List.length_take, List.length_cons] at h ⊢
  omega

/-- So is what lies behind the middle. -/
theorem length_above_lt {l above : List α} {a : α} (h : l.drop (l.length / 2) = a :: above) :
    above.length < l.length := by
  have h := congrArg List.length h
  simp only [List.length_drop, List.length_cons] at h
  omega

/-- The element that is level with what is searched for: the middle one, or one on the side of it
that `side` tells. -/
def bisect (side : α → Ordering) (l : List α) : Option α :=
  match _h : l.drop (l.length / 2) with
  | [] => none
  | a :: above =>
    match side a with
    | .lt => bisect side (l.take (l.length / 2))
    | .gt => bisect side above
    | .eq => some a
termination_by l.length
decreasing_by
  · exact length_below_lt _h
  · exact length_above_lt _h

/-- A list falls into what is before its middle, the middle and what is behind it. -/
theorem eq_take_append_middle {l above : List α} {b : α}
    (h : l.drop (l.length / 2) = b :: above) : l = l.take (l.length / 2) ++ b :: above := by
  rw [← h, List.take_append_drop]

section Bisecting

variable [Keyed β] {f : α → β} {l before behind : List α} {a b : α}

/-- What is below an element of an ascending list can only stand before it. -/
theorem Ascending.mem_iff_of_lt (h : Ascending f l) (hl : l = before ++ b :: behind)
    (hab : key (f a) < key (f b)) : a ∈ l ↔ a ∈ before := by
  subst hl
  have hbehind : Ascending f (b :: behind) := (List.pairwise_append.1 h).2.1
  rw [List.mem_append, or_iff_left]
  exact fun ha => Nat.lt_irrefl _ (hbehind.lt_of_lt_head hab a ha)

/-- What is above it can only stand behind it. -/
theorem Ascending.mem_iff_of_gt (h : Ascending f l) (hl : l = before ++ b :: behind)
    (hba : key (f b) < key (f a)) : a ∈ l ↔ a ∈ behind := by
  subst hl
  obtain ⟨-, -, hcross⟩ := List.pairwise_append.1 h
  have hbefore : a ∉ before := fun ha =>
    Nat.lt_asymm hba (hcross a ha b List.mem_cons_self)
  have hne : a ≠ b := by
    rintro rfl
    exact Nat.lt_irrefl _ hba
  rw [List.mem_append, or_iff_right hbefore, List.mem_cons, or_iff_right hne]

/-- Bisecting an ascending list finds exactly its element with the key searched for. -/
theorem bisect_eq_some_iff (h : Ascending f l) {x : β} :
    bisect (fun b => compare (key x) (key (f b))) l = some a ↔ a ∈ l ∧ f a = x := by
  fun_induction bisect (fun b => compare (key x) (key (f b))) l with
  | case1 l hnil =>
    have hlen := congrArg List.length hnil
    simp only [List.length_drop, List.length_nil] at hlen
    have hl : l = [] := List.length_eq_zero_iff.1 (by omega)
    simp [hl]
  | case2 l b above hdrop hlt ih =>
    have hl := eq_take_append_middle hdrop
    rw [ih (h.sublist (List.take_sublist ..))]
    refine and_congr_left fun hx => (h.mem_iff_of_lt hl ?_).symm
    rw [hx]
    exact Nat.compare_eq_lt.1 hlt
  | case3 l b above hdrop hgt ih =>
    have hl := eq_take_append_middle hdrop
    have habove : above.Sublist l := by
      rw [hl]
      exact (List.sublist_cons_self b above).trans (List.sublist_append_right _ _)
    rw [ih (h.sublist habove)]
    refine and_congr_left fun hx => (h.mem_iff_of_gt hl ?_).symm
    rw [hx]
    exact Nat.compare_eq_gt.1 hgt
  | case4 l b above hdrop heq =>
    have hbx : f b = x := (Keyed.eq_of_key_eq (Nat.compare_eq_eq.1 heq)).symm
    have hb : b ∈ l := by
      rw [eq_take_append_middle hdrop]
      exact List.mem_append_right _ List.mem_cons_self
    rw [Option.some.injEq]
    constructor
    · rintro rfl
      exact ⟨hb, hbx⟩
    · rintro ⟨ha, hx⟩
      exact h.eq_of_mem hb ha (hbx.trans hx.symm)

end Bisecting

/-! ### Aligning -/

/-- An element of one of two lists, or level elements of both. -/
inductive Aligned (α : Type) where
  /-- An element that only the left list has. -/
  | left (a : α)
  /-- Level elements of both lists. -/
  | both (a b : α)
  /-- An element that only the right list has. -/
  | right (b : α)

/-- The element, or that of the left list if both have one. -/
def Aligned.element : Aligned α → α
  | left a => a
  | both a _ => a
  | right b => b

/-- The element of the left list if both lists have one. -/
def Aligned.both? : Aligned α → Option α
  | both a _ => some a
  | _ => none

/-- The element of the left list if the right one has none. -/
def Aligned.left? : Aligned α → Option α
  | left a => some a
  | _ => none

/-- The elements of two ascending lists in ascending order, level ones side by side. -/
def align (order : α → α → Ordering) : List α → List α → List (Aligned α)
  | [], bs => bs.map .right
  | a :: as, [] => (a :: as).map .left
  | a :: as, b :: bs =>
    match order a b with
    | .lt => .left a :: align order as (b :: bs)
    | .gt => .right b :: align order (a :: as) bs
    | .eq => .both a b :: align order as bs
termination_by as bs => as.length + bs.length

/-- Aligning two lists adds no element to them. -/
theorem element_of_mem_align {order : α → α → Ordering} {l m : List α} {x : Aligned α}
    (h : x ∈ align order l m) : x.element ∈ l ∨ x.element ∈ m := by
  fun_induction align order l m with
  | case1 => grind [Aligned.element]
  | case2 => grind [Aligned.element]
  | case3 _ _ _ _ _ ih => grind [Aligned.element]
  | case4 _ _ _ _ _ ih => grind [Aligned.element]
  | case5 _ _ _ _ _ ih => grind [Aligned.element]

variable [Keyed β]

/-- Elements with one key stand side by side, and all others alone. -/
theorem mem_align {f : α → β} {l m : List α} (hl : Ascending f l) (hm : Ascending f m)
    {x : Aligned α} :
    x ∈ align (compareBy f) l m ↔
      match x with
      | .left a => a ∈ l ∧ ∀ b ∈ m, f a ≠ f b
      | .both a b => a ∈ l ∧ b ∈ m ∧ f a = f b
      | .right b => b ∈ m ∧ ∀ a ∈ l, f a ≠ f b := by
  have hne {a b : α} (hab : key (f a) < key (f b)) : f a ≠ f b := fun he =>
    Nat.ne_of_lt hab (congrArg key he)
  fun_induction align (compareBy f) l m with
  | case1 bs => cases x <;> simp
  | case2 a as => cases x <;> simp
  | case3 a as b bs h ih =>
    have ih := ih hl.of_cons hm
    have hleft : ∀ c ∈ b :: bs, f a ≠ f c := fun c hc =>
      hne (hm.lt_of_lt_head (compareBy_eq_lt.1 h) c hc)
    cases x <;> simp_all <;> grind
  | case4 a as b bs h ih =>
    have ih := ih hl hm.of_cons
    have hright : ∀ c ∈ a :: as, f c ≠ f b := fun c hc =>
      (hne (hl.lt_of_lt_head (compareBy_eq_gt.1 h) c hc)).symm
    cases x <;> simp_all <;> grind
  | case5 a as b bs h ih =>
    have hab := compareBy_eq_eq.1 h
    have ih := ih hl.of_cons hm.of_cons
    -- Both firsts have one key, so neither is level with what follows the other.
    have hright : ∀ c ∈ as, f c ≠ f b := fun c hc =>
      hab ▸ (hne ((List.pairwise_cons.1 hl).1 c hc)).symm
    have hleft : ∀ c ∈ bs, f a ≠ f c := fun c hc =>
      hab ▸ hne ((List.pairwise_cons.1 hm).1 c hc)
    cases x <;> simp_all <;> grind

/-- Aligned lists ascend together. -/
theorem ascending_align {f : α → β} {l m : List α} (hl : Ascending f l) (hm : Ascending f m) :
    Ascending (fun x => f x.element) (align (compareBy f) l m) := by
  fun_induction align (compareBy f) l m with
  | case1 bs => exact List.pairwise_map.2 hm
  | case2 a as => exact List.pairwise_map.2 hl
  | case3 a as b bs h ih =>
    refine List.pairwise_cons.2 ⟨fun x hx => ?_, ih hl.of_cons hm⟩
    rcases element_of_mem_align hx with hx | hx
    · exact (List.pairwise_cons.1 hl).1 _ hx
    · exact hm.lt_of_lt_head (compareBy_eq_lt.1 h) _ hx
  | case4 a as b bs h ih =>
    refine List.pairwise_cons.2 ⟨fun x hx => ?_, ih hl hm.of_cons⟩
    rcases element_of_mem_align hx with hx | hx
    · exact hl.lt_of_lt_head (compareBy_eq_gt.1 h) _ hx
    · exact (List.pairwise_cons.1 hm).1 _ hx
  | case5 a as b bs h ih =>
    have hab := compareBy_eq_eq.1 h
    refine List.pairwise_cons.2 ⟨fun x hx => ?_, ih hl.of_cons hm.of_cons⟩
    rcases element_of_mem_align hx with hx | hx
    · exact (List.pairwise_cons.1 hl).1 _ hx
    · simpa only [Aligned.element, hab] using (List.pairwise_cons.1 hm).1 _ hx

/-! ### The two sides -/

/-- The element of the left list, if it has one. -/
def Aligned.ofLeft? : Aligned α → Option α
  | left a => some a
  | both a _ => some a
  | right _ => none

/-- The left list can be read off the aligned lists. -/
theorem filterMap_ofLeft?_align (order : α → α → Ordering) (l m : List α) :
    (align order l m).filterMap Aligned.ofLeft? = l := by
  fun_induction align order l m with
  | case1 bs => simp [List.filterMap_map, Function.comp_def, Aligned.ofLeft?]
  | case2 a as => simp [List.filterMap_map, Function.comp_def, Aligned.ofLeft?]
  | case3 a as b bs h ih => exact congrArg (a :: ·) ih
  | case4 a as b bs h ih => exact ih
  | case5 a as b bs h ih => exact congrArg (a :: ·) ih

/-- What stands alone on the left and what stands side by side make up the left list. -/
theorem length_left?_add_length_both? (xs : List (Aligned α)) :
    (xs.filterMap Aligned.left?).length + (xs.filterMap Aligned.both?).length =
      (xs.filterMap Aligned.ofLeft?).length := by
  induction xs with
  | nil => rfl
  | cons x xs ih =>
    cases x <;>
      simp only [List.filterMap_cons, Aligned.left?, Aligned.both?, Aligned.ofLeft?,
        List.length_cons] <;> omega

/-- The element with its sides swapped. -/
def Aligned.swap : Aligned α → Aligned α
  | left a => right a
  | both a b => both b a
  | right b => left b

/-- Aligning the other way round swaps the sides. -/
theorem align_swap (f : α → β) (l m : List α) :
    align (compareBy f) m l = (align (compareBy f) l m).map Aligned.swap := by
  fun_induction align (compareBy f) l m with
  | case1 bs => cases bs <;> simp [align, Aligned.swap, Function.comp_def]
  | case2 a as => simp [align, Aligned.swap, Function.comp_def]
  | case3 a as b bs h ih =>
    have hba : compareBy f b a = .gt := compareBy_eq_gt.2 (compareBy_eq_lt.1 h)
    simp [align, hba, ih, Aligned.swap]
  | case4 a as b bs h ih =>
    have hba : compareBy f b a = .lt := compareBy_eq_lt.2 (compareBy_eq_gt.1 h)
    simp [align, hba, ih, Aligned.swap]
  | case5 a as b bs h ih =>
    have hba : compareBy f b a = .eq := compareBy_eq_eq.2 (compareBy_eq_eq.1 h).symm
    simp [align, hba, ih, Aligned.swap]

end RowFlips
