import RowFlips.Ascending

/-!
# Finite sets kept in ascending order

A `SortedSet` is a list with strictly ascending keys. The order is part of the type, so two sets
with the same members are equal, and reading a set out always gives its members once each, in
ascending order.

## Main results

* `SortedSet.ext`: a set is determined by its members.
* `mem_ofList`, `mem_union`, `mem_inter`, `mem_diff`, `mem_unions`: what the operations hold.
* `size_diff_add_size_inter`: what another set lacks and what it has make up the set.
-/

namespace RowFlips

/-- A finite set, held as the ascending list of its members. -/
structure SortedSet (α : Type) [Keyed α] where
  /-- The members in ascending order. -/
  toList : List α
  /-- Each member has a greater key than the one before it. -/
  ascending : Ascending id toList

namespace SortedSet

variable {α : Type} [Keyed α]

instance : Membership α (SortedSet α) := ⟨fun s a => a ∈ s.toList⟩

/-- The members of a set are the elements of its list. -/
theorem mem_def {s : SortedSet α} {a : α} : a ∈ s ↔ a ∈ s.toList := Iff.rfl

instance [DecidableEq α] (s : SortedSet α) (a : α) : Decidable (a ∈ s) :=
  inferInstanceAs (Decidable (a ∈ s.toList))

/-- A set is determined by the list that it is held as. -/
theorem toList_injective {s t : SortedSet α} (h : s.toList = t.toList) : s = t := by
  cases s; cases t; cases h; rfl

instance [DecidableEq α] : DecidableEq (SortedSet α) := fun s t =>
  if h : s.toList = t.toList then isTrue (toList_injective h)
  else isFalse fun hst => h (hst ▸ rfl)

/-! ### Sets are determined by their members -/

/-- Two sets with the same members are equal. -/
theorem ext {s t : SortedSet α} (h : ∀ a, a ∈ s ↔ a ∈ t) : s = t :=
  toList_injective (s.ascending.eq_of_mem_iff t.ascending h)

/-! ### Building sets -/

/-- The set without members. -/
def empty : SortedSet α := ⟨[], List.Pairwise.nil⟩

instance : Inhabited (SortedSet α) := ⟨empty⟩

/-- The list without the elements that equal their successor. -/
def dropRepeats [DecidableEq α] : List α → List α
  | [] => []
  | [a] => [a]
  | a :: b :: l => if a = b then dropRepeats (b :: l) else a :: dropRepeats (b :: l)

omit [Keyed α] in
/-- Leaving repeats out loses no element. -/
@[simp] theorem mem_dropRepeats [DecidableEq α] {l : List α} {a : α} :
    a ∈ dropRepeats l ↔ a ∈ l := by
  fun_induction dropRepeats l with
  | case1 => rfl
  | case2 => rfl
  | case3 b l ih => simp [ih]
  | case4 b c l _ ih => simp only [List.mem_cons, ih]

/-- A sorted list without its repeats ascends strictly. -/
theorem ascending_dropRepeats [DecidableEq α] {l : List α}
    (h : l.Pairwise fun a b => key a ≤ key b) : Ascending id (dropRepeats l) := by
  fun_induction dropRepeats l with
  | case1 => exact List.Pairwise.nil
  | case2 a => exact List.pairwise_singleton _ _
  | case3 b l ih => exact ih (List.pairwise_cons.1 h).2
  | case4 a b l hab ih =>
    obtain ⟨ha, hbl⟩ := List.pairwise_cons.1 h
    refine List.pairwise_cons.2 ⟨fun c hc => ?_, ih hbl⟩
    have hne : key a ≠ key b := fun hk => hab (Keyed.eq_of_key_eq hk)
    have hle : key a ≤ key b := ha b List.mem_cons_self
    rcases List.mem_cons.1 (mem_dropRepeats.1 hc) with rfl | hc
    · simp only [id]; omega
    · have := (List.pairwise_cons.1 hbl).1 c hc
      simp only [id]; omega

/-- The set of the elements of a list, in whatever order and however often they occur. -/
def ofList [DecidableEq α] (l : List α) : SortedSet α :=
  ⟨dropRepeats (sortOn id l), ascending_dropRepeats (pairwise_sortOn id l)⟩

/-- The set of a list has the elements of the list for its members. -/
@[simp] theorem mem_ofList [DecidableEq α] {l : List α} {a : α} : a ∈ ofList l ↔ a ∈ l := by
  simp [ofList, mem_def]

/-! ### Two sets -/

/-- The members of two sets in ascending order, those of both side by side. -/
def align (s t : SortedSet α) : List (Aligned α) :=
  RowFlips.align (compareBy id) s.toList t.toList

/-- Two aligned sets have on the left alone what only the first has. -/
theorem left_mem_align {s t : SortedSet α} {a : α} : .left a ∈ s.align t ↔ a ∈ s ∧ a ∉ t := by
  simp only [align, mem_align s.ascending t.ascending, mem_def, id]
  grind

/-- They have side by side what is in both, each member with itself. -/
theorem both_mem_align {s t : SortedSet α} {a b : α} :
    .both a b ∈ s.align t ↔ a ∈ s ∧ b ∈ t ∧ a = b :=
  mem_align s.ascending t.ascending

/-- They have on the right alone what only the second has. -/
theorem right_mem_align {s t : SortedSet α} {a : α} : .right a ∈ s.align t ↔ a ∈ t ∧ a ∉ s := by
  simp only [align, mem_align s.ascending t.ascending, mem_def, id]
  grind

/-- Members picked from two aligned sets ascend. -/
theorem ascending_filterMap_align (s t : SortedSet α) {pick : Aligned α → Option α}
    (h : ∀ x a, pick x = some a → a = x.element) :
    Ascending id ((s.align t).filterMap pick) := by
  refine List.pairwise_filterMap.2 ((ascending_align s.ascending t.ascending).imp ?_)
  intro x y hxy a ha b hb
  rw [h x a ha, h y b hb]
  exact hxy

/-- The members of either set. -/
def union (s t : SortedSet α) : SortedSet α :=
  ⟨(s.align t).map Aligned.element, List.pairwise_map.2 (ascending_align s.ascending t.ascending)⟩

/-- A union has the members of either set. -/
@[simp] theorem mem_union {s t : SortedSet α} {a : α} : a ∈ s.union t ↔ a ∈ s ∨ a ∈ t := by
  rw [mem_def, union, List.mem_map]
  constructor
  · rintro ⟨x, hx, rfl⟩
    exact element_of_mem_align hx
  · intro h
    by_cases hs : a ∈ s
    · by_cases ht : a ∈ t
      · exact ⟨.both a a, both_mem_align.2 ⟨hs, ht, rfl⟩, rfl⟩
      · exact ⟨.left a, left_mem_align.2 ⟨hs, ht⟩, rfl⟩
    · exact ⟨.right a, right_mem_align.2 ⟨h.resolve_left hs, hs⟩, rfl⟩

/-- The members of both sets. -/
def inter (s t : SortedSet α) : SortedSet α :=
  ⟨(s.align t).filterMap Aligned.both?, ascending_filterMap_align s t fun x a h => by
    cases x <;> simp_all [Aligned.both?, Aligned.element]⟩

/-- An intersection has the members that are in both sets. -/
@[simp] theorem mem_inter {s t : SortedSet α} {a : α} : a ∈ s.inter t ↔ a ∈ s ∧ a ∈ t := by
  rw [mem_def, inter, List.mem_filterMap]
  constructor
  · rintro ⟨_ | ⟨b, c⟩ | _, hx, h⟩ <;> cases h
    obtain ⟨hs, ht, rfl⟩ := both_mem_align.1 hx
    exact ⟨hs, ht⟩
  · rintro ⟨hs, ht⟩
    exact ⟨.both a a, both_mem_align.2 ⟨hs, ht, rfl⟩, rfl⟩

/-- The members of the first set that the second does not have. -/
def diff (s t : SortedSet α) : SortedSet α :=
  ⟨(s.align t).filterMap Aligned.left?, ascending_filterMap_align s t fun x a h => by
    cases x <;> simp_all [Aligned.left?, Aligned.element]⟩

/-- A difference has the members of the first set that are not in the second. -/
@[simp] theorem mem_diff {s t : SortedSet α} {a : α} : a ∈ s.diff t ↔ a ∈ s ∧ a ∉ t := by
  rw [mem_def, diff, List.mem_filterMap]
  constructor
  · rintro ⟨_ | _ | _, hx, h⟩ <;> cases h
    exact left_mem_align.1 hx
  · intro h
    exact ⟨.left a, left_mem_align.2 h, rfl⟩

/-- Which of two sets comes first does not matter to what they share. -/
theorem inter_comm (s t : SortedSet α) : s.inter t = t.inter s :=
  ext fun _ => by rw [mem_inter, mem_inter, and_comm]

/-- A set shares all of itself with itself. -/
@[simp] theorem inter_self (s : SortedSet α) : s.inter s = s :=
  ext fun _ => by rw [mem_inter, and_self]

/-! ### Many sets -/

/-- The sets with neighbours put together two by two. -/
def unionPairs : List (SortedSet α) → List (SortedSet α)
  | s :: t :: l => s.union t :: unionPairs l
  | l => l

/-- Putting sets together two by two keeps what is a member of any of them. -/
theorem exists_mem_unionPairs {l : List (SortedSet α)} {a : α} :
    (∃ s ∈ unionPairs l, a ∈ s) ↔ ∃ s ∈ l, a ∈ s := by
  fun_induction unionPairs l with
  | case1 s t l ih => simp only [List.mem_cons, exists_eq_or_imp, mem_union, ih, or_assoc]
  | case2 => rfl

/-- Putting sets together two by two does not make them more. -/
theorem length_unionPairs_le (l : List (SortedSet α)) : (unionPairs l).length ≤ l.length := by
  fun_induction unionPairs l with
  | case1 s t l ih => simp only [List.length_cons]; omega
  | case2 => exact Nat.le_refl _

/-- The members of all the sets. Putting together two by two keeps each union small. -/
def unions : List (SortedSet α) → SortedSet α
  | [] => empty
  | [s] => s
  | s :: t :: l => unions (s.union t :: unionPairs l)
termination_by l => l.length
decreasing_by
  have := length_unionPairs_le l
  simp only [List.length_cons]
  omega

/-- The union of many sets has the members of each. -/
@[simp] theorem mem_unions {l : List (SortedSet α)} {a : α} :
    a ∈ unions l ↔ ∃ s ∈ l, a ∈ s := by
  fun_induction unions l with
  | case1 => simp [empty, mem_def]
  | case2 s => simp
  | case3 s t l ih =>
    rw [ih, ← exists_mem_unionPairs (l := s :: t :: l), unionPairs]

/-! ### Size -/

/-- The number of members. -/
def size (s : SortedSet α) : Nat := s.toList.length

/-- The members of a set that another lacks and those that it has make up the set. -/
theorem size_diff_add_size_inter (s t : SortedSet α) :
    (s.diff t).size + (s.inter t).size = s.size :=
  (length_left?_add_length_both? _).trans
    (congrArg List.length (filterMap_ofLeft?_align (compareBy id) s.toList t.toList))

/-- The set has no members. -/
def isEmpty (s : SortedSet α) : Bool := s.toList.isEmpty

/-- A set is empty exactly if it has no member. -/
theorem isEmpty_iff {s : SortedSet α} : s.isEmpty = true ↔ ∀ a, a ∉ s := by
  rw [isEmpty, List.isEmpty_iff, List.eq_nil_iff_forall_not_mem]
  rfl

/-- A set lacks none of its own members. -/
@[simp] theorem isEmpty_diff_self (s : SortedSet α) : (s.diff s).isEmpty = true :=
  isEmpty_iff.2 fun _ ha => (mem_diff.1 ha).2 (mem_diff.1 ha).1

end SortedSet

end RowFlips
