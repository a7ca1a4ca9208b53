/-!
# Values ordered by a number

Addresses, targets, flips and flips in physical memory are all ordered the same way: each value
has a key, a natural number that no other value of its type shares, and values compare as their
keys do. Sorting, searching and merging then need nothing but the order of the natural numbers.

## Main results

* `sortOn_perm`, `pairwise_sortOn`: sorting loses nothing and leaves the keys ascending.
* `sortOn_of_ascending`: a list that already ascends is its own sorting.
* `Ascending.eq_of_mem_iff`: ascending lists with the same elements are the same list.
-/

namespace RowFlips

/-- A type whose values are told apart, and ordered, by a natural number. -/
class Keyed (α : Type) where
  /-- The number a value is ordered by. -/
  key : α → Nat
  /-- Two values with one key are the same value. -/
  eq_of_key_eq : ∀ {a b : α}, key a = key b → a = b

export Keyed (key)

variable {α β : Type} [Keyed β]

/-- The list has strictly ascending keys under `f`, so no key occurs twice. -/
def Ascending (f : α → β) (l : List α) : Prop :=
  l.Pairwise fun a b => key (f a) < key (f b)

instance (f : α → β) (l : List α) : Decidable (Ascending f l) :=
  inferInstanceAs (Decidable (l.Pairwise _))

/-- What is below the first element of an ascending list is below all of them. -/
theorem Ascending.lt_of_lt_head {f : α → β} {l : List α} {a b : α} (h : Ascending f (b :: l))
    (hab : key (f a) < key (f b)) : ∀ c ∈ b :: l, key (f a) < key (f c) :=
  List.forall_mem_cons.2
    ⟨hab, fun c hc => Nat.lt_trans hab ((List.pairwise_cons.1 h).1 c hc)⟩

/-- No two elements of an ascending list have one key. -/
theorem Ascending.eq_of_mem {f : α → β} {l : List α} (h : Ascending f l) {a b : α} (ha : a ∈ l)
    (hb : b ∈ l) (hab : f a = f b) : a = b := by
  induction l with
  | nil => exact absurd ha List.not_mem_nil
  | cons c l ih =>
    obtain ⟨hc, hl⟩ := List.pairwise_cons.1 h
    rcases List.mem_cons.1 ha with hac | ha' <;> rcases List.mem_cons.1 hb with hbc | hb'
    · exact hac.trans hbc.symm
    · have := hc b hb'
      rw [← hac, hab] at this
      omega
    · have := hc a ha'
      rw [← hbc, hab] at this
      omega
    · exact ih hl ha' hb'

/-- Ascending lists with the same elements are the same list. -/
theorem Ascending.eq_of_mem_iff {f : α → β} {l m : List α} (hl : Ascending f l)
    (hm : Ascending f m) (h : ∀ a, a ∈ l ↔ a ∈ m) : l = m := by
  induction l generalizing m with
  | nil =>
    cases m with
    | nil => rfl
    | cons b m => exact absurd ((h b).2 List.mem_cons_self) List.not_mem_nil
  | cons a l ih =>
    cases m with
    | nil => exact absurd ((h a).1 List.mem_cons_self) List.not_mem_nil
    | cons b m =>
      obtain ⟨ha, hl'⟩ := List.pairwise_cons.1 hl
      obtain ⟨hb, hm'⟩ := List.pairwise_cons.1 hm
      have hab : a = b := by
        rcases List.mem_cons.1 ((h a).1 List.mem_cons_self) with hab | hab
        · exact hab
        rcases List.mem_cons.1 ((h b).2 List.mem_cons_self) with hba | hba
        · exact hba.symm
        have := hb a hab
        have := ha b hba
        omega
      subst hab
      refine congrArg (a :: ·) (ih hl' hm' fun c => ?_)
      constructor
      · intro hc
        rcases List.mem_cons.1 ((h c).1 (List.mem_cons_of_mem _ hc)) with rfl | hc'
        · have := ha c hc; omega
        · exact hc'
      · intro hc
        rcases List.mem_cons.1 ((h c).2 (List.mem_cons_of_mem _ hc)) with rfl | hc'
        · have := hb c hc; omega
        · exact hc'

/-- How two elements compare by their keys under `f`. -/
def compareBy (f : α → β) (a b : α) : Ordering := compare (key (f a)) (key (f b))

/-- An element comes first exactly if its key is less. -/
theorem compareBy_eq_lt {f : α → β} {a b : α} : compareBy f a b = .lt ↔ key (f a) < key (f b) :=
  Nat.compare_eq_lt

/-- It comes last exactly if its key is greater. -/
theorem compareBy_eq_gt {f : α → β} {a b : α} : compareBy f a b = .gt ↔ key (f b) < key (f a) :=
  Nat.compare_eq_gt

/-- Elements are level exactly if they are the same under `f`. -/
theorem compareBy_eq_eq {f : α → β} {a b : α} : compareBy f a b = .eq ↔ f a = f b :=
  Nat.compare_eq_eq.trans ⟨Keyed.eq_of_key_eq, congrArg key⟩

/-- The list sorted by the key of `f`, which is taken once for each element; elements with one key
keep their order. -/
def sortOn (f : α → β) (l : List α) : List α :=
  ((l.map fun a => (key (f a), a)).mergeSort fun x y => decide (x.1 ≤ y.1)).map Prod.snd

/-- Taking keys along changes no element. -/
theorem map_snd_map_key (f : α → β) (l : List α) :
    (l.map fun a => (key (f a), a)).map Prod.snd = l := by
  rw [List.map_map]
  exact List.map_id l

/-- Sorting keeps every element, as often as it occurs. -/
theorem sortOn_perm (f : α → β) (l : List α) : (sortOn f l).Perm l := by
  have h := (List.mergeSort_perm (l.map fun a => (key (f a), a)) fun x y =>
    decide (x.1 ≤ y.1)).map Prod.snd
  rwa [map_snd_map_key] at h

/-- A sorted list has the elements of the list it was sorted from. -/
@[simp] theorem mem_sortOn {f : α → β} {l : List α} {a : α} : a ∈ sortOn f l ↔ a ∈ l :=
  (sortOn_perm f l).mem_iff

/-- A sorted list has ascending keys. -/
theorem pairwise_sortOn (f : α → β) (l : List α) :
    (sortOn f l).Pairwise fun a b => key (f a) ≤ key (f b) := by
  have h : ((l.map fun a => (key (f a), a)).mergeSort fun x y => decide (x.1 ≤ y.1)).Pairwise
      fun x y => decide (x.1 ≤ y.1) = true :=
    List.pairwise_mergeSort (by intro a b c; simp only [decide_eq_true_eq]; omega)
      (by intro a b; simp only [Bool.or_eq_true, decide_eq_true_eq]; omega) _
  refine List.pairwise_map.2 (h.imp_of_mem fun hx hy hxy => ?_)
  obtain ⟨a, -, rfl⟩ := List.mem_map.1 (List.mem_mergeSort.1 hx)
  obtain ⟨b, -, rfl⟩ := List.mem_map.1 (List.mem_mergeSort.1 hy)
  exact of_decide_eq_true hxy

/-- A list with ascending keys is its own sorting. -/
theorem sortOn_of_ascending {f : α → β} {l : List α} (h : Ascending f l) : sortOn f l = l := by
  rw [sortOn, List.mergeSort_of_pairwise, map_snd_map_key]
  exact List.pairwise_map.2 (h.imp fun hab => by simpa using Nat.le_of_lt hab)

end RowFlips
