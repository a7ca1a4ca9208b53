import Mathlib.Data.List.Chain
import RowFlips.Image.Build
import RowFlips.Proofs.Address
import RowFlips.Proofs.ByteMask
import RowFlips.Proofs.Outcome

/-!
# What an image is made of

The attacks that become an image fall into stretches: as long as each attack is one row further
than the one before it, in one bank and column, they belong together. An image has a range for
each stretch and a hammering for each attack, and what they name lies one after the other in the
table that they index. So both tables are given by the same pattern: lists put one after the
other, each known by where it starts and how long it is.

The builder keeps this form with every attack that it is given.

## Main results

* `Builder.extend_spec`, `Builder.addFlips_spec`: what one attack adds to the ranges and to the
  other tables.
* `Builder.Holds.add`: one attack keeps the invariant of the builder.
* `describes_of_ofAttacks`: what an image made of attacks holds.
-/

namespace RowFlips.Image

/-! ### Slices -/

section Slices

variable {α : Type}

/-- Start and length name a list within all elements, if they fit their fields. -/
theorem slice?_of_mem_withStarts {ls : List (List α)} {p : Nat × List α}
    (h : p ∈ withStarts 0 ls) (hstart : p.1 < UInt32.size) (hlen : p.2.length < UInt32.size) :
    slice? ls.flatten.toArray (.ofNat p.1) (.ofNat p.2.length) = some p.2 := by
  have hend := end_le_of_mem_withStarts h
  rw [slice?_toArray, UInt32.toNat_ofNat_of_lt' hstart, UInt32.toNat_ofNat_of_lt' hlen, if_pos hend]
  obtain ⟨before, after, rfl, hp⟩ := mem_withStarts.1 h
  rw [Nat.zero_add] at hp
  rw [hp, List.flatten_append, List.flatten_cons, List.drop_left, List.take_left]

/-- Related lists have related slices. -/
theorem slice?_of_forall₂ {β : Type} {R : β → α → Prop} {m : List β} {l l' : List α}
    {first count : UInt32} (h : List.Forall₂ R m l) (hl : slice? l.toArray first count = some l') :
    ∃ m', slice? m.toArray first count = some m' ∧ List.Forall₂ R m' l' := by
  rw [slice?_toArray] at hl
  rw [slice?_toArray, h.length_eq]
  split at hl
  · rename_i hle
    cases hl
    exact ⟨_, if_pos hle, List.forall₂_take _ (List.forall₂_drop _ h)⟩
  · cases hl

end Slices

/-! ### Stretches of attacks -/

/-- The second attack is one row further than the first, in the same bank and column. -/
def Follows (a b : Attack) : Prop := a.targets.first.addRows? 1 = some b.targets.first

/-- The lists are stretches of attacks: none is empty, in each the attacks follow each other, and
none goes on in the next. -/
structure Stretches (ss : List (List Attack)) : Prop where
  ne_nil : ∀ s ∈ ss, s ≠ []
  follows : ∀ s ∈ ss, s.IsChain Follows
  apart : ss.IsChain fun s t => ∀ a ∈ s.getLast?, ∀ b ∈ t.head?, ¬Follows a b

namespace Stretches

/-- No attacks fall into no stretches. -/
theorem nil : Stretches [] :=
  ⟨List.forall_mem_nil _, List.forall_mem_nil _, .nil⟩

variable {ss : List (List Attack)} {s : List Attack} {a b : Attack}

/-- An attack that follows the last one lengthens the last stretch. -/
theorem lengthen (h : Stretches (ss ++ [s ++ [a]])) (hab : Follows a b) :
    Stretches (ss ++ [s ++ [a] ++ [b]]) := by
  obtain ⟨hne, hfollows, hapart⟩ := h
  refine ⟨?_, ?_, ?_⟩
  · intro t ht
    rcases List.mem_append.1 ht with ht | ht
    · exact hne t (List.mem_append_left _ ht)
    · rw [List.mem_singleton.1 ht]
      exact List.append_ne_nil_of_right_ne_nil _ (List.cons_ne_nil _ _)
  · intro t ht
    rcases List.mem_append.1 ht with ht | ht
    · exact hfollows t (List.mem_append_left _ ht)
    · rw [List.mem_singleton.1 ht]
      refine (hfollows _ (List.mem_append_right _ List.mem_cons_self)).append (.singleton b) ?_
      simpa using hab
  · rw [List.isChain_append] at hapart ⊢
    refine ⟨hapart.1, .singleton _, ?_⟩
    intro t ht u hu
    have hu : u = s ++ [a] ++ [b] := by simpa using hu.symm
    rw [hu, List.head?_append_of_ne_nil _ (by simp)]
    exact hapart.2.2 t ht _ rfl

/-- An attack that does not follow the last one opens a stretch. -/
theorem open_ (h : Stretches ss)
    (hb : ∀ s ∈ ss.getLast?, ∀ a ∈ s.getLast?, ¬Follows a b) : Stretches (ss ++ [[b]]) := by
  obtain ⟨hne, hfollows, hapart⟩ := h
  refine ⟨?_, ?_, ?_⟩
  · intro t ht
    rcases List.mem_append.1 ht with ht | ht
    · exact hne t ht
    · rw [List.mem_singleton.1 ht]
      exact List.cons_ne_nil _ _
  · intro t ht
    rcases List.mem_append.1 ht with ht | ht
    · exact hfollows t ht
    · rw [List.mem_singleton.1 ht]
      exact .singleton b
  · refine hapart.append (.singleton _) ?_
    intro t ht u hu a ha c hc
    obtain rfl : [b] = u := by simpa using hu
    obtain rfl : b = c := by simpa using hc
    exact hb t ht a ha

end Stretches

/-- The first target of the first attack. -/
def startOf : List Attack → Address
  | [] => default
  | a :: _ => a.targets.first

/-- The attacks of a stretch lie as many rows after its start as they come after its first. -/
theorem addRows?_startOf {s : List Attack} {b : Attack} {i : Nat} (h : s.IsChain Follows)
    (hb : s[i]? = some b) : (startOf s).addRows? i = some b.targets.first := by
  induction i generalizing b with
  | zero =>
    cases s with
    | nil => cases hb
    | cons a s =>
      cases hb
      exact Address.addRows?_zero _
  | succ i ih =>
    obtain ⟨hi, rfl⟩ := List.getElem?_eq_some_iff.1 hb
    have hprev := ih (List.getElem?_eq_getElem (Nat.lt_of_succ_lt hi))
    have hnext : Follows _ _ := List.isChain_iff_getElem.1 h i hi
    rw [Int.natCast_succ]
    exact Address.addRows?_trans hprev hnext

/-- A bank has too few rows for a stretch to be longer than them. -/
theorem length_le_of_isChain {s : List Attack} (h : s.IsChain Follows) :
    s.length ≤ UInt16.size := by
  by_cases hs : s = []
  · rw [hs]
    exact Nat.zero_le _
  · have hpos := List.length_pos_iff.2 hs
    have hlast := addRows?_startOf h (List.getElem?_eq_getElem (Nat.sub_one_lt_of_lt hpos))
    have hrow := (Address.addRows?_eq_some_iff.1 hlast).2.2
    have hlt := (s[s.length - 1]).targets.first.row.toNat_lt
    simp only [UInt16.size]
    omega

/-! ### The tables of an image -/

/-- The range of a stretch, given with the index of its first hammering. -/
def rangeOf (p : Nat × List Attack) : Range := ⟨startOf p.2, .ofNat p.2.length, .ofNat p.1⟩

/-- The ranges of stretches, in the order of these. -/
def rangesOf (ss : List (List Attack)) : List Range := (withStarts 0 ss).map rangeOf

/-- Stretches put behind others have their ranges behind those of the others. -/
theorem rangesOf_append (ss ts : List (List Attack)) :
    rangesOf (ss ++ ts) = rangesOf ss ++ (withStarts ss.flatten.length ts).map rangeOf := by
  rw [rangesOf, withStarts_append, List.map_append, Nat.zero_add]
  rfl

/-- Counting one more gives the range of a lengthened stretch. -/
theorem rangeOf_lengthen (i : Nat) (s : List Attack) (x a : Attack) :
    { rangeOf (i, s ++ [x]) with count := (rangeOf (i, s ++ [x])).count + 1 } =
      rangeOf (i, s ++ [x] ++ [a]) := by
  have hstart : startOf (s ++ [x] ++ [a]) = startOf (s ++ [x]) := by
    cases s <;> rfl
  have hcount : UInt32.ofNat (s ++ [x]).length + 1 = .ofNat (s ++ [x] ++ [a]).length := by
    have hlen : (s ++ [x] ++ [a]).length = (s ++ [x]).length + 1 := List.length_append
    rw [hlen]
    exact (UInt32.ofNat_add (s ++ [x]).length 1).symm
  rw [rangeOf, rangeOf, hstart, ← hcount]

/-- The record of a byte mask, if the number of the byte fits its field. -/
def recordOf (m : ByteMask) : Record := ⟨m.addr, m.cellByte.toUInt16, m.pullup, m.pulldown⟩

/-- The flip records of an attack. -/
def recordsOf (a : Attack) : List Record := a.flips.byteMasks.map recordOf

/-- The hammering of flip records, given with the index of the first. -/
def hammeringOf (p : Nat × List Record) : Hammering := ⟨.ofNat p.2.length, .ofNat p.1⟩

/-- The tables hold the hammerings and flip records of the attacks, and all numbers fit their
fields. -/
structure Stores (hammerings : List Hammering) (records : List Record) (as : List Attack) :
    Prop where
  hammerings_eq : hammerings = (withStarts 0 (as.map recordsOf)).map hammeringOf
  records_eq : records = (as.map recordsOf).flatten
  fits : ∀ p ∈ withStarts 0 (as.map recordsOf), p.1 < UInt32.size ∧ p.2.length < UInt32.size
  cellByte_lt : ∀ a ∈ as, ∀ m ∈ a.flips.byteMasks, m.cellByte.toNat < UInt16.size

/-- The image holds the attacks of the stretches, and its distance is that of their targets. -/
structure Describes (img : Image) (ss : List (List Attack)) : Prop where
  stretches : Stretches ss
  ranges_eq : img.ranges = sortOn Range.start (rangesOf ss)
  start_lt : ∀ p ∈ withStarts 0 ss, p.1 < UInt32.size
  stores : Stores img.hammerings img.records ss.flatten
  records_lt : img.records.length < UInt32.size
  targets : ∀ a ∈ ss.flatten,
    a.targets.first.addRows? img.distance.toNat = some a.targets.second

/-- Empty tables store no attacks. -/
theorem Stores.nil : Stores [] [] [] :=
  ⟨rfl, rfl, List.forall_mem_nil _, List.forall_mem_nil _⟩

/-- There is one hammering for each attack. -/
theorem Stores.length_hammerings {hs : List Hammering} {rs : List Record} {as : List Attack}
    (h : Stores hs rs as) : hs.length = as.length := by
  rw [h.hammerings_eq, List.length_map, length_withStarts, List.length_map]

/-- One more attack adds its hammering and its flip records. -/
theorem Stores.append {hs : List Hammering} {rs : List Record} {as : List Attack} {a : Attack}
    (h : Stores hs rs as) (hstart : rs.length < UInt32.size)
    (hcount : (recordsOf a).length < UInt32.size)
    (hbyte : ∀ m ∈ a.flips.byteMasks, m.cellByte.toNat < UInt16.size) :
    Stores (hs ++ [hammeringOf (rs.length, recordsOf a)]) (rs ++ recordsOf a) (as ++ [a]) := by
  obtain ⟨rfl, rfl, hfits, hbytes⟩ := h
  have hstarts : withStarts 0 ((as ++ [a]).map recordsOf) =
      withStarts 0 (as.map recordsOf) ++ [((as.map recordsOf).flatten.length, recordsOf a)] := by
    rw [List.map_append, withStarts_append, Nat.zero_add]
    rfl
  refine ⟨?_, ?_, ?_, ?_⟩
  · rw [hstarts, List.map_append]
    rfl
  · rw [List.map_append, List.flatten_append]
    simp
  · intro p hp
    rw [hstarts] at hp
    rcases List.mem_append.1 hp with hp | hp
    · exact hfits p hp
    · rw [List.mem_singleton.1 hp]
      exact ⟨hstart, hcount⟩
  · intro b hb
    rcases List.mem_append.1 hb with hb | hb
    · exact hbytes b hb
    · rwa [List.mem_singleton.1 hb]

/-! ### Numbers that fit -/

/-- A count below 2³² is accepted. -/
theorem count32_of_lt {n : Nat} (h : n < UInt32.size) (what : Counted) :
    count32 what n = .ok (.ofNat n) :=
  if_pos h

/-- Only such counts are accepted, and none is changed. -/
theorem count32_eq_ok {what : Counted} {n : Nat} {x : UInt32} :
    count32 what n = .ok x ↔ n < UInt32.size ∧ x = .ofNat n := by
  rw [count32]
  split
  · rename_i h
    rw [Except.ok.injEq, eq_comm]
    exact (and_iff_right h).symm
  · rename_i h
    exact ⟨nofun, fun hn => absurd hn.1 h⟩

/-- A record is made of a mask exactly if its byte of the cell fits 16 bits. -/
theorem Record.ofMask_eq_ok {m : ByteMask} {r : Record} :
    Record.ofMask m = .ok r ↔ m.cellByte.toNat < UInt16.size ∧ recordOf m = r := by
  rw [Record.ofMask]
  split
  · rename_i h
    rw [Except.ok.injEq]
    exact (and_iff_right h).symm
  · rename_i h
    exact ⟨nofun, fun hm => absurd hm.1 h⟩

/-- The records of byte masks can be made exactly if the number of each byte fits its field. -/
theorem mapM_ofMask_eq_ok {ms : List ByteMask} {rs : List Record} :
    ms.mapM Record.ofMask = .ok rs ↔
      (∀ m ∈ ms, m.cellByte.toNat < UInt16.size) ∧ rs = ms.map recordOf := by
  rw [mapM_eq_ok]
  simp only [Record.ofMask_eq_ok, List.forall₂_and_left]
  refine and_congr_right ?_
  intro _
  rw [← List.forall₂_map_left_iff, List.forall₂_eq_eq_eq, eq_comm]

namespace Builder

variable {b b' : Builder} {ss : List (List Attack)} {a : Attack}

/-! ### One attack -/

/-- The distance of targets is the one known, or else their own, and leads from the first to the
second. -/
theorem checkTargets_eq_ok {t : Targets} {d : UInt32} :
    b.checkTargets t = .ok d ↔
      (b.distance = some d ∨ b.distance = none ∧ distanceOf t = .ok d) ∧
        t.first.addRows? d.toNat = some t.second := by
  have hrows (d' : UInt32) :
      (if t.first.addRows? d'.toNat = some t.second then pure d'
        else throw (.inconsistent t d') : Except TargetFault UInt32) = .ok d ↔
      d' = d ∧ t.first.addRows? d.toNat = some t.second := by
    split
    · rename_i h
      constructor
      · rintro ⟨⟩
        exact ⟨rfl, h⟩
      · rintro ⟨rfl, -⟩
        rfl
    · rename_i h
      refine ⟨nofun, ?_⟩
      rintro ⟨rfl, h'⟩
      exact absurd h' h
  rw [checkTargets]
  cases b.distance with
  | none => simp only [bind_eq_ok, hrows]; grind
  | some d' => simp only [pure_bind, hrows]; grind

/-- The ranges closed so far and the range that is open are those of the stretches. -/
def Opened (closed : List Range) : Option (Range × Address) → List (List Attack) → Prop
  | none, ss => closed = [] ∧ ss = []
  | some (r, last), ss => ∃ before s a, ss = before ++ [s ++ [a]] ∧ closed = rangesOf before ∧
      r = rangeOf (before.flatten.length, s ++ [a]) ∧ last = a.targets.first

/-- The builder has the ranges of the stretches. -/
structure Ranged (b : Builder) (ss : List (List Attack)) : Prop where
  stretches : Stretches ss
  start_lt : ∀ p ∈ withStarts 0 ss, p.1 < UInt32.size
  opened : Opened b.closed.toList b.open? ss

/-- All ranges, in the order they were opened, are those of the stretches. -/
theorem Ranged.ranges_eq (h : b.Ranged ss) : b.ranges = rangesOf ss := by
  have hopened := h.opened
  rw [ranges]
  cases ho : b.open? with
  | none =>
    rw [ho] at hopened
    obtain ⟨hclosed, rfl⟩ := hopened
    rw [hclosed]
    rfl
  | some o =>
    rw [ho] at hopened
    obtain ⟨before, s, a, rfl, hclosed, hr, -⟩ := hopened
    rw [hclosed, rangesOf_append, Option.map_some, hr]
    rfl

/-- One more attack lengthens the last stretch or opens one. -/
theorem extend_spec (h : b.Ranged ss) (hsize : b.hammerings.size = ss.flatten.length)
    (hextend : b.extend a.targets.first = .ok b') :
    (∃ ss', ss'.flatten = ss.flatten ++ [a] ∧ b'.Ranged ss') ∧
      b' = { b with closed := b'.closed, open? := b'.open? } := by
  obtain ⟨hstretches, hstart, hopened⟩ := h
  have hstart' (hlt : b.hammerings.size < UInt32.size) :
      ∀ p ∈ withStarts 0 (ss ++ [[a]]), p.1 < UInt32.size :=
    forall_start_append.2 ⟨hstart, hsize ▸ hlt⟩
  have hflatten : (ss ++ [[a]]).flatten = ss.flatten ++ [a] := by simp
  rw [extend] at hextend
  cases ho : b.open? with
  | none =>
    rw [ho] at hopened hextend
    obtain ⟨hclosed, rfl⟩ := hopened
    obtain ⟨i, hi, rfl⟩ := map_eq_ok.1 hextend
    obtain ⟨hlt, rfl⟩ := count32_eq_ok.1 hi
    refine ⟨⟨[[a]], hflatten, ⟨hstretches.open_ nofun, hstart' hlt, ?_⟩⟩, rfl⟩
    refine ⟨[], [], a, rfl, hclosed, ?_, rfl⟩
    rw [hsize]
    rfl
  | some o =>
    obtain ⟨r, last⟩ := o
    rw [ho] at hopened hextend
    obtain ⟨before, s, x, rfl, hclosed, rfl, rfl⟩ := hopened
    simp only at hextend
    split at hextend
    · rename_i hfollows
      cases hextend
      refine ⟨⟨before ++ [s ++ [x] ++ [a]], by simp, ⟨hstretches.lengthen hfollows, ?_, ?_⟩⟩, rfl⟩
      · exact forall_start_append.2 (forall_start_append.1 hstart)
      · exact ⟨before, s ++ [x], a, rfl, hclosed, rangeOf_lengthen _ s x a, rfl⟩
    · rename_i hfollows
      obtain ⟨i, hi, rfl⟩ := map_eq_ok.1 hextend
      obtain ⟨hlt, rfl⟩ := count32_eq_ok.1 hi
      refine ⟨⟨_, hflatten, ⟨hstretches.open_ ?_, hstart' hlt, ?_⟩⟩, rfl⟩
      · intro t ht c hc
        obtain rfl : s ++ [x] = t := by simpa using ht
        obtain rfl : x = c := by simpa using hc
        exact hfollows
      · refine ⟨before ++ [s ++ [x]], [], a, rfl, ?_, ?_, rfl⟩
        · rw [rangesOf_append, Array.toList_push, hclosed]
          rfl
        · rw [hsize]
          rfl

/-- One more attack adds a hammering and its flip records. -/
theorem addFlips_spec {as : List Attack}
    (h : Stores b.hammerings.toList b.records.toList as) (hadd : b.addFlips a.flips = .ok b') :
    Stores b'.hammerings.toList b'.records.toList (as ++ [a]) ∧
      b' = { b with hammerings := b'.hammerings, records := b'.records } := by
  obtain ⟨records, hrecords, hadd⟩ := bind_eq_ok.1 hadd
  obtain ⟨count, hcount, hadd⟩ := bind_eq_ok.1 hadd
  obtain ⟨first, hfirst, hadd⟩ := bind_eq_ok.1 hadd
  cases hadd
  obtain ⟨hbyte, rfl⟩ := mapM_ofMask_eq_ok.1 hrecords
  obtain ⟨hcount_lt, rfl⟩ := count32_eq_ok.1 hcount
  obtain ⟨hfirst_lt, rfl⟩ := count32_eq_ok.1 hfirst
  refine ⟨?_, rfl⟩
  rw [Array.toList_push, Array.toList_appendList, ← Array.length_toList]
  exact h.append hfirst_lt hcount_lt hbyte

/-- The builder has taken in the attacks of the stretches. -/
structure Holds (b : Builder) (ss : List (List Attack)) : Prop where
  ranged : b.Ranged ss
  stores : Stores b.hammerings.toList b.records.toList ss.flatten
  targets : ∀ a ∈ ss.flatten, ∃ d, b.distance = some d ∧
    a.targets.first.addRows? d.toNat = some a.targets.second

/-- Taking in one more attack keeps the invariant. -/
theorem Holds.add (h : b.Holds ss) (hadd : b.add a = .ok b') :
    ∃ ss', ss'.flatten = ss.flatten ++ [a] ∧ b'.Holds ss' := by
  obtain ⟨d, hcheck, hadd⟩ := bind_eq_ok.1 hadd
  obtain ⟨hdistance, hrows⟩ := checkTargets_eq_ok.1 (mapError_eq_ok.1 hcheck)
  obtain ⟨b₁, hextend, hadd⟩ := bind_eq_ok.1 hadd
  obtain ⟨b₂, hflips, hadd⟩ := bind_eq_ok.1 hadd
  cases hadd
  have hsize : b.hammerings.size = ss.flatten.length := by
    rw [← Array.length_toList, h.stores.length_hammerings]
  obtain ⟨⟨ss', hflatten, hranged⟩, hb₁⟩ :=
    extend_spec h.ranged hsize (mapError_eq_ok.1 hextend)
  have hstores : Stores b₁.hammerings.toList b₁.records.toList ss.flatten := by
    rw [hb₁]
    exact h.stores
  obtain ⟨hstores', hb₂⟩ := addFlips_spec hstores (mapError_eq_ok.1 hflips)
  refine ⟨ss', hflatten, ⟨?_, hflatten ▸ hstores', fun c hc => ⟨d, rfl, ?_⟩⟩⟩
  · obtain ⟨hstretches, hstart, hopened⟩ := hranged
    refine ⟨hstretches, hstart, ?_⟩
    rw [hb₂]
    exact hopened
  · rw [hflatten] at hc
    rcases List.mem_append.1 hc with hc | hc
    · -- A distance was known before, and it has not changed.
      obtain ⟨d', hd', hrows'⟩ := h.targets c hc
      rcases hdistance with hd | ⟨hd, -⟩
      · obtain rfl : d' = d := Option.some.inj (hd'.symm.trans hd)
        exact hrows'
      · rw [hd] at hd'
        cases hd'
    · rw [List.mem_singleton.1 hc]
      exact hrows

/-- Taking in attacks one after the other keeps the invariant. -/
theorem Holds.foldlM {as : List Attack} (h : b.Holds ss)
    (hadd : as.foldlM Builder.add b = .ok b') :
    ∃ ss', ss'.flatten = ss.flatten ++ as ∧ b'.Holds ss' := by
  induction as generalizing b ss with
  | nil =>
    cases hadd
    exact ⟨ss, (List.append_nil _).symm, h⟩
  | cons a as ih =>
    rw [List.foldlM_cons] at hadd
    obtain ⟨b₁, hadd₁, hadd⟩ := bind_eq_ok.1 hadd
    obtain ⟨ss₁, hflatten₁, h₁⟩ := h.add hadd₁
    obtain ⟨ss', hflatten, h'⟩ := ih h₁ hadd
    refine ⟨ss', ?_, h'⟩
    rw [hflatten, hflatten₁, List.append_assoc]
    rfl

/-- A builder that has seen nothing holds no attacks. -/
theorem holds_start (distance : Option UInt32) : (start distance).Holds [] :=
  ⟨⟨.nil, List.forall_mem_nil _, rfl, rfl⟩, .nil, List.forall_mem_nil _⟩

end Builder

/-- **An image made of attacks holds them**, stretch by stretch and hammering by hammering. -/
theorem describes_of_ofAttacks {as : List Attack} {distance : Option UInt32} {img : Image}
    (h : ofAttacks as distance = .ok img) : ∃ ss, ss.flatten = as ∧ img.Describes ss := by
  obtain ⟨b, hfold, hfinish⟩ := bind_eq_ok.1 h
  obtain ⟨ss, hflatten, ⟨hranged, hstores, htargets⟩⟩ :=
    (Builder.holds_start distance).foldlM hfold
  obtain ⟨n, hn, hfinish⟩ := bind_eq_ok.1 (mapError_eq_ok.1 hfinish)
  cases hfinish
  have hrecords := (count32_eq_ok.1 hn).1
  refine ⟨ss, hflatten, hranged.stretches, ?_, hranged.start_lt, hstores, hrecords, ?_⟩
  · rw [← hranged.ranges_eq]
  · intro a ha
    obtain ⟨d, hd, hrows⟩ := htargets a ha
    rw [hd]
    exact hrows

end RowFlips.Image
