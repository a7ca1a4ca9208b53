import RowFlips.Proofs.Image.Build

/-!
# The distance of an image

How many rows apart the targets of an image are may be asked for, or it is found in the first
attack. Either way all attacks must have their targets so far apart, so asking for what would be
found, and finding what was asked for, make the same image. Only without attacks does it matter:
then nothing is found.

## Main results

* `addRows?_of_ofAttacks`: the distance of an image leads from the first target of each attack to
  the second.
* `ofAttacks_none_eq`: finding the distance makes the image that is made by asking for it.
-/

namespace RowFlips

/-- Targets are as many rows apart as lead from the first to the second, and a bank has fewer rows
than a distance may be asked for. -/
theorem Targets.distance_of_addRows? {t : Targets} {rows : Nat}
    (h : t.first.addRows? rows = some t.second) : t.distance = rows ∧ rows < UInt16.size := by
  obtain ⟨-, -, hrow⟩ := Address.addRows?_eq_some_iff.1 h
  have hlt := t.second.row.toNat_lt
  rw [distance, Address.rowsFrom, UInt16.size]
  omega

namespace Image

variable {a : Attack} {as : List Attack} {d : UInt32} {img : Image}

/-- Targets that are `d` rows apart have the distance `d`. -/
theorem distanceOf_of_addRows? {t : Targets} (h : t.first.addRows? d.toNat = some t.second) :
    distanceOf t = .ok d := by
  have hdistance := (Targets.distance_of_addRows? h).1
  rw [distanceOf, hdistance, if_neg (by omega), Int.toNat_natCast, UInt32.ofNat_toNat]

namespace Builder

/-- The builder with another distance known. -/
def withDistance (b : Builder) (distance : Option UInt32) : Builder := { b with distance }

/-- Ranges do not depend on the distance. -/
theorem extend_withDistance (b : Builder) (distance : Option UInt32) (first : Address) :
    (b.withDistance distance).extend first =
      (b.extend first).map (·.withDistance distance) := by
  obtain ⟨_, _ | ⟨r, last⟩, closed, hammerings, records⟩ := b
  · simp only [withDistance, extend]
    cases count32 .hammerings hammerings.size <;> rfl
  · simp only [withDistance, extend]
    split
    · rfl
    · cases count32 .hammerings hammerings.size <;> rfl

/-- Hammerings and flip records do not depend on the distance. -/
theorem addFlips_withDistance (b : Builder) (distance : Option UInt32) (flips : FlipSet) :
    (b.withDistance distance).addFlips flips =
      (b.addFlips flips).map (·.withDistance distance) := by
  simp only [addFlips, withDistance]
  cases flips.byteMasks.mapM Record.ofMask with
  | error e => rfl
  | ok records =>
    simp only [bind, Except.bind]
    cases count32 .flipRecords records.length with
    | error e => rfl
    | ok count => cases count32 .flipRecords b.records.size <;> rfl

/-- The distance known matters to an attack only through the check of its targets. -/
theorem add_withDistance {b : Builder} {distance : Option UInt32}
    (h : (b.withDistance distance).checkTargets a.targets = b.checkTargets a.targets) :
    (b.withDistance distance).add a = b.add a := by
  rw [add, add, h, extend_withDistance]
  cases b.checkTargets a.targets with
  | error e => rfl
  | ok d =>
    cases b.extend a.targets.first with
    | error e => rfl
    | ok b₁ =>
      simp only [Except.mapError, Except.map, bind, Except.bind, addFlips_withDistance]
      cases b₁.addFlips a.flips <;> rfl

end Builder

/-- Finding the distance makes the image that is made by asking for it, if it is that of the first
attack. -/
theorem ofAttacks_none_eq (h : a.targets.first.addRows? d.toNat = some a.targets.second) :
    ofAttacks (a :: as) none = ofAttacks (a :: as) (some d) := by
  have hfound : (Builder.start none).checkTargets a.targets = .ok d :=
    Builder.checkTargets_eq_ok.2 ⟨Or.inr ⟨rfl, distanceOf_of_addRows? h⟩, h⟩
  have hasked : (Builder.start (some d)).checkTargets a.targets = .ok d :=
    Builder.checkTargets_eq_ok.2 ⟨Or.inl rfl, h⟩
  have hadd : (Builder.start none).add a = (Builder.start (some d)).add a :=
    Builder.add_withDistance (b := Builder.start (some d)) (hfound.trans hasked.symm)
  simp only [ofAttacks, List.foldlM_cons, hadd]

/-- The distance of an image leads from the first target of each attack to the second. -/
theorem addRows?_of_ofAttacks {distance : Option UInt32} (h : ofAttacks as distance = .ok img)
    (ha : a ∈ as) : a.targets.first.addRows? img.distance.toNat = some a.targets.second := by
  obtain ⟨ss, rfl, hss⟩ := describes_of_ofAttacks h
  exact hss.targets a ha

/-- The distance asked for leads from the first target of the first attack to the second. -/
theorem addRows?_of_ofAttacks_some (h : ofAttacks (a :: as) (some d) = .ok img) :
    a.targets.first.addRows? d.toNat = some a.targets.second := by
  obtain ⟨b, hfold, -⟩ := bind_eq_ok.1 h
  rw [List.foldlM_cons] at hfold
  obtain ⟨b₁, hadd, -⟩ := bind_eq_ok.1 hfold
  obtain ⟨d', hcheck, -⟩ := bind_eq_ok.1 hadd
  obtain ⟨hd | ⟨hd, -⟩, hrows⟩ := Builder.checkTargets_eq_ok.1 (mapError_eq_ok.1 hcheck)
  · cases hd
    exact hrows
  · cases hd

end Image

end RowFlips
