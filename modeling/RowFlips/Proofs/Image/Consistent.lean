import RowFlips.Proofs.Image.Distance
import RowFlips.Proofs.Image.Roundtrip

/-!
# Which attacks make an image

Attacks make an image exactly if they are consistent: all have their targets equally far apart, no
flip lies in a byte too far into its cell, and the flips lie in fewer bytes than an image can count.
How far apart targets must be is asked for, or the first attack says it; it may say that its second
target lies below its first, and then not even the first attack is consistent.

Attacks are taken in one after the other, so the first that is not consistent decides the error.

## Main results

* `Builder.exists_add_eq_ok`, `Builder.add_eq_error`: what becomes of one attack.
* `Builder.exists_foldlM_eq_ok`, `Builder.foldlM_eq_error`: what becomes of attacks one after the
  other.
* `outcome_ofAttacks`: which attacks make an image, and why others do not.
-/

namespace RowFlips

/-! ### Consistent attacks -/

/-- The second target lies `d` rows above the first, in the same bank and column. -/
structure Targets.Apart (d : Int) (t : Targets) : Prop where
  nonneg : 0 ≤ d
  sameBank : t.first.SameBank t.second
  col_eq : t.first.col = t.second.col
  row_eq : (t.second.row.toNat : Int) = t.first.row.toNat + d

/-- Targets are `n` rows apart exactly if the second is the address that many rows further. -/
theorem Targets.apart_natCast_iff {n : Nat} {t : Targets} :
    t.Apart n ↔ t.first.addRows? n = some t.second := by
  rw [Address.addRows?_eq_some_iff]
  constructor
  · rintro ⟨-, hbank, hcol, hrow⟩
    exact ⟨hbank, hcol, hrow⟩
  · rintro ⟨hbank, hcol, hrow⟩
    exact ⟨Int.natCast_nonneg n, hbank, hcol, hrow⟩

/-- A bank has fewer rows than a distance may be asked for. -/
theorem Targets.distance_lt (t : Targets) : t.distance < UInt16.size := by
  have := t.second.row.toNat_lt
  rw [distance, Address.rowsFrom, UInt16.size]
  omega

namespace Attack

/-- The attack fits an image with targets `d` rows apart. -/
structure Fits (d : Int) (a : Attack) : Prop where
  apart : a.targets.Apart d
  cellByte_lt : ∀ f ∈ a.flips, f.cellByte.toNat < UInt16.size

/-- Why the attack does not fit an image with targets `d` rows apart. Its targets come before its
flips. -/
inductive Unfit (d : Int) (a : Attack) : Error → Prop
  | negative (hd : d < 0) : Unfit d a (.targets none (.negative a.targets))
  | inconsistent (hd : 0 ≤ d) (htargets : ¬a.targets.Apart d) :
    Unfit d a (.targets none (.inconsistent a.targets (.ofNat d.toNat)))
  | cellByte {byte : UInt32} (htargets : a.targets.Apart d)
    (hbyte : (a.flips.toList.map Flip.cellByte).find? (UInt16.size ≤ ·.toNat) = some byte) :
    Unfit d a (.image (.cellByte byte))

variable {d : Int} {a : Attack} {e : Error}

/-- All flips lie in bytes near enough exactly if none is the first that does not. -/
theorem find?_cellByte_eq_none :
    (a.flips.toList.map Flip.cellByte).find? (UInt16.size ≤ ·.toNat) = none ↔
      ∀ f ∈ a.flips, f.cellByte.toNat < UInt16.size := by
  simp only [List.find?_eq_none, List.forall_mem_map, decide_eq_true_eq, Nat.not_le]
  rfl

/-- There is an error to name for an attack exactly if it does not fit. -/
theorem exists_unfit_iff : (∃ e, a.Unfit d e) ↔ ¬a.Fits d := by
  constructor
  · rintro ⟨e, hd | ⟨hd, htargets⟩ | ⟨htargets, hbyte⟩⟩ ⟨hfits, hbytes⟩
    · exact absurd hfits.nonneg (by omega)
    · exact htargets hfits
    · rw [find?_cellByte_eq_none.2 hbytes] at hbyte
      cases hbyte
  · intro hfits
    by_cases htargets : a.targets.Apart d
    · cases hbyte : (a.flips.toList.map Flip.cellByte).find? (UInt16.size ≤ ·.toNat) with
      | none => exact absurd ⟨htargets, find?_cellByte_eq_none.1 hbyte⟩ hfits
      | some byte => exact ⟨_, .cellByte htargets hbyte⟩
    · rcases Int.lt_or_le d 0 with hd | hd
      · exact ⟨_, .negative hd⟩
      · exact ⟨_, .inconsistent hd htargets⟩

end Attack

namespace Image

variable {d : Int} {a : Attack} {as : List Attack} {e : Error} {img : Image}

/-- The error is that of the first attack that does not fit. -/
def FirstUnfit (d : Int) (as : List Attack) (e : Error) : Prop :=
  ∃ before a behind, as = before ++ a :: behind ∧ (∀ b ∈ before, b.Fits d) ∧ a.Unfit d e

/-- Unless all attacks fit there is a first that does not. -/
theorem exists_firstUnfit_iff : (∃ e, FirstUnfit d as e) ↔ ¬∀ a ∈ as, a.Fits d := by
  constructor
  · rintro ⟨e, before, a, behind, rfl, -, ha⟩ h
    exact Attack.exists_unfit_iff.1 ⟨e, ha⟩ (h a (by simp))
  · intro h
    induction as with
    | nil => exact absurd (List.forall_mem_nil _) h
    | cons a as ih =>
      by_cases ha : a.Fits d
      · obtain ⟨e, before, b, behind, rfl, hbefore, hb⟩ :=
          ih fun has => h (List.forall_mem_cons.2 ⟨ha, has⟩)
        exact ⟨e, a :: before, b, behind, rfl, List.forall_mem_cons.2 ⟨ha, hbefore⟩, hb⟩
      · obtain ⟨e, he⟩ := Attack.exists_unfit_iff.2 ha
        exact ⟨e, [], a, as, rfl, List.forall_mem_nil _, he⟩

/-- The bytes that have a flip in some attack, counted anew for each attack. -/
def bytesOf (as : List Attack) : List (Address × UInt32) := as.flatMap fun a => a.flips.bytes

/-- How many rows apart targets must be: as many as asked for, or else as those of the first
attack. -/
def distanceFor (distance : Option UInt32) (first : Attack) : Int :=
  match distance with
  | some d => d.toNat
  | none => first.targets.distance

/-! ### One attack -/

/-- An attack has one record for each byte that its flips touch. -/
theorem length_recordsOf (a : Attack) : (recordsOf a).length = a.flips.bytes.length := by
  rw [recordsOf, List.length_map, FlipSet.length_byteMasks]

/-- No record is made of a mask whose byte of the cell takes more than 16 bits. -/
theorem Record.ofMask_eq_error {m : ByteMask} {e : ImageFault} :
    Record.ofMask m = .error e ↔ UInt16.size ≤ m.cellByte.toNat ∧ e = .cellByte m.cellByte := by
  rw [Record.ofMask]
  split
  · rename_i h
    exact iff_of_false error_ne_ok.symm fun h' => absurd h (Nat.not_lt.2 h'.1)
  · rename_i h
    rw [Except.error.injEq, eq_comm]
    exact (and_iff_right (Nat.not_lt.1 h)).symm

/-- Byte masks that do not fit fail as the first one does. -/
theorem mapM_ofMask_eq_error {ms : List ByteMask} {e : ImageFault} :
    ms.mapM Record.ofMask = .error e ↔ ∃ byte,
      (ms.map ByteMask.cellByte).find? (UInt16.size ≤ ·.toNat) = some byte ∧
        e = .cellByte byte := by
  induction ms with
  | nil => simp [pure, Except.pure]
  | cons m ms ih =>
    rw [List.mapM_cons, List.map_cons]
    by_cases hm : m.cellByte.toNat < UInt16.size
    · rw [Record.ofMask_eq_ok.2 ⟨hm, rfl⟩, List.find?_cons_of_neg (by simpa using hm), ← ih]
      cases ms.mapM Record.ofMask with
      | error e' => rfl
      | ok rs => exact iff_of_false nofun nofun
    · have hm := Nat.not_lt.1 hm
      rw [Record.ofMask_eq_error.2 ⟨hm, rfl⟩, List.find?_cons_of_pos (by simpa using hm)]
      constructor
      · rintro ⟨⟩
        exact ⟨_, rfl, rfl⟩
      · rintro ⟨_, ⟨⟩, rfl⟩
        rfl

namespace Builder

variable {b : Builder}

/-- The builder asks for targets `d` rows apart, or will once it has the first of the attacks. -/
def Expects (b : Builder) (d : Int) (as : List Attack) : Prop :=
  match b.distance with
  | some d' => d = d'.toNat
  | none => ∀ a ∈ as.head?, d = a.targets.distance

/-- A builder that has seen nothing expects the distance asked for, or else that of the first
attack. -/
theorem expects_start (distance : Option UInt32) (a : Attack) (as : List Attack) :
    (start distance).Expects (distanceFor distance a) (a :: as) := by
  cases distance with
  | none =>
    rintro _ ⟨⟩
    rfl
  | some d => rfl

/-- Targets are checked against the distance known, or else against their own. -/
theorem checkTargets_eq (b : Builder) (t : Targets) :
    b.checkTargets t = (b.distance.elim (distanceOf t) Except.ok >>= fun d =>
      if t.first.addRows? d.toNat = some t.second then .ok d else .error (.inconsistent t d)) := by
  rw [checkTargets]
  cases b.distance <;> rfl

/-- If the distance expected is negative, no targets have it. -/
theorem checkTargets_of_neg (h : b.Expects d (a :: as)) (hd : d < 0) :
    b.checkTargets a.targets = .error (.negative a.targets) := by
  rw [Expects] at h
  rw [checkTargets_eq]
  cases hb : b.distance with
  | some d' =>
    rw [hb] at h
    have hd' : d = d'.toNat := h
    omega
  | none =>
    rw [hb] at h
    have hdistance : d = a.targets.distance := h a rfl
    have hfound : distanceOf a.targets = .error (.negative a.targets) :=
      if_pos (hdistance ▸ hd)
    rw [Option.elim_none, hfound, error_bind]

/-- Else targets are compared with the distance expected, which is known from then on. -/
theorem checkTargets_of_nonneg (h : b.Expects d (a :: as)) (hd : 0 ≤ d) :
    ∃ d' : UInt32, d = d'.toNat ∧ b.checkTargets a.targets =
      if a.targets.first.addRows? d'.toNat = some a.targets.second then .ok d'
      else .error (.inconsistent a.targets d') := by
  rw [Expects] at h
  rw [checkTargets_eq]
  cases hb : b.distance with
  | some d' =>
    rw [hb] at h
    refine ⟨d', h, ?_⟩
    rw [Option.elim_some, ok_bind]
  | none =>
    rw [hb] at h
    have hdistance : d = a.targets.distance := h a rfl
    have hfound : distanceOf a.targets = .ok (.ofNat d.toNat) := by
      rw [distanceOf, ← hdistance, if_neg (by omega)]
    have hlt := a.targets.distance_lt
    rw [UInt16.size] at hlt
    have hlt' : d.toNat < UInt32.size := by
      rw [UInt32.size]
      omega
    refine ⟨.ofNat d.toNat, ?_, ?_⟩
    · rw [UInt32.toNat_ofNat_of_lt' hlt', Int.toNat_of_nonneg hd]
    · rw [Option.elim_none, hfound, ok_bind]

/-- Another attack can always be put into the ranges while hammerings can be counted. -/
theorem exists_extend_eq_ok (h : b.hammerings.size < UInt32.size) (first : Address) :
    ∃ b', b.extend first = .ok b' ∧ b'.hammerings = b.hammerings ∧ b'.records = b.records := by
  rw [extend, count32_of_lt h]
  cases b.open? with
  | none => exact ⟨_, rfl, rfl, rfl⟩
  | some o =>
    simp only
    split
    · exact ⟨_, rfl, rfl, rfl⟩
    · exact ⟨_, rfl, rfl, rfl⟩

/-- Adding flips is making their records, while flip records can be counted. -/
theorem addFlips_of_lt {flips : FlipSet} (h : b.records.size + flips.bytes.length < UInt32.size) :
    b.addFlips flips = (flips.byteMasks.mapM Record.ofMask).map fun records => { b with
      hammerings := b.hammerings.push ⟨.ofNat records.length, .ofNat b.records.size⟩
      records := b.records ++ records } := by
  rw [addFlips]
  cases hrecords : flips.byteMasks.mapM Record.ofMask with
  | error e => rfl
  | ok records =>
    have hlength : records.length = flips.bytes.length := by
      rw [(mapM_ofMask_eq_ok.1 hrecords).2, List.length_map, FlipSet.length_byteMasks]
    have hcount : records.length < UInt32.size := by omega
    have hfirst : b.records.size < UInt32.size := by omega
    rw [ok_bind, count32_of_lt hcount, ok_bind, count32_of_lt hfirst, ok_bind]
    rfl

/-- Flips are added if their bytes fit their fields and their records fit the table. -/
theorem exists_addFlips_eq_ok {flips : FlipSet}
    (h : b.records.size + flips.bytes.length < UInt32.size)
    (hflips : ∀ f ∈ flips, f.cellByte.toNat < UInt16.size) :
    ∃ b', b.addFlips flips = .ok b' ∧ b'.hammerings.size = b.hammerings.size + 1 ∧
      b'.records.size = b.records.size + flips.bytes.length := by
  have hmasks : ∀ m ∈ flips.byteMasks, m.cellByte.toNat < UInt16.size := by
    intro m hm
    obtain ⟨f, hf, -, hbyte⟩ := ByteMask.exists_covers_of_mem_group hm
    exact hbyte ▸ hflips f hf
  rw [addFlips_of_lt h, mapM_ofMask_eq_ok.2 ⟨hmasks, rfl⟩]
  refine ⟨_, rfl, Array.size_push _, ?_⟩
  rw [← FlipSet.length_byteMasks, ← Array.length_toList, Array.toList_appendList,
    List.length_append, List.length_map, Array.length_toList]

/-- An attack that fits can be added, while there is room for it. -/
theorem exists_add_eq_ok (h : b.Expects d (a :: as)) (hhammerings : b.hammerings.size < UInt32.size)
    (hrecords : b.records.size + a.flips.bytes.length < UInt32.size) (ha : a.Fits d) :
    ∃ b', b.add a = .ok b' ∧ b'.Expects d as ∧ b'.hammerings.size = b.hammerings.size + 1 ∧
      b'.records.size = b.records.size + a.flips.bytes.length := by
  obtain ⟨htargets, hflips⟩ := ha
  obtain ⟨d', rfl, hcheck⟩ := checkTargets_of_nonneg h htargets.nonneg
  rw [if_pos (Targets.apart_natCast_iff.1 htargets)] at hcheck
  obtain ⟨b₁, hextend, hhammerings₁, hrecords₁⟩ := exists_extend_eq_ok hhammerings a.targets.first
  rw [← hrecords₁] at hrecords ⊢
  rw [← hhammerings₁]
  obtain ⟨b₂, hadd, hhammerings₂, hrecords₂⟩ := exists_addFlips_eq_ok hrecords hflips
  refine ⟨{ b₂ with distance := some d' }, ?_, rfl, hhammerings₂, hrecords₂⟩
  rw [add, hcheck, hextend]
  simp only [Except.mapError, ok_bind, hadd]
  rfl

/-- An attack that does not fit cannot be added, while there is room for it. -/
theorem add_eq_error (h : b.Expects d (a :: as)) (hhammerings : b.hammerings.size < UInt32.size)
    (hrecords : b.records.size + a.flips.bytes.length < UInt32.size) (ha : a.Unfit d e) :
    b.add a = .error e := by
  cases ha with
  | negative hd =>
    rw [add, checkTargets_of_neg h hd]
    rfl
  | inconsistent hd htargets =>
    obtain ⟨d', rfl, hcheck⟩ := checkTargets_of_nonneg h hd
    rw [if_neg (Targets.apart_natCast_iff.not.1 htargets)] at hcheck
    rw [add, hcheck, Int.toNat_natCast, UInt32.ofNat_toNat]
    rfl
  | @cellByte byte htargets hbyte =>
    obtain ⟨d', rfl, hcheck⟩ := checkTargets_of_nonneg h htargets.nonneg
    rw [if_pos (Targets.apart_natCast_iff.1 htargets)] at hcheck
    obtain ⟨b₁, hextend, -, hrecords₁⟩ := exists_extend_eq_ok hhammerings a.targets.first
    rw [← hrecords₁] at hrecords
    rw [← ByteMask.find?_map_cellByte_group] at hbyte
    have hadd : b₁.addFlips a.flips = .error (.cellByte byte) := by
      rw [addFlips_of_lt hrecords, FlipSet.byteMasks, mapM_ofMask_eq_error.2 ⟨_, hbyte, rfl⟩]
      rfl
    rw [add, hcheck, hextend]
    simp only [Except.mapError, ok_bind, hadd, error_bind]

/-! ### All attacks -/

/-- Attacks that fit can be added one after the other, while there is room for them. -/
theorem exists_foldlM_eq_ok (h : b.Expects d as)
    (hhammerings : b.hammerings.size + as.length ≤ UInt32.size)
    (hrecords : b.records.size + (bytesOf as).length < UInt32.size) (has : ∀ a ∈ as, a.Fits d) :
    ∃ b', as.foldlM add b = .ok b' ∧ b'.records.size = b.records.size + (bytesOf as).length := by
  induction as generalizing b with
  | nil => exact ⟨b, rfl, rfl⟩
  | cons a as ih =>
    obtain ⟨ha, has⟩ := List.forall_mem_cons.1 has
    rw [List.length_cons] at hhammerings
    rw [bytesOf, List.flatMap_cons, List.length_append, ← bytesOf] at hrecords ⊢
    obtain ⟨b₁, hadd, h₁, hhammerings₁, hrecords₁⟩ :=
      exists_add_eq_ok h (by omega) (by omega) ha
    obtain ⟨b', hfold, hrecords'⟩ := ih h₁ (by omega) (by omega) has
    exact ⟨b', by rw [List.foldlM_cons, hadd, ok_bind, hfold], by omega⟩

/-- The first attack that does not fit is where adding attacks ends, while there is room for all. -/
theorem foldlM_eq_error (h : b.Expects d as)
    (hhammerings : b.hammerings.size + as.length ≤ UInt32.size)
    (hrecords : b.records.size + (bytesOf as).length < UInt32.size) (has : FirstUnfit d as e) :
    as.foldlM add b = .error e := by
  obtain ⟨before, a, behind, rfl, hbefore, ha⟩ := has
  -- Each attack before it is added, and leaves room for those behind.
  induction before generalizing b with
  | nil =>
    rw [List.nil_append, bytesOf, List.flatMap_cons, List.length_append] at hrecords
    rw [List.nil_append, List.length_cons] at hhammerings
    rw [List.nil_append, List.foldlM_cons, add_eq_error h (by omega) (by omega) ha, error_bind]
  | cons c before ih =>
    obtain ⟨hc, hbefore⟩ := List.forall_mem_cons.1 hbefore
    rw [List.cons_append] at h hhammerings hrecords ⊢
    rw [List.length_cons] at hhammerings
    rw [bytesOf, List.flatMap_cons, List.length_append, ← bytesOf] at hrecords
    obtain ⟨b₁, hadd, h₁, hhammerings₁, hrecords₁⟩ :=
      exists_add_eq_ok h (by omega) (by omega) hc
    rw [List.foldlM_cons, hadd, ok_bind, ih h₁ (by omega) (by omega) hbefore]

end Builder

variable {distance : Option UInt32}

/-- The records of an image are for the bytes that have a flip. -/
theorem Describes.length_records {ss : List (List Attack)} (h : img.Describes ss) :
    img.records.length = (bytesOf ss.flatten).length := by
  rw [h.stores.records_eq, bytesOf, List.length_flatten, List.length_flatMap, List.map_map]
  exact congrArg List.sum (List.map_congr_left fun a _ => length_recordsOf a)

/-- The flips of attacks that make an image touch fewer than 2³² bytes of cells. -/
theorem length_bytesOf_lt (h : ofAttacks as distance = .ok img) :
    (bytesOf as).length < UInt32.size := by
  obtain ⟨ss, rfl, hss⟩ := describes_of_ofAttacks h
  rw [← hss.length_records]
  exact hss.records_lt

/-- Of no attacks an image without records is made. -/
theorem ofAttacks_nil (distance : Option UInt32) :
    ofAttacks [] distance = .ok ⟨distance.getD 0, [], [], []⟩ := by
  have hsort : sortOn Range.start [] = [] := sortOn_of_ascending .nil
  have hfinish : ofAttacks [] distance =
      .ok ⟨distance.getD 0, sortOn Range.start [], [], []⟩ := rfl
  rw [hfinish, hsort]

/-- Attacks that fit make an image even if there are as many as a count cannot hold, for the last
one is not counted before it is added. -/
theorem exists_ofAttacks_of_length_le (hlength : (a :: as).length ≤ UInt32.size)
    (hbytes : (bytesOf (a :: as)).length < UInt32.size)
    (hfits : ∀ b ∈ a :: as, b.Fits (distanceFor distance a)) :
    ∃ img, ofAttacks (a :: as) distance = .ok img := by
  have hroom : (Builder.start distance).hammerings.size + (a :: as).length ≤ UInt32.size :=
    (Nat.zero_add _).trans_le hlength
  have hroom' : (Builder.start distance).records.size + (bytesOf (a :: as)).length < UInt32.size :=
    (Nat.zero_add _).trans_lt hbytes
  obtain ⟨b, hfold, hsize⟩ := Builder.exists_foldlM_eq_ok
    (Builder.expects_start distance a as) hroom hroom' hfits
  rw [← hsize] at hroom'
  obtain ⟨img, hfinish⟩ : ∃ img, b.finish = .ok img := by
    rw [Builder.finish, count32_of_lt hroom', ok_bind]
    exact ⟨_, rfl⟩
  exact ⟨img, by rw [ofAttacks, hfold, ok_bind, hfinish]; rfl⟩

/-- An image is made of attacks that all fit the one distance. -/
theorem exists_ofAttacks_eq_ok (hlength : (a :: as).length < UInt32.size)
    (hbytes : (bytesOf (a :: as)).length < UInt32.size)
    (hfits : ∀ b ∈ a :: as, b.Fits (distanceFor distance a)) :
    ∃ img, ofAttacks (a :: as) distance = .ok img :=
  exists_ofAttacks_of_length_le (Nat.le_of_lt hlength) hbytes hfits

/-- Else making it fails as for the first attack that does not fit. -/
theorem ofAttacks_eq_error (hlength : (a :: as).length < UInt32.size)
    (hbytes : (bytesOf (a :: as)).length < UInt32.size)
    (hunfit : FirstUnfit (distanceFor distance a) (a :: as) e) :
    ofAttacks (a :: as) distance = .error e := by
  have hfold := Builder.foldlM_eq_error (Builder.expects_start distance a as)
    ((Nat.zero_add _).trans_le (Nat.le_of_lt hlength)) ((Nat.zero_add _).trans_lt hbytes) hunfit
  rw [ofAttacks, hfold, error_bind]

/-- Attacks of an image fit. -/
theorem fits_of_ofAttacks (hlength : (a :: as).length < UInt32.size)
    (h : ofAttacks (a :: as) distance = .ok img) :
    ∀ b ∈ a :: as, b.Fits (distanceFor distance a) := by
  by_contra hfits
  obtain ⟨e, hunfit⟩ := exists_firstUnfit_iff.2 hfits
  rw [ofAttacks_eq_error hlength (length_bytesOf_lt h) hunfit] at h
  cases h

/-- There is no other error, as long as there are fewer than 2³² attacks and records. -/
theorem ofAttacks_eq_error_iff (hlength : (a :: as).length < UInt32.size)
    (hbytes : (bytesOf (a :: as)).length < UInt32.size) :
    ofAttacks (a :: as) distance = .error e ↔
      FirstUnfit (distanceFor distance a) (a :: as) e := by
  refine ⟨fun he => ?_, ofAttacks_eq_error hlength hbytes⟩
  have hfits : ¬∀ b ∈ a :: as, b.Fits (distanceFor distance a) := by
    intro hfits
    obtain ⟨img, himg⟩ := exists_ofAttacks_eq_ok hlength hbytes hfits
    rw [himg] at he
    cases he
  obtain ⟨e', hunfit⟩ := exists_firstUnfit_iff.2 hfits
  rw [ofAttacks_eq_error hlength hbytes hunfit] at he
  cases he
  exact hunfit

/-- **Attacks make an image exactly if they are consistent, and else fail as the first that is
not.** Without attacks there always is an image, with the `distance` that was asked for or 0.
Attacks of which there is a `first` make one exactly if each of them `Fits` the `distanceFor` them,
which is the one asked for or else that of `first`, and if `bytesOf` them, the bytes with a flip,
are fewer than 2³². If the bytes are so few, `ofAttacks` fails with `e` exactly if `e` is that of
the `FirstUnfit`: of its targets, or else of the first of its flips in a byte too great. An image
made with no distance asked for is made as well with its own asked for, and one made with some
distance `d` asked for is made as well with none. -/
theorem outcome_ofAttacks (first : Attack) (rest : List Attack) (distance : Option UInt32)
    (hlength : (first :: rest).length < UInt32.size) :
    ofAttacks [] distance = .ok ⟨distance.getD 0, [], [], []⟩ ∧
    ((∃ img, ofAttacks (first :: rest) distance = .ok img) ↔
      (∀ a ∈ first :: rest, a.Fits (distanceFor distance first)) ∧
        (bytesOf (first :: rest)).length < UInt32.size) ∧
    ((bytesOf (first :: rest)).length < UInt32.size → ∀ e,
      ofAttacks (first :: rest) distance = .error e ↔
        FirstUnfit (distanceFor distance first) (first :: rest) e) ∧
    (∀ img, ofAttacks (first :: rest) none = .ok img →
      ofAttacks (first :: rest) (some img.distance) = .ok img) ∧
    ∀ d img, ofAttacks (first :: rest) (some d) = .ok img →
      ofAttacks (first :: rest) none = .ok img := by
  refine ⟨ofAttacks_nil distance, ⟨?_, ?_⟩, ?_, ?_, ?_⟩
  · rintro ⟨img, himg⟩
    exact ⟨fits_of_ofAttacks hlength himg, length_bytesOf_lt himg⟩
  · rintro ⟨hfits, hbytes⟩
    exact exists_ofAttacks_eq_ok hlength hbytes hfits
  · intro hbytes e
    exact ofAttacks_eq_error_iff hlength hbytes
  · intro img himg
    rw [← ofAttacks_none_eq (addRows?_of_ofAttacks himg List.mem_cons_self), himg]
  · intro d img himg
    rw [ofAttacks_none_eq (addRows?_of_ofAttacks_some himg), himg]

/-- The second attack reaches past the last row, and the third is never asked about its flip. -/
theorem outcome_ofAttacks_rowAttack :
    let attacks := [rowAttack 4 9 0, rowAttack 65534 9 0, rowAttack 5 9 524288]
    let e := Error.targets none (.inconsistent ⟨bankCell 65534 9, bankCell 0 9⟩ 2)
    attacks.length < UInt32.size ∧ (bytesOf attacks).length < UInt32.size ∧
      FirstUnfit 2 attacks e ∧ ofAttacks attacks none = .error e ∧
      ofAttacks attacks (some 2) = .error e ∧
      ∃ img, ofAttacks [rowAttack 4 9 0] none = .ok img := by
  intro attacks e
  have hlength : attacks.length < UInt32.size := by decide
  have hbytes : (bytesOf attacks).length < UInt32.size := by cbv
  have hfits : (rowAttack 4 9 0).Fits 2 :=
    ⟨⟨by decide, ⟨rfl, rfl, rfl, rfl⟩, rfl, rfl⟩, by decide⟩
  have hunfit : FirstUnfit 2 attacks e :=
    ⟨[_], _, _, rfl, List.forall_mem_singleton.2 hfits,
      .inconsistent (by decide) fun htargets => absurd htargets.row_eq (by decide)⟩
  obtain ⟨-, -, hfound, -⟩ := outcome_ofAttacks _ _ none hlength
  obtain ⟨-, -, hasked, -⟩ := outcome_ofAttacks _ _ (some 2) hlength
  obtain ⟨-, hone, -⟩ := outcome_ofAttacks (rowAttack 4 9 0) [] none (by decide)
  exact ⟨hlength, hbytes, hunfit, (hfound hbytes e).2 hunfit, (hasked hbytes e).2 hunfit,
    hone.2 ⟨List.forall_mem_singleton.2 hfits, by cbv⟩⟩

end Image

end RowFlips
