import Mathlib.Data.List.Range
import RowFlips.Proofs.Image.Codec
import RowFlips.Proofs.Outcome

/-!
# What stands where in an image file

The fields of a file stand at fixed positions of its header and of its records. Here each is read
at its position, on its own and whatever surrounds it; a byte that the file does not have counts
as 0. The readers, which take one field after the other off the front, find exactly these fields
as long as the file has all bytes of what they read.

## Main results

* `takeWord?_drop`, `takeMany?_drop`: readers find the fields at their positions.
* `Header.take?_eq_some_iff`: a header is read from every file that is long enough.
* `takeTables?_headerAt`: tables that lie in the file are read from it.
* `Header.decode_eq_ok_iff`: which headers are accepted.
-/

namespace RowFlips.Image

open Text (Bytes)

/-! ### Fields -/

/-- The byte at a position. -/
def byteAt (b : Bytes) (pos : Nat) : UInt8 := b[pos]?.getD 0

/-- The number that `width` bytes from a position on store. -/
def wordAt (b : Bytes) (pos : Nat) : Nat → Nat
  | 0 => 0
  | width + 1 => (byteAt b pos).toNat + 256 * wordAt b (pos + 1) width

/-- The address stored at a position. -/
def addressAt (b : Bytes) (pos : Nat) : Address :=
  ⟨byteAt b pos, byteAt b (pos + 1), byteAt b (pos + 2), byteAt b (pos + 3),
    .ofNat (wordAt b (pos + 4) 2), .ofNat (wordAt b (pos + 6) 2)⟩

/-- The range stored at a position. -/
def rangeAt (b : Bytes) (pos : Nat) : Range :=
  ⟨addressAt b pos, .ofNat (wordAt b (pos + 8) 4), .ofNat (wordAt b (pos + 12) 4)⟩

/-- The hammering stored at a position. -/
def hammeringAt (b : Bytes) (pos : Nat) : Hammering :=
  ⟨.ofNat (wordAt b pos 4), .ofNat (wordAt b (pos + 4) 4)⟩

/-- The flip record stored at a position. -/
def recordAt (b : Bytes) (pos : Nat) : Record :=
  ⟨addressAt b pos, .ofNat (wordAt b (pos + 8) 2), byteAt b (pos + 10), byteAt b (pos + 11)⟩

/-- Where the header says that a table starts. -/
def offsetAt (b : Bytes) : Section → Nat
  | .range => wordAt b 16 8
  | .hammering => wordAt b 24 8
  | .flip => wordAt b 32 8

/-- How many records the header gives a table. -/
def countAt (b : Bytes) : Section → Nat
  | .range => wordAt b 40 4
  | .hammering => wordAt b 44 4
  | .flip => wordAt b 48 4

/-- The header at the front. -/
def headerAt (b : Bytes) : Header where
  magic := .ofNat (wordAt b 0 4)
  distance := .ofNat (wordAt b 4 4)
  size := .ofNat (wordAt b 8 8)
  rangeOffset := .ofNat (offsetAt b .range)
  hammeringOffset := .ofNat (offsetAt b .hammering)
  flipOffset := .ofNat (offsetAt b .flip)
  numRanges := .ofNat (countAt b .range)
  numHammerings := .ofNat (countAt b .hammering)
  numFlips := .ofNat (countAt b .flip)

/-- Where the header says that a record of a table starts. -/
def recordStart (b : Bytes) (table : Section) (i : Nat) : Nat :=
  offsetAt b table + i * table.recordSize

/-- The records of a table, each found by its number. -/
def tableAt {α : Type} (read : Bytes → Nat → α) (table : Section) (b : Bytes) : List α :=
  (List.range (countAt b table)).map fun i => read b (recordStart b table i)

/-- The image that the fields of a file make up. -/
def imageAt (b : Bytes) : Image :=
  ⟨.ofNat (wordAt b 4 4), tableAt rangeAt .range b, tableAt hammeringAt .hammering b,
    tableAt recordAt .flip b⟩

variable {b b' : Bytes}

/-- A stored number lies below the bound that its `width` in bytes sets. -/
theorem wordAt_lt (b : Bytes) (pos width : Nat) : wordAt b pos width < 1 <<< (8 * width) := by
  induction width generalizing pos with
  | zero => exact Nat.one_pos
  | succ width ih =>
    have hbyte := (byteAt b pos).toNat_lt
    have hrest := ih (pos + 1)
    rw [Nat.one_shiftLeft] at hrest ⊢
    rw [wordAt, Nat.mul_succ, Nat.pow_add]
    omega

/-- Four bytes store a number that a word of 32 bits holds. -/
theorem toNat_wordAt_four (b : Bytes) (pos : Nat) :
    (UInt32.ofNat (wordAt b pos 4)).toNat = wordAt b pos 4 :=
  UInt32.toNat_ofNat_of_lt' (wordAt_lt b pos 4)

/-- Eight bytes store a number that a word of 64 bits holds. -/
theorem toNat_wordAt_eight (b : Bytes) (pos : Nat) :
    (UInt64.ofNat (wordAt b pos 8)).toNat = wordAt b pos 8 :=
  UInt64.toNat_ofNat_of_lt' (wordAt_lt b pos 8)

/-- The offsets of the header at the front are those at their positions. -/
@[simp] theorem toNat_offset_headerAt (b : Bytes) (table : Section) :
    ((headerAt b).offset table).toNat = offsetAt b table := by
  cases table <;> exact toNat_wordAt_eight b _

/-- So are its counts. -/
@[simp] theorem toNat_count_headerAt (b : Bytes) (table : Section) :
    ((headerAt b).count table).toNat = countAt b table := by
  cases table <;> exact toNat_wordAt_four b _

/-- The size that the header gives stands at position 8. -/
@[simp] theorem toNat_size_headerAt (b : Bytes) : (headerAt b).size.toNat = wordAt b 8 8 :=
  toNat_wordAt_eight b 8

/-- A table has as many records as the header gives it. -/
@[simp] theorem length_tableAt {α : Type} (read : Bytes → Nat → α) (table : Section) (b : Bytes) :
    (tableAt read table b).length = countAt b table := by
  rw [tableAt, List.length_map, List.length_range]

/-- What holds of all records of a table holds of what is read at each of their starts. -/
theorem forall_mem_tableAt {α : Type} {read : Bytes → Nat → α} {table : Section} {p : α → Prop} :
    (∀ a ∈ tableAt read table b, p a) ↔
      ∀ i < countAt b table, p (read b (recordStart b table i)) := by
  simp only [tableAt, List.forall_mem_map, List.mem_range]

/-! ### Fields that two files share -/

/-- Both files have the same bytes, or both none, in `width` places from a position on. -/
def AgreeAt (b b' : Bytes) (pos width : Nat) : Prop := ∀ i < width, b'[pos + i]? = b[pos + i]?

/-- Files that agree in some places agree in fewer of them. -/
theorem AgreeAt.mono {pos width start size : Nat} (h : AgreeAt b b' pos width)
    (hstart : pos ≤ start) (hsize : start + size ≤ pos + width) : AgreeAt b b' start size := by
  intro i hi
  have := h (start - pos + i) (by omega)
  rwa [show pos + (start - pos + i) = start + i by omega] at this

/-- Files that agree in one place have the same byte there. -/
theorem AgreeAt.byteAt_eq {pos : Nat} (h : AgreeAt b b' pos 1) : byteAt b' pos = byteAt b pos :=
  congrArg (·.getD 0) (h 0 Nat.one_pos)

/-- Files that agree in all bytes of a number store the same number. -/
theorem AgreeAt.wordAt_eq {pos width : Nat} (h : AgreeAt b b' pos width) :
    wordAt b' pos width = wordAt b pos width := by
  induction width generalizing pos with
  | zero => rfl
  | succ width ih =>
    have hrest : AgreeAt b b' (pos + 1) width := h.mono (by omega) (by omega)
    have hbyte : AgreeAt b b' pos 1 := h.mono (by omega) (by omega)
    rw [wordAt, wordAt, ih hrest, hbyte.byteAt_eq]

/-- The eight bytes of an address settle it. -/
theorem AgreeAt.addressAt_eq {pos : Nat} (h : AgreeAt b b' pos 8) :
    addressAt b' pos = addressAt b pos := by
  have hbyte (i : Nat) (hi : i < 4) : byteAt b' (pos + i) = byteAt b (pos + i) :=
    (h.mono (by omega) (by omega) : AgreeAt b b' (pos + i) 1).byteAt_eq
  have hword (i : Nat) (hi : i < 7) : wordAt b' (pos + i) 2 = wordAt b (pos + i) 2 :=
    (h.mono (by omega) (by omega) : AgreeAt b b' (pos + i) 2).wordAt_eq
  have hfirst : byteAt b' pos = byteAt b pos := hbyte 0 (by decide)
  simp only [addressAt, hfirst, hbyte _ (show 1 < 4 by decide), hbyte _ (show 2 < 4 by decide),
    hbyte _ (show 3 < 4 by decide), hword _ (show 4 < 7 by decide), hword _ (show 6 < 7 by decide)]

/-- The sixteen bytes of a range settle it. -/
theorem AgreeAt.rangeAt_eq {pos : Nat} (h : AgreeAt b b' pos 16) :
    rangeAt b' pos = rangeAt b pos := by
  have haddr : AgreeAt b b' pos 8 := h.mono (by omega) (by omega)
  have hcount : AgreeAt b b' (pos + 8) 4 := h.mono (by omega) (by omega)
  have hfirst : AgreeAt b b' (pos + 12) 4 := h.mono (by omega) (by omega)
  rw [rangeAt, rangeAt, haddr.addressAt_eq, hcount.wordAt_eq, hfirst.wordAt_eq]

/-- The eight bytes of a hammering settle it. -/
theorem AgreeAt.hammeringAt_eq {pos : Nat} (h : AgreeAt b b' pos 8) :
    hammeringAt b' pos = hammeringAt b pos := by
  have hcount : AgreeAt b b' pos 4 := h.mono (by omega) (by omega)
  have hfirst : AgreeAt b b' (pos + 4) 4 := h.mono (by omega) (by omega)
  rw [hammeringAt, hammeringAt, hcount.wordAt_eq, hfirst.wordAt_eq]

/-- The twelve bytes of a flip record settle it. -/
theorem AgreeAt.recordAt_eq {pos : Nat} (h : AgreeAt b b' pos 12) :
    recordAt b' pos = recordAt b pos := by
  have haddr : AgreeAt b b' pos 8 := h.mono (by omega) (by omega)
  have hbyte : AgreeAt b b' (pos + 8) 2 := h.mono (by omega) (by omega)
  have hup : AgreeAt b b' (pos + 10) 1 := h.mono (by omega) (by omega)
  have hdown : AgreeAt b b' (pos + 11) 1 := h.mono (by omega) (by omega)
  rw [recordAt, recordAt, haddr.addressAt_eq, hbyte.wordAt_eq, hup.byteAt_eq, hdown.byteAt_eq]

/-- The part of the header that is used ends before its last four bytes. -/
theorem AgreeAt.offsetAt_eq (h : AgreeAt b b' 0 52) (table : Section) :
    offsetAt b' table = offsetAt b table := by
  cases table <;> exact (h.mono (by omega) (by omega)).wordAt_eq

/-- The first 52 bytes settle how many records each table has. -/
theorem AgreeAt.countAt_eq (h : AgreeAt b b' 0 52) (table : Section) :
    countAt b' table = countAt b table := by
  cases table <;> exact (h.mono (by omega) (by omega)).wordAt_eq

/-- Files that agree in a table, and on where it is, hold the same records there. -/
theorem AgreeAt.tableAt_eq {α : Type} {read : Bytes → Nat → α} {table : Section}
    (hread : ∀ pos, AgreeAt b b' pos table.recordSize → read b' pos = read b pos)
    (hheader : AgreeAt b b' 0 52)
    (h : AgreeAt b b' (offsetAt b table) (countAt b table * table.recordSize)) :
    tableAt read table b' = tableAt read table b := by
  rw [tableAt, tableAt, hheader.countAt_eq]
  refine List.map_congr_left ?_
  intro i hi
  have hi : i + 1 ≤ countAt b table := List.mem_range.1 hi
  have hend := Nat.mul_le_mul_right table.recordSize hi
  rw [Nat.succ_mul] at hend
  rw [recordStart, recordStart, hheader.offsetAt_eq]
  exact hread _ (h.mono (by omega) (by omega))

/-! ### Readers -/

/-- What is left of a file at a position starts with the byte there. -/
theorem drop_eq_byteAt_cons {pos : Nat} (h : pos < b.length) :
    b.drop pos = byteAt b pos :: b.drop (pos + 1) := by
  rw [List.drop_eq_getElem_cons h, byteAt, List.getElem?_eq_getElem h, Option.getD_some]

/-- The reader of numbers finds `wordAt` where it stands, if the file has its bytes. -/
theorem takeWord?_drop {pos width : Nat} (h : pos + width ≤ b.length) :
    takeWord? width (b.drop pos) = some (wordAt b pos width, b.drop (pos + width)) := by
  induction width generalizing pos with
  | zero => rfl
  | succ width ih =>
    rw [drop_eq_byteAt_cons (by omega), takeWord?, ih (by omega), Option.map_some, wordAt,
      Nat.add_right_comm, Nat.add_assoc pos width]

/-- The reader of addresses finds `addressAt` where it stands. -/
theorem takeAddress?_drop {pos : Nat} (h : pos + 8 ≤ b.length) :
    takeAddress? (b.drop pos) = some (addressAt b pos, b.drop (pos + 8)) := by
  rw [drop_eq_byteAt_cons (by omega), drop_eq_byteAt_cons (by omega),
    drop_eq_byteAt_cons (by omega), drop_eq_byteAt_cons (by omega), takeAddress?]
  simp only [Nat.add_assoc, Nat.reduceAdd]
  rw [takeWord?_drop (by omega)]
  simp only [Option.bind_eq_bind, Option.bind_some, Nat.add_assoc, Nat.reduceAdd]
  rw [takeWord?_drop (by omega)]
  rfl

/-- The reader of ranges finds `rangeAt` where it stands. -/
theorem Range.take?_drop {pos : Nat} (h : pos + 16 ≤ b.length) :
    Range.take? (b.drop pos) = some (rangeAt b pos, b.drop (pos + 16)) := by
  rw [Range.take?, takeAddress?_drop (by omega)]
  simp only [Option.bind_eq_bind, Option.bind_some]
  rw [takeWord?_drop (by omega)]
  simp only [Option.bind_some, Nat.add_assoc, Nat.reduceAdd]
  rw [takeWord?_drop (by omega)]
  rfl

/-- The reader of hammerings finds `hammeringAt` where it stands. -/
theorem Hammering.take?_drop {pos : Nat} (h : pos + 8 ≤ b.length) :
    Hammering.take? (b.drop pos) = some (hammeringAt b pos, b.drop (pos + 8)) := by
  rw [Hammering.take?, takeWord?_drop (by omega)]
  simp only [Option.bind_eq_bind, Option.bind_some]
  rw [takeWord?_drop (by omega)]
  rfl

/-- The reader of flip records finds `recordAt` where it stands. -/
theorem Record.take?_drop {pos : Nat} (h : pos + 12 ≤ b.length) :
    Record.take? (b.drop pos) = some (recordAt b pos, b.drop (pos + 12)) := by
  rw [Record.take?, takeAddress?_drop (by omega)]
  simp only [Option.bind_eq_bind, Option.bind_some]
  rw [takeWord?_drop (by omega)]
  simp only [Option.bind_some, Nat.add_assoc, Nat.reduceAdd]
  rw [drop_eq_byteAt_cons (by omega), drop_eq_byteAt_cons (by omega)]
  rfl

/-- A reader of records of one size finds them one after the other. -/
theorem takeMany?_drop {α : Type} {take? : Bytes → Option (α × Bytes)} {read : Bytes → Nat → α}
    {size : Nat}
    (htake : ∀ pos, pos + size ≤ b.length →
      take? (b.drop pos) = some (read b pos, b.drop (pos + size)))
    {count pos : Nat} {done : List α} (h : pos + count * size ≤ b.length) :
    takeMany? take? count done (b.drop pos) =
      some (done.reverse ++ (List.range count).map fun i => read b (pos + i * size)) := by
  induction count generalizing pos done with
  | zero => simp [takeMany?]
  | succ count ih =>
    rw [Nat.succ_mul] at h
    have hrest : pos + size + count * size ≤ b.length := by omega
    have hshift (i : Nat) : pos + (i + 1) * size = pos + size + i * size := by
      rw [Nat.succ_mul]
      omega
    rw [takeMany?, htake pos (by omega)]
    simp only [ih hrest, List.reverse_cons, List.append_assoc, List.singleton_append,
      List.range_succ_eq_map, List.map_cons, List.map_map, Function.comp_def, hshift,
      Nat.zero_mul, Nat.add_zero]

/-- A table that lies in the file is read from it, if its records are read where they stand. -/
theorem takeTable?_headerAt {α : Type} {take? : Bytes → Option (α × Bytes)}
    {read : Bytes → Nat → α} {table : Section}
    (htake : ∀ pos, pos + table.recordSize ≤ b.length →
      take? (b.drop pos) = some (read b pos, b.drop (pos + table.recordSize)))
    (h : offsetAt b table + countAt b table * table.recordSize ≤ b.length) :
    takeTable? take? (headerAt b) table b = some (tableAt read table b) := by
  rw [takeTable?, toNat_count_headerAt, toNat_offset_headerAt, takeMany?_drop htake h]
  rfl

/-- Tables that lie in the file are read from it. -/
theorem takeTables?_headerAt
    (h : ∀ table, offsetAt b table + countAt b table * table.recordSize ≤ b.length) :
    takeTables? (headerAt b) b = some (imageAt b) := by
  rw [takeTables?, takeTable?_headerAt (fun _ => Range.take?_drop) (h .range),
    takeTable?_headerAt (fun _ => Hammering.take?_drop) (h .hammering),
    takeTable?_headerAt (fun _ => Record.take?_drop) (h .flip)]
  rfl

/-! ### Headers -/

/-- Reading a number takes its `width` off the front. -/
theorem length_of_takeWord? {width n : Nat} {rest : Bytes}
    (h : takeWord? width b = some (n, rest)) : b.length = width + rest.length := by
  induction width generalizing b n with
  | zero =>
    cases h
    exact (Nat.zero_add _).symm
  | succ width ih =>
    cases b with
    | nil => cases h
    | cons x b =>
      obtain ⟨⟨m, rest'⟩, hm, hrest⟩ := Option.map_eq_some_iff.1 h
      cases hrest
      rw [List.length_cons, ih hm]
      omega

namespace Header

/-- A file that has the bytes of a header has `headerAt` for its header. -/
theorem take?_eq_headerAt (h : 56 ≤ b.length) : Header.take? b = some (headerAt b) := by
  have hword (pos width : Nat) (hle : pos + width ≤ 56) :
      takeWord? width (b.drop pos) = some (wordAt b pos width, b.drop (pos + width)) :=
    takeWord?_drop (by omega)
  have hfront : takeWord? 4 b = some (wordAt b 0 4, b.drop 4) := hword 0 4 (by decide)
  simp only [Header.take?, hfront, Option.bind_eq_bind, Option.bind_some,
    hword 4 4 (by decide), hword 8 8 (by decide), hword 16 8 (by decide), hword 24 8 (by decide),
    hword 32 8 (by decide), hword 40 4 (by decide), hword 44 4 (by decide), hword 48 4 (by decide),
    hword 52 4 (by decide), Nat.reduceAdd]
  rfl

/-- A header is read from every file that has the bytes of one. -/
theorem take?_eq_some_iff {h : Header} :
    Header.take? b = some h ↔ 56 ≤ b.length ∧ h = headerAt b := by
  constructor
  · intro htake
    have hlen : 56 ≤ b.length := by
      simp only [Header.take?, Option.bind_eq_bind, Option.bind_eq_some_iff] at htake
      obtain ⟨x₁, h₁, x₂, h₂, x₃, h₃, x₄, h₄, x₅, h₅, x₆, h₆, x₇, h₇, x₈, h₈, x₉, h₉, x₀, h₀, -⟩ :=
        htake
      have := length_of_takeWord? h₁
      have := length_of_takeWord? h₂
      have := length_of_takeWord? h₃
      have := length_of_takeWord? h₄
      have := length_of_takeWord? h₅
      have := length_of_takeWord? h₆
      have := length_of_takeWord? h₇
      have := length_of_takeWord? h₈
      have := length_of_takeWord? h₉
      have := length_of_takeWord? h₀
      omega
    rw [take?_eq_headerAt hlen] at htake
    exact ⟨hlen, (Option.some.inj htake).symm⟩
  · rintro ⟨hlen, rfl⟩
    exact take?_eq_headerAt hlen

/-- A table is accepted if it starts at a multiple of the alignment, behind the header, and ends
within the file. -/
theorem checkTable_eq_ok_iff {h : Header} {table : Section} :
    h.checkTable table = .ok () ↔
      (128 ∣ (h.offset table).toNat ∧ 56 ≤ (h.offset table).toNat) ∧
        (h.offset table).toNat + (h.count table).toNat * table.recordSize ≤ h.size.toNat := by
  have halignment : alignment.toNat = 128 := rfl
  have hheader : headerSize.toNat = 56 := rfl
  simp only [checkTable, UInt64.lt_iff_toNat_lt, halignment, hheader, Nat.dvd_iff_mod_eq_zero]
  split
  · rename_i hmisaligned
    constructor
    · rintro ⟨⟩
    · rintro ⟨⟨hmod, hle⟩, -⟩
      omega
  · rename_i hmisaligned
    split
    · rename_i hpast
      constructor
      · rintro ⟨⟩
      · rintro ⟨-, hend⟩
        omega
    · exact iff_of_true rfl (by omega)

/-- A header is accepted exactly if the file has all its bytes, it starts with the magic number,
gives the size of the file, and its tables are accepted. -/
theorem decode_eq_ok_iff {h : Header} :
    Header.decode b = .ok h ↔
      (56 ≤ b.length ∧ h = headerAt b) ∧ h.magic = Image.magic ∧ h.size.toNat = b.length ∧
        ∀ table, h.checkTable table = .ok () := by
  rw [← take?_eq_some_iff, decode]
  cases Header.take? b with
  | none =>
    constructor
    · rintro ⟨⟩
    · rintro ⟨⟨⟩, -⟩
  | some h' =>
    have hall : (h'.checkTable .range = .ok () ∧ h'.checkTable .hammering = .ok () ∧
        h'.checkTable .flip = .ok ()) ↔ ∀ table, h'.checkTable table = .ok () := by
      constructor
      · rintro ⟨hrange, hhammering, hflip⟩ table
        cases table <;> assumption
      · intro hall
        exact ⟨hall _, hall _, hall _⟩
    simp only [check_eq_ok, bind_eq_ok, ne_eq, not_not, Option.some.injEq]
    constructor
    · rintro ⟨hmagic, hsize, _, hrange, _, hhammering, _, hflip, ⟨⟩⟩
      exact ⟨rfl, hmagic, hsize, hall.1 ⟨hrange, hhammering, hflip⟩⟩
    · rintro ⟨rfl, hmagic, hsize, htables⟩
      exact ⟨hmagic, hsize, _, htables _, _, htables _, _, htables _, rfl⟩

end Header

end RowFlips.Image
