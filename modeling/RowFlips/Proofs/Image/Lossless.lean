import RowFlips.Proofs.Image.Accepted

/-!
# Images and their files

The images that files hold are the well-formed ones: each is read back from the file it is written
to, and what an accepted file holds is well-formed, whatever the order of its ranges and hammerings
is. An image thus has one file of its own among all those that hold it. Writing what was read from
any of them gives that file, and does not change it any more.

## Main results

* `exists_decode_eq_iff_wellFormed`: which images are read from files.
* `reencode_eq_self_iff`: which files are written again as they are.
* `encode_lossless`: nothing is lost between images and their files.
-/

namespace RowFlips.Image

open Text (Bytes)

variable {b c : Bytes} {img img' : Image}

/-! ### Images that files hold -/

/-- What a file is decoded to is well-formed. -/
theorem wellFormed_of_decode (h : decode b = .ok img) : img.WellFormed := by
  obtain ⟨hvalid, rfl⟩ := decode_eq_ok_iff.1 h
  exact hvalid.wellFormed

/-- The images that files hold are exactly the well-formed ones. -/
theorem exists_decode_eq_iff_wellFormed : (∃ b, decode b = .ok img) ↔ img.WellFormed :=
  ⟨fun ⟨_, h⟩ => wellFormed_of_decode h, fun h => ⟨img.encode, decode_encode h⟩⟩

/-- What fewer than 2³² attacks are made into is well-formed. -/
theorem wellFormed_of_ofAttacks {attacks : List Attack} {distance : Option UInt32}
    (hlen : attacks.length < UInt32.size) (h : ofAttacks attacks distance = .ok img) :
    img.WellFormed := by
  obtain ⟨ss, rfl, hss⟩ := describes_of_ofAttacks h
  exact hss.wellFormed hlen

/-- Well-formed images that are written alike are the same. -/
theorem encode_inj (h : img.WellFormed) (h' : img'.WellFormed) :
    img.encode = img'.encode ↔ img = img' := by
  constructor
  · intro heq
    have hdecode := decode_encode h
    rw [heq, decode_encode h'] at hdecode
    exact (Except.ok.inj hdecode).symm
  · rintro rfl
    rfl

/-! ### Writing again what was read -/

/-- The file of the image that a file holds. -/
def reencode (b : Bytes) : Except ImageFault Bytes := (decode b).map encode

/-- A file that can be decoded is written again as the file of its image. -/
theorem reencode_eq_ok_iff : reencode b = .ok c ↔ ∃ img, decode b = .ok img ∧ img.encode = c :=
  map_eq_ok

/-- The file that is written again holds the same image. -/
theorem decode_of_reencode (h : reencode b = .ok c) : decode c = decode b := by
  obtain ⟨img, himg, rfl⟩ := reencode_eq_ok_iff.1 h
  rw [himg, decode_encode (wellFormed_of_decode himg)]

/-- The files that are written again as they are, are those of well-formed images. -/
theorem reencode_eq_self_iff :
    reencode b = .ok b ↔ ∃ img : Image, img.WellFormed ∧ img.encode = b := by
  rw [reencode_eq_ok_iff]
  constructor
  · rintro ⟨img, himg, hb⟩
    exact ⟨img, wellFormed_of_decode himg, hb⟩
  · rintro ⟨img, hwell, rfl⟩
    exact ⟨img, decode_encode hwell, rfl⟩

/-- Writing again twice is the same as once. -/
theorem reencode_of_reencode (h : reencode b = .ok c) : reencode c = .ok c := by
  obtain ⟨img, himg, hc⟩ := reencode_eq_ok_iff.1 h
  exact reencode_eq_self_iff.2 ⟨img, wellFormed_of_decode himg, hc⟩

/-- The files that are written again as the file of an image are those that hold it. -/
theorem reencode_eq_ok_encode_iff (h : img.WellFormed) :
    reencode b = .ok img.encode ↔ decode b = .ok img := by
  rw [reencode_eq_ok_iff]
  constructor
  · rintro ⟨img', himg', heq⟩
    rwa [← (encode_inj (wellFormed_of_decode himg') h).1 heq]
  · intro himg
    exact ⟨img, himg, rfl⟩

/-- **Nothing is lost between images and their files.** `encode` of a `WellFormed` image has as many
bytes as its `encodedSize` says, and `decode` reads the image back from them. The well-formed images
are exactly those that `decode` gives for some file, and those that `ofAttacks` makes of fewer than
2³² attacks are among them. No two of them have the same file. What `decode` gives for `b` can be
written again by `reencode`. The file `c` that it writes holds the same image, is written again as
it is, and is what `reencode` gives for exactly the files `b'` that hold this image. -/
theorem encode_lossless :
    (∀ img : Image, img.WellFormed →
      img.encode.length = img.encodedSize ∧ decode img.encode = .ok img) ∧
    (∀ img : Image, (∃ b, decode b = .ok img) ↔ img.WellFormed) ∧
    (∀ attacks distance img, attacks.length < UInt32.size →
      ofAttacks attacks distance = .ok img → img.WellFormed) ∧
    (∀ img img' : Image, img.WellFormed → img'.WellFormed →
      img.encode = img'.encode → img = img') ∧
    ∀ b img, decode b = .ok img → ∃ c, reencode b = .ok c ∧
      decode c = .ok img ∧ reencode c = .ok c ∧
      ∀ b', reencode b' = .ok c ↔ decode b' = .ok img := by
  refine ⟨?_, fun img => exists_decode_eq_iff_wellFormed, ?_, ?_, ?_⟩
  · intro img hwell
    exact ⟨length_encode img, decode_encode hwell⟩
  · intro attacks distance img hlen himg
    exact wellFormed_of_ofAttacks hlen himg
  · intro img img' hwell hwell'
    exact (encode_inj hwell hwell').1
  · intro b img himg
    have hwell := wellFormed_of_decode himg
    have hc := (reencode_eq_ok_encode_iff hwell).2 himg
    exact ⟨img.encode, hc, (decode_of_reencode hc).trans himg, reencode_of_reencode hc,
      fun b' => reencode_eq_ok_encode_iff hwell⟩

/-- Ranges out of order that overlap, an empty one behind the last hammering, and no flip records:
this image has a file too, also when a byte in a gap is changed. -/
theorem encode_lossless_overlapping :
    let img : Image :=
      ⟨2, [⟨bankCell 9 9, 2, 0⟩, ⟨bankCell 4 9, 1, 1⟩, ⟨bankCell 4 9, 0, 2⟩], [⟨0, 0⟩, ⟨0, 0⟩], []⟩
    let built := rowImage [⟨bankCell 4 9, 1, 0⟩] [⟨bankCell 5 9, 1, 1, 0⟩]
    img.encode.length = img.encodedSize ∧ decode img.encode = .ok img ∧
      built.WellFormed ∧ img.encode ≠ built.encode ∧
      reencode (img.encode.set 60 7) = .ok img.encode := by
  intro img built
  obtain ⟨hread, himages, hbuilt, hinj, hwritten⟩ := encode_lossless
  have hwell : img.WellFormed := ⟨by decide, by decide, by decide, by decide, by decide⟩
  have hwellBuilt : built.WellFormed := hbuilt [rowAttack 4 9 8] none built (by decide) rfl
  obtain ⟨hlen, himg⟩ := hread img hwell
  have hvalid := (decode_eq_ok_iff.1 himg).1.toValidHeader
  have hgap := hvalid.getElem?_set_eq (by decide : 52 ≤ 60) (by decide) 7
  refine ⟨hlen, himg, hwellBuilt, ?_, ?_⟩
  · intro heq
    have hrecords := congrArg Image.records (hinj img built hwell hwellBuilt heq)
    exact absurd hrecords nofun
  · obtain ⟨c, hc, -, -, hall⟩ := hwritten _ img ((decode_congr hgap himg).2 List.length_set)
    have hsame : reencode img.encode = .ok c := (hall _).2 himg
    rw [hc, ← hsame]
    exact reencode_eq_self_iff.2 ⟨img, hwell, rfl⟩

end RowFlips.Image
