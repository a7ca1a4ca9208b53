import RowFlips.Proofs.Outcome
import RowFlips.Tool.Directory

/-!
# Files written to a directory

The way to a file leads through directories only, so a file that is written is on no way: each path
leads to the same names before and after. What is read at the path of the file is what was written,
and at a path that leads to other names it is what was read there before. Paths that differ in their
endings alone lead to different names, as an ending belongs to the last name on the way.

## Main results

* `Directory.node?_put_self`, `Directory.node?_put_of_ne`: what names lead to once one was written.
* `Directory.resolve_put`: a path leads to the same names before and after.
* `Directory.read_put_of_sink`, `Directory.read_put_of_ne`: what is read once a file was written.
* `Directory.ne_of_sink_append`: endings tell files apart.
-/

namespace RowFlips.Directory

open Text (Bytes)

variable {d : Directory} {names names' names'' : List String} {node : Node}

/-- Names lead to the node that was put there. -/
theorem node?_put_self : (d.put names node).node? names = some node := by
  simp [node?, put]

/-- Other names lead to what they led to before. -/
theorem node?_put_of_ne (h : names' ≠ names) :
    (d.put names node).node? names' = d.node? names' := by
  have hfind : (d.entries.filter fun e => e.1 ≠ names).find? (fun e => e.1 = names') =
      d.entries.find? fun e => e.1 = names' := by
    rw [List.find?_filter]
    congr 1
    funext e
    by_cases he : e.1 = names' <;> simp [he, h]
  simp only [node?, put, List.find?_cons, hfind, decide_eq_false h.symm]

/-- A step leads to the same names once a file has taken the place of what is not a directory. -/
theorem step_put {part : String} (hnode : d.node? names ≠ some .directory)
    (h : d.step names' part = .ok names'') : (d.put names node).step names' part = .ok names'' := by
  have hdir : d.node? names' = some .directory := by
    rw [step] at h
    split at h <;> first | assumption | cases h
  have hne : names' ≠ names := by
    rintro rfl
    exact hnode hdir
  rw [step, node?_put_of_ne hne]
  rwa [step] at h

/-- So does a way of many steps. -/
theorem foldlM_step_put {parts : List String} (hnode : d.node? names ≠ some .directory)
    (h : parts.foldlM d.step names' = .ok names'') :
    parts.foldlM (d.put names node).step names' = .ok names'' := by
  induction parts generalizing names' with
  | nil => exact h
  | cons part parts ih =>
    rw [List.foldlM_cons] at h ⊢
    obtain ⟨next, hstep, hrest⟩ := bind_eq_ok.1 h
    exact bind_eq_ok.2 ⟨next, step_put hnode hstep, ih hrest⟩

/-- A path leads to the same names once a file has taken the place of what is not a directory. -/
theorem resolve_put {path : String} (hnode : d.node? names ≠ some .directory)
    (h : d.resolve path = .ok names') : (d.put names node).resolve path = .ok names' := by
  rw [resolve, follow] at h ⊢
  split at h
  · cases h
  · rename_i hlong
    rw [if_neg hlong]
    split at h
    · cases h
    · rename_i hempty
      rw [if_neg hempty]
      exact foldlM_step_put hnode h

/-- A file can be written to a path if the path leads to a file or to nothing. -/
theorem sink_eq_file_iff {path : String} : d.sink path = .ok (.file names) ↔
    path.endsWith "/" = false ∧ d.resolve path = .ok names ∧
      d.node? names ≠ some .directory ∧ ∀ device, d.node? names ≠ some (.device device) := by
  rw [sink]
  split
  · rename_i hslash
    refine iff_of_false ?_ fun h => absurd hslash (by rw [h.1]; decide)
    intro h
    obtain ⟨_, -, h⟩ := bind_eq_ok.1 h
    cases h
  · rename_i hslash
    rw [and_iff_right (Bool.eq_false_iff.2 hslash)]
    constructor
    · intro h
      obtain ⟨found, hresolve, h⟩ := bind_eq_ok.1 h
      split at h
      · cases h
      · cases h
      · rename_i hdirectory hdevice
        cases h
        exact ⟨hresolve, hdirectory, hdevice⟩
    · rintro ⟨hresolve, hdirectory, hdevice⟩
      refine bind_eq_ok.2 ⟨names, hresolve, ?_⟩
      split
      · contradiction
      · rename_i device hnode
        exact absurd hnode (hdevice device)
      · rfl

/-- Where a path leads that can be written to is not a directory. -/
theorem resolve_of_sink {path : String} (h : d.sink path = .ok (.file names)) :
    d.resolve path = .ok names ∧ d.node? names ≠ some .directory := by
  obtain ⟨-, hresolve, hnode, -⟩ := sink_eq_file_iff.1 h
  exact ⟨hresolve, hnode⟩

/-- What was written to a path is read there. -/
theorem read_put_of_sink {path : String} {content : Bytes}
    (h : d.sink path = .ok (.file names)) :
    (d.put names (.file content)).read path = .ok content := by
  obtain ⟨hresolve, hnode⟩ := resolve_of_sink h
  simp only [read, openPath, resolve_put hnode hresolve, bind, Except.bind, node?_put_self]
  rfl

/-! ### Several files -/

section

variable {path path' : String} {content : Bytes}

/-- What can be written before a file is written can be written afterwards. -/
theorem sink_put (h : d.sink path = .ok (.file names))
    (h' : d.sink path' = .ok (.file names')) :
    (d.put names (.file content)).sink path' = .ok (.file names') := by
  obtain ⟨hslash, hresolve, hdirectory, hdevice⟩ := sink_eq_file_iff.1 h'
  rw [sink_eq_file_iff]
  refine ⟨hslash, resolve_put (resolve_of_sink h).2 hresolve, ?_⟩
  by_cases hnames : names' = names
  · rw [hnames, node?_put_self]
    exact ⟨nofun, nofun⟩
  · rw [node?_put_of_ne hnames]
    exact ⟨hdirectory, hdevice⟩

/-- Writing one file leaves the others as they are. -/
theorem read_put_of_ne (h : d.sink path = .ok (.file names))
    (h' : d.resolve path' = .ok names') (hne : names' ≠ names) :
    (d.put names (.file content)).read path' = d.read path' := by
  simp only [read, openPath, resolve_put (resolve_of_sink h).2 h', h', bind, Except.bind,
    node?_put_of_ne hne]

end

/-! ### Names that end differently -/

/-- An ending is put behind the last name on the way. -/
theorem exists_parts_append (stem : String) : ∃ above last, ∀ ending : String,
    '/' ∉ ending.toList → parts (stem ++ ending) = above ++ [last ++ ending] := by
  obtain ⟨above, last, h⟩ := exists_splitOnP_append (· == '/') stem.toList
  refine ⟨above.map String.ofList, String.ofList last, fun ending hending => ?_⟩
  have hsplit := h ending.toList fun c hc =>
    beq_eq_false_iff_ne.2 fun hslash => hending (hslash ▸ hc)
  rw [parts, String.toList_append, hsplit, List.map_append, List.map_singleton,
    String.ofList_append, String.ofList_toList]

/-- A part longer than two dots leads to what has its name. -/
theorem eq_append_of_step {part : String} (hlong : 2 < part.length)
    (h : d.step names part = .ok names') : names' = names ++ [part] := by
  have hshort {s : String} (hs : s.length ≤ 2) : part ≠ s := by
    rintro rfl
    omega
  rw [step] at h
  split at h
  · cases h
  · cases h
  · cases h
  · have hstay : ¬(part = "" ∨ part = ".") :=
      not_or.2 ⟨hshort (by decide), hshort (by decide)⟩
    rw [if_neg hstay, if_neg (hshort (by decide))] at h
    split at h <;> cases h
    rfl

/-- Files at paths that differ in their endings alone are different. -/
theorem ne_of_sink_append {stem ending ending' : String}
    (hending : '/' ∉ ending.toList ∧ 2 < ending.length)
    (hending' : '/' ∉ ending'.toList ∧ 2 < ending'.length) (hne : ending ≠ ending')
    (h : d.sink (stem ++ ending) = .ok (.file names))
    (h' : d.sink (stem ++ ending') = .ok (.file names')) : names ≠ names' := by
  obtain ⟨above, last, hparts⟩ := exists_parts_append stem
  have hends {ending : String} {names : List String}
      (hending : '/' ∉ ending.toList ∧ 2 < ending.length)
      (h : d.sink (stem ++ ending) = .ok (.file names)) :
      ∃ front, names = front ++ [last ++ ending] := by
    have hresolve := (resolve_of_sink h).1
    rw [resolve, hparts ending hending.1, follow] at hresolve
    split at hresolve
    · cases hresolve
    split at hresolve
    · cases hresolve
    rw [List.foldlM_append] at hresolve
    obtain ⟨front, -, hlast⟩ := bind_eq_ok.1 hresolve
    rw [List.foldlM_cons] at hlast
    obtain ⟨next, hstep, hnext⟩ := bind_eq_ok.1 hlast
    cases hnext
    refine ⟨front, eq_append_of_step ?_ hstep⟩
    rw [String.length_append]
    omega
  obtain ⟨front, rfl⟩ := hends hending h
  obtain ⟨front', rfl⟩ := hends hending' h'
  intro heq
  have hlast : last ++ ending = last ++ ending' :=
    List.singleton_inj.1 (List.append_inj' heq rfl).2
  exact hne ((String.append_right_inj last).1 hlast)

end RowFlips.Directory
