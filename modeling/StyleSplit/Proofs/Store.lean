import StyleSplit.Proofs.Paths
import StyleSplit.Splitter

/-!
# Laws of the file store

What reading a file gives after each operation of the store, for every store and every path.
Paths are compared by their components, so every law holds up to `Path.same`: two ways of
writing one path name one file.

* `file_write`: a write is read back at every path that is the same as the one written, and no
  other file changes. It needs no invariant of the store: `putFile` stops at the first path that
  is not before the one written, and every entry it passes is a different path.
* `inDir_iff_components` reads "directly in a directory" off components, by
  `Path.parent_map_components`; so it does not depend on how a path is written (`inDir_congr`),
  and `file_clearDir` says that clearing a directory empties exactly the files directly in it.
* `file_writeSplit` and `dirs_writeSplit` give the store after a split's writes: the last write
  to each path is read back, the files directly in the output directory that were not written
  are gone, every other file is as it was, and the directory is added to the list exactly when it
  did not exist.
-/

namespace StyleSplit

namespace Path

lemma same_iff {p q : Path} : p.same q = true ↔ p.components = q.components := by
  simp [same]

lemma same_comm (p q : Path) : p.same q = q.same p := by
  rw [Bool.eq_iff_iff, same_iff, same_iff]
  exact eq_comm

lemma same_trans {p q r : Path} (hpq : p.same q = true) (hqr : q.same r = true) :
    p.same r = true :=
  same_iff.mpr ((same_iff.mp hpq).trans (same_iff.mp hqr))

/-- A path lies under another when the other's components begin its own, however either is
written. -/
lemma startsWith_congr {p p' base : Path} (h : p.same p' = true) :
    p.startsWith base = p'.startsWith base := by
  simp [startsWith, same_iff.mp h]

lemma startsWith_of_same {p base : Path} (h : p.same base = true) : p.startsWith base = true := by
  simp [startsWith, same_iff.mp h, List.isPrefixOf_iff_prefix]

end Path

namespace Store

open StyleSplit.Path

/-! ## Writing -/

lemma find?_putFile (p : Path) (c : String) (q : Path) :
    ∀ files : List (Path × String),
      ((putFile p c files).find? fun e => e.1.same q).map Prod.snd =
        if p.same q then some c else (files.find? fun e => e.1.same q).map Prod.snd
  | [] => by by_cases h : p.same q <;> simp [putFile, h]
  | (r, old) :: rest => by
    simp only [putFile]
    split
    · -- inserted in front of `r`
      by_cases h : p.same q <;> simp [h]
    · -- `r` is the same path as `p` and takes the new contents
      next heq =>
      have hpr := compare_eq_iff_same.mp heq
      have hrq : r.same q = p.same q := by
        by_cases h : p.same q
        · rw [h]
          exact same_trans (by rwa [same_comm]) h
        · rw [Bool.not_eq_true] at h
          rw [h]
          by_contra hrq
          have := same_trans hpr (by simpa using hrq)
          simp_all
      by_cases h : p.same q <;> simp [h, hrq]
    · -- `r` comes first and is a different path
      next hgt =>
      have hpr : p.same r = false := by
        by_contra hpr
        have := compare_eq_iff_same.mpr (by simpa using hpr)
        rw [hgt] at this
        cases this
      have ih := find?_putFile p c q rest
      by_cases hrq : r.same q
      · have hpq : p.same q = false := by
          by_contra hpq
          have := same_trans (by simpa using hpq) (by rwa [same_comm])
          simp_all
        simp [hrq, hpq]
      · simp only [List.find?_cons, hrq] at ih ⊢
        exact ih

/-- A write is read back at the path written, and nothing else changes. -/
lemma file_write (s : Store) (p : Path) (c : String) (q : Path) :
    (s.write p c).file q = if p.same q then some c else s.file q := by
  simp only [file, write]
  exact find?_putFile p c q s.files

@[simp] lemma dirs_write (s : Store) (p : Path) (c : String) : (s.write p c).dirs = s.dirs := rfl

/-- The contents a run of writes last put at a path, if any. -/
def lastWrite (ws : List (Path × String)) (q : Path) : Option String :=
  (ws.reverse.find? fun w => w.1.same q).map Prod.snd

@[simp] lemma lastWrite_nil (q : Path) : lastWrite [] q = none := rfl

lemma lastWrite_cons (w : Path × String) (ws : List (Path × String)) (q : Path) :
    lastWrite (w :: ws) q = (lastWrite ws q).or (if w.1.same q then some w.2 else none) := by
  unfold lastWrite
  rw [List.reverse_cons, List.find?_append]
  cases hfound : ws.reverse.find? (fun w => w.1.same q) <;> by_cases h : w.1.same q <;>
    simp [h]

/-- After a run of writes, a path reads what was last written to it, or what it held. -/
lemma file_foldl_write (q : Path) :
    ∀ (ws : List (Path × String)) (s : Store),
      (ws.foldl (fun s w => s.write w.1 w.2) s).file q = (lastWrite ws q).or (s.file q)
  | [], s => by simp
  | w :: ws, s => by
    rw [List.foldl_cons, file_foldl_write q ws, file_write, lastWrite_cons]
    by_cases h : w.1.same q <;> cases lastWrite ws q <;> simp [h]

@[simp] lemma dirs_foldl_write :
    ∀ (ws : List (Path × String)) (s : Store), (ws.foldl (fun s w => s.write w.1 w.2) s).dirs = s.dirs
  | [], _ => rfl
  | w :: ws, s => by rw [List.foldl_cons, dirs_foldl_write ws, dirs_write]

/-! ## Directories -/

lemma inDir_iff {dir q : Path} : inDir dir q = true ↔ q.parent.map components = some dir.components := by
  unfold inDir
  cases q.parent <;> simp [same_iff]

/-- A file lies directly in a directory when its components are the directory's and one more. -/
lemma inDir_iff_components {dir q : Path} :
    inDir dir q = true ↔
      ¬ (q.components = [] ∨ q.components = [.root]) ∧ q.components.dropLast = dir.components := by
  rw [inDir_iff, parent_map_components]
  split <;> simp_all

lemma inDir_congr (dir : Path) {q q' : Path} (h : q.same q' = true) : inDir dir q = inDir dir q' := by
  apply Bool.eq_iff_iff.mpr
  rw [inDir_iff_components, inDir_iff_components, same_iff.mp h]

/-- A name joined to a directory lies directly in it. -/
lemma inDir_join_name (dir : Path) {n : String} (h : IsName n) : inDir dir (dir.join ⟨n⟩) = true := by
  rw [inDir_iff_components, components_join_name dir h]
  refine ⟨fun hbad => ?_, by simp⟩
  rcases hbad with hbad | hbad
  · simp at hbad
  · have := congrArg List.getLast? hbad
    simp at this

lemma find?_filter_inDir (dir q : Path) :
    ∀ files : List (Path × String),
      ((files.filter fun e => !inDir dir e.1).find? fun e => e.1.same q).map Prod.snd =
        if inDir dir q then none else (files.find? fun e => e.1.same q).map Prod.snd
  | [] => by simp
  | (r, c) :: rest => by
    have ih := find?_filter_inDir dir q rest
    by_cases hrq : r.same q
    · -- `r` and `q` are the same path, so both or neither lie in the directory
      have hr : inDir dir r = inDir dir q := inDir_congr dir hrq
      by_cases hq : inDir dir q
      · rw [List.filter_cons_of_neg (by simp [hr, hq]), ih, if_pos hq, if_pos hq]
      · rw [List.filter_cons_of_pos (by simp [hr, hq])]
        simp [hq, hrq]
    · have hskip : ∀ l : List (Path × String),
          (((r, c) :: l).find? fun e => e.1.same q) = l.find? fun e => e.1.same q := fun l => by
        simp [hrq]
      by_cases hr : inDir dir r
      · rw [List.filter_cons_of_neg (by simp [hr]), ih, hskip]
      · rw [List.filter_cons_of_pos (by simp [hr]), hskip, ih, hskip]

/-- Clearing a directory empties exactly the files directly in it. -/
lemma file_clearDir (s : Store) (dir q : Path) :
    (s.clearDir dir).file q = if inDir dir q then none else s.file q := by
  simp only [file, clearDir]
  exact find?_filter_inDir dir q s.files

@[simp] lemma dirs_clearDir (s : Store) (dir : Path) : (s.clearDir dir).dirs = s.dirs := rfl

@[simp] lemma file_createDir (s : Store) (dir q : Path) : (s.createDir dir).file q = s.file q := by
  unfold createDir
  split <;> rfl

lemma dirs_createDir (s : Store) (dir : Path) :
    (s.createDir dir).dirs = if s.has dir then s.dirs else s.dirs ++ [dir] := by
  unfold createDir
  split <;> rfl

/-! ## Existence -/

lemma exists_of_file_eq_some {s : Store} {q : Path} {c : String} (h : s.file q = some c) :
    ∃ e ∈ s.files, e.1.same q = true := by
  obtain ⟨⟨r, c'⟩, he, -⟩ := Option.map_eq_some_iff.mp h
  exact ⟨(r, c'), List.mem_of_find?_eq_some he, by simpa using List.find?_some he⟩

/-- A path exists when some file lies under it. -/
lemma read_eq_ok_iff {s : Store} {p : Path} {c : String} : s.read p = .ok c ↔ s.file p = some c := by
  cases h : s.file p <;> simp [read, h]

lemma has_of_file_of_startsWith {s : Store} {q p : Path} {c : String} (h : s.file q = some c)
    (hq : q.startsWith p = true) : s.has p = true := by
  obtain ⟨e, he, hsame⟩ := exists_of_file_eq_some h
  have : e.1.startsWith p = true := (startsWith_congr hsame).trans hq
  simp only [has, Bool.or_eq_true, List.any_eq_true]
  exact .inr ⟨e, he, this⟩

lemma has_of_file_eq_some {s : Store} {q : Path} {c : String} (h : s.file q = some c) :
    s.has q = true :=
  has_of_file_of_startsWith h (startsWith_of_same (by simp [same]))

/-- A directory that does not exist holds no files. -/
lemma file_eq_none_of_inDir {s : Store} {dir q : Path} (hdir : s.has dir = false)
    (hq : inDir dir q = true) : s.file q = none := by
  cases hfile : s.file q with
  | none => rfl
  | some c =>
    obtain ⟨hne, hdrop⟩ := inDir_iff_components.mp hq
    have hunder : q.startsWith dir = true := by
      have hprefix : q.components.dropLast <+: q.components := List.dropLast_prefix _
      simpa [startsWith, hdrop, List.isPrefixOf_iff_prefix] using hprefix
    simp [has_of_file_of_startsWith hfile hunder] at hdir

/-! ## The writes of a split -/

/-- The writes of a split, in order: each chunk file in the output directory, then the
manifest. -/
def splitWrites (dir : Path) (files : List ChunkFile) (manifestPath : Path) (manifest : String) :
    List (Path × String) :=
  files.map (fun f => (dir.join ⟨f.name⟩, f.contents)) ++ [(manifestPath, manifest)]

lemma writeSplit_eq (s : Store) (dir : Path) (files : List ChunkFile) (manifestPath : Path)
    (manifest : String) :
    s.writeSplit dir files manifestPath manifest =
      (splitWrites dir files manifestPath manifest).foldl (fun s w => s.write w.1 w.2)
        (if s.has dir then s.clearDir dir else s.createDir dir) := by
  simp [writeSplit, splitWrites, List.foldl_map]

/-- After a split's writes, a path reads what was last written to it; otherwise a file directly
in the output directory is gone and any other file is as it was. -/
lemma file_writeSplit (s : Store) (dir : Path) (files : List ChunkFile) (manifestPath : Path)
    (manifest : String) (q : Path) :
    (s.writeSplit dir files manifestPath manifest).file q =
      (lastWrite (splitWrites dir files manifestPath manifest) q).or
        (if inDir dir q then none else s.file q) := by
  rw [writeSplit_eq, file_foldl_write]
  congr 1
  split
  · exact file_clearDir s dir q
  · next hdir =>
    rw [file_createDir]
    -- the directory did not exist, so nothing lay in it
    by_cases hq : inDir dir q
    · simp [hq, file_eq_none_of_inDir (by simpa using hdir) hq]
    · simp [hq]

lemma dirs_writeSplit (s : Store) (dir : Path) (files : List ChunkFile) (manifestPath : Path)
    (manifest : String) :
    (s.writeSplit dir files manifestPath manifest).dirs =
      if s.has dir then s.dirs else s.dirs ++ [dir] := by
  rw [writeSplit_eq, dirs_foldl_write]
  split
  · rfl
  · next hdir => simp [dirs_createDir, hdir]

/-- Writing the same split again reads as writing it once: the second clear only removes what
the first left in the directory, and the writes put it back. -/
lemma file_writeSplit_twice (s : Store) (dir : Path) (files : List ChunkFile) (manifestPath : Path)
    (manifest : String) (q : Path) :
    ((s.writeSplit dir files manifestPath manifest).writeSplit dir files manifestPath manifest).file q =
      (s.writeSplit dir files manifestPath manifest).file q := by
  rw [file_writeSplit _ dir, file_writeSplit s dir]
  cases lastWrite (splitWrites dir files manifestPath manifest) q with
  | some x => rfl
  | none => by_cases hq : inDir dir q <;> simp [hq]

end Store

end StyleSplit
