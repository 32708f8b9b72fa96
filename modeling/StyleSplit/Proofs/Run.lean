import StyleSplit.Proofs.Store
import StyleSplit.Proofs.Partition

/-!
# What a run does to the store

`StyleSplit.run` reads its input, and only when the stylesheet is over the limit does it touch
the store: it clears (or creates) the output directory and writes the chunk files and the
manifest. This module says exactly what the store holds after every run.

* `SplitsTo c compiler s input sheet` names the one way a run splits: the input exists, reads,
  compiles and parses to `sheet`, and `sheet` is over the limit. `run_of_splitsTo` gives the run
  in that case and `run_of_not_splitsTo` in every other: then the store is untouched.
* `SplitLeaves` is the store a split leaves behind. `splitLeaves_writeSplit` proves it from the
  store laws: chunk file names are names (`isName_chunkFileName`) and differ from one another
  (`chunkFileName_injective`), so each written path is read back with what was written there.
* `run_store_effect` puts the three together; `run_rerun` says that running again on the store a
  run left changes nothing, as long as the run neither clears nor overwrites its own input and
  some written file lies inside the output directory.
-/

namespace StyleSplit

open StyleSplit.Path Store

/-! ## Chunk file names -/

section Names

lemma toList_chunkFileName (chunkPrefix : String) (i : Nat) :
    (chunkFileName chunkPrefix i).toList =
      chunkPrefix.toList ++ Nat.toDigits 10 i ++ ['.', 'c', 's', 's'] := by
  simp [chunkFileName]

/-- Chunk files are told apart by their index. -/
lemma chunkFileName_injective (chunkPrefix : String) {i j : Nat}
    (h : chunkFileName chunkPrefix i = chunkFileName chunkPrefix j) : i = j := by
  have hlist := congrArg String.toList h
  rw [toList_chunkFileName, toList_chunkFileName] at hlist
  have hdigits : Nat.toDigits 10 i = Nat.toDigits 10 j :=
    List.append_cancel_left (List.append_cancel_right hlist)
  -- the decimal digits are read back to the index
  calc i = Nat.ofDigitChars 10 (Nat.toDigits 10 i) 0 := Nat.ofDigitChars_ten_toDigits.symm
    _ = Nat.ofDigitChars 10 (Nat.toDigits 10 j) 0 := by rw [hdigits]
    _ = j := Nat.ofDigitChars_ten_toDigits

/-- A chunk file's name, under a prefix with no separator, is one normal component. -/
lemma isName_chunkFileName {chunkPrefix : String} (h : '/' ∉ chunkPrefix.toList) (i : Nat) :
    IsName (chunkFileName chunkPrefix i) := by
  have hdigit : '/' ∉ Nat.toDigits 10 i := fun hmem => by
    have := Nat.isDigit_of_mem_toDigits (by decide) (by decide) hmem
    simp [Char.isDigit] at this
  -- the name ends in `.css`, so it is neither empty, `.` nor `..`
  have hend : ∀ l : List Char, l ++ ['.', 'c', 's', 's'] ≠ [] ∧ l ++ ['.', 'c', 's', 's'] ≠ ['.'] ∧
      l ++ ['.', 'c', 's', 's'] ≠ ['.', '.'] := fun l => by
    refine ⟨by simp, fun hl => ?_, fun hl => ?_⟩ <;>
      · have := congrArg List.getLast? hl
        simp at this
  rw [IsName, toList_chunkFileName]
  exact ⟨by simp [h, hdigit], hend _⟩

lemma isAbsolute_chunkFileName (chunkPrefix : String) (i : Nat) :
    (⟨chunkFileName chunkPrefix i⟩ : Path).isAbsolute = (⟨chunkPrefix⟩ : Path).isAbsolute := by
  have hne : Nat.toDigits 10 i ≠ [] := Nat.toDigits_ne_nil
  obtain ⟨d, ds, hd⟩ := List.exists_cons_of_ne_nil hne
  have hdigit : d ≠ '/' := fun hslash => by
    have : d.isDigit = true :=
      Nat.isDigit_of_mem_toDigits (by decide) (by decide) (show d ∈ Nat.toDigits 10 i by simp [hd])
    simp [hslash, Char.isDigit] at this
  simp only [isAbsolute, toList_chunkFileName, hd]
  cases chunkPrefix.toList <;> simp [hdigit]

lemma names_nameChunks (chunkPrefix : String) (namespaces : List String) (chunks : List OutputChunk) :
    (nameChunks chunkPrefix namespaces chunks).map ChunkFile.name =
      (List.range chunks.length).map (chunkFileName chunkPrefix) := by
  rw [List.range_eq_range', ← List.zipIdx_map_snd 0 chunks, List.map_map]
  simp only [nameChunks, List.map_map]
  rfl

end Names

/-! ## Written paths -/

section Writes

lemma lastWrite_eq_some {ws : List (Path × String)} {q : Path} {c : String}
    (hmem : ∃ w ∈ ws, w.1.same q = true) (hall : ∀ w ∈ ws, w.1.same q = true → w.2 = c) :
    lastWrite ws q = some c := by
  obtain ⟨w, hw, hsame⟩ := hmem
  cases hfound : ws.reverse.find? (fun w => w.1.same q) with
  | none =>
    have := List.find?_eq_none.mp hfound w (List.mem_reverse.mpr hw)
    simp [hsame] at this
  | some w' =>
    have hw' := List.mem_reverse.mp (List.mem_of_find?_eq_some hfound)
    have hsame' : w'.1.same q = true := by simpa using List.find?_some hfound
    simp [lastWrite, hfound, hall w' hw' hsame']

lemma lastWrite_eq_none {ws : List (Path × String)} {q : Path}
    (h : ∀ w ∈ ws, w.1.same q = false) : lastWrite ws q = none := by
  simp only [lastWrite, Option.map_eq_none_iff, List.find?_eq_none]
  exact fun w hw => by simp [h w (List.mem_reverse.mp hw)]

/-- Two names joined to one directory name one path only when they are the same name. -/
lemma same_join_name_iff (dir : Path) {n m : String} (hn : IsName n) (hm : IsName m) :
    (dir.join ⟨n⟩).same (dir.join ⟨m⟩) = true ↔ n = m := by
  rw [same_iff, components_join_name dir hn, components_join_name dir hm]
  simp

lemma mem_splitWrites_nameChunks {dir manifestPath : Path} {manifest chunkPrefix : String}
    {namespaces : List String} {chunks : List OutputChunk} {w : Path × String}
    (hw : w ∈ splitWrites dir (nameChunks chunkPrefix namespaces chunks) manifestPath manifest) :
    (∃ i, ∃ h : i < chunks.length, w = (dir.join ⟨chunkFileName chunkPrefix i⟩,
      String.join (namespaces.map (· ++ "\n")) ++ chunks[i].text)) ∨ w = (manifestPath, manifest) := by
  simp only [splitWrites, nameChunks, List.map_map, List.mem_append, List.mem_map,
    List.mem_singleton] at hw
  rcases hw with ⟨⟨ch, i⟩, hmem, rfl⟩ | rfl
  · obtain ⟨-, hi, hch⟩ := List.mem_zipIdx hmem
    refine .inl ⟨i, by simpa using hi, ?_⟩
    simp [hch]
  · exact .inr rfl

lemma mem_splitWrites_chunk {dir manifestPath : Path} {manifest chunkPrefix : String}
    {namespaces : List String} {chunks : List OutputChunk} {i : Nat} (h : i < chunks.length) :
    (dir.join ⟨chunkFileName chunkPrefix i⟩, String.join (namespaces.map (· ++ "\n")) ++ chunks[i].text) ∈
      splitWrites dir (nameChunks chunkPrefix namespaces chunks) manifestPath manifest := by
  simp only [splitWrites, nameChunks, List.map_map, List.mem_append, List.mem_map]
  exact .inl ⟨(chunks[i], i), List.mk_mem_zipIdx_iff_getElem?.mpr (by simp [h]), rfl⟩

lemma lastWrite_isSome_of_mem {ws : List (Path × String)} {w : Path × String} (hw : w ∈ ws) :
    (lastWrite ws w.1).isSome = true := by
  cases hfound : ws.reverse.find? (fun w' => w'.1.same w.1) with
  | none =>
    have := List.find?_eq_none.mp hfound w (List.mem_reverse.mpr hw)
    simp [same] at this
  | some w' => simp [lastWrite, hfound]

/-- A path that a split writes exists after it, and so does every path above it. -/
lemma has_writeSplit_of_mem {s : Store} {dir manifestPath base : Path} {files : List ChunkFile}
    {manifest : String} {w : Path × String} (hw : w ∈ splitWrites dir files manifestPath manifest)
    (hunder : w.1.startsWith base = true) :
    (s.writeSplit dir files manifestPath manifest).has base = true := by
  obtain ⟨x, hx⟩ := Option.isSome_iff_exists.mp (lastWrite_isSome_of_mem hw)
  exact has_of_file_of_startsWith (by rw [file_writeSplit, hx]; rfl) hunder

lemma mem_splitWrites_manifest (dir : Path) (files : List ChunkFile) (manifestPath : Path)
    (manifest : String) : (manifestPath, manifest) ∈ splitWrites dir files manifestPath manifest := by
  simp [splitWrites]

end Writes

/-! ## Runs -/

/-- The run splits `sheet`: the input exists, and it reads, compiles and parses to `sheet`, whose
selectors are over the limit. -/
def SplitsTo (c : Config) (compiler : Compiler) (s : Store) (input : Path) (sheet : Stylesheet) :
    Prop :=
  s.has input = true ∧ ∃ source css, s.read input = .ok source ∧
    compiler source ⟨c.importRoot input, input.text⟩ = .ok css ∧
    Stylesheet.parse css.stripComments = .ok sheet ∧ c.selectorLimit < sheet.selectorCount

section Run

variable {c : Config} {compiler : Compiler} {s : Store} {input : Path}

lemma run_of_splitsTo {sheet : Stylesheet} (h : SplitsTo c compiler s input sheet) :
    run c compiler s input =
      ⟨.ok ⟨c.manifestPath input, .split sheet.selectorCount
          ((sheet.split c.selectorLimit c.chunkPrefix).files.map ChunkFile.name)⟩,
        s.writeSplit (c.outputDir input) (sheet.split c.selectorLimit c.chunkPrefix).files
          (c.manifestPath input) (sheet.split c.selectorLimit c.chunkPrefix).manifest,
        some ⟨c.importRoot input, input.text⟩⟩ := by
  obtain ⟨hhas, source, css, hread, hcompile, hparse, hover⟩ := h
  simp [run, hhas, hread, hcompile, hparse, Nat.not_le.mpr hover, Stylesheet.split]

/-- A run that does not split leaves the store as it was, and stops with the input missing or
the stylesheet within the limit, or with an error. -/
lemma run_of_not_splitsTo (h : ∀ sheet, ¬ SplitsTo c compiler s input sheet) :
    (run c compiler s input).store = s ∧ ∀ o, (run c compiler s input).result = .ok o →
      o.manifestPath = c.manifestPath input ∧
        (o.status = .missingInput ∨ ∃ n, o.status = .belowLimit n) := by
  by_cases hhas : s.has input
  · cases hread : s.read input with
    | error e => simp [run, hhas, hread]
    | ok source =>
      cases hcompile : compiler source ⟨c.importRoot input, input.text⟩ with
      | error e => simp [run, hhas, hread, hcompile]
      | ok css =>
        cases hparse : Stylesheet.parse css.stripComments with
        | error m => simp [run, hhas, hread, hcompile, hparse]
        | ok sheet =>
          -- read and parsed: only the limit can have stopped it
          have hle : sheet.selectorCount ≤ c.selectorLimit := Nat.not_lt.mp fun hover =>
            h sheet ⟨hhas, source, css, hread, hcompile, hparse, hover⟩
          simp [run, hhas, hread, hcompile, hparse, hle]
  · cases hstrict : c.strictInput <;> simp [run, hhas, hstrict]

/-- A split reads nothing of the store but its input. -/
lemma SplitsTo.of_file_eq {s' : Store} {sheet : Stylesheet} (h : SplitsTo c compiler s input sheet)
    (hfile : s'.file input = s.file input) : SplitsTo c compiler s' input sheet := by
  obtain ⟨-, source, css, hread, hcompile, hparse, hover⟩ := h
  have hsource : s'.file input = some source := by
    rw [hfile, ← read_eq_ok_iff]
    exact hread
  exact ⟨has_of_file_eq_some hsource, source, css, read_eq_ok_iff.mpr hsource, hcompile, hparse,
    hover⟩

end Run

/-! ## The store a split leaves -/

/-- The store `s'` that splitting `sheet` from `input` leaves, starting from `s`: each chunk file
holds the namespace declarations, one a line, and its chunk's text; the manifest path holds the
manifest; a file directly in the output directory that was not written is gone; every other file
is as it was; and the output directory is listed once it did not exist. -/
structure SplitLeaves (c : Config) (s : Store) (input : Path) (sheet : Stylesheet) (s' : Store) :
    Prop where
  chunk : ∀ i (h : i < (sheet.partition c.selectorLimit).length),
    s'.file ((c.outputDir input).join ⟨chunkFileName c.chunkPrefix i⟩) =
      some (String.join (sheet.namespaces.map (· ++ "\n")) ++ (sheet.partition c.selectorLimit)[i].text)
  manifest : s'.file (c.manifestPath input) =
    some (renderManifest (nameChunks c.chunkPrefix sheet.namespaces (sheet.partition c.selectorLimit))
      sheet)
  other : ∀ p : Path,
    (∀ i < (sheet.partition c.selectorLimit).length,
      p.same ((c.outputDir input).join ⟨chunkFileName c.chunkPrefix i⟩) = false) →
    p.same (c.manifestPath input) = false →
    s'.file p = if inDir (c.outputDir input) p then none else s.file p
  dirs : s'.dirs = if s.has (c.outputDir input) then s.dirs else s.dirs ++ [c.outputDir input]

/-- A split's writes leave the store `SplitLeaves` describes, when the chunk files and the
manifest are names in the output directory and the manifest's name is no chunk file's. -/
lemma splitLeaves_writeSplit (c : Config) (s : Store) (input : Path) (sheet : Stylesheet)
    (hslash : '/' ∉ c.chunkPrefix.toList) (hmanifest : IsName c.manifestName)
    (hdistinct : ∀ i, c.manifestName ≠ chunkFileName c.chunkPrefix i) :
    SplitLeaves c s input sheet
      (s.writeSplit (c.outputDir input) (sheet.split c.selectorLimit c.chunkPrefix).files
        (c.manifestPath input) (sheet.split c.selectorLimit c.chunkPrefix).manifest) := by
  have hsame : ∀ {i j}, ((c.outputDir input).join ⟨chunkFileName c.chunkPrefix i⟩).same
      ((c.outputDir input).join ⟨chunkFileName c.chunkPrefix j⟩) = true → i = j := fun h =>
    chunkFileName_injective _ ((same_join_name_iff _ (isName_chunkFileName hslash _)
      (isName_chunkFileName hslash _)).mp h)
  have hmanifest_chunk : ∀ i, (c.manifestPath input).same
      ((c.outputDir input).join ⟨chunkFileName c.chunkPrefix i⟩) = false := fun i => by
    have := (same_join_name_iff (c.outputDir input) hmanifest (isName_chunkFileName hslash i)).not.mpr
      (hdistinct i)
    simpa [Config.manifestPath] using this
  simp only [Stylesheet.split]
  refine ⟨fun i hi => ?_, ?_, fun p hchunks hman => ?_, dirs_writeSplit ..⟩
  · -- the only write to a chunk's path is that chunk's
    rw [file_writeSplit, lastWrite_eq_some ⟨_, mem_splitWrites_chunk hi, by simp [same]⟩]
    · rfl
    · intro w hw hwsame
      rcases mem_splitWrites_nameChunks hw with ⟨j, hj, rfl⟩ | rfl
      · obtain rfl := hsame hwsame
        rfl
      · simp [hmanifest_chunk i] at hwsame
  · rw [file_writeSplit, lastWrite_eq_some ⟨_, mem_splitWrites_manifest .., by simp [same]⟩]
    · rfl
    · intro w hw hwsame
      rcases mem_splitWrites_nameChunks hw with ⟨j, hj, rfl⟩ | rfl
      · rw [same_comm] at hwsame
        simp [hmanifest_chunk j] at hwsame
      · rfl
  · -- no write reaches `p`
    rw [file_writeSplit, lastWrite_eq_none]
    · rfl
    · intro w hw
      rcases mem_splitWrites_nameChunks hw with ⟨j, hj, rfl⟩ | rfl
      · rw [same_comm]
        exact hchunks j hj
      · rw [same_comm]
        exact hman

/-- A run of the splitter on an input of a store:

1. it leaves the store exactly as it was when it fails, when the input is missing and when the
   stylesheet is within the limit, and every outcome names the manifest path in the output
   directory;
2. it splits exactly when the input exists and reads, compiles and parses to a stylesheet over the
   limit, and then reports the stylesheet's selectors and the chunk file names in order;
3. after a split, when the chunk prefix has no separator and the manifest's name is a single name
   that is no chunk file's, each chunk file holds the namespace declarations and its chunk, the
   manifest holds the manifest, the other files directly in the output directory are gone, every
   other file is as it was, and the output directory is listed once it did not exist. -/
theorem run_store_effect (c : Config) (compiler : Compiler) (s : Store) (input : Path) :
    ((∀ e, (run c compiler s input).result = .error e → (run c compiler s input).store = s) ∧
      ∀ o, (run c compiler s input).result = .ok o →
        o.manifestPath = c.manifestPath input ∧
        ((o.status = .missingInput ∨ ∃ n, o.status = .belowLimit n) →
          (run c compiler s input).store = s)) ∧
    (∀ selectors names,
      (∃ o, (run c compiler s input).result = .ok o ∧ o.status = .split selectors names) ↔
        ∃ sheet, SplitsTo c compiler s input sheet ∧ selectors = sheet.selectorCount ∧
          names = (List.range (sheet.partition c.selectorLimit).length).map
            (chunkFileName c.chunkPrefix)) ∧
    (∀ sheet, SplitsTo c compiler s input sheet → '/' ∉ c.chunkPrefix.toList →
      IsName c.manifestName → (∀ i, c.manifestName ≠ chunkFileName c.chunkPrefix i) →
      SplitLeaves c s input sheet (run c compiler s input).store) := by
  refine ⟨?_, fun selectors names => ⟨?_, ?_⟩, fun sheet hsplit hslash hmanifest hdistinct => ?_⟩
  · by_cases hsplit : ∃ sheet, SplitsTo c compiler s input sheet
    · -- a split succeeds and reports a split
      obtain ⟨sheet, hsplit⟩ := hsplit
      rw [run_of_splitsTo hsplit]
      refine ⟨fun _ he => (nomatch he), fun o ho => ?_⟩
      cases ho
      exact ⟨rfl, by simp⟩
    · have hnot := run_of_not_splitsTo (not_exists.mp hsplit)
      exact ⟨fun _ _ => hnot.1, fun o ho => ⟨(hnot.2 o ho).1, fun _ => hnot.1⟩⟩
  · rintro ⟨o, ho, hstatus⟩
    by_cases hsplit : ∃ sheet, SplitsTo c compiler s input sheet
    · obtain ⟨sheet, hsplit⟩ := hsplit
      rw [run_of_splitsTo hsplit] at ho
      cases ho
      simp only [Status.split.injEq] at hstatus
      refine ⟨sheet, hsplit, hstatus.1.symm, ?_⟩
      rw [← hstatus.2]
      exact names_nameChunks ..
    · rcases ((run_of_not_splitsTo (not_exists.mp hsplit)).2 o ho).2 with h | ⟨n, h⟩ <;>
        simp [h] at hstatus
  · rintro ⟨sheet, hsplit, rfl, rfl⟩
    rw [run_of_splitsTo hsplit]
    exact ⟨_, rfl, by simp [Stylesheet.split, names_nameChunks]⟩
  · rw [run_of_splitsTo hsplit]
    exact splitLeaves_writeSplit c s input sheet hslash hmanifest hdistinct

/-- A stylesheet over the limit, split in a store under a manifest named `index.css`. -/
theorem run_store_effect_site :
    SplitsTo { selectorLimit := 1, manifestName := "index.css" } Compiler.passthrough
        (Store.ofFiles [(⟨"/site/main.css"⟩, ".a\x7b\x7d .b\x7b\x7d")]) ⟨"/site/main.css"⟩
        { rules := [⟨".a", "\x7b\x7d"⟩, ⟨" .b", "\x7b\x7d"⟩] } ∧
      '/' ∉ "style".toList ∧ IsName "index.css" ∧ (∀ i, "index.css" ≠ chunkFileName "style" i) ∧
      SplitLeaves { selectorLimit := 1, manifestName := "index.css" }
        (Store.ofFiles [(⟨"/site/main.css"⟩, ".a\x7b\x7d .b\x7b\x7d")]) ⟨"/site/main.css"⟩
        { rules := [⟨".a", "\x7b\x7d"⟩, ⟨" .b", "\x7b\x7d"⟩] }
        (run { selectorLimit := 1, manifestName := "index.css" } Compiler.passthrough
          (Store.ofFiles [(⟨"/site/main.css"⟩, ".a\x7b\x7d .b\x7b\x7d")]) ⟨"/site/main.css"⟩).store := by
  have hsplit : SplitsTo { selectorLimit := 1, manifestName := "index.css" } Compiler.passthrough
      (Store.ofFiles [(⟨"/site/main.css"⟩, ".a\x7b\x7d .b\x7b\x7d")]) ⟨"/site/main.css"⟩
      { rules := [⟨".a", "\x7b\x7d"⟩, ⟨" .b", "\x7b\x7d"⟩] } :=
    ⟨by decide, ".a\x7b\x7d .b\x7b\x7d", ".a\x7b\x7d .b\x7b\x7d", by decide, rfl, by decide +kernel, by decide⟩
  have hdistinct : ∀ i, "index.css" ≠ chunkFileName "style" i := fun i h => by
    have := congrArg (fun t : String => t.toList.head?) h
    simp [toList_chunkFileName] at this
  have hname : IsName "index.css" := by decide
  exact ⟨hsplit, by decide, hname, hdistinct,
    (run_store_effect _ _ _ _).2.2 _ hsplit (by decide) hname hdistinct⟩

/-- A split whose chunk prefix or manifest name is relative leaves its output directory in
place: it was there and a file is written under it, or the split created it. -/
lemma has_outputDir_of_splitsTo {c : Config} {compiler : Compiler} {s : Store} {input : Path}
    {sheet : Stylesheet} (hsplit : SplitsTo c compiler s input sheet)
    (hrelative : (⟨c.chunkPrefix⟩ : Path).isAbsolute = false ∨
      (⟨c.manifestName⟩ : Path).isAbsolute = false) :
    (run c compiler s input).store.has (c.outputDir input) = true := by
  rw [run_of_splitsTo hsplit]
  by_cases hbefore : s.has (c.outputDir input)
  · have hchunk₀ : 0 < (sheet.partition c.selectorLimit).length := by
      have := List.length_pos_iff.mpr (Stylesheet.ruleChunks_ne_nil c.selectorLimit sheet)
      simp only [Stylesheet.partition_eq, List.length_append, List.length_map]
      omega
    rcases hrelative with hrel | hrel
    · refine has_writeSplit_of_mem (mem_splitWrites_chunk hchunk₀) (startsWith_join _ ?_)
      rw [isAbsolute_chunkFileName, hrel]
    · exact has_writeSplit_of_mem (mem_splitWrites_manifest ..) (startsWith_join _ hrel)
  · have hdirs := dirs_writeSplit s (c.outputDir input)
      (sheet.split c.selectorLimit c.chunkPrefix).files (c.manifestPath input)
      (sheet.split c.selectorLimit c.chunkPrefix).manifest
    rw [if_neg hbefore] at hdirs
    simp [has, hdirs, same]

/-- Running the splitter again on the store a run left gives the same outcome and the same
request to the compiler, and leaves every file and the directory list as they were, provided the
run neither clears nor overwrites its own input (the input does not lie directly in the output
directory and is none of the chunk files and not the manifest) and the chunk prefix or the
manifest's name is relative, so that the output directory still exists after the run. -/
theorem run_rerun (c : Config) (compiler : Compiler) (s : Store) (input : Path)
    (hdir : inDir (c.outputDir input) input = false)
    (hchunks : ∀ i, ((c.outputDir input).join ⟨chunkFileName c.chunkPrefix i⟩).same input = false)
    (hmanifest : (c.manifestPath input).same input = false)
    (hrelative : (⟨c.chunkPrefix⟩ : Path).isAbsolute = false ∨
      (⟨c.manifestName⟩ : Path).isAbsolute = false) :
    (run c compiler (run c compiler s input).store input).result = (run c compiler s input).result ∧
    (run c compiler (run c compiler s input).store input).request = (run c compiler s input).request ∧
    (∀ p, (run c compiler (run c compiler s input).store input).store.file p =
      (run c compiler s input).store.file p) ∧
    (run c compiler (run c compiler s input).store input).store.dirs =
      (run c compiler s input).store.dirs := by
  by_cases hsplit : ∃ sheet, SplitsTo c compiler s input sheet
  · obtain ⟨sheet, hsplit⟩ := hsplit
    -- the input is neither cleared nor overwritten, so the second run splits the same sheet
    have hinput : (run c compiler s input).store.file input = s.file input := by
      rw [run_of_splitsTo hsplit, file_writeSplit, hdir]
      have hnone : lastWrite (splitWrites (c.outputDir input)
          (sheet.split c.selectorLimit c.chunkPrefix).files (c.manifestPath input)
          (sheet.split c.selectorLimit c.chunkPrefix).manifest) input = none :=
        lastWrite_eq_none fun w hw => by
          rcases mem_splitWrites_nameChunks hw with ⟨j, -, rfl⟩ | rfl
          · exact hchunks j
          · exact hmanifest
      rw [hnone]
      rfl
    have hexists := has_outputDir_of_splitsTo hsplit hrelative
    rw [run_of_splitsTo (hsplit.of_file_eq hinput)]
    rw [run_of_splitsTo hsplit] at hexists ⊢
    exact ⟨rfl, rfl, fun _ => file_writeSplit_twice .., by rw [dirs_writeSplit, if_pos hexists]⟩
  · -- no split: the first run left the store as it was, and the second is the same run
    have hsame : run c compiler (run c compiler s input).store input = run c compiler s input := by
      rw [(run_of_not_splitsTo (not_exists.mp hsplit)).1]
    rw [hsame]
    exact ⟨rfl, rfl, fun _ => rfl, rfl⟩

/-- A rerun of a real split, two selectors against a limit of one, in a site whose input lies
outside the output directory and whose outputs are named inside it. -/
theorem run_rerun_site :
    SplitsTo { selectorLimit := 1 } Compiler.passthrough
        (Store.ofFiles [(⟨"/site/main.css"⟩, ".a\x7b\x7d .b\x7b\x7d")]) ⟨"/site/main.css"⟩
        { rules := [⟨".a", "\x7b\x7d"⟩, ⟨" .b", "\x7b\x7d"⟩] } ∧
    inDir (({ selectorLimit := 1 } : Config).outputDir ⟨"/site/main.css"⟩) ⟨"/site/main.css"⟩ =
      false ∧
    (∀ i, ((({ selectorLimit := 1 } : Config).outputDir ⟨"/site/main.css"⟩).join
      ⟨chunkFileName ({ selectorLimit := 1 } : Config).chunkPrefix i⟩).same ⟨"/site/main.css"⟩ =
        false) ∧
    (({ selectorLimit := 1 } : Config).manifestPath ⟨"/site/main.css"⟩).same ⟨"/site/main.css"⟩ =
      false ∧
    (⟨({ selectorLimit := 1 } : Config).chunkPrefix⟩ : Path).isAbsolute = false ∧
    (run { selectorLimit := 1 } Compiler.passthrough (run { selectorLimit := 1 } Compiler.passthrough
      (Store.ofFiles [(⟨"/site/main.css"⟩, ".a\x7b\x7d .b\x7b\x7d")]) ⟨"/site/main.css"⟩).store
        ⟨"/site/main.css"⟩).result =
      (run { selectorLimit := 1 } Compiler.passthrough
        (Store.ofFiles [(⟨"/site/main.css"⟩, ".a\x7b\x7d .b\x7b\x7d")]) ⟨"/site/main.css"⟩).result := by
  have hsplit : SplitsTo { selectorLimit := 1 } Compiler.passthrough
      (Store.ofFiles [(⟨"/site/main.css"⟩, ".a\x7b\x7d .b\x7b\x7d")]) ⟨"/site/main.css"⟩
      { rules := [⟨".a", "\x7b\x7d"⟩, ⟨" .b", "\x7b\x7d"⟩] } :=
    ⟨by decide, ".a\x7b\x7d .b\x7b\x7d", ".a\x7b\x7d .b\x7b\x7d", by decide, rfl, by decide +kernel,
      by decide⟩
  have hdir : inDir (({ selectorLimit := 1 } : Config).outputDir ⟨"/site/main.css"⟩)
      ⟨"/site/main.css"⟩ = false := by
    decide
  -- a chunk file has one component more than the input
  have hchunks : ∀ i, ((({ selectorLimit := 1 } : Config).outputDir ⟨"/site/main.css"⟩).join
      ⟨chunkFileName ({ selectorLimit := 1 } : Config).chunkPrefix i⟩).same ⟨"/site/main.css"⟩ =
        false := by
    intro i
    refine Bool.eq_false_iff.mpr fun h => ?_
    have hlen := congrArg List.length (same_iff.mp h)
    rw [components_join_name _ (isName_chunkFileName (by decide) i), List.length_append,
      List.length_singleton] at hlen
    revert hlen
    decide
  have hmanifest : (({ selectorLimit := 1 } : Config).manifestPath ⟨"/site/main.css"⟩).same
      ⟨"/site/main.css"⟩ = false := by
    decide
  exact ⟨hsplit, hdir, hchunks, hmanifest, by decide,
    (run_rerun { selectorLimit := 1 } Compiler.passthrough _ ⟨"/site/main.css"⟩ hdir hchunks
      hmanifest (.inl (by decide))).1⟩

/-- With the output directory named `.`, the output directory is the input's own: the first
run clears the input away with the other files there, and running again finds it missing. -/
theorem rerun_after_clearing_input :
    (run { selectorLimit := 0, outputDirName := "." } Compiler.passthrough
      (run { selectorLimit := 0, outputDirName := "." } Compiler.passthrough
        (Store.ofFiles [(⟨"/site/main.css"⟩, ".a\x7b\x7d")]) ⟨"/site/main.css"⟩).store
      ⟨"/site/main.css"⟩).result ≠
    (run { selectorLimit := 0, outputDirName := "." } Compiler.passthrough
      (Store.ofFiles [(⟨"/site/main.css"⟩, ".a\x7b\x7d")]) ⟨"/site/main.css"⟩).result := by
  decide +kernel

end StyleSplit
