import StyleSplit.Store
import StyleSplit.ChunkFile

/-!
# Splitting a stylesheet file

A run splits the stylesheet at an input path of a store. The output directory is the input's
directory joined with the configured name, and the manifest lies in it.

1. A missing input is nothing to do, or an error when the input must exist.
2. The input is read and compiled; the compiler is told where imports resolve and the input's
   name.
3. Comments are removed and the stylesheet read. Within the selector limit, nothing is written.
4. Over the limit, the stylesheet is partitioned and the output directory cleared of its files
   (or created); then each chunk file is written, and the manifest last.

A run returns its outcome or error, the store after it, and the request the compiler was given,
if it was called.
-/

namespace StyleSplit

/-- What a run did. -/
inductive Status
  /-- The input does not exist. -/
  | missingInput
  /-- The stylesheet is within the limit: nothing was written. -/
  | belowLimit (selectors : Nat)
  /-- The stylesheet was split into the named files. -/
  | split (selectors : Nat) (files : List String)
  deriving Repr, DecidableEq

/-- The outcome of a run: where the manifest is, and what was done. -/
structure Outcome where
  manifestPath : Path
  status : Status
  deriving Repr, DecidableEq

/-- The manifest was written exactly when the stylesheet was split. -/
def Outcome.manifestWritten (o : Outcome) : Bool :=
  match o.status with
  | .split .. => true
  | _ => false

/-- A finished run: its outcome or error, the store after it, and what the compiler was asked. -/
structure Run where
  result : Except SplitError Outcome
  store : Store
  request : Option CompileRequest

namespace Config

/-- The directory of an input: its parent, or the empty path. -/
def inputDir (input : Path) : Path :=
  input.parent.getD ⟨""⟩

/-- The directory the files of an input are written to. -/
def outputDir (c : Config) (input : Path) : Path :=
  (inputDir input).join ⟨c.outputDirName⟩

/-- The directory imports of an input resolve against: the configured root if it is absolute,
else that root under the input's directory. -/
def importRoot (c : Config) (input : Path) : Path :=
  if c.rootPath.isAbsolute then c.rootPath else (inputDir input).join c.rootPath

/-- The path of an input's manifest. -/
def manifestPath (c : Config) (input : Path) : Path :=
  (c.outputDir input).join ⟨c.manifestName⟩

end Config

namespace Store

/-- Writes the files of a split into a directory, cleared of its files first (or created), and
the manifest after them. -/
def writeSplit (s : Store) (dir : Path) (files : List ChunkFile) (manifestPath : Path)
    (manifest : String) : Store :=
  let s := if s.has dir then s.clearDir dir else s.createDir dir
  let s := files.foldl (fun s f => s.write (dir.join ⟨f.name⟩) f.contents) s
  s.write manifestPath manifest

end Store

/-- Splits the stylesheet at `input` in a store. -/
def run (c : Config) (compiler : Compiler) (s : Store) (input : Path) : Run :=
  let dir := c.outputDir input
  let manifestPath := c.manifestPath input
  if !s.has input then
    if c.strictInput then ⟨.error (.missingInputFile input), s, none⟩
    else ⟨.ok ⟨manifestPath, .missingInput⟩, s, none⟩
  else
    match s.read input with
    | .error e => ⟨.error e, s, none⟩
    | .ok source =>
      let request : CompileRequest := ⟨c.importRoot input, input.text⟩
      match compiler source request with
      | .error e => ⟨.error (.compile e), s, some request⟩
      | .ok css =>
        match Stylesheet.parse css.stripComments with
        | .error m => ⟨.error (.malformed m), s, some request⟩
        | .ok sheet =>
          if sheet.selectorCount ≤ c.selectorLimit then
            ⟨.ok ⟨manifestPath, .belowLimit sheet.selectorCount⟩, s, some request⟩
          else
            let out := sheet.split c.selectorLimit c.chunkPrefix
            ⟨.ok ⟨manifestPath, .split out.selectors (out.files.map ChunkFile.name)⟩,
              s.writeSplit dir out.files manifestPath out.manifest, some request⟩

end StyleSplit
