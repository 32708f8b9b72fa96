import StyleSplit.Splitter

/-!
# The command line

The program takes an input path and options; it splits the stylesheet at the input into files under the selector limit,
written to a directory beside it, and prints where the manifest is.

* `-l`, `--limit N`: the most selectors a file may hold;
* `-o`, `--out-dir NAME`: the output directory's name, beside the input;
* `-c`, `--compiler KIND`: how the input becomes flat stylesheet text; only `passthrough`, which
  reads the input as it is, is built in;
* `--minify`: asks the compiler to minify;
* `--root-path DIR`: where the input's imports resolve, under the input's directory;
* `--strict`: a missing input is an error.

The options are read here, and the lines to print and the files to write are computed here, so
the program itself only reads the input, runs the split, and writes.
-/

namespace StyleSplit.Cli

/-- The compilers the command line can name. -/
inductive CompilerKind
  /-- Read the input as it is. -/
  | passthrough
  deriving Repr, DecidableEq

/-- The options of the command line. -/
structure Options where
  input : String
  limit : Nat := defaultSelectorLimit
  outDir : String := "ie9"
  compiler : CompilerKind := .passthrough
  minify : Bool := false
  rootPath : String := "."
  strict : Bool := false
  deriving Repr, DecidableEq

/-- The settings of a split asked for on the command line. -/
def Options.config (o : Options) : Config :=
  { selectorLimit := o.limit, outputDirName := o.outDir, rootPath := ⟨o.rootPath⟩,
    strictInput := o.strict }

/-- The banner printed first. -/
def intro : String :=
  "\n    cssplit - keeps every stylesheet under the legacy selector limit\n"

/-- How the command line is used. -/
def usage : String :=
  "Usage: cssplit [OPTIONS] <INPUT>"

/-- Options read so far, and the input if it was given. -/
structure Partial where
  options : Options
  input : Option String

/-- Reads a number of selectors. -/
def readLimit (s : String) : Except String Nat :=
  match s.toNat? with
  | some n => if n < UInt64.size then .ok n else .error ("invalid value '" ++ s ++ "' for '--limit <LIMIT>'")
  | none => .error ("invalid value '" ++ s ++ "' for '--limit <LIMIT>'")

/-- Reads a compiler's name. -/
def readCompiler (s : String) : Except String CompilerKind :=
  match s with
  | "passthrough" => .ok .passthrough
  | "lightning" => .error "the lightning compiler is not built in; use --compiler passthrough"
  | _ => .error ("invalid value '" ++ s ++ "' for '--compiler <COMPILER>'")

/-- Applies an option that takes a value. -/
def setOption (p : Partial) (name value : String) : Except String Partial := do
  let o := p.options
  match name with
  | "--limit" | "-l" => return { p with options := { o with limit := ← readLimit value } }
  | "--out-dir" | "-o" => return { p with options := { o with outDir := value } }
  | "--compiler" | "-c" => return { p with options := { o with compiler := ← readCompiler value } }
  | "--root-path" => return { p with options := { o with rootPath := value } }
  | _ => throw ("unexpected argument '" ++ name ++ "' found\n\n" ++ usage)

/-- The options that take a value. -/
def takesValue (name : String) : Bool :=
  ["--limit", "-l", "--out-dir", "-o", "--compiler", "-c", "--root-path"].contains name

/-- Reads the arguments after those already read. -/
def readArgs (p : Partial) : List String → Except String Partial
  | [] => .ok p
  | "--minify" :: rest => readArgs { p with options := { p.options with minify := true } } rest
  | "--strict" :: rest => readArgs { p with options := { p.options with strict := true } } rest
  | arg :: rest =>
    match arg.splitOn "=" with
    | name :: value@(_ :: _) =>
      if takesValue name && name.startsWith "--" then do
        readArgs (← setOption p name ("=".intercalate value)) rest
      else readPositional p arg rest
    | _ =>
      if takesValue arg then
        match rest with
        | value :: rest' => do readArgs (← setOption p arg value) rest'
        | [] => .error ("a value is required for '" ++ arg ++ "' but none was supplied")
      else readPositional p arg rest
where
  /-- An argument that is not an option is the input, given once. -/
  readPositional (p : Partial) (arg : String) (rest : List String) : Except String Partial :=
    if arg.startsWith "-" && arg != "-" then
      .error ("unexpected argument '" ++ arg ++ "' found\n\n" ++ usage)
    else
      match p.input with
      | none => readArgs { p with input := some arg, options := { p.options with input := arg } } rest
      | some _ => .error ("unexpected argument '" ++ arg ++ "' found\n\n" ++ usage)

/-- Reads the command line's arguments. -/
def parseArgs (args : List String) : Except String Options := do
  let p ← readArgs ⟨{ input := "" }, none⟩ args
  match p.input with
  | some _ => return p.options
  | none => throw ("the following required arguments were not provided:\n  <INPUT>\n\n" ++ usage)

/-- The lines printed after a run. -/
def report (o : Options) (outcome : Outcome) : List String :=
  let status := match outcome.status with
    | .missingInput => []
    | .belowLimit n =>
      [toString n ++ " selectors, within the limit of " ++ toString o.limit ++ ". Nothing to split."]
    | .split n files => ["Split " ++ toString n ++ " selectors into " ++ toString files.length ++ " files."]
  status ++ [outcome.manifestPath.text]

/-- The line printed when a run fails. -/
def failure (e : SplitError) : String :=
  "Error splitting stylesheet: " ++ e.message

/-- The files of the store after a run that are new or changed, with their contents. -/
def changedFiles (before after : Store) : List (Path × String) :=
  after.files.filter fun (p, contents) => before.file p != some contents

end StyleSplit.Cli
