import StyleSplit.Path

/-!
# Splitter settings

The settings of a split: the selector limit per file, the name of the output directory beside
the input, the prefix of the chunk files' names, the manifest's name, the directory that
imports resolve against, and whether a missing input is an error.
-/

namespace StyleSplit

/-- The largest number of selectors a file may hold by default. -/
def defaultSelectorLimit : Nat := 4095

/-- The settings of a split. -/
structure Config where
  selectorLimit : Nat := defaultSelectorLimit
  /-- The output directory's name, joined to the input's directory. -/
  outputDirName : String := "ie9"
  chunkPrefix : String := "style"
  manifestName : String := "style.css"
  /-- Where imports resolve: joined to the input's directory unless absolute. -/
  rootPath : Path := ⟨"."⟩
  /-- Whether a missing input is an error rather than nothing to do. -/
  strictInput : Bool := false
  deriving Repr, DecidableEq

/-- The name of the chunk file at an index: the prefix, the index in decimal and `.css`. -/
def chunkFileName (chunkPrefix : String) (index : Nat) : String :=
  chunkPrefix ++ toString index ++ ".css"

end StyleSplit
