import StyleSplit.Malformed
import StyleSplit.Compile

/-!
# Why a split fails

A split fails when its input is missing and must exist, when the source does not compile, when
the compiled text is malformed, or when a file cannot be read.
-/

namespace StyleSplit

/-- Why a split fails. -/
inductive SplitError
  /-- The input does not exist, and it must. -/
  | missingInputFile (path : Path)
  | compile (e : CompileError)
  | malformed (m : Malformed)
  /-- A path that cannot be read: no such file. -/
  | io (path : Path)
  deriving Repr, DecidableEq

/-- The reason given for a path that cannot be read. -/
def noSuchFile : String := "no such file"

/-- The message of a split error. -/
def SplitError.message : SplitError → String
  | .missingInputFile p => "Input file not found: " ++ p.text
  | .compile e => "Style compilation failed: " ++ e.display
  | .malformed m => m.message
  | .io p => "IO error on " ++ p.text ++ ": " ++ noSuchFile

end StyleSplit
