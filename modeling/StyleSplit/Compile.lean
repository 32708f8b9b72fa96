import StyleSplit.Path

/-!
# Compiling stylesheet sources

Before it is split, a source is compiled into flat stylesheet text. A compiler is given the
source and a request naming the directory that imports resolve against and the file's name;
it returns the text, or an error with an optional place in the source.
-/

namespace StyleSplit

/-- Why a source could not be compiled, and where, when known. -/
structure CompileError where
  message : String
  line : Option UInt32 := none
  column : Option UInt32 := none
  deriving Repr, DecidableEq

/-- The message of a compile error, followed by its line and column when both are known. -/
def CompileError.display (e : CompileError) : String :=
  match e.line, e.column with
  | some l, some c => e.message ++ " (line " ++ toString l.toNat ++ ", column " ++ toString c.toNat ++ ")"
  | _, _ => e.message

/-- What a compiler is told about the source it compiles. -/
structure CompileRequest where
  /-- The directory that imports resolve against. -/
  rootPath : Path
  /-- The name of the source file, as given. -/
  filename : String
  deriving Repr, DecidableEq

/-- A compiler: from a source and a request to flat stylesheet text. -/
abbrev Compiler := String → CompileRequest → Except CompileError String

namespace Compiler

/-- The compiler that returns its source unchanged. -/
def passthrough : Compiler :=
  fun source _ => .ok source

/-- The compiler that always fails with the given error. -/
def failing (e : CompileError) : Compiler :=
  fun _ _ => .error e

end Compiler

end StyleSplit
