import StyleSplit.Config
import StyleSplit.Comment
import StyleSplit.Sheet.Parse
import StyleSplit.Partition

/-!
# Chunk files and the manifest

Each chunk of a split stylesheet becomes a file, named by the prefix and its index, holding the
stylesheet's `@namespace` declarations, one a line, then the chunk's text. The manifest stands in
for the stylesheet: its leading statements, an `@import` of each file in order, then its other
statements, each on a line of its own.

`StyleSplit.split` runs the whole of it on source text: comments removed, the stylesheet read,
partitioned under the limit, named and listed in a manifest.
-/

namespace StyleSplit

/-- A file of a split stylesheet. -/
structure ChunkFile where
  name : String
  contents : String
  selectorCount : Nat
  deriving Repr, DecidableEq

/-- The files for chunks: each named by the prefix and its index, its contents the namespace
declarations, one a line, then the chunk's text. -/
def nameChunks (chunkPrefix : String) (namespaces : List String) (chunks : List OutputChunk) :
    List ChunkFile :=
  let prelude := String.join (namespaces.map (· ++ "\n"))
  chunks.zipIdx.map fun (c, i) => ⟨chunkFileName chunkPrefix i, prelude ++ c.text, c.selectorCount⟩

/-- The line importing a file. -/
def importLine (name : String) : String :=
  "@import url(\"" ++ name ++ "\");\n"

/-- The manifest of a split stylesheet: its leading statements, an import of each file, then
its other statements, a line each. -/
def renderManifest (files : List ChunkFile) (sheet : Stylesheet) : String :=
  String.join (sheet.statements.map (· ++ "\n")) ++
    String.join (files.map fun f => importLine f.name) ++
    String.join (sheet.otherStatements.map (· ++ "\n"))

/-- Everything a split produces from a stylesheet. -/
structure Split where
  /-- The stylesheet's selectors. -/
  selectors : Nat
  chunks : List OutputChunk
  files : List ChunkFile
  manifest : String
  deriving Repr, DecidableEq

/-- Splits a read stylesheet under a limit. -/
def Stylesheet.split (limit : Nat) (chunkPrefix : String) (sheet : Stylesheet) : Split :=
  let chunks := sheet.partition limit
  let files := nameChunks chunkPrefix sheet.namespaces chunks
  ⟨sheet.selectorCount, chunks, files, renderManifest files sheet⟩

/-- Splits stylesheet source text under a limit, its comments first removed. -/
def split (limit : Nat) (chunkPrefix : String) (css : String) : Except Malformed Split :=
  (Stylesheet.parse css.stripComments).map (Stylesheet.split limit chunkPrefix)

end StyleSplit
