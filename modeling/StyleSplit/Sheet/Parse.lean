import StyleSplit.Piece
import StyleSplit.Sheet

/-!
# Reading a stylesheet

Comment-free text is read into a stylesheet in two steps: cut into top-level pieces
(`Piece.scan`), then each piece turned into an entry.

* A statement, trimmed of blanks, must be an at-rule, else it is a declaration outside of any
  block. Its keyword, up to a blank, `(`, a quote or `;`, and compared without ASCII case, says
  which group it joins.
* A block whose header, without leading blanks, starts with the `@media` keyword is a media
  block: its body is cut into pieces in turn, each a rule; a statement there is refused. The
  keyword `@media` is matched without ASCII case and must be followed by an ASCII blank, `(` or
  nothing.
* Any other block, other at-rules such as `@font-face` among them, is a plain rule.

Errors carry byte offsets of the whole text; the first error in reading order wins.
-/

namespace StyleSplit

open StyleSplit.Text

/-- What a top-level piece of a stylesheet becomes. -/
inductive Entry
  | rule (r : Rule)
  | media (m : MediaBlock)
  /-- A `@charset`, `@import` or `@layer` statement. -/
  | leading (s : String)
  /-- A `@namespace` declaration. -/
  | namespaceDecl (s : String)
  /-- Any other at-statement. -/
  | otherStatement (s : String)
  deriving Repr, DecidableEq

namespace Entry

/-- A character that ends the keyword of an at-rule: a blank, `(`, a quote or `;`. -/
def endsKeyword (c : Char) : Bool :=
  isBlank c || c == '(' || c == '"' || c == '\x27' || c == ';'

/-- The name of the at-rule a statement starts with, after its `@` and up to a blank, `(`, a
quote or `;`. -/
def atKeyword (stmt : List Char) : List Char :=
  (stmt.drop 1).takeWhile fun c => !endsKeyword c

/-- The entry for a trimmed at-statement with the given keyword, by the keyword without ASCII
case. -/
def ofKeyword (keyword stmt : List Char) : Entry :=
  let text := String.ofList stmt
  match String.ofList (keyword.map Char.toLower) with
  | "charset" | "import" | "layer" => .leading text
  | "namespace" => .namespaceDecl text
  | _ => .otherStatement text

/-- The entry for a trimmed at-statement, by its keyword. -/
def ofStatement (stmt : List Char) : Entry :=
  ofKeyword (atKeyword stmt) stmt

end Entry

/-- A header, without its leading blanks, opens a media block: it starts with `@media` in any
ASCII case, followed by an ASCII blank, `(` or nothing. -/
def isMediaHeader (header : List Char) : Bool :=
  (header.take 6).map Char.toLower == "@media".toList &&
    match header.drop 6 with
    | [] => true
    | c :: _ => isAsciiBlank c || c == '('

/-- The rules of a media block's pieces, the first of which lies at `pos`; a statement among
them is refused. -/
def mediaRules : Nat → List Piece → Except Malformed (List Rule)
  | _, [] => .ok []
  | pos, .block header body :: ps =>
    (mediaRules (pos + byteLength header + byteLength body) ps).map
      (⟨String.ofList header, String.ofList body⟩ :: ·)
  | pos, .statement _ :: _ => .error ⟨pos, .statementInMedia⟩

/-- The media block with the given header and body, the body's `{` lying at `open_`. -/
def readMedia (open_ : Nat) (header body : List Char) : Except Malformed MediaBlock := do
  let pieces ← Piece.scanFrom (open_ + 1) (body.drop 1).dropLast
  let rules ← mediaRules (open_ + 1) pieces
  pure (MediaBlock.ofParts (String.ofList header) (String.ofList body) rules)

/-- The entries of a stylesheet's pieces, the first of which lies at `pos`. -/
def readEntries : Nat → List Piece → Except Malformed (List Entry)
  | _, [] => .ok []
  | pos, .statement t :: ps =>
    match trim t with
    | stmt@('@' :: _) => (readEntries (pos + byteLength t) ps).map (Entry.ofStatement stmt :: ·)
    | _ => .error ⟨pos, .declarationOutsideBlock⟩
  | pos, .block header body :: ps =>
    let trimmed := trimStart header
    let next := pos + byteLength header + byteLength body
    if isMediaHeader trimmed then do
      let m ← readMedia (pos + byteLength header) trimmed body
      let rest ← readEntries next ps
      pure (.media m :: rest)
    else
      (readEntries next ps).map (.rule ⟨String.ofList header, String.ofList body⟩ :: ·)

namespace Stylesheet

/-- The stylesheet holding the given entries, each group in the entries' order. -/
def ofEntries (es : List Entry) : Stylesheet where
  media := es.filterMap fun | .media m => some m | _ => none
  rules := es.filterMap fun | .rule r => some r | _ => none
  statements := es.filterMap fun | .leading s => some s | _ => none
  namespaces := es.filterMap fun | .namespaceDecl s => some s | _ => none
  otherStatements := es.filterMap fun | .otherStatement s => some s | _ => none

/-- Reads comment-free stylesheet text. -/
def parseChars (cs : List Char) : Except Malformed Stylesheet := do
  let pieces ← Piece.scan cs
  let entries ← readEntries 0 pieces
  pure (ofEntries entries)

/-- Reads comment-free stylesheet text. -/
def parse (s : String) : Except Malformed Stylesheet :=
  parseChars s.toList

end Stylesheet

end StyleSplit
