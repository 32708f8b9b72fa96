import StyleSplit.Sheet.Parse
import StyleSplit.Span
import StyleSplit.Text.Slice

/-!
# Reading a stylesheet by byte offsets

`Stylesheet.parseChars` reads the text as characters. Code that holds the text as UTF-8 bytes
reads the spans of the whole text (`Span.scanWindow`) and cuts each piece out of it by the byte
offsets of its span:

* a statement's range, and the keyword from the byte after its `@` to the first character that
  ends a keyword;
* a block's header and body;
* for a media block, its header from the offset where its leading blanks end, and the window
  from the byte after its `{` to its `}`, whose spans are cut out in turn.

Any of those cuts could fall inside a character or past the text, an offset could be taken below
zero, and a window could be refused. `Stylesheet.extractBytes` makes the same cuts in `ByteRead`,
where each such fault is `none`.
-/

namespace StyleSplit

open StyleSplit.Text

/-- A reading by byte offsets: `none` is a fault that stops the program, an error a text that is
not well formed. -/
abbrev ByteRead := ExceptT Malformed Option

namespace ByteRead

/-- The fault that stops the program. -/
def fault {α : Type} : ByteRead α :=
  ExceptT.lift none

/-- The text between two byte offsets; a cut that does not fall between characters is a fault. -/
def cut (cs : List Char) (lo hi : Nat) : ByteRead (List Char) :=
  ExceptT.lift (slice? cs lo hi)

/-- `a - b` on byte offsets, a fault when it would go below zero. -/
def sub (a b : Nat) : ByteRead Nat :=
  if b ≤ a then pure (a - b) else fault

/-- The spans of the text between two byte offsets; a window that cannot be read is a fault. -/
def spans (cs : List Char) (start stop : Nat) : ByteRead (List Span) :=
  match Span.scanWindow cs start stop with
  | .ok spans => pure spans
  | .error (.malformed m) => throw m
  | .error (.window _) => fault

end ByteRead

namespace Entry

/-- The entry for a trimmed at-statement, its keyword cut out by byte offsets: from the byte after
the `@` to the first character that ends a keyword, or to the end. -/
def ofStatementBytes (stmt : List Char) : ByteRead Entry := do
  let name ← ByteRead.cut stmt 1 (byteLength stmt)
  let keyword ← ByteRead.cut name 0 ((findCharOffset? endsKeyword name).getD (byteLength name))
  pure (ofKeyword keyword stmt)

end Entry

namespace Stylesheet

/-- The rule a span of a media block's body becomes; a statement there is refused at its first
byte. -/
def mediaRuleBytes (cs : List Char) : Span → ByteRead Rule
  | .block header body => do
    let h ← ByteRead.cut cs header.start header.stop
    let b ← ByteRead.cut cs body.start body.stop
    pure ⟨String.ofList h, String.ofList b⟩
  | .statement r => throw ⟨r.start, .statementInMedia⟩

/-- The media block whose header, without its leading blanks, lies between `start` and `open_`,
and whose braces cover `body`: the spans of the window inside the braces are its rules. -/
def mediaBytes (cs : List Char) (start open_ : Nat) (body : ByteRange) :
    ByteRead MediaBlock := do
  let close ← ByteRead.sub body.stop 1
  let spans ← ByteRead.spans cs (body.start + 1) close
  let rules ← spans.mapM (mediaRuleBytes cs)
  let header ← ByteRead.cut cs start open_
  let text ← ByteRead.cut cs body.start body.stop
  pure (MediaBlock.ofParts (String.ofList header) (String.ofList text) rules)

/-- The entry a span of the whole text becomes, its parts cut out by byte offsets. -/
def entryBytes (cs : List Char) : Span → ByteRead Entry
  | .statement r => do
    let stmt := trim (← ByteRead.cut cs r.start r.stop)
    match stmt with
    | '@' :: _ => Entry.ofStatementBytes stmt
    | _ => throw ⟨r.start, .declarationOutsideBlock⟩
  | .block header body => do
    let h ← ByteRead.cut cs header.start header.stop
    let trimmed := trimStart h
    if isMediaHeader trimmed then
      let start ← ByteRead.sub header.stop (byteLength trimmed)
      let m ← mediaBytes cs start header.stop body
      pure (.media m)
    else
      let b ← ByteRead.cut cs body.start body.stop
      pure (.rule ⟨String.ofList h, String.ofList b⟩)

/-- Reads comment-free stylesheet text by byte offsets: the spans of the whole text, each cut out
into an entry in turn. -/
def extractBytes (cs : List Char) : ByteRead Stylesheet := do
  let spans ← ByteRead.spans cs 0 (byteLength cs)
  let entries ← spans.mapM (entryBytes cs)
  pure (ofEntries entries)

end Stylesheet

end StyleSplit
