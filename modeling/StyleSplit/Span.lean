import StyleSplit.Piece

/-!
# Spans: pieces placed at byte offsets

A span is where a piece lies in the text: a statement's byte range, or a block's header and
body ranges. `Piece.placeAll pos ps` lays pieces end to end from `pos`.

`Span.scanWindow` reads the pieces of a byte window of a text. A window may start or end inside
a character. The braces and the semicolon are one byte wide, so the pieces found are those of
the characters lying wholly inside the window, the first span starting at the window's start.
The window cannot be read when it ends past the text, or when the test that the text after the
last piece is blank would have to cut a character in two.
-/

namespace StyleSplit

open StyleSplit.Text

/-- A half-open range of byte offsets. -/
structure ByteRange where
  start : Nat
  stop : Nat
  deriving Repr, DecidableEq

/-- Where a piece lies in a text. -/
inductive Span
  /-- A statement, its `;` included. -/
  | statement (range : ByteRange)
  /-- A block: its header, and its body with both braces. -/
  | block (header body : ByteRange)
  deriving Repr, DecidableEq

namespace Span

/-- The whole range a span covers. -/
def range : Span → ByteRange
  | .statement r => r
  | .block header body => ⟨header.start, body.stop⟩

/-- The span moved to start at `pos`, its end kept. -/
def startingAt (pos : Nat) : Span → Span
  | .statement r => .statement ⟨pos, r.stop⟩
  | .block header body => .block ⟨pos, header.stop⟩ body

end Span

/-- The span of a piece whose first byte lies at `pos`. -/
def Piece.place (pos : Nat) : Piece → Span
  | .statement t => .statement ⟨pos, pos + byteLength t⟩
  | .block header body =>
    let open_ := pos + byteLength header
    .block ⟨pos, open_⟩ ⟨open_, open_ + byteLength body⟩

/-- The spans of pieces laid end to end from `pos`. -/
def Piece.placeAll : Nat → List Piece → List Span
  | _, [] => []
  | pos, p :: ps => p.place pos :: placeAll (pos + byteLength p.text) ps

/-- Why a byte window of a text cannot be read. -/
inductive WindowFault
  /-- The window ends after the end of the text. -/
  | pastEnd
  /-- The blank test on the text after the last piece would cut a character in two. -/
  | splitsCharacter
  deriving Repr, DecidableEq

/-- Why reading a byte window fails: the text is malformed, or the window cannot be read. -/
inductive WindowError
  | malformed (m : Malformed)
  | window (fault : WindowFault)
  deriving Repr, DecidableEq

namespace Span

/-- The spans of the text between the byte offsets `start` and `stop`, with offsets into the
whole text. An empty or reversed window has no spans. -/
def scanWindow (cs : List Char) (start stop : Nat) : Except WindowError (List Span) :=
  if stop ≤ start then .ok []
  else if byteLength cs < stop then .error (.window .pastEnd)
  else
    let cuts := boundaries cs
    let first := nextBoundary start cs
    let inner := charsWithin start stop cs
    let found := Piece.scanFrom first inner
    -- the blank test runs on the text after the last piece
    let testsTail := match found with
      | .ok _ => true
      | .error m => m.flaw == .headerWithoutBlock
    let cutsCharacter :=
      !cuts.contains stop || (!cuts.contains start && !inner.any isMark)
    if testsTail && cutsCharacter then .error (.window .splitsCharacter)
    else
      match found with
      | .ok [] => .ok []
      | .ok (p :: ps) => .ok ((p.place first).startingAt start :: Piece.placeAll (first + byteLength p.text) ps)
      | .error m => .error (.malformed m)

end Span

end StyleSplit
