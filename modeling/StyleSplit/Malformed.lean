/-!
# Malformed stylesheet text

Reading a stylesheet fails at a byte offset for one of five reasons. Each reason has a fixed
wording, and the message names the offset and the reason.
-/

namespace StyleSplit

/-- Why stylesheet text cannot be cut into statements and blocks. -/
inductive Flaw
  /-- Text after the last statement or block is neither blank nor followed by a block. -/
  | headerWithoutBlock
  /-- A `}` closes no open block. -/
  | strayClosingBrace
  /-- A `{` is never closed. -/
  | unclosedBlock
  /-- A top-level statement that is not an at-rule. -/
  | declarationOutsideBlock
  /-- A statement among the rules of a media block. -/
  | statementInMedia
  deriving Repr, DecidableEq

/-- The wording of a flaw. -/
def Flaw.reason : Flaw → String
  | .headerWithoutBlock => "header is not followed by a block"
  | .strayClosingBrace => "unexpected closing brace"
  | .unclosedBlock => "block is never closed"
  | .declarationOutsideBlock => "declaration outside of any block"
  | .statementInMedia => "statement inside a media block"

/-- A flaw and the byte offset where it was found. -/
structure Malformed where
  /-- Byte offset into the text read. -/
  offset : Nat
  flaw : Flaw
  deriving Repr, DecidableEq

/-- The message for malformed text. -/
def Malformed.message (m : Malformed) : String :=
  "Malformed stylesheet at byte " ++ toString m.offset ++ ": " ++ m.flaw.reason

end StyleSplit
