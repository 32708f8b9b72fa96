import StyleSplit.Pack
import StyleSplit.Sheet

/-!
# Partitioning a stylesheet under a selector limit

A stylesheet is split into chunks of text, each meant for a file of its own: first the plain
rules, packed under the limit; then, when the stylesheet has media blocks, the media blocks,
packed under the limit as whole blocks.

A media block over the limit cannot go into one chunk, so it is first split: its rules are
packed under the limit and each pack rebuilt as a media block under the same query
(`MediaBlock.resplit`).
-/

namespace StyleSplit

/-- Which part of a stylesheet a chunk comes from. -/
inductive Origin
  /-- Plain rules. -/
  | rules
  /-- Media blocks. -/
  | media
  deriving Repr, DecidableEq

/-- A chunk of a split stylesheet: its text, its selectors and where it comes from. -/
structure OutputChunk where
  text : String
  selectorCount : Nat
  origin : Origin
  deriving Repr, DecidableEq

/-- The output chunk of a packed chunk. -/
def OutputChunk.ofChunk {α : Type} (text : α → String) (origin : Origin) (c : Chunk α) :
    OutputChunk :=
  ⟨c.text text, c.selectorCount, origin⟩

/-- A media block split into blocks within the limit: the block itself if it is within the
limit, else its rules packed and each pack rebuilt under the block's query. -/
def MediaBlock.resplit (limit : Nat) (m : MediaBlock) : List MediaBlock :=
  if m.selectorCount ≤ limit then [m]
  else (pack Rule.selectorCount limit m.rules).map fun c => MediaBlock.rewrap m.header c.items

/-- The chunks of a stylesheet under a selector limit: the packed plain rules, then, if there
are media blocks, the packed media blocks after splitting those over the limit. -/
def Stylesheet.partition (limit : Nat) (sheet : Stylesheet) : List OutputChunk :=
  (pack Rule.selectorCount limit sheet.rules).map (OutputChunk.ofChunk Rule.text .rules) ++
    if sheet.media.isEmpty then []
    else
      (pack MediaBlock.selectorCount limit (sheet.media.flatMap (MediaBlock.resplit limit))).map
        (OutputChunk.ofChunk MediaBlock.text .media)

end StyleSplit
