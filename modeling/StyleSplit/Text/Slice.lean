import StyleSplit.Text.Width
import StyleSplit.Text.Search

/-!
# Cutting text at byte offsets

Code that holds text as UTF-8 bytes cuts it at byte offsets, and a cut is only allowed between
characters: a slice whose ends are reversed, lie past the end of the text or fall inside a
character is a fault that stops the program. `slice?` is such a cut, `none` standing for the
fault; `findOffset?` is the byte offset at which a pattern first occurs, as a search of the bytes
reports it, and `findCharOffset?` the byte offset of the first character of a kind.
-/

namespace StyleSplit.Text

/-- The text between two byte offsets, as a string slice cuts it: nothing when the ends are
reversed, or either lies past the end or inside a character. -/
def slice? (cs : List Char) (lo hi : Nat) : Option (List Char) :=
  if lo ≤ hi ∧ lo ∈ boundaries cs ∧ hi ∈ boundaries cs then some (charsWithin lo hi cs) else none

/-- The byte offset at which the pattern first occurs in the text. -/
def findOffset? (pat cs : List Char) : Option Nat :=
  (splitFirst? pat cs).map fun (before, _) => byteLength before

/-- The byte offset of the first character that satisfies `p`, as a search of the characters
reports it. -/
def findCharOffset? (p : Char → Bool) (cs : List Char) : Option Nat :=
  ((withOffsets 0 cs).find? fun oc => p oc.2).map Prod.fst

end StyleSplit.Text
