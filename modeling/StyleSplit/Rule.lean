/-!
# Rules

A rule is a block of stylesheet text: a header, such as `.a, .b `, and a body in braces. Its
weight is the number of selectors in its header, which is the number of comma-separated pieces
of the header, so at least one, even for an empty header.
-/

namespace StyleSplit

/-- The number of comma-separated pieces of a header: its commas and one more. -/
def countSelectors (header : String) : Nat :=
  header.toList.count ',' + 1

/-- A rule: a header and its body, braces included. -/
structure Rule where
  header : String
  body : String
  deriving Repr, DecidableEq

namespace Rule

/-- The text of a rule: its header followed by its body. -/
def text (r : Rule) : String :=
  r.header ++ r.body

/-- The number of selectors in a rule's header. -/
def selectorCount (r : Rule) : Nat :=
  countSelectors r.header

theorem one_le_selectorCount (r : Rule) : 1 ≤ r.selectorCount := by
  simp [selectorCount, countSelectors]

end Rule

end StyleSplit
