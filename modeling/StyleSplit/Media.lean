import StyleSplit.Text.Blank
import StyleSplit.Rule

/-!
# Media blocks

A media block is a block whose header is an `@media` query and whose body holds rules. Its
weight is the sum of its rules' selectors: the query itself selects nothing.

A media block read from text keeps its header and body as written. A block rebuilt around some
of its rules (`MediaBlock.rewrap`) has the header without trailing blanks, one space, and a body
`{ ` rules ` }`.
-/

namespace StyleSplit

/-- A media block: its header, its body with braces, its whole text and its rules. -/
structure MediaBlock where
  header : String
  body : String
  /-- The whole text of the block. -/
  text : String
  rules : List Rule
  deriving Repr, DecidableEq

namespace MediaBlock

/-- The media block written as a header followed by a body. -/
def ofParts (header body : String) (rules : List Rule) : MediaBlock :=
  ⟨header, body, header ++ body, rules⟩

/-- The texts of some rules, one after another. -/
def joinRules (rules : List Rule) : String :=
  String.join (rules.map Rule.text)

/-- A media block holding the given rules under a header, written anew: the header without
trailing blanks, a space, and a body that pads the rules with one space inside each brace. -/
def rewrap (header : String) (rules : List Rule) : MediaBlock :=
  let header := header.trimBlankEnd
  let body := "\x7b " ++ joinRules rules ++ " \x7d"
  ⟨header, body, header ++ " " ++ body, rules⟩

/-- The number of selectors of a media block: the sum over its rules. The sum's zero is named,
so that the count is the same term whichever algebraic instances are in scope. -/
def selectorCount (m : MediaBlock) : Nat :=
  @List.sum Nat _ Zero.ofOfNat0 (m.rules.map Rule.selectorCount)

@[simp] theorem rules_rewrap (header : String) (rules : List Rule) :
    (rewrap header rules).rules = rules := rfl

@[simp] theorem selectorCount_rewrap (header : String) (rules : List Rule) :
    (rewrap header rules).selectorCount =
      @List.sum Nat _ Zero.ofOfNat0 (rules.map Rule.selectorCount) := rfl

end MediaBlock

end StyleSplit
