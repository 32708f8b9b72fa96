import StyleSplit.Media

/-!
# Stylesheets

A stylesheet, as the splitter sees it, is its plain rules, its media blocks and its top-level
at-statements in three groups: the statements that must lead a stylesheet (`@charset`,
`@import`, `@layer`), the `@namespace` declarations that every file needs, and the others.

Its weight is the selectors of its plain rules and of its media blocks. `Stylesheet.summary`
describes it in a few lines.
-/

namespace StyleSplit

/-- A stylesheet: rules and media blocks, and its at-statements by kind. -/
structure Stylesheet where
  media : List MediaBlock := []
  rules : List Rule := []
  /-- `@charset`, `@import` and `@layer` statements. -/
  statements : List String := []
  /-- `@namespace` declarations. -/
  namespaces : List String := []
  /-- All other at-statements. -/
  otherStatements : List String := []
  deriving Repr, DecidableEq

namespace Stylesheet

/-- The number of selectors of a stylesheet: those of its rules and of its media blocks. The
sums' zero is named, as in `MediaBlock.selectorCount`. -/
def selectorCount (sheet : Stylesheet) : Nat :=
  @List.sum Nat _ Zero.ofOfNat0 (sheet.rules.map Rule.selectorCount) +
    @List.sum Nat _ Zero.ofOfNat0 (sheet.media.map MediaBlock.selectorCount)

/-- A stylesheet is empty when it holds nothing at all. -/
def isEmpty (sheet : Stylesheet) : Bool :=
  sheet.media.isEmpty && sheet.rules.isEmpty && sheet.statements.isEmpty &&
    sheet.namespaces.isEmpty && sheet.otherStatements.isEmpty

/-- A line for a media block: its trimmed header, its rules and selectors. -/
def mediaLine (m : MediaBlock) : String :=
  "  " ++ m.header.trimBlank ++ ": " ++ toString m.rules.length ++ " rules, " ++
    toString m.selectorCount ++ " selectors\n"

/-- A description of a stylesheet: a line of counts (the leading statements only among the
statements), then a line per media block. -/
def summary (sheet : Stylesheet) : String :=
  toString sheet.rules.length ++ " rules, " ++ toString sheet.media.length ++ " media blocks, " ++
    toString sheet.statements.length ++ " statements, " ++ toString sheet.namespaces.length ++
    " namespaces, " ++ toString sheet.selectorCount ++ " selectors\n" ++
    String.join (sheet.media.map mediaLine)

end Stylesheet

end StyleSplit
