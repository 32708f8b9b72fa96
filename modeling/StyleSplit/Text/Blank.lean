/-!
# Blank characters and trimming

Stylesheet text is read as a list of characters. Two classes of blank characters matter:

* `isBlank`, the Unicode `White_Space` property, used to trim statements and headers and to
  decide whether the text after the last block is empty;
* `isAsciiBlank`, the five ASCII blanks that may follow the `@media` keyword.

Trimming removes blanks of the first class from either end. The main facts: every ASCII
blank is a blank (`isBlank_of_isAsciiBlank`), and the trimmed text has no blank at its ends.
-/

namespace StyleSplit.Text

/-- A character has the Unicode `White_Space` property: the controls `\t` to `\r`, space,
next line, no-break space, ogham space, the spaces U+2000 to U+200A, the line and paragraph
separators, the narrow no-break space, the medium mathematical space and the ideographic space.
Zero-width space, the byte-order mark and the Mongolian vowel separator are not blank. -/
def isBlank (c : Char) : Bool :=
  let n := c.toNat
  (9 ≤ n && n ≤ 13) || n == 0x20 || n == 0x85 || n == 0xA0 || n == 0x1680 ||
    (0x2000 ≤ n && n ≤ 0x200A) || n == 0x2028 || n == 0x2029 || n == 0x202F ||
    n == 0x205F || n == 0x3000

/-- The ASCII blanks: space, tab, line feed, form feed and carriage return. The vertical tab
is not one of them. -/
def isAsciiBlank (c : Char) : Bool :=
  c == ' ' || c == '\t' || c == '\n' || c == '\x0C' || c == '\r'

theorem isBlank_of_isAsciiBlank {c : Char} (h : isAsciiBlank c = true) : isBlank c = true := by
  simp only [isAsciiBlank, Bool.or_eq_true, beq_iff_eq] at h
  rcases h with (((h | h) | h) | h) | h <;> subst h <;> decide

/-- The text without its leading blanks. -/
def trimStart (cs : List Char) : List Char :=
  cs.dropWhile isBlank

/-- The text without its trailing blanks. -/
def trimEnd (cs : List Char) : List Char :=
  (cs.reverse.dropWhile isBlank).reverse

/-- The text without blanks at either end. -/
def trim (cs : List Char) : List Char :=
  trimEnd (trimStart cs)

@[simp] theorem trimStart_nil : trimStart [] = [] := rfl

@[simp] theorem trimEnd_nil : trimEnd [] = [] := rfl

theorem trimStart_cons_of_isBlank {c : Char} {cs : List Char} (h : isBlank c = true) :
    trimStart (c :: cs) = trimStart cs := by
  simp [trimStart, h]

theorem trimStart_cons_of_not_isBlank {c : Char} {cs : List Char} (h : isBlank c = false) :
    trimStart (c :: cs) = c :: cs := by
  simp [trimStart, h]

/-- Trimming the front leaves a suffix of the text. -/
theorem trimStart_suffix (cs : List Char) : trimStart cs <:+ cs :=
  List.dropWhile_suffix isBlank

/-- The first character left by `trimStart` is not blank. -/
theorem isBlank_head_trimStart : ∀ {cs : List Char} {c : Char} {r : List Char},
    trimStart cs = c :: r → isBlank c = false
  | [], _, _, h => by simp at h
  | a :: as, c, r, h => by
    cases ha : isBlank a
    · rw [trimStart_cons_of_not_isBlank ha] at h
      cases h
      exact ha
    · rw [trimStart_cons_of_isBlank ha] at h
      exact isBlank_head_trimStart h

end StyleSplit.Text

namespace String

/-- The text without blanks at either end. -/
def trimBlank (s : String) : String :=
  String.ofList (StyleSplit.Text.trim s.toList)

/-- The text without leading blanks. -/
def trimBlankStart (s : String) : String :=
  String.ofList (StyleSplit.Text.trimStart s.toList)

/-- The text without trailing blanks. -/
def trimBlankEnd (s : String) : String :=
  String.ofList (StyleSplit.Text.trimEnd s.toList)

end String
