import StyleSplit.Text.Search

/-!
# Block comments

A block comment runs from `/*` to the first `*/` after it; the `*` of the opening never
closes it, so `/*/` is no comment and `/*/*/` is one. Comments are found left to right without
overlap, and an opening that is never closed ends the search.

`locate` cuts a text into the found comments, each with the text before it, and the rest;
`find` lists the comments. `strip` deletes each found comment's text from a working copy at the
first place that text occurs, unless that place is the very start of the copy: a leading banner
comment is kept, and so is every later copy of it.

The main fact here: the located pieces and the rest make up the text (`join_locate`).
-/

namespace StyleSplit.Comment

open StyleSplit.Text

/-- A comment found in a text, with the text between it and the previous comment. -/
structure Located where
  /-- The text between the previous comment (or the start) and this one. -/
  gap : List Char
  /-- The comment, both delimiters included. -/
  comment : List Char
  deriving Repr, DecidableEq

/-- The text of the gap followed by the comment. -/
def Located.text (p : Located) : List Char :=
  p.gap ++ p.comment

/-- Cuts a comment's remainder at the first `*/`: the text up to and including it, and the
text after it. -/
def closeComment : List Char → Option (List Char × List Char)
  | [] => none
  | '*' :: '/' :: rest => some (['*', '/'], rest)
  | c :: rest => (closeComment rest).map fun (body, after) => (c :: body, after)

theorem closeComment_eq_some {cs body after : List Char}
    (h : closeComment cs = some (body, after)) :
    cs = body ++ after ∧ after.length < cs.length := by
  fun_induction closeComment cs generalizing body after with
  | case1 => simp at h
  | case2 rest =>
    simp only [Option.some.injEq, Prod.mk.injEq] at h
    obtain ⟨rfl, rfl⟩ := h
    simp only [List.length_cons]
    exact ⟨rfl, by omega⟩
  | case3 c rest _ ih =>
    obtain ⟨⟨b, a⟩, hs, he⟩ := Option.map_eq_some_iff.mp h
    simp only [Prod.mk.injEq] at he
    obtain ⟨rfl, rfl⟩ := he
    obtain ⟨h1, h2⟩ := ih hs
    refine ⟨by simp [h1], ?_⟩
    simp only [List.length_cons]
    omega

/-- Cuts a text into its comments, each with the gap before it, and the text after the last
one. `gap` holds, reversed, the text read since the last comment. -/
def locateFrom (gap : List Char) : List Char → List Located × List Char
  | [] => ([], gap.reverse)
  | '/' :: '*' :: rest =>
    match h : closeComment rest with
    | some (body, after) =>
      have : after.length < rest.length + 2 := by
        have := (closeComment_eq_some h).2
        omega
      let found := locateFrom [] after
      (⟨gap.reverse, '/' :: '*' :: body⟩ :: found.1, found.2)
    | none => ([], gap.reverse ++ '/' :: '*' :: rest)
  | c :: rest => locateFrom (c :: gap) rest
termination_by cs => cs.length

/-- The comments of a text, each with the text before it, and the text after the last. -/
def locate (cs : List Char) : List Located × List Char :=
  locateFrom [] cs

/-- The comments of a text, left to right. -/
def find (cs : List Char) : List (List Char) :=
  (locate cs).1.map Located.comment

/-- Deletes the first copy of a comment from the working text, unless that copy opens it. -/
def eraseOnce (comment work : List Char) : List Char :=
  match splitFirst? comment work with
  | some (before@(_ :: _), after) => before ++ after
  | _ => work

/-- The text with its comments deleted, each at the first place its text occurs in what is
left, except where that place is the start. -/
def strip (cs : List Char) : List Char :=
  (find cs).foldl (fun work comment => eraseOnce comment work) cs

theorem locateFrom_join (gap : List Char) (cs : List Char) :
    ((locateFrom gap cs).1.map Located.text).flatten ++ (locateFrom gap cs).2 =
      gap.reverse ++ cs := by
  fun_induction locateFrom gap cs with
  | case1 gap => simp
  | case2 gap rest body after h _ found ih =>
    have := (closeComment_eq_some h).1
    simp only [found, List.map_cons, List.flatten_cons, Located.text, List.append_assoc] at ih ⊢
    rw [ih, this]
    simp
  | case3 gap rest h => simp
  | case4 gap c rest _ ih =>
    rw [ih]
    simp

/-- The located comments, their gaps and the rest make up the text. -/
theorem join_locate (cs : List Char) :
    ((locate cs).1.map Located.text).flatten ++ (locate cs).2 = cs := by
  simpa [locate] using locateFrom_join [] cs

end StyleSplit.Comment

namespace String

/-- The block comments of the text, left to right. -/
def comments (s : String) : List String :=
  (StyleSplit.Comment.find s.toList).map String.ofList

/-- The text with its block comments deleted, a copy of one at the very start kept. -/
def stripComments (s : String) : String :=
  String.ofList (StyleSplit.Comment.strip s.toList)

end String
