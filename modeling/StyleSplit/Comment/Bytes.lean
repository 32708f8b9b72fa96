import StyleSplit.Comment
import StyleSplit.Span
import StyleSplit.Text.Slice

/-!
# Comments found and deleted by byte offsets

`Comment.find` and `Comment.strip` read the text as characters. Code that holds it as UTF-8 bytes
does the same work with byte offsets: it searches from a byte cursor for `/*`, skips the two bytes
of the opening, searches for `*/`, and cuts the comment out between its first byte and the byte
after its close; stripping looks each comment up in the working copy and deletes the byte range it
covers. Every one of those cuts could fall inside a character. `findBytes?` and `stripBytes?` make
the same cuts with `slice?`, so that a cut inside a character shows as `none`.
-/

namespace StyleSplit.Comment

open StyleSplit.Text

/-- A cut the search makes lies within the text. -/
theorem le_of_slice?_eq_some {cs : List Char} {lo hi : Nat} {t : List Char}
    (h : slice? cs lo hi = some t) : lo ≤ hi ∧ hi ∈ boundaries cs := by
  unfold slice? at h
  split at h
  · next hc => exact ⟨hc.1, hc.2.2⟩
  · cases h

/-- The byte ranges of the comments from the byte offset `cursor` on: the first `/*` at or after
the cursor, the first `*/` after the two bytes of that opening, and the comment cut out from its
first byte to the byte after its close; the search then goes on from there. It stops at an
opening with no close. `none` when a cut falls inside a character. -/
def rangesFrom (cs : List Char) (cursor : Nat) : Option (List ByteRange) :=
  match slice? cs cursor (byteLength cs) with
  | none => none
  | some tail =>
    match findOffset? ['/', '*'] tail with
    | none => some []
    | some i =>
      let start := cursor + i
      match slice? cs (start + 2) (byteLength cs) with
      | none => none
      | some inside =>
        match findOffset? ['*', '/'] inside with
        | none => some []
        | some j =>
          let stop := start + 2 + j + 2
          match h : slice? cs start stop with
          | none => none
          | some _ =>
            have : byteLength cs + 1 - stop < byteLength cs + 1 - cursor := by
              have := (le_of_slice?_eq_some h).2
              have := le_byteLength_of_mem_boundaries this
              omega
            (rangesFrom cs stop).map (⟨start, stop⟩ :: ·)
termination_by byteLength cs + 1 - cursor

/-- The comments of a text, found by byte offsets and cut out of it. `none` when a cut falls
inside a character. -/
def findBytes? (cs : List Char) : Option (List (List Char)) := do
  let ranges ← rangesFrom cs 0
  ranges.mapM fun r => slice? cs r.start r.stop

/-- Deletes the byte range the first copy of a comment covers in the working text, unless that
copy starts at byte zero. `none` when a cut falls inside a character. -/
def eraseBytes? (comment work : List Char) : Option (List Char) :=
  match findOffset? comment work with
  | some i =>
    if 0 < i then do
      let before ← slice? work 0 i
      let after ← slice? work (i + byteLength comment) (byteLength work)
      pure (before ++ after)
    else some work
  | none => some work

/-- The text with its comments deleted by byte ranges, each at the first place its text occurs in
what is left, except where that place is the start. `none` when a cut falls inside a
character. -/
def stripBytes? (cs : List Char) : Option (List Char) := do
  let comments ← findBytes? cs
  comments.foldlM (fun work comment => eraseBytes? comment work) cs

end StyleSplit.Comment
