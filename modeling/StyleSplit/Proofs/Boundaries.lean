import StyleSplit.Comment.Bytes
import StyleSplit.Proofs.CommentPattern
import StyleSplit.Proofs.Diagnosis
import StyleSplit.Sheet.Parse

/-!
# Every cut falls between characters

Code that holds the text as UTF-8 bytes cuts it at byte offsets, and a cut inside a character is a
fault that stops it. This module shows that no cut of the comment search and of the window reader
is such a fault; `Proofs/Extract.lean` builds the sheet reader's cuts on it.

* Comments. The byte-offset search `findBytes?` and deletion `stripBytes?` never fail, and give
  what `find` and `strip` give. A search for `/*` or `*/` reports the byte offset at which the
  characters before the match end (`findOffset?_of_splitFirst?`), the two bytes of a delimiter are
  two characters, and so every cursor of the search stands at the end of a beginning of the text
  (`slice?_part`). The search takes one of three steps, one per way the text ahead can look
  (`rangesFrom_of_no_opening`, `rangesFrom_of_unclosed`, `rangesFrom_of_closed`), and `find` takes
  the same step (`find_of_no_opening`, `find_of_unclosed`, `find_of_closed`);
  `rangesFrom_closed_step` matches the two where a comment is found, and induction on the text
  ahead gives `rangesFrom_append`.
* Windows. A window between two character boundaries is never refused as cutting a character
  (`scanWindow_ne_window`), an empty or reversed one has no spans, and every span found lies on
  character boundaries with the offsets the sheet parser cuts at (`Span.OnBoundaries`,
  `onBoundaries_of_scanWindow`): the pieces are laid end to end from the window's start, and their
  braces and semicolons are one byte wide.
* The keyword of an `@` statement starts one byte in and ends on a boundary
  (`atKeyword_on_boundaries`), and a brace counter started at a block's `{` stays positive until
  the matching `}` (`depth_pos_before_close`).
-/

namespace StyleSplit

open StyleSplit.Text

namespace Text

/-- The end of a beginning of the text is a character boundary. -/
lemma byteLength_mem_boundaries (a z : List Char) : byteLength a ∈ boundaries (a ++ z) := by
  cases z with
  | nil => simp [boundaries]
  | cons c z =>
    simp only [boundaries, withOffsets_append, List.map_append, List.mem_append]
    left; right
    simp [withOffsets]

/-- Cutting a text at the two ends of one of its parts gives that part. -/
lemma slice?_part (a m z : List Char) :
    slice? (a ++ m ++ z) (byteLength a) (byteLength a + byteLength m) = some m := by
  have hlo : byteLength a ∈ boundaries (a ++ m ++ z) := by
    simpa using byteLength_mem_boundaries a (m ++ z)
  have hhi : byteLength a + byteLength m ∈ boundaries (a ++ m ++ z) := by
    simpa using byteLength_mem_boundaries (a ++ m) z
  rw [slice?, if_pos ⟨Nat.le_add_right _ _, hlo, hhi⟩, charsWithin_append]

/-- `slice?_part`, with the text and the two offsets given by equations. -/
lemma slice?_of_parts {cs a m z : List Char} {lo hi : Nat} (hcs : cs = a ++ m ++ z)
    (hlo : byteLength a = lo) (hhi : byteLength a + byteLength m = hi) :
    slice? cs lo hi = some m := by
  subst hcs hlo hhi
  exact slice?_part a m z

/-- `byteLength_mem_boundaries`, with the text and the offset given by equations. -/
lemma mem_boundaries_of_parts {cs a z : List Char} {n : Nat} (hcs : cs = a ++ z)
    (hn : byteLength a = n) : n ∈ boundaries cs := by
  subst hcs hn
  exact byteLength_mem_boundaries a z

/-- Cutting a text from the end of a beginning of it to its end gives the rest. -/
lemma slice?_rest (a r : List Char) :
    slice? (a ++ r) (byteLength a) (byteLength (a ++ r)) = some r :=
  slice?_of_parts (z := []) (by simp) rfl (by simp)

lemma findOffset?_of_splitFirst? {pat cs before after : List Char}
    (h : splitFirst? pat cs = some (before, after)) : findOffset? pat cs = some (byteLength before) := by
  simp [findOffset?, h]

lemma findOffset?_of_splitFirst?_eq_none {pat cs : List Char} (h : splitFirst? pat cs = none) :
    findOffset? pat cs = none := by
  simp [findOffset?, h]

/-- `splitFirst?` stops at the first occurrence: the text before it holds none. -/
lemma not_infix_of_splitFirst? {pat : List Char} (hpat : pat ≠ []) :
    ∀ {cs before after : List Char}, splitFirst? pat cs = some (before, after) → ¬ pat <:+: before
  | [], before, after, h => by simp [splitFirst?, hpat] at h
  | c :: cs, before, after, h => by
    unfold splitFirst? at h
    split at h
    · obtain ⟨rfl, -⟩ := Prod.mk.inj (Option.some.inj h)
      exact fun hin => hpat (List.eq_nil_of_infix_nil hin)
    · next hnot =>
      obtain ⟨⟨b, a⟩, hs, he⟩ := Option.map_eq_some_iff.mp h
      obtain ⟨rfl, rfl⟩ := Prod.mk.inj he
      intro hin
      rcases List.infix_cons_iff.mp hin with hpre | hin
      · -- an occurrence at the front would have been found there
        have hcs : c :: b <+: c :: cs := by
          rw [splitFirst?_eq_some hs, List.append_assoc]
          exact List.cons_prefix_cons.mpr ⟨rfl, List.prefix_append _ _⟩
        exact hnot (List.isPrefixOf_iff_prefix.mpr (hpre.trans hcs))
      · exact not_infix_of_splitFirst? hpat hs hin

/-- A pattern that `splitFirst?` does not find does not occur. -/
lemma not_infix_of_splitFirst?_eq_none {pat : List Char} :
    ∀ {cs : List Char}, splitFirst? pat cs = none → ¬ pat <:+: cs
  | [], h => by
    intro hin
    simp [splitFirst?, List.eq_nil_of_infix_nil hin] at h
  | c :: cs, h => by
    unfold splitFirst? at h
    split at h
    · cases h
    · next hnot =>
      intro hin
      rcases List.infix_cons_iff.mp hin with hpre | hin
      · exact hnot (List.isPrefixOf_iff_prefix.mpr hpre)
      · exact not_infix_of_splitFirst?_eq_none (Option.map_eq_none_iff.mp h) hin

@[simp] lemma utf8Size_slash : '/'.utf8Size = 1 := rfl

@[simp] lemma utf8Size_star : '*'.utf8Size = 1 := rfl

end Text

namespace Comment

/-! ## The byte search finds the comments -/

/-- An opening ends in `*`, so a `/` after a text with no opening makes none. -/
lemma not_opening_append_slash {u : List Char} (h : ¬ ['/', '*'] <:+: u) :
    ¬ ['/', '*'] <:+: u ++ ['/'] := by
  intro h'
  rcases List.infix_concat_iff.mp h' with ⟨t, ht⟩ | h'
  · simpa using congrArg List.getLast? ht
  · exact h h'

/-- A text with no `*/` in it is not closed. -/
lemma closeComment_of_not_closing {v : List Char} (hv : ¬ ['*', '/'] <:+: v) :
    closeComment v = none := by
  cases h : closeComment v with
  | none => rfl
  | some p =>
    obtain ⟨x, hx, -⟩ := closeComment_eq_some_closing h
    refine absurd ?_ hv
    rw [(closeComment_eq_some h).1, hx]
    exact List.infix_append x ['*', '/'] p.2

/-- The search passes over a text with no opening up to the first `/*`. -/
lemma locate_opening {u : List Char} (hu : ¬ ['/', '*'] <:+: u) (w : List Char) :
    locate (u ++ '/' :: '*' :: w) = locateFrom u.reverse ('/' :: '*' :: w) := by
  simpa [locate] using
    locateFrom_append_of_not_opening (u := u) (t := '/' :: '*' :: w)
      (by simpa using not_opening_append_slash hu) []

/-- A text with no opening holds no comment. -/
lemma find_of_no_opening {r : List Char} (h : ¬ ['/', '*'] <:+: r) : find r = [] := by
  have := locateFrom_append_of_not_opening (u := r) (t := []) (by simpa using h) []
  simp only [List.append_nil] at this
  simp [find, locate, this, locateFrom.eq_1]

/-- The search stops at an opening with no `*/` after it. -/
lemma find_of_unclosed {u v : List Char} (hu : ¬ ['/', '*'] <:+: u) (hv : ¬ ['*', '/'] <:+: v) :
    find (u ++ '/' :: '*' :: v) = [] := by
  unfold find
  rw [locate_opening hu, locateFrom.eq_2]
  split
  · next heq => rw [closeComment_of_not_closing hv] at heq; cases heq
  · rfl

/-- The first comment runs from the first opening to the first `*/` after it. -/
lemma find_of_closed {u x y : List Char} (hu : ¬ ['/', '*'] <:+: u) (hx : ¬ ['*', '/'] <:+: x) :
    find (u ++ '/' :: '*' :: (x ++ '*' :: '/' :: y)) =
      ('/' :: '*' :: (x ++ ['*', '/'])) :: find y := by
  unfold find
  rw [locate_opening hu, locateFrom.eq_2]
  split
  · next heq =>
    rw [closeComment_closing hx] at heq
    obtain ⟨rfl, rfl⟩ := Prod.mk.inj (Option.some.inj heq)
    rfl
  · next heq => rw [closeComment_closing hx] at heq; cases heq

/-- Cut from the byte after the first `/*` ahead of the cursor to the end, the text is what
follows that opening. -/
lemma slice?_after_opening (a : List Char) {r u v : List Char}
    (h : splitFirst? ['/', '*'] r = some (u, v)) :
    slice? (a ++ r) (byteLength a + byteLength u + 2) (byteLength (a ++ r)) = some v :=
  slice?_of_parts (a := a ++ u ++ ['/', '*']) (z := []) (by simp [splitFirst?_eq_some h])
    (by simp; omega) (by simp [splitFirst?_eq_some h]; omega)

/-- With no `/*` ahead of the cursor, the byte search ends. -/
lemma rangesFrom_of_no_opening (a : List Char) {r : List Char}
    (h : splitFirst? ['/', '*'] r = none) : rangesFrom (a ++ r) (byteLength a) = some [] := by
  rw [rangesFrom, slice?_rest]
  simp only [findOffset?_of_splitFirst?_eq_none h]

/-- With no `*/` after the first `/*` ahead of the cursor, the byte search ends. -/
lemma rangesFrom_of_unclosed (a : List Char) {r u v : List Char}
    (h1 : splitFirst? ['/', '*'] r = some (u, v)) (h2 : splitFirst? ['*', '/'] v = none) :
    rangesFrom (a ++ r) (byteLength a) = some [] := by
  rw [rangesFrom, slice?_rest]
  simp only [findOffset?_of_splitFirst? h1, slice?_after_opening a h1,
    findOffset?_of_splitFirst?_eq_none h2]

/-- A comment closed ahead of the cursor is cut out from its `/` to its `*/`, and the byte search
goes on after it. -/
lemma rangesFrom_of_closed (a : List Char) {r u v x y : List Char}
    (h1 : splitFirst? ['/', '*'] r = some (u, v)) (h2 : splitFirst? ['*', '/'] v = some (x, y)) :
    rangesFrom (a ++ r) (byteLength a) =
      (rangesFrom (a ++ u ++ '/' :: '*' :: (x ++ ['*', '/']) ++ y)
          (byteLength (a ++ u ++ '/' :: '*' :: (x ++ ['*', '/'])))).map
        (⟨byteLength (a ++ u), byteLength (a ++ u ++ '/' :: '*' :: (x ++ ['*', '/']))⟩ :: ·) := by
  have hr : a ++ r = a ++ u ++ '/' :: '*' :: (x ++ ['*', '/']) ++ y := by
    simp [splitFirst?_eq_some h1, splitFirst?_eq_some h2]
  have hcomment : slice? (a ++ r) (byteLength a + byteLength u)
      (byteLength a + byteLength u + 2 + byteLength x + 2) =
      some ('/' :: '*' :: (x ++ ['*', '/'])) :=
    slice?_of_parts hr (by simp) (by simp; omega)
  rw [rangesFrom, slice?_rest]
  simp only [findOffset?_of_splitFirst? h1, slice?_after_opening a h1,
    findOffset?_of_splitFirst? h2]
  split
  · next heq => rw [hcomment] at heq; cases heq
  · have hstop : byteLength a + byteLength u + 2 + byteLength x + 2 =
        byteLength (a ++ u ++ '/' :: '*' :: (x ++ ['*', '/'])) := by
      simp
      omega
    rw [← hr, hstop, ← byteLength_append]

/-- A comment closed ahead of the cursor puts its range in front of those found after it, and
that range cuts out the comment `find` finds first. -/
lemma rangesFrom_closed_step (a : List Char) {r u v x y : List Char}
    (h1 : splitFirst? ['/', '*'] r = some (u, v)) (h2 : splitFirst? ['*', '/'] v = some (x, y))
    {rs : List ByteRange}
    (hrs : rangesFrom (a ++ u ++ '/' :: '*' :: (x ++ ['*', '/']) ++ y)
      (byteLength (a ++ u ++ '/' :: '*' :: (x ++ ['*', '/']))) = some rs)
    (hmap : rs.mapM (fun g => slice? (a ++ u ++ '/' :: '*' :: (x ++ ['*', '/']) ++ y)
      g.start g.stop) = some (find y)) :
    ∃ rs', rangesFrom (a ++ r) (byteLength a) = some rs' ∧
      rs'.mapM (fun g => slice? (a ++ r) g.start g.stop) = some (find r) := by
  have hr := splitFirst?_eq_some h1
  have hv := splitFirst?_eq_some h2
  have hcs : a ++ r = a ++ u ++ '/' :: '*' :: (x ++ ['*', '/']) ++ y := by simp [hr, hv]
  have hfind : find r = ('/' :: '*' :: (x ++ ['*', '/'])) :: find y := by
    rw [hr, hv]
    simpa using find_of_closed (not_infix_of_splitFirst? (by simp) h1)
      (not_infix_of_splitFirst? (by simp) h2) (y := y)
  have hslice : slice? (a ++ r) (byteLength (a ++ u))
      (byteLength (a ++ u ++ '/' :: '*' :: (x ++ ['*', '/']))) =
      some ('/' :: '*' :: (x ++ ['*', '/'])) :=
    slice?_of_parts hcs rfl (byteLength_append _ _).symm
  refine ⟨_ :: rs, by rw [rangesFrom_of_closed a h1 h2, hrs]; rfl, ?_⟩
  rw [← hcs] at hmap
  simp only [List.mapM_cons, hslice, hmap, hfind]
  rfl

/-- From a cursor at the end of a beginning `a` of the text, the byte search finds one range per
comment of the rest, and each range cuts its comment out whole. -/
lemma rangesFrom_append (r : List Char) : ∀ a : List Char, ∃ rs,
    rangesFrom (a ++ r) (byteLength a) = some rs ∧
      rs.mapM (fun g => slice? (a ++ r) g.start g.stop) = some (find r) := by
  -- strong induction on the text ahead: a found comment moves the cursor past it
  induction hn : r.length using Nat.strong_induction_on generalizing r with
  | _ n ih =>
  intro a
  cases h1 : splitFirst? ['/', '*'] r with
  | none =>
    refine ⟨[], rangesFrom_of_no_opening a h1, ?_⟩
    rw [find_of_no_opening (not_infix_of_splitFirst?_eq_none h1)]
    rfl
  | some p =>
    obtain ⟨u, v⟩ := p
    have hr := splitFirst?_eq_some h1
    cases h2 : splitFirst? ['*', '/'] v with
    | none =>
      have hfind : find r = [] := by
        rw [hr]
        simpa using find_of_unclosed (not_infix_of_splitFirst? (by simp) h1)
          (not_infix_of_splitFirst?_eq_none h2)
      refine ⟨[], rangesFrom_of_unclosed a h1 h2, ?_⟩
      rw [hfind]
      rfl
    | some q =>
      obtain ⟨x, y⟩ := q
      have hy : y.length < n := by
        rw [← hn, hr, splitFirst?_eq_some h2]
        simp
        omega
      obtain ⟨rs, hrs, hmap⟩ := ih y.length hy y rfl (a ++ u ++ '/' :: '*' :: (x ++ ['*', '/']))
      exact rangesFrom_closed_step a h1 h2 hrs hmap

/-- The byte search never cuts inside a character, and finds the comments `find` finds. -/
theorem findBytes?_eq_find (cs : List Char) : findBytes? cs = some (find cs) := by
  obtain ⟨rs, hrs, hmap⟩ := rangesFrom_append cs []
  simp only [List.nil_append, byteLength_nil] at hrs hmap
  simp [findBytes?, hrs, hmap]

/-- Deleting a comment by its byte range never cuts inside a character, and deletes what
`eraseOnce` deletes. -/
lemma eraseBytes?_eq_eraseOnce (comment work : List Char) :
    eraseBytes? comment work = some (eraseOnce comment work) := by
  unfold eraseBytes? eraseOnce
  cases hs : splitFirst? comment work with
  | none => simp [findOffset?_of_splitFirst?_eq_none hs]
  | some p =>
    obtain ⟨before, after⟩ := p
    have hw := splitFirst?_eq_some hs
    rw [findOffset?_of_splitFirst? hs]
    cases before with
    | nil => simp
    | cons c b =>
      -- a copy past the start is cut out: the text before it and the text after it
      have hpos : 0 < byteLength (c :: b) := by
        have := Char.utf8Size_pos c
        simp
        omega
      have hbefore : slice? work 0 (byteLength (c :: b)) = some (c :: b) :=
        slice?_of_parts (a := []) (z := comment ++ after) (by simp [hw]) rfl (by simp)
      have hafter : slice? work (byteLength (c :: b) + byteLength comment) (byteLength work) =
          some after :=
        slice?_of_parts (a := c :: b ++ comment) (z := []) (by simp [hw]) (by simp; omega)
          (by simp [hw]; omega)
      dsimp only
      rw [if_pos hpos, hbefore, hafter]
      rfl

/-- Deleting comments one after another by byte ranges never fails. -/
lemma foldlM_eraseBytes? (comments : List (List Char)) (work : List Char) :
    comments.foldlM (fun work comment => eraseBytes? comment work) work =
      some (comments.foldl (fun work comment => eraseOnce comment work) work) := by
  induction comments generalizing work with
  | nil => rfl
  | cons c cs ih =>
    rw [List.foldlM_cons, eraseBytes?_eq_eraseOnce]
    exact ih _

/-- Stripping by byte ranges never cuts inside a character, and strips what `strip` strips. -/
theorem stripBytes?_eq_strip (cs : List Char) : stripBytes? cs = some (strip cs) := by
  simp [stripBytes?, findBytes?_eq_find, foldlM_eraseBytes?, strip]

/-- The comment after a two-byte character starts at byte two, one past its character index. -/
example : stripBytes? "é/*x*/b".toList = some "éb".toList := by decide +kernel

end Comment

namespace Span

/-! ## Windows and spans lie on boundaries -/

/-- A window whose ends are character boundaries is never refused, neither as running past the
text nor as cutting a character. -/
lemma scanWindow_ne_window {cs : List Char} {s e : Nat} (hs : s ∈ boundaries cs)
    (he : e ∈ boundaries cs) (f : WindowFault) : scanWindow cs s e ≠ .error (.window f) := by
  by_cases hse : s ≤ e
  · rw [scanWindow_eq hs he hse]
    split <;> simp
  · simp [scanWindow, show e ≤ s by omega]

/-- An empty or reversed window has no spans. -/
lemma scanWindow_of_le (cs : List Char) {s e : Nat} (h : e ≤ s) : scanWindow cs s e = .ok [] := by
  simp [scanWindow, h]

/-- A span lies on character boundaries of the text at every offset the sheet parser cuts at: a
statement's two ends; a block's header and body ends, the bytes just inside its braces (in order,
so the window inside is not reversed), and the place where its header starts once its leading
blanks are trimmed. -/
def OnBoundaries (cs : List Char) : Span → Prop
  | .statement r => r.start ≤ r.stop ∧ r.start ∈ boundaries cs ∧ r.stop ∈ boundaries cs
  | .block h b =>
    h.start ≤ h.stop ∧ h.stop = b.start ∧ b.start + 1 ≤ b.stop - 1 ∧
      h.start ∈ boundaries cs ∧ b.start ∈ boundaries cs ∧ b.start + 1 ∈ boundaries cs ∧
      b.stop - 1 ∈ boundaries cs ∧ b.stop ∈ boundaries cs ∧
      ∃ k ∈ boundaries cs, h.start ≤ k ∧
        k + byteLength (trimStart (charsWithin h.start h.stop cs)) = h.stop

/-- A well-formed piece laid out at the end of a beginning `a` of the text lies on its
boundaries: a statement's ends, and for a block the one-byte braces at both ends of its body and
the blanks its header starts with. -/
lemma onBoundaries_place {a z : List Char} {p : Piece} (hp : p.WellFormed) :
    (p.place (byteLength a)).OnBoundaries (a ++ p.text ++ z) := by
  cases p with
  | statement t =>
    exact ⟨Nat.le_add_right _ _, mem_boundaries_of_parts (z := t ++ z) (by simp) rfl,
      mem_boundaries_of_parts (a := a ++ t) (z := z) rfl (by simp)⟩
  | block header body =>
    obtain ⟨-, b, rfl, -⟩ := hp
    have hheader : charsWithin (byteLength a) (byteLength a + byteLength header)
        (a ++ (header ++ ('{' :: b ++ ['}'])) ++ z) = header := by
      simpa using charsWithin_append a header ('{' :: b ++ ['}'] ++ z)
    simp only [Piece.place, Piece.text_block]
    refine ⟨Nat.le_add_right _ _, rfl, by simp; omega,
      mem_boundaries_of_parts (z := header ++ ('{' :: b ++ ['}']) ++ z) (by simp) rfl,
      mem_boundaries_of_parts (a := a ++ header) (z := '{' :: b ++ ['}'] ++ z) (by simp)
        (by simp),
      mem_boundaries_of_parts (a := a ++ header ++ ['{']) (z := b ++ ['}'] ++ z) (by simp)
        (by simp; omega),
      mem_boundaries_of_parts (a := a ++ header ++ '{' :: b) (z := '}' :: z) (by simp)
        (by simp; omega),
      mem_boundaries_of_parts (a := a ++ header ++ ('{' :: b ++ ['}'])) (z := z) (by simp)
        (by simp; omega),
      ?_⟩
    -- the trimmed header starts after its leading blanks
    have hsplit := List.takeWhile_append_dropWhile (p := isBlank) (l := header)
    have hlen : byteLength (header.takeWhile isBlank) + byteLength (header.dropWhile isBlank) =
        byteLength header := by
      rw [← byteLength_append, hsplit]
    refine ⟨byteLength (a ++ header.takeWhile isBlank),
      mem_boundaries_of_parts (z := header.dropWhile isBlank ++ ('{' :: b ++ ['}']) ++ z)
        (by nth_rewrite 1 [← hsplit]; simp only [List.append_assoc]) rfl, by simp, ?_⟩
    rw [hheader, trimStart]
    simp
    omega

/-- Well-formed pieces laid end to end from the end of a beginning `a` of the text all lie on
its boundaries. -/
lemma onBoundaries_placeAll {cs : List Char} :
    ∀ (ps : List Piece) (a z : List Char), (∀ p ∈ ps, p.WellFormed) →
      cs = a ++ ps.flatMap Piece.text ++ z →
      ∀ sp ∈ Piece.placeAll (byteLength a) ps, sp.OnBoundaries cs
  | [], _, _, _, _ => by simp [Piece.placeAll]
  | p :: ps, a, z, hwf, hcs => by
    intro sp hsp
    rcases List.mem_cons.mp hsp with rfl | hsp
    · have hp : cs = a ++ p.text ++ (ps.flatMap Piece.text ++ z) := by simp [hcs]
      rw [hp]
      exact onBoundaries_place (hwf p List.mem_cons_self)
    · rw [← byteLength_append] at hsp
      exact onBoundaries_placeAll ps (a ++ p.text) z
        (fun q hq => hwf q (List.mem_cons_of_mem _ hq)) (by simp [hcs]) sp hsp

/-- Every span read from a window whose ends are character boundaries lies on boundaries of the
text. -/
lemma onBoundaries_of_scanWindow {cs : List Char} {s e : Nat} (hs : s ∈ boundaries cs)
    (he : e ∈ boundaries cs) {spans : List Span} (h : scanWindow cs s e = .ok spans) :
    ∀ sp ∈ spans, sp.OnBoundaries cs := by
  by_cases hse : s ≤ e
  · rw [scanWindow_eq hs he hse] at h
    obtain ⟨a, m, z, rfl, rfl, rfl⟩ := exists_window hs he hse
    rw [charsWithin_append] at h
    split at h
    · next ps hps =>
      cases h
      obtain ⟨w, hcut⟩ := Piece.scanFrom_eq_ok_iff_cut.mp hps
      exact onBoundaries_placeAll ps a (w ++ z) hcut.wellFormed (by simp [hcut.eq])
    · cases h
  · rw [scanWindow_of_le cs (by omega)] at h
    cases h
    simp

end Span

/-! ## At-keywords and brace depth -/

/-- The keyword of an `@` statement lies between two character boundaries: the `@` is one byte
wide, and the keyword is a beginning of what follows it. -/
lemma atKeyword_on_boundaries (t : List Char) :
    1 ∈ boundaries ('@' :: t) ∧ 1 + byteLength (Entry.atKeyword ('@' :: t)) ∈ boundaries ('@' :: t) := by
  obtain ⟨w, hw⟩ : Entry.atKeyword ('@' :: t) <+: t := List.takeWhile_prefix _
  exact ⟨mem_boundaries_of_parts (a := ['@']) (z := t) rfl rfl,
    mem_boundaries_of_parts (a := '@' :: Entry.atKeyword ('@' :: t)) (z := w) (by simp [hw]) rfl⟩

/-- Counted from a block's `{`, a brace counter stands at one or more after every beginning of
what is read before the matching `}`, and after every beginning of the rest when there is none:
no `}` is read at depth zero. -/
lemma depth_pos_before_close (rest : List Char) :
    (∀ inner after, Piece.closeBlock 0 rest = some (inner, after) →
      ∃ b, inner = b ++ ['}'] ∧ ∀ p, p <+: b → 0 < 1 + braceDepth p) ∧
    (Piece.closeBlock 0 rest = none → ∀ p, p <+: rest → 0 < 1 + braceDepth p) := by
  refine ⟨fun inner after h => ?_, fun h p hp => ?_⟩
  · obtain ⟨b, rfl, -, hb⟩ := Piece.closes_of_closeBlock h
    refine ⟨b, rfl, fun p hp => ?_⟩
    have := hb.balanced.neverBelow p hp
    omega
  · have := Piece.count_le_of_closeBlock_eq_none h p hp
    simp only [braceDepth]
    omega

end StyleSplit
