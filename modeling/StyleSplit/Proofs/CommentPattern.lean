import Mathlib
import StyleSplit.Proofs.Comments

/-!
# Comments are the leftmost matches of the comment pattern

A block comment is documented as a match of the regular expression
`/\*[^*]*\*+([^/*][^*]*\*+)*/`, and the comments of a text as its successive leftmost matches,
each search resuming where the previous match ends. This file reads that pattern with Mathlib's
languages and shows that `locate` cuts a text exactly that way.

* `Regex` is the fragment of regular expressions the pattern is written in, and `Regex.lang` its
  language; `commentPattern` is the pattern, `starredText` its middle part `[^*]*\*+([^/*][^*]*\*+)*`.
* `mem_commentPattern`: the pattern matches `/*`, then a text with no `*/` in it, then `*/`. Both
  halves go through `closeComment`, which cuts the rest of a comment at its first `*/`. On a text
  of `starredText` followed by `/` it stops at that `/` (`closeComment_starred_append`), and what
  it cuts off is always such a text followed by `/` (`mem_starredText_of_closeComment`), since
  `starredText` takes one more character in front unless that makes a `*/`
  (`cons_mem_starredText`).
* A match ends at its first `*/`, so no match extends another (`commentPattern_prefix_free`), and
  where `closeComment` finds no `*/` no match starts (`not_opensMatch_of_closeComment_eq_none`).
* `Leftmost L cs ps rest` says, with no reference to the search, that `ps` are the successive
  leftmost matches of `L` in `cs`, each with the text skipped before it, and `rest` the text after
  the last. `leftmost_locateFrom` shows that the search meets it, by induction along `locateFrom`:
  the invariant is that no match starts in the text read since the last comment.
  `Leftmost.unique` shows that nothing else does, for any language no word of which extends
  another.

The main statement is `find_eq_leftmost_matches`: `locate` gives the leftmost matches and nothing
else, every comment found is `/*`, a text with no `*/`, and `*/`, and no comment starts at or
after an opening that is never closed.
-/

namespace StyleSplit

namespace Text

/-- Regular expressions over characters, in the constructs the comment pattern is written in. -/
inductive Regex
  /-- The one character `c`. -/
  | char (c : Char)
  /-- Any one character not in the list, `[^...]`. -/
  | noneOf (cs : List Char)
  /-- One expression followed by another. -/
  | seq (r s : Regex)
  /-- Any number of repetitions, `r*`. -/
  | star (r : Regex)
  /-- One or more repetitions, `r+`. -/
  | plus (r : Regex)

namespace Regex

/-- The texts an expression matches. -/
def lang : Regex → Language Char
  | char c => {w | w = [c]}
  | noneOf cs => {w | ∃ c, c ∉ cs ∧ w = [c]}
  | seq r s => r.lang * s.lang
  | star r => KStar.kstar r.lang
  | plus r => r.lang * KStar.kstar r.lang

section Lang

variable {w : List Char}

@[simp] lemma mem_lang_char {c : Char} : w ∈ (char c).lang ↔ w = [c] := Iff.rfl

@[simp] lemma mem_lang_noneOf {cs : List Char} : w ∈ (noneOf cs).lang ↔ ∃ c, c ∉ cs ∧ w = [c] :=
  Iff.rfl

@[simp] lemma mem_lang_seq {r s : Regex} :
    w ∈ (seq r s).lang ↔ ∃ a ∈ r.lang, ∃ b ∈ s.lang, a ++ b = w :=
  Language.mem_mul

@[simp] lemma mem_lang_star {r : Regex} :
    w ∈ (star r).lang ↔ ∃ L : List (List Char), w = L.flatten ∧ ∀ y ∈ L, y ∈ r.lang :=
  Language.mem_kstar

lemma mem_lang_plus {r : Regex} : w ∈ (plus r).lang ↔ w ∈ (seq r (star r)).lang := Iff.rfl

/-- Repeating an expression that matches single characters matches the texts of such characters. -/
lemma mem_star_of_single {r : Regex} {p : Char → Prop} (hr : ∀ v, v ∈ r.lang ↔ ∃ c, p c ∧ v = [c]) :
    w ∈ (star r).lang ↔ ∀ c ∈ w, p c := by
  rw [mem_lang_star]
  constructor
  · rintro ⟨L, rfl, hL⟩ c hc
    obtain ⟨y, hy, hcy⟩ := List.mem_flatten.mp hc
    obtain ⟨d, hd, rfl⟩ := (hr y).mp (hL y hy)
    rwa [List.mem_singleton.mp hcy]
  · intro h
    refine ⟨w.map fun c => [c], by simp [← List.flatMap_def], fun y hy => ?_⟩
    obtain ⟨c, hc, rfl⟩ := List.mem_map.mp hy
    exact (hr _).mpr ⟨c, h c hc, rfl⟩

end Lang

/-- `[^*]*`: a text with no star. -/
def nonStars : Regex :=
  star (noneOf ['*'])

/-- `\*+`: a run of stars. -/
def stars : Regex :=
  plus (char '*')

/-- `[^/*][^*]*\*+`: a character other than `/` and `*`, a text with no star, and a run of
stars. -/
def starredRun : Regex :=
  seq (noneOf ['/', '*']) (seq nonStars stars)

/-- `[^*]*\*+([^/*][^*]*\*+)*`: what a comment holds between its opening `/*` and its closing `/`. -/
def starredText : Regex :=
  seq nonStars (seq stars (star starredRun))

end Regex

/-- The pattern of a block comment, `/\*[^*]*\*+([^/*][^*]*\*+)*/`. -/
def commentPattern : Regex :=
  .seq (.char '/') (.seq (.char '*') (.seq Regex.starredText (.char '/')))

namespace Regex

section Parts

variable {w : List Char}

lemma mem_nonStars : w ∈ nonStars.lang ↔ ∀ c ∈ w, c ≠ '*' := by
  rw [nonStars, mem_star_of_single (r := noneOf ['*']) (p := fun c => c ≠ '*') (by simp)]

lemma mem_stars : w ∈ stars.lang ↔ w ≠ [] ∧ ∀ c ∈ w, c = '*' := by
  rw [stars, mem_lang_plus, mem_lang_seq]
  simp only [mem_lang_char, exists_eq_left,
    mem_star_of_single (r := char '*') (p := fun c => c = '*') (by simp)]
  constructor
  · rintro ⟨b, hb, rfl⟩
    simpa using hb
  · rintro ⟨hne, hall⟩
    obtain ⟨c, b, rfl⟩ := List.exists_cons_of_ne_nil hne
    obtain rfl := hall c List.mem_cons_self
    exact ⟨b, fun d hd => hall d (List.mem_cons_of_mem _ hd), rfl⟩

lemma mem_starredRun : w ∈ starredRun.lang ↔
    ∃ c u s, c ≠ '/' ∧ c ≠ '*' ∧ u ∈ nonStars.lang ∧ s ∈ stars.lang ∧ w = c :: (u ++ s) := by
  simp only [starredRun, mem_lang_seq, mem_lang_noneOf, List.mem_cons, List.not_mem_nil,
    or_false, not_or]
  constructor
  · rintro ⟨_, ⟨c, ⟨h1, h2⟩, rfl⟩, _, ⟨u, hu, s, hs, rfl⟩, rfl⟩
    exact ⟨c, u, s, h1, h2, hu, hs, rfl⟩
  · rintro ⟨c, u, s, h1, h2, hu, hs, rfl⟩
    exact ⟨_, ⟨c, ⟨h1, h2⟩, rfl⟩, _, ⟨u, hu, s, hs, rfl⟩, rfl⟩

lemma mem_starredText : w ∈ starredText.lang ↔
    ∃ (u s : List Char) (vs : List (List Char)), u ∈ nonStars.lang ∧ s ∈ stars.lang ∧
      (∀ v ∈ vs, v ∈ starredRun.lang) ∧
      w = u ++ (s ++ vs.flatten) := by
  simp only [starredText, mem_lang_seq, mem_lang_star]
  constructor
  · rintro ⟨u, hu, _, ⟨s, hs, _, ⟨vs, rfl, hvs⟩, rfl⟩, rfl⟩
    exact ⟨u, s, vs, hu, hs, hvs, rfl⟩
  · rintro ⟨u, s, vs, hu, hs, hvs, rfl⟩
    exact ⟨u, hu, _, ⟨s, hs, _, ⟨vs, rfl, hvs⟩, rfl⟩, rfl⟩

/-- `starredText` takes one more character in front, unless it would make a `*/`. -/
lemma cons_mem_starredText {c : Char} {y : List Char} (hy : y ∈ starredText.lang)
    (hc : c = '*' → y.head? ≠ some '/') : c :: y ∈ starredText.lang := by
  obtain ⟨u, s, vs, hu, hs, hvs, rfl⟩ := mem_starredText.mp hy
  rw [mem_starredText]
  by_cases hstar : c = '*'
  · subst hstar
    cases u with
    | nil =>
      -- the star joins the run of stars
      refine ⟨[], '*' :: s, vs, hu, ?_, hvs, rfl⟩
      obtain ⟨-, hall⟩ := mem_stars.mp hs
      exact mem_stars.mpr ⟨List.cons_ne_nil _ _, by simpa using hall⟩
    | cons d u =>
      -- the star is a run of its own, and the text after it opens a run of the repeated part
      have hd : d ≠ '*' := mem_nonStars.mp hu d List.mem_cons_self
      have hd' : d ≠ '/' := fun h => hc rfl (by simp [h])
      refine ⟨[], ['*'], (d :: (u ++ s)) :: vs, mem_nonStars.mpr (by simp),
        mem_stars.mpr (by simp), ?_, by simp⟩
      intro v hv
      rcases List.mem_cons.mp hv with rfl | hv
      · exact mem_starredRun.mpr ⟨d, u, s, hd', hd,
          mem_nonStars.mpr fun e he => mem_nonStars.mp hu e (List.mem_cons_of_mem _ he), hs, rfl⟩
      · exact hvs v hv
  · exact ⟨c :: u, s, vs, mem_nonStars.mpr (by simpa [hstar] using mem_nonStars.mp hu), hs, hvs,
      rfl⟩

end Parts

end Regex

end Text

namespace Comment

open StyleSplit.Text Regex

/-! ## Cutting a comment at its first `*/` -/

section Close

/-- A text with no star is passed over. -/
lemma closeComment_nonStars_append {u : List Char} (hu : u ∈ nonStars.lang) (r : List Char) :
    closeComment (u ++ r) = (closeComment r).map fun (b, a) => (u ++ b, a) := by
  induction u with
  | nil => simp
  | cons c u ih =>
    have hc : c ≠ '*' := mem_nonStars.mp hu c List.mem_cons_self
    rw [List.cons_append, closeComment_cons (fun h => absurd h hc),
      ih (mem_nonStars.mpr fun d hd => mem_nonStars.mp hu d (List.mem_cons_of_mem _ hd)),
      Option.map_map]
    rfl

/-- A run of stars followed by `/` closes the comment. -/
lemma closeComment_stars_slash {s : List Char} (hs : s ∈ stars.lang) (t : List Char) :
    closeComment (s ++ '/' :: t) = some (s ++ ['/'], t) := by
  obtain ⟨hne, hall⟩ := mem_stars.mp hs
  clear hs
  induction s with
  | nil => exact absurd rfl hne
  | cons c s ih =>
    obtain rfl := hall c List.mem_cons_self
    cases s with
    | nil => rfl
    | cons d s =>
      -- a star before a star makes no `*/`
      obtain rfl := hall d (by simp)
      rw [List.cons_append, closeComment_cons (by simp),
        ih (List.cons_ne_nil _ _) fun e he => hall e (List.mem_cons_of_mem _ he)]
      rfl

/-- A run of stars followed by a character other than `/` and `*` is passed over. -/
lemma closeComment_stars_cons {s : List Char} (hs : s ∈ stars.lang) {c : Char} (hc : c ≠ '/')
    (hc' : c ≠ '*') (r : List Char) :
    closeComment (s ++ c :: r) = (closeComment r).map fun (b, a) => (s ++ c :: b, a) := by
  obtain ⟨hne, hall⟩ := mem_stars.mp hs
  clear hs
  induction s with
  | nil => exact absurd rfl hne
  | cons d s ih =>
    obtain rfl := hall d List.mem_cons_self
    cases s with
    | nil =>
      rw [List.cons_append, List.nil_append, closeComment_cons (by simpa using hc),
        closeComment_cons (fun h => absurd h hc'), Option.map_map]
      rfl
    | cons e s =>
      obtain rfl := hall e (by simp)
      rw [List.cons_append, closeComment_cons (by simp),
        ih (List.cons_ne_nil _ _) (fun x hx => hall x (List.mem_cons_of_mem _ hx)), Option.map_map]
      rfl

/-- After a run of stars, the repeated part of `starredText` and a `/` close the comment at that
`/`. -/
lemma closeComment_runs_slash {vs : List (List Char)} (hvs : ∀ v ∈ vs, v ∈ starredRun.lang) :
    ∀ {s : List Char}, s ∈ stars.lang → ∀ t,
      closeComment (s ++ (vs.flatten ++ '/' :: t)) = some (s ++ (vs.flatten ++ ['/']), t) := by
  induction vs with
  | nil =>
    intro s hs t
    simpa using closeComment_stars_slash hs t
  | cons v vs ih =>
    intro s hs t
    obtain ⟨c, u, s', hc, hc', hu, hs', rfl⟩ := mem_starredRun.mp (hvs v List.mem_cons_self)
    have hrest := ih (fun w hw => hvs w (List.mem_cons_of_mem _ hw)) hs' t
    have htext : s ++ ((c :: (u ++ s')) :: vs).flatten ++ '/' :: t =
        s ++ c :: (u ++ (s' ++ (vs.flatten ++ '/' :: t))) := by simp
    rw [← List.append_assoc, htext, closeComment_stars_cons hs hc hc',
      closeComment_nonStars_append hu, hrest]
    simp

/-- A text of `starredText` followed by `/` is closed at that `/`. -/
lemma closeComment_starred_append {y : List Char} (hy : y ∈ starredText.lang) (t : List Char) :
    closeComment (y ++ '/' :: t) = some (y ++ ['/'], t) := by
  obtain ⟨u, s, vs, hu, hs, hvs, rfl⟩ := mem_starredText.mp hy
  rw [List.append_assoc, List.append_assoc, closeComment_nonStars_append hu,
    closeComment_runs_slash hvs hs t]
  simp

/-- What `closeComment` cuts off is a text of `starredText` followed by `/`. -/
lemma mem_starredText_of_closeComment {r body after : List Char}
    (h : closeComment r = some (body, after)) : ∃ y ∈ starredText.lang, body = y ++ ['/'] := by
  fun_induction closeComment r generalizing body after with
  | case1 => simp at h
  | case2 rest =>
    simp only [Option.some.injEq, Prod.mk.injEq] at h
    obtain ⟨rfl, rfl⟩ := h
    exact ⟨['*'], mem_starredText.mpr ⟨[], ['*'], [], mem_nonStars.mpr (by simp),
      mem_stars.mpr (by simp), by simp, rfl⟩, rfl⟩
  | case3 c rest hnot ih =>
    obtain ⟨⟨b, a⟩, hs, he⟩ := Option.map_eq_some_iff.mp h
    simp only [Prod.mk.injEq] at he
    obtain ⟨rfl, rfl⟩ := he
    obtain ⟨y, hy, rfl⟩ := ih hs
    refine ⟨c :: y, cons_mem_starredText hy fun hc hslash => ?_, rfl⟩
    -- a `/` after the star would have closed the comment here
    obtain ⟨z, rfl⟩ : ∃ z, y = '/' :: z := by
      cases y with
      | nil => simp at hslash
      | cons d z => simp_all
    exact hnot (z ++ ['/'] ++ a) hc (by simpa using (closeComment_eq_some hs).1)

/-- Where `closeComment` finds nothing, the text holds no `*/`. -/
lemma not_closing_of_closeComment_eq_none {r : List Char} (h : closeComment r = none) :
    ¬ ['*', '/'] <:+: r := by
  fun_induction closeComment r with
  | case1 => exact fun h => by simpa using h.length_le
  | case2 rest => simp at h
  | case3 c rest hnot ih =>
    intro hin
    rcases List.infix_cons_iff.mp hin with hpre | hin
    · obtain ⟨rfl, hslash⟩ := List.cons_prefix_cons.mp hpre
      obtain ⟨z, rfl⟩ := hslash
      exact hnot z rfl rfl
    · exact ih (by simpa using h) hin

end Close

/-! ## The language of the pattern -/

section Pattern

lemma mem_commentPattern_iff_starred {w : List Char} :
    w ∈ commentPattern.lang ↔ ∃ y ∈ starredText.lang, w = '/' :: '*' :: (y ++ ['/']) := by
  simp only [commentPattern, mem_lang_seq, mem_lang_char]
  constructor
  · rintro ⟨_, rfl, _, ⟨_, rfl, _, ⟨y, hy, _, rfl, rfl⟩, rfl⟩, rfl⟩
    exact ⟨y, hy, rfl⟩
  · rintro ⟨y, hy, rfl⟩
    exact ⟨_, rfl, _, ⟨_, rfl, _, ⟨y, hy, _, rfl, rfl⟩, rfl⟩, rfl⟩

/-- The comment pattern matches `/*`, then a text with no `*/` in it, then `*/`. -/
lemma mem_commentPattern {w : List Char} :
    w ∈ commentPattern.lang ↔ ∃ x, w = '/' :: '*' :: (x ++ ['*', '/']) ∧ ¬ ['*', '/'] <:+: x := by
  rw [mem_commentPattern_iff_starred]
  constructor
  · rintro ⟨y, hy, rfl⟩
    obtain ⟨x, hx, hclose⟩ := closeComment_eq_some_closing (closeComment_starred_append hy [])
    exact ⟨x, by rw [hx], hclose⟩
  · rintro ⟨x, rfl, hx⟩
    obtain ⟨y, hy, hxy⟩ := mem_starredText_of_closeComment (closeComment_closing hx [])
    exact ⟨y, hy, by rw [← hxy]⟩

/-- A comment found after an opening matches the pattern. -/
lemma mem_commentPattern_of_closeComment {r body after : List Char}
    (h : closeComment r = some (body, after)) : '/' :: '*' :: body ∈ commentPattern.lang := by
  obtain ⟨y, hy, rfl⟩ := mem_starredText_of_closeComment h
  exact mem_commentPattern_iff_starred.mpr ⟨y, hy, rfl⟩

/-- A match of the pattern is an opening and a text that `closeComment` cuts off whole, whatever
follows it. -/
lemma closeComment_of_mem_commentPattern {m : List Char} (hm : m ∈ commentPattern.lang) :
    ∃ b, m = '/' :: '*' :: b ∧ ∀ t, closeComment (b ++ t) = some (b, t) := by
  obtain ⟨x, rfl, hx⟩ := mem_commentPattern.mp hm
  exact ⟨x ++ ['*', '/'], rfl, fun t => by simpa using closeComment_closing hx t⟩

/-- No match of the comment pattern extends another: each ends at its first `*/`. -/
lemma commentPattern_prefix_free :
    ∀ m ∈ commentPattern.lang, ∀ m' ∈ commentPattern.lang, ∀ a a' : List Char,
      m ++ a = m' ++ a' → m = m' := by
  intro m hm m' hm' a a' h
  obtain ⟨b, rfl, hb⟩ := closeComment_of_mem_commentPattern hm
  obtain ⟨b', rfl, hb'⟩ := closeComment_of_mem_commentPattern hm'
  have hsame : b ++ a = b' ++ a' := by simpa using h
  have := (hb a).symm.trans (hsame ▸ hb' a')
  simp only [Option.some.injEq, Prod.mk.injEq] at this
  rw [this.1]

end Pattern

/-! ## Leftmost matches -/

/-- A match of the language starts at the front of the text. -/
def OpensMatch (L : Language Char) (t : List Char) : Prop :=
  ∃ m ∈ L, m <+: t

/-- `ps` and `rest` are the successive leftmost matches of `L` in a text, each search resuming
where the previous match ends. Each entry holds a match and the text skipped before it; no match
starts at a position of the skipped text; and none starts anywhere in `rest`, the text after the
last match. -/
inductive Leftmost (L : Language Char) : List Char → List Located → List Char → Prop
  /-- No match starts anywhere in the text. -/
  | stop {rest : List Char} (h : ∀ i, ¬ OpensMatch L (rest.drop i)) : Leftmost L rest [] rest
  /-- The first match starts after `gap`, and the search goes on after it. -/
  | found {gap m after rest : List Char} {ps : List Located} (hm : m ∈ L)
      (hgap : ∀ i < gap.length, ¬ OpensMatch L ((gap ++ m ++ after).drop i))
      (h : Leftmost L after ps rest) : Leftmost L (gap ++ m ++ after) (⟨gap, m⟩ :: ps) rest

section Leftmost

variable {L : Language Char}

/-- A match opens the text at the place where it stands. -/
lemma opensMatch_at {gap m after : List Char} (hm : m ∈ L) :
    OpensMatch L ((gap ++ m ++ after).drop gap.length) :=
  ⟨m, hm, by simp [List.append_assoc]⟩

/-- Every entry of a run of leftmost matches is a match. -/
lemma Leftmost.comment_mem {cs rest : List Char} {ps : List Located} (h : Leftmost L cs ps rest) :
    ∀ p ∈ ps, p.comment ∈ L := by
  induction h with
  | stop => simp
  | found hm _ _ ih =>
    intro p hp
    rcases List.mem_cons.mp hp with rfl | hp
    · exact hm
    · exact ih p hp

/-- When no word of the language extends another, a text has one run of leftmost matches. Two
runs start their first matches at the same place, since neither search may pass over the other's
match, and the matches there are then equal. -/
lemma Leftmost.unique (hL : ∀ m ∈ L, ∀ m' ∈ L, ∀ a a' : List Char, m ++ a = m' ++ a' → m = m')
    {cs rest rest' : List Char} {ps ps' : List Located} (h : Leftmost L cs ps rest)
    (h' : Leftmost L cs ps' rest') : ps = ps' ∧ rest = rest' := by
  induction h generalizing ps' rest' with
  | stop hno =>
    cases h' with
    | stop _ => exact ⟨rfl, rfl⟩
    | found hm _ _ => exact absurd (opensMatch_at hm) (hno _)
  | @found gap m after rest ps hm hgap hrest ih =>
    generalize hcs : gap ++ m ++ after = cs at h'
    cases h' with
    | stop hno => exact absurd (hcs ▸ opensMatch_at hm) (hno gap.length)
    | @found gap' m' after' rest' ps' hm' hgap' hrest' =>
      have hlen : gap.length = gap'.length := by
        by_contra hne
        rcases Nat.lt_or_gt_of_ne hne with hlt | hlt
        · exact hgap' gap.length hlt (hcs ▸ opensMatch_at hm)
        · exact hgap gap'.length hlt (hcs.symm ▸ opensMatch_at hm')
      obtain ⟨rfl, htail⟩ := List.append_inj (by simpa [List.append_assoc] using hcs) hlen
      obtain rfl := hL m hm m' hm' after after' htail
      obtain rfl := List.append_cancel_left htail
      obtain ⟨rfl, rfl⟩ := ih hrest'
      exact ⟨rfl, rfl⟩

end Leftmost

/-! ## The search finds the leftmost matches -/

section Search

/-- No match of the comment pattern starts at the end of a text. -/
lemma not_opensMatch_nil : ¬ OpensMatch commentPattern.lang [] := by
  rintro ⟨m, hm, hpre⟩
  obtain ⟨b, rfl, -⟩ := closeComment_of_mem_commentPattern hm
  simpa using hpre.length_le

/-- A match of the comment pattern opens with `/*`. -/
lemma opensMatch_cons {c : Char} {rest : List Char}
    (h : OpensMatch commentPattern.lang (c :: rest)) : c = '/' ∧ ∃ r, rest = '*' :: r := by
  obtain ⟨m, hm, hpre⟩ := h
  obtain ⟨b, rfl, -⟩ := closeComment_of_mem_commentPattern hm
  obtain ⟨rfl, hstar⟩ := List.cons_prefix_cons.mp hpre
  obtain ⟨t, ht⟩ := hstar
  exact ⟨rfl, b ++ t, by simp [← ht]⟩

/-- No match starts at or after an opening that is never closed. -/
lemma not_opensMatch_of_closeComment_eq_none {rest : List Char} (h : closeComment rest = none) :
    ∀ i, ¬ OpensMatch commentPattern.lang (('/' :: '*' :: rest).drop i)
  | 0, ⟨m, hm, hpre⟩ => by
    -- a match here would be closed by `closeComment`
    obtain ⟨b, rfl, hb⟩ := closeComment_of_mem_commentPattern hm
    obtain ⟨t, ht⟩ := (List.cons_prefix_cons.mp (List.cons_prefix_cons.mp hpre).2).2
    rw [← ht, hb t] at h
    cases h
  | 1, ⟨m, hm, hpre⟩ => by
    obtain ⟨b, rfl, -⟩ := closeComment_of_mem_commentPattern hm
    simp at hpre
  | i + 2, ⟨m, hm, hpre⟩ => by
    -- the match's closing `*/` would lie in the text after the opening
    obtain ⟨x, rfl, -⟩ := mem_commentPattern.mp hm
    simp only [List.drop_succ_cons] at hpre
    apply not_closing_of_closeComment_eq_none h
    have hin : ['*', '/'] <:+: '/' :: '*' :: (x ++ ['*', '/']) :=
      (List.suffix_append ('/' :: '*' :: x) ['*', '/']).isInfix
    exact hin.trans (hpre.isInfix.trans (List.drop_suffix i rest).isInfix)

/-- The search meets the leftmost matches of the comment pattern, provided no match starts in the
text read since the last comment. -/
lemma leftmost_locateFrom (gap cs : List Char)
    (h : ∀ i < gap.length, ¬ OpensMatch commentPattern.lang ((gap.reverse ++ cs).drop i)) :
    Leftmost commentPattern.lang (gap.reverse ++ cs) (locateFrom gap cs).1
      (locateFrom gap cs).2 := by
  fun_induction locateFrom gap cs with
  | case1 gap =>
    rw [List.append_nil] at h ⊢
    refine .stop fun i => ?_
    by_cases hi : i < gap.length
    · exact h i hi
    · rw [List.drop_eq_nil_of_le (by simpa using hi)]
      exact not_opensMatch_nil
  | case2 gap rest body after hclose _ found ih =>
    -- a comment: it matches, and the search starts afresh after it
    have htext : gap.reverse ++ '/' :: '*' :: rest = gap.reverse ++ ('/' :: '*' :: body) ++ after := by
      simp [(closeComment_eq_some hclose).1]
    rw [htext] at h ⊢
    exact .found (mem_commentPattern_of_closeComment hclose) (by simpa using h)
      (by simpa using ih (by simp))
  | case3 gap rest hclose =>
    -- an opening that is never closed: no match starts from it on
    refine .stop fun i => ?_
    by_cases hi : i < gap.length
    · exact h i hi
    · rw [List.drop_append, List.drop_eq_nil_of_le (by simpa using hi), List.nil_append,
        List.length_reverse]
      exact not_opensMatch_of_closeComment_eq_none hclose _
  | case4 gap c rest hnot ih =>
    have htext : (c :: gap).reverse ++ rest = gap.reverse ++ c :: rest := by simp
    rw [htext] at ih
    refine ih fun i hi => ?_
    rcases Nat.lt_succ_iff_lt_or_eq.mp (by simpa using hi) with hi | rfl
    · exact h i hi
    · -- the character read does not open a comment
      rw [← List.length_reverse, List.drop_left]
      intro hm
      obtain ⟨rfl, r, rfl⟩ := opensMatch_cons hm
      exact hnot r rfl rfl

/-- The search cuts a text into its leftmost matches of the comment pattern and nothing else. -/
lemma locate_eq_iff_leftmost {cs rest : List Char} {ps : List Located} :
    locate cs = (ps, rest) ↔ Leftmost commentPattern.lang cs ps rest := by
  have hloc : Leftmost commentPattern.lang cs (locate cs).1 (locate cs).2 := by
    simpa [locate] using leftmost_locateFrom [] cs (by simp)
  constructor
  · intro h
    rwa [h] at hloc
  · intro h
    obtain ⟨h1, h2⟩ := hloc.unique commentPattern_prefix_free h
    rw [← h1, ← h2]

/-- No comment is found at or after an opening with no `*/` after it. -/
lemma start_lt_of_unclosed {cs u v : List Char} (hcs : cs = u ++ '/' :: '*' :: v)
    (hv : ¬ ['*', '/'] <:+: v) {pre post : List Located} {p : Located}
    (hps : (locate cs).1 = pre ++ p :: post) :
    ((pre.map Located.text).flatten ++ p.gap).length < u.length := by
  have hloc : Leftmost commentPattern.lang cs (locate cs).1 (locate cs).2 :=
    locate_eq_iff_leftmost.mp rfl
  obtain ⟨x, hx, -⟩ := mem_commentPattern.mp (hloc.comment_mem p (by simp [hps]))
  set A := (pre.map Located.text).flatten ++ p.gap
  set B := (post.map Located.text).flatten ++ (locate cs).2
  -- the text is `A`, the comment and `B`; the comment's `*/` lies after `A`
  have htext : cs = A ++ '/' :: '*' :: x ++ '*' :: '/' :: B := by
    have := join_locate cs
    rw [hps] at this
    rw [← this]
    simp [A, B, Located.text, hx]
  by_contra hge
  have hu : u ++ ['/', '*'] <+: cs := ⟨v, by simp [hcs]⟩
  have hA : A ++ '/' :: '*' :: x <+: cs := ⟨'*' :: '/' :: B, by rw [htext]⟩
  obtain ⟨w, hw⟩ := List.prefix_of_prefix_length_le hu hA (by simp; omega)
  have hvw : v = w ++ '*' :: '/' :: B := by
    apply @List.append_cancel_left _ (u ++ ['/', '*'])
    rw [show u ++ ['/', '*'] ++ v = cs by simp [hcs], htext, ← hw]
    simp
  exact hv (hvw ▸ by simpa using List.infix_append w ['*', '/'] B)

end Search

/-- The comments a text is cut into are the successive leftmost matches of the pattern
`/\*[^*]*\*+([^/*][^*]*\*+)*/`, each search resuming where the previous match ends, and no other
cut is; each comment found is `/*`, a text with no `*/` in it, and `*/`; and no comment starts at
or after an opening that is never closed. -/
theorem find_eq_leftmost_matches (cs : List Char) :
    (∀ ps rest, locate cs = (ps, rest) ↔ Leftmost commentPattern.lang cs ps rest) ∧
    (∀ c ∈ find cs, ∃ x, c = '/' :: '*' :: (x ++ ['*', '/']) ∧ ¬ ['*', '/'] <:+: x) ∧
    (∀ u v, cs = u ++ '/' :: '*' :: v → ¬ ['*', '/'] <:+: v →
      ∀ pre p post, (locate cs).1 = pre ++ p :: post →
        ((pre.map Located.text).flatten ++ p.gap).length < u.length) := by
  refine ⟨fun _ _ => locate_eq_iff_leftmost, fun c hc => ?_,
    fun u v hcs hv pre p post hps => start_lt_of_unclosed hcs hv hps⟩
  obtain ⟨p, hp, rfl⟩ := List.mem_map.mp hc
  exact mem_commentPattern.mp ((locate_eq_iff_leftmost.mp rfl).comment_mem p hp)

/-- The `*` of an opening never closes it: `/*/*/` is one comment, its text after the opening
being `/*/`, and the `/*` after `a` is never closed. -/
example : find "/*/*/a/*/".toList = ["/*/*/".toList] := by decide +kernel

end Comment

end StyleSplit
