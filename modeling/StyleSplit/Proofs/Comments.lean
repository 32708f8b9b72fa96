import Mathlib
import StyleSplit.Comment

/-!
# Deleting comments in place

`Comment.strip` does not cut the comments out where `locate` found them. For each one it deletes
the first copy of the comment's text in what is left of the text, and only when that copy does not
open what is left. So a comment at offset zero stays, and so does every later comment with the
same text, whose first copy is the one at offset zero. `deleteInPlace` is the documented reading:
every located comment cut out where it was found, except the comment at offset zero and its copies
(`Located.kept`). The two agree (`strip_eq_deleteInPlace`) when no comment directly follows a `/`
and, if the text opens with a comment, that comment holds no other `/*` and no text between two
comments starts with `*`.

The deletions keep one invariant, `Settled`: every `/*` in the text kept before the next comment
starts a copy of the leading comment, and with no leading comment the kept text does not end in
`/`. Settled texts join into a settled text where no `/*` forms at the seam (`Settled.append`).
The next comment to delete opens with `/*` and is no copy of the leading one, and two comments
that start at one place are the same (`IsComment.eq_of_opens`); so its first copy is the one that
was found, right after the kept text (`eraseOnce_after_settled`). `foldl_eraseOnce_kept` carries
the invariant through the deletions.

Each condition is needed (`strip_departs_from_in_place`). After a `/`, deleting the comment before
a comment can join that `/` to a `*` after it, and a later comment is deleted from the new opening.
A copy of a later comment inside the leading comment is deleted there. And a `*` after the leading
comment, once the comments between are deleted, makes an opening with the leading comment's
closing `/`.

Under the same conditions stripping is idempotent (`strip_idempotent`): the comments of the
in-place text are copies of the leading comment (`locateFrom_kept`), each opening the text, and
stripping keeps them (`strip_of_comments_open`). Without the conditions a second pass can delete
more (`strip_not_idempotent`).
-/

namespace StyleSplit.Comment

open StyleSplit.Text

/-- A comment's text: `/*`, a text with no `*/` in it, and `*/`. -/
def IsComment (c : List Char) : Prop :=
  ∃ x, c = '/' :: '*' :: (x ++ ['*', '/']) ∧ ¬ ['*', '/'] <:+: x

/-- The comment at offset zero, if the text opens with one. -/
def leadingComment (cs : List Char) : Option (List Char) :=
  match (locate cs).1 with
  | p :: _ => if p.gap = [] then some p.comment else none
  | [] => none

/-- What cutting in place keeps of a located comment and the text before it: that text, and the
comment too when it is a copy of the leading one. -/
def Located.kept (lead : Option (List Char)) (p : Located) : List Char :=
  if some p.comment = lead then p.text else p.gap

/-- The text with every located comment cut out where it was found, except the comment at offset
zero and every later comment with the same text. -/
def deleteInPlace (cs : List Char) : List Char :=
  ((locate cs).1.map (Located.kept (leadingComment cs))).flatten ++ (locate cs).2

/-- No `/*` occurs in the text, even with a `*` after it: no opening, and no `/` at the end. -/
def Quiet (l : List Char) : Prop :=
  ¬ ['/', '*'] <:+: l ++ ['*']

/-- Every `/*` in the text starts a copy of the leading comment, and with no leading comment the
text does not end in `/`. -/
def Settled (lead : Option (List Char)) (l : List Char) : Prop :=
  (∀ t, t <:+ l → ['/', '*'] <+: t → ∃ c ∈ lead, c <+: t) ∧
    (lead = none → l.getLast? ≠ some '/')

lemma leadingComment_cons {cs : List Char} {p : Located} {ps : List Located}
    (h : (locate cs).1 = p :: ps) :
    leadingComment cs = if p.gap = [] then some p.comment else none := by
  rw [leadingComment, h]

section Close

/-- A character that does not make a `*/` with the next one is passed over. -/
lemma closeComment_cons {c : Char} {rest : List Char} (h : c = '*' → rest.head? ≠ some '/') :
    closeComment (c :: rest) = (closeComment rest).map fun (b, a) => (c :: b, a) :=
  closeComment.eq_3 c rest fun r hc hr => h hc (by simp [hr])

/-- What `closeComment` cuts off ends in its first `*/`. -/
lemma closeComment_eq_some_closing {r body after : List Char}
    (h : closeComment r = some (body, after)) :
    ∃ x, body = x ++ ['*', '/'] ∧ ¬ ['*', '/'] <:+: x := by
  fun_induction closeComment r generalizing body after with
  | case1 => simp at h
  | case2 rest =>
    simp only [Option.some.injEq, Prod.mk.injEq] at h
    obtain ⟨rfl, rfl⟩ := h
    exact ⟨[], rfl, fun h => by simpa using h.length_le⟩
  | case3 c rest hnot ih =>
    obtain ⟨⟨b, a⟩, hs, he⟩ := Option.map_eq_some_iff.mp h
    simp only [Prod.mk.injEq] at he
    obtain ⟨rfl, rfl⟩ := he
    obtain ⟨x, rfl, hx⟩ := ih hs
    refine ⟨c :: x, rfl, fun hin => ?_⟩
    rcases List.infix_cons_iff.mp hin with hpre | hin
    · -- a `*/` at the front is where the comment would have closed
      obtain ⟨rfl, hslash⟩ := List.cons_prefix_cons.mp hpre
      cases x with
      | nil => simpa using hslash.length_le
      | cons d x =>
        obtain ⟨rfl, -⟩ := List.cons_prefix_cons.mp hslash
        exact hnot (x ++ ['*', '/'] ++ a) rfl (by simpa using (closeComment_eq_some hs).1)
    · exact hx hin

/-- A text with no `*/` in it, followed by `*/`, is closed there. -/
lemma closeComment_closing {x : List Char} (hx : ¬ ['*', '/'] <:+: x) (t : List Char) :
    closeComment (x ++ '*' :: '/' :: t) = some (x ++ ['*', '/'], t) := by
  induction x with
  | nil => rfl
  | cons c x ih =>
    have hnext : c = '*' → (x ++ '*' :: '/' :: t).head? ≠ some '/' := by
      intro hc hslash
      cases x with
      | nil => simp at hslash
      | cons d x =>
        obtain rfl : d = '/' := by simpa using hslash
        exact hx (hc ▸ (List.prefix_append ['*', '/'] x).isInfix)
    rw [List.cons_append, closeComment_cons hnext, ih fun h => hx (List.infix_cons h)]
    rfl

/-- Two comments that start at one place are the same: each ends at its first `*/`. -/
lemma IsComment.eq_of_opens {c d t : List Char} (hc : IsComment c) (hd : IsComment d)
    (hct : c <+: t) (hdt : d <+: t) : c = d := by
  obtain ⟨x, rfl, hx⟩ := hc
  obtain ⟨y, rfl, hy⟩ := hd
  obtain ⟨u, rfl⟩ := hct
  obtain ⟨v, hv⟩ := hdt
  have hrest : y ++ '*' :: '/' :: v = x ++ '*' :: '/' :: u := by simpa using hv
  have hclose := closeComment_closing hy v
  rw [hrest, closeComment_closing hx u] at hclose
  obtain ⟨hxy, -⟩ := Prod.mk.inj (Option.some.inj hclose)
  rw [List.append_cancel_right hxy]

/-- A comment's text opens with `/*`. -/
lemma IsComment.opening {c : List Char} (hc : IsComment c) : ['/', '*'] <+: c := by
  obtain ⟨x, rfl, -⟩ := hc
  exact ⟨x ++ ['*', '/'], rfl⟩

/-- A comment's text is not empty. -/
lemma IsComment.ne_nil {c : List Char} (hc : IsComment c) : c ≠ [] := by
  obtain ⟨x, rfl, -⟩ := hc
  simp

end Close

section Quiet

lemma Quiet.not_opening {l : List Char} (h : Quiet l) : ¬ ['/', '*'] <:+: l :=
  fun hl => h (hl.trans (List.prefix_append l ['*']).isInfix)

lemma quiet_of_not_opening {l : List Char} (hopen : ¬ ['/', '*'] <:+: l)
    (hlast : l.getLast? ≠ some '/') : Quiet l := by
  intro h
  rcases List.infix_concat_iff.mp h with ⟨t, ht⟩ | h
  · -- the opening ends the text: its `/` is the text's last character
    have hl : t ++ ['/'] = l := List.append_cancel_right (by simpa using ht)
    simp [← hl] at hlast
  · exact hopen h

/-- A quiet text holds no opening, whatever character follows it. -/
lemma Quiet.not_opening_append_take {l : List Char} (h : Quiet l) (t : List Char) :
    ¬ ['/', '*'] <:+: l ++ t.take 1 := by
  rcases t with _ | ⟨c, t⟩
  · simpa using h.not_opening
  · intro h'
    simp only [List.take_succ_cons, List.take_zero] at h'
    by_cases hc : c = '*'
    · exact h (hc ▸ h')
    · rcases List.infix_concat_iff.mp h' with ⟨u, hu⟩ | h'
      · -- an opening that ends the text ends with the character after it, a `*`
        have := congrArg List.getLast? hu
        simp at this
        exact hc this.symm
      · exact h.not_opening h'

end Quiet

section Search

/-- The first copy of `q` is the one after `before` when no copy of it starts inside `before`. -/
lemma splitFirst?_of_no_copy_before {q after : List Char} :
    ∀ {before : List Char}, (∀ t, t <:+ before → t ≠ [] → ¬ q <+: t ++ q ++ after) →
      splitFirst? q (before ++ q ++ after) = some (before, after)
  | [], _ => by
    cases q <;> cases after <;> simp [splitFirst?, List.isPrefixOf_iff_prefix]
  | c :: before, h => by
    have hnot : ¬ q <+: c :: (before ++ q ++ after) :=
      h (c :: before) (List.suffix_refl _) (by simp)
    show splitFirst? q (c :: (before ++ q ++ after)) = _
    rw [splitFirst?, if_neg (by rwa [List.isPrefixOf_iff_prefix]),
      splitFirst?_of_no_copy_before fun t ht hne => h t (ht.trans (List.suffix_cons c before)) hne]
    rfl

/-- A comment that opens the text is kept. -/
lemma eraseOnce_of_opens {q w : List Char} (h : q <+: w) : eraseOnce q w = w := by
  obtain ⟨a, rfl⟩ := h
  have hsplit : splitFirst? q ([] ++ q ++ a) = some ([], a) :=
    splitFirst?_of_no_copy_before fun t ht hne => absurd (List.eq_nil_of_suffix_nil ht) hne
  simp only [List.nil_append] at hsplit
  simp only [eraseOnce, hsplit]

end Search

section Locate

/-- One character holds no opening. -/
lemma not_opening_take_one (cs : List Char) : ¬ ['/', '*'] <:+: cs.take 1 := fun h => by
  have := h.length_le
  simp only [List.length_take, List.length_cons, List.length_nil] at this
  omega

/-- Reading a character that does not open a comment keeps the text read so far, with the next
character, free of openings. -/
lemma not_opening_of_cons {gap rest : List Char} {c : Char}
    (h : ¬ ['/', '*'] <:+: gap.reverse ++ (c :: rest).take 1)
    (hnot : ∀ r, c = '/' → rest = '*' :: r → False) :
    ¬ ['/', '*'] <:+: (c :: gap).reverse ++ rest.take 1 := by
  cases rest with
  | nil => simpa using h
  | cons d rest =>
    intro h'
    simp only [List.reverse_cons, List.take_succ_cons, List.take_zero] at h h'
    rcases List.infix_concat_iff.mp h' with hend | h'
    · -- an opening made of `c` and the next character was read as a comment instead
      have := List.reverse_prefix.mpr hend
      simp only [List.reverse_cons, List.reverse_nil, List.nil_append, List.reverse_append,
        List.cons_append, List.cons_prefix_cons] at this
      obtain ⟨rfl, rfl, -⟩ := this
      exact hnot rest rfl rfl
    · exact h h'

/-- Every comment `locateFrom` finds is a comment's text, and no gap before one holds an opening,
provided the gap read so far, with the next character, holds none. -/
lemma locateFrom_located (gap cs : List Char) (h : ¬ ['/', '*'] <:+: gap.reverse ++ cs.take 1) :
    ∀ p ∈ (locateFrom gap cs).1, IsComment p.comment ∧ ¬ ['/', '*'] <:+: p.gap := by
  fun_induction locateFrom gap cs with
  | case1 gap => simp
  | case2 gap rest body after hclose _ found ih =>
    intro p hp
    rcases List.mem_cons.mp hp with rfl | hp
    · obtain ⟨x, rfl, hx⟩ := closeComment_eq_some_closing hclose
      exact ⟨⟨x, rfl, hx⟩, fun h' => h (h'.trans (List.prefix_append _ _).isInfix)⟩
    · -- after a comment the gap starts empty, and one character holds no opening
      exact ih (by simpa using not_opening_take_one after) p hp
  | case3 gap rest hclose => simp
  | case4 gap c rest hnot ih => exact ih (not_opening_of_cons h hnot)

/-- The comments of a text are comments' texts, and the gaps before them hold no opening. -/
lemma located_of_mem {cs : List Char} {p : Located} (hp : p ∈ (locate cs).1) :
    IsComment p.comment ∧ ¬ ['/', '*'] <:+: p.gap :=
  locateFrom_located [] cs (by simpa using not_opening_take_one cs) p hp

/-- A comment at the reading position is found whole, and reading goes on after it. -/
lemma locateFrom_comment {c : List Char} (hc : IsComment c) (gap w : List Char) :
    locateFrom gap (c ++ w) =
      (⟨gap.reverse, c⟩ :: (locateFrom [] w).1, (locateFrom [] w).2) := by
  obtain ⟨x, rfl, hx⟩ := hc
  rw [List.cons_append, List.cons_append, locateFrom.eq_2]
  have hclose : closeComment (x ++ ['*', '/'] ++ w) = some (x ++ ['*', '/'], w) := by
    simpa using closeComment_closing hx w
  split
  · next body after heq =>
    rw [hclose] at heq
    obtain ⟨rfl, rfl⟩ := Prod.mk.inj (Option.some.inj heq)
    rfl
  · next heq => rw [hclose] at heq; cases heq

/-- Text with no opening is read character by character into the gap. -/
lemma locateFrom_append_of_not_opening {u t : List Char} (h : ¬ ['/', '*'] <:+: u ++ t.take 1)
    (gap : List Char) : locateFrom gap (u ++ t) = locateFrom (u.reverse ++ gap) t := by
  induction u generalizing gap with
  | nil => simp
  | cons c u ih =>
    have hnot : ∀ r, c = '/' → u ++ t = '*' :: r → False := by
      rintro r rfl hr
      apply h
      cases u with
      | nil =>
        rw [List.nil_append] at hr
        simp [hr]
      | cons d u =>
        obtain ⟨rfl, -⟩ := List.cons.inj hr
        exact (List.prefix_append ['/', '*'] _).isInfix
    rw [List.cons_append, locateFrom.eq_3 _ _ _ hnot, ih fun h' => h (List.infix_cons h')]
    simp

/-- What `locateFrom` leaves after its last comment holds no comment: it has no `*/` after its
first opening, or no opening at all. -/
lemma locateFrom_leaves_no_comment (gap cs : List Char)
    (h : ¬ ['/', '*'] <:+: gap.reverse ++ cs.take 1) (g : List Char) :
    (locateFrom g (locateFrom gap cs).2).1 = [] := by
  fun_induction locateFrom gap cs with
  | case1 gap =>
    have := locateFrom_append_of_not_opening (t := []) (by simpa using h) g
    simp only [List.append_nil] at this
    simp [this, locateFrom.eq_1]
  | case2 gap rest body after hclose _ found ih =>
    exact ih (by simpa using not_opening_take_one after)
  | case3 gap rest hclose =>
    -- the unclosed opening is reached with nothing found, and still finds no `*/`
    rw [locateFrom_append_of_not_opening (by simpa using h), locateFrom.eq_2]
    split
    · next heq => rw [hclose] at heq; cases heq
    · rfl
  | case4 gap c rest hnot ih => exact ih (not_opening_of_cons h hnot)

end Locate

section Settled

variable {lead : Option (List Char)}

/-- A text with no `/*` in it that does not end in `/` is settled. -/
lemma settled_of_not_opening {l : List Char} (hopen : ¬ ['/', '*'] <:+: l)
    (hlast : l.getLast? ≠ some '/') : Settled lead l :=
  ⟨fun _ ht hpre => absurd (hpre.isInfix.trans ht.isInfix) hopen, fun _ => hlast⟩

/-- The leading comment is settled when it holds no `/*` but its own. -/
lemma settled_leading {c : List Char} (hc : ¬ ['/', '*'] <:+: c.tail) : Settled (some c) c := by
  refine ⟨fun t ht hpre => ?_, fun h => absurd h (Option.some_ne_none c)⟩
  obtain ⟨s, rfl⟩ := ht
  cases s with
  | nil => exact ⟨t, rfl, List.prefix_refl t⟩
  | cons x s =>
    -- an opening after the first character lies in the tail
    exact absurd (hpre.isInfix.trans (List.suffix_append s t).isInfix) hc

/-- Where a settled text ends in `/`, what follows it must not start with `*`: with no leading
comment a settled text never ends in `/`, and after a leading comment the condition is given. -/
lemma Settled.seam {k m : List Char} (hk : Settled lead k)
    (hm : lead ≠ none → m.head? ≠ some '*') :
    k.getLast? = some '/' → m.head? ≠ some '*' := by
  intro hlast
  cases lead with
  | none => exact absurd hlast (hk.2 rfl)
  | some c => exact hm (Option.some_ne_none c)

/-- Two settled texts joined where no `/*` forms at the seam are settled. -/
lemma Settled.append {k m : List Char} (hk : Settled lead k) (hm : Settled lead m)
    (hseam : k.getLast? = some '/' → m.head? ≠ some '*') : Settled lead (k ++ m) := by
  refine ⟨fun t ht hpre => ?_, fun hnone => ?_⟩
  · obtain ⟨s, hs⟩ := ht
    rcases List.append_eq_append_iff.mp hs with ⟨a, rfl, rfl⟩ | ⟨a, rfl, rfl⟩
    · -- the suffix starts in `k`: by its length, an opening at its start lies in `k` or at the
      -- seam
      rcases a with _ | ⟨x, _ | ⟨y, r⟩⟩
      · exact hm.1 m (List.suffix_refl m) (by simpa using hpre)
      · obtain ⟨rfl, hstar⟩ : x = '/' ∧ m.head? = some '*' := by
          cases m with
          | nil => simp at hpre
          | cons z m =>
            obtain ⟨hx, hz⟩ : '/' = x ∧ '*' = z := by simpa using hpre
            exact ⟨hx.symm, by subst hz; rfl⟩
        exact absurd hstar (hseam (by simp))
      · have hopen : ['/', '*'] <+: x :: y :: r :=
          List.prefix_of_prefix_length_le hpre (List.prefix_append _ m) (by simp)
        obtain ⟨c, hc, hct⟩ := hk.1 (x :: y :: r) (List.suffix_append s _) hopen
        exact ⟨c, hc, hct.trans (List.prefix_append _ m)⟩
    · exact hm.1 t (List.suffix_append a t) hpre
  · rw [List.getLast?_append]
    cases hml : m.getLast? with
    | none => simpa using hk.2 hnone
    | some z => simpa [hml] using hm.2 hnone

end Settled

/-- A comment is deleted where it stands when it follows a settled, non-empty text and is no copy
of the leading comment: a copy of it starting in that text would start at an opening there, where
a copy of the leading comment starts. -/
lemma eraseOnce_after_settled {lead : Option (List Char)} {k q w : List Char}
    (hk : Settled lead k) (hne : k ≠ []) (hlead : ∀ c ∈ lead, IsComment c) (hq : IsComment q)
    (hql : some q ≠ lead) : eraseOnce q (k ++ q ++ w) = k ++ w := by
  have hsplit : splitFirst? q (k ++ q ++ w) = some (k, w) := by
    refine splitFirst?_of_no_copy_before fun t ht htne hcopy => ?_
    rcases t with _ | ⟨a, _ | ⟨b, r⟩⟩
    · exact htne rfl
    · -- one character before the copy: the copy's `/` would be its `*`
      obtain ⟨x, rfl, -⟩ := hq
      simp at hcopy
    · have hopen : ['/', '*'] <+: a :: b :: r :=
        List.prefix_of_prefix_length_le (hq.opening.trans hcopy)
          ((List.prefix_append _ q).trans (List.prefix_append _ w)) (by simp)
      obtain ⟨c, hc, hct⟩ := hk.1 _ ht hopen
      have hcq : c = q := (hlead c hc).eq_of_opens hq
        (hct.trans ((List.prefix_append _ q).trans (List.prefix_append _ w))) hcopy
      exact hql (hcq ▸ (Option.mem_def.mp hc).symm)
  obtain ⟨c, k, rfl⟩ := List.exists_cons_of_ne_nil hne
  simp only [eraseOnce, hsplit]

/-- Deleting the comments one by one, each at its first copy, cuts out in place those that are no
copies of the leading comment and keeps the copies, while the text kept before the next comment
is settled, opens with the leading comment, and is not empty unless the gap is. -/
lemma foldl_eraseOnce_kept {lead : Option (List Char)} (rest : List Char) (ps : List Located)
    (hlead : ∀ c ∈ lead, IsComment c ∧ ¬ ['/', '*'] <:+: c.tail)
    (hps : ∀ p ∈ ps,
      IsComment p.comment ∧ Settled lead p.gap ∧ (lead ≠ none → p.gap.head? ≠ some '*')) :
    ∀ kept, Settled lead kept → (∀ c ∈ lead, c <+: kept) →
      (∀ p ∈ ps.head?, kept ++ p.gap ≠ []) →
      (ps.map Located.comment).foldl (fun work comment => eraseOnce comment work)
          (kept ++ (ps.map Located.text).flatten ++ rest) =
        kept ++ (ps.map (Located.kept lead)).flatten ++ rest := by
  induction ps with
  | nil => simp
  | cons p ps ih =>
    intro kept hkept hopens hne
    obtain ⟨hcomment, hgap, hstar⟩ := hps p List.mem_cons_self
    have htail := fun q hq => hps q (List.mem_cons_of_mem _ hq)
    have hgapped : Settled lead (kept ++ p.gap) := hkept.append hgap (hkept.seam hstar)
    have hwork : kept ++ ((p :: ps).map Located.text).flatten ++ rest =
        kept ++ p.gap ++ p.comment ++ ((ps.map Located.text).flatten ++ rest) := by
      simp [Located.text]
    rw [hwork, List.map_cons, List.foldl_cons]
    by_cases hk : some p.comment = lead
    · -- a copy of the leading comment is kept, and joins the kept text
      subst hk
      have hopen : p.comment <+: kept := hopens p.comment rfl
      have hsettled : Settled (some p.comment) (kept ++ p.gap ++ p.comment) :=
        hgapped.append (settled_leading (hlead p.comment rfl).2) fun _ => by
          obtain ⟨x, hx, -⟩ := hcomment
          simp [hx]
      rw [eraseOnce_of_opens (hopen.trans (by simp)), ← List.append_assoc _ _ rest,
        ih htail _ hsettled
        (fun c hc => (Option.some.inj hc) ▸ hopen.trans (by simp))
        (fun _ _ => List.append_ne_nil_of_left_ne_nil
          (List.append_ne_nil_of_right_ne_nil _ hcomment.ne_nil) _)]
      simp [Located.kept, Located.text]
    · -- any other comment is deleted where it stands, and its gap joins the kept text
      rw [eraseOnce_after_settled hgapped (hne p rfl) (fun c hc => (hlead c hc).1) hcomment hk,
        ← List.append_assoc _ _ rest,
        ih htail _ hgapped (fun c hc => (hopens c hc).trans (List.prefix_append _ _))
          (fun _ _ => List.append_ne_nil_of_left_ne_nil (hne p rfl) _)]
      simp [Located.kept, hk]

/-- Stripping cuts the located comments out in place, keeping the leading one and its copies,
when every gap before a comment is settled and, after a leading comment, starts with no `*`, and
the leading comment holds no `/*` but its own. -/
lemma strip_eq_deleteInPlace_of_settled {cs : List Char}
    (hgaps : ∀ p ∈ (locate cs).1, Settled (leadingComment cs) p.gap ∧
      (leadingComment cs ≠ none → p.gap.head? ≠ some '*'))
    (hlead : ∀ c ∈ leadingComment cs, ¬ ['/', '*'] <:+: c.tail) :
    strip cs = deleteInPlace cs := by
  have hjoin := join_locate cs
  have hps : ∀ p ∈ (locate cs).1, IsComment p.comment ∧ Settled (leadingComment cs) p.gap ∧
      (leadingComment cs ≠ none → p.gap.head? ≠ some '*') :=
    fun p hp => ⟨(located_of_mem hp).1, hgaps p hp⟩
  unfold strip find deleteInPlace
  rcases hlocate : (locate cs).1 with _ | ⟨p, ps⟩
  · rw [hlocate] at hjoin
    simpa using hjoin.symm
  rw [hlocate] at hjoin hps
  have hleading := leadingComment_cons hlocate
  by_cases hg : p.gap = []
  · -- the leading comment is kept where it is, and the rest is stripped after it
    rw [if_pos hg] at hleading
    rw [hleading] at hps hlead ⊢
    have hcs : cs = p.comment ++ (ps.map Located.text).flatten ++ (locate cs).2 := by
      simpa [Located.text, hg] using hjoin.symm
    have hfirst := (hps p List.mem_cons_self).1
    conv_lhs => rw [hcs]
    rw [List.map_cons, List.foldl_cons, eraseOnce_of_opens (by simp),
      foldl_eraseOnce_kept (locate cs).2 ps
        (fun c hc => (Option.some.inj hc) ▸ ⟨hfirst, hlead _ rfl⟩)
        (fun q hq => hps q (List.mem_cons_of_mem _ hq)) p.comment
        (settled_leading (hlead _ rfl)) (fun c hc => (Option.some.inj hc) ▸ List.prefix_refl _)
        (fun _ _ => List.append_ne_nil_of_left_ne_nil hfirst.ne_nil _)]
    simp [Located.kept, Located.text, hg]
  · -- no comment opens the text: every comment is cut out, starting from an empty kept text
    rw [if_neg hg] at hleading
    rw [hleading] at hps ⊢
    conv_lhs => rw [← hjoin]
    have := foldl_eraseOnce_kept (locate cs).2 (p :: ps) (by simp) hps []
      (settled_of_not_opening (by simp) (by simp)) (by simp) (by simpa using hg)
    simpa using this

/-- Under the two conditions every gap before a comment is settled and, after a leading comment,
starts with no `*`. -/
lemma gaps_settled {cs : List Char} (hslash : ∀ p ∈ (locate cs).1, p.gap.getLast? ≠ some '/')
    (hlead : ∀ c ∈ leadingComment cs,
      ¬ ['/', '*'] <:+: c.tail ∧ ∀ p ∈ (locate cs).1, p.gap.head? ≠ some '*') :
    ∀ p ∈ (locate cs).1, Settled (leadingComment cs) p.gap ∧
      (leadingComment cs ≠ none → p.gap.head? ≠ some '*') := by
  intro p hp
  refine ⟨settled_of_not_opening (located_of_mem hp).2 (hslash p hp), fun hne => ?_⟩
  obtain ⟨c, hc⟩ := Option.ne_none_iff_exists'.mp hne
  exact (hlead c hc).2 p hp

/-- Stripping comments cuts each located comment out where it was found, except the comment at
offset zero and its copies, provided no comment directly follows a `/` and, if the text opens with
a comment, that comment holds no `/*` but its own and no text between comments starts with `*`. -/
theorem strip_eq_deleteInPlace (cs : List Char)
    (hslash : ∀ p ∈ (locate cs).1, p.gap.getLast? ≠ some '/')
    (hlead : ∀ c ∈ leadingComment cs,
      ¬ ['/', '*'] <:+: c.tail ∧ ∀ p ∈ (locate cs).1, p.gap.head? ≠ some '*') :
    strip cs = deleteInPlace cs :=
  strip_eq_deleteInPlace_of_settled (gaps_settled hslash hlead) fun c hc => (hlead c hc).1

/-- A text that opens with a comment, with a copy of that comment and another comment later, none
of them after a `/`: the copy stays and the other comment goes. -/
theorem strip_repeated_comment :
    (∀ p ∈ (locate "/*a*/x/*a*/y/*b*/z".toList).1, p.gap.getLast? ≠ some '/') ∧
      (∀ c ∈ leadingComment "/*a*/x/*a*/y/*b*/z".toList, ¬ ['/', '*'] <:+: c.tail ∧
        ∀ p ∈ (locate "/*a*/x/*a*/y/*b*/z".toList).1, p.gap.head? ≠ some '*') ∧
      strip "/*a*/x/*a*/y/*b*/z".toList = "/*a*/x/*a*/yz".toList := by
  have hslash : ∀ p ∈ (locate "/*a*/x/*a*/y/*b*/z".toList).1, p.gap.getLast? ≠ some '/' := by
    decide +kernel
  have hlead : ∀ c ∈ leadingComment "/*a*/x/*a*/y/*b*/z".toList, ¬ ['/', '*'] <:+: c.tail ∧
      ∀ p ∈ (locate "/*a*/x/*a*/y/*b*/z".toList).1, p.gap.head? ≠ some '*' := by
    decide +kernel
  exact ⟨hslash, hlead, (strip_eq_deleteInPlace _ hslash hlead).trans (by decide +kernel)⟩

/-- Without the conditions the two differ. A deleted comment joins the `/` before it to the `*`
after it into a copy of the last comment, which goes in its place; a copy of the last comment
inside the kept leading one is deleted from it; and a `*` right after the kept leading comment
makes with its closing `/` a copy of the last comment. -/
theorem strip_departs_from_in_place :
    strip "a//*1*/*x*/b/*x*/".toList = "ab/*x*/".toList ∧
      deleteInPlace "a//*1*/*x*/b/*x*/".toList = "a/*x*/b".toList ∧
      strip "/*/*x*/b/*x*/".toList = "/*b/*x*/".toList ∧
      deleteInPlace "/*/*x*/b/*x*/".toList = "/*/*x*/b".toList ∧
      strip "/*a*/*c*/x/*c*/".toList = "/*a*x/*c*/".toList ∧
      deleteInPlace "/*a*/*c*/x/*c*/".toList = "/*a*/*c*/x".toList := by
  decide +kernel

section Idempotence

/-- A gap before a comment that holds no opening and does not end in `/` is quiet. -/
lemma gaps_quiet {cs : List Char} (hslash : ∀ p ∈ (locate cs).1, p.gap.getLast? ≠ some '/') :
    ∀ p ∈ (locate cs).1, Quiet p.gap :=
  fun p hp => quiet_of_not_opening (located_of_mem hp).2 (hslash p hp)

/-- Each comment found in the gaps and kept comments of the in-place text is a copy of the
leading comment: a quiet gap is read through, and a kept comment is found whole. -/
lemma locateFrom_kept {lead : Option (List Char)} (rest : List Char)
    (hrest : ∀ gap, (locateFrom gap rest).1 = []) (ps : List Located)
    (hps : ∀ p ∈ ps, IsComment p.comment ∧ Quiet p.gap) :
    ∀ gap, ∀ q ∈ (locateFrom gap ((ps.map (Located.kept lead)).flatten ++ rest)).1,
      some q.comment = lead := by
  induction ps with
  | nil => simp [hrest]
  | cons p ps ih =>
    intro gap q hq
    obtain ⟨hcomment, hquiet⟩ := hps p List.mem_cons_self
    have htail := ih fun p hp => hps p (List.mem_cons_of_mem _ hp)
    have hpass := fun w => locateFrom_append_of_not_opening (u := p.gap) (t := w)
      (hquiet.not_opening_append_take w)
    simp only [List.map_cons, List.flatten_cons, List.append_assoc, Located.kept] at hq
    by_cases hk : some p.comment = lead
    · rw [if_pos hk, Located.text, List.append_assoc, hpass, locateFrom_comment hcomment] at hq
      rcases List.mem_cons.mp hq with rfl | hq
      · exact hk
      · exact htail [] q hq
    · rw [if_neg hk, hpass] at hq
      exact htail _ q hq

/-- A text whose every comment opens it is its own stripped form. -/
lemma strip_of_comments_open {w : List Char} (h : ∀ c ∈ find w, c <+: w) : strip w = w := by
  unfold strip
  generalize find w = cs at h
  induction cs with
  | nil => rfl
  | cons c cs ih =>
    rw [List.foldl_cons, eraseOnce_of_opens (h c List.mem_cons_self)]
    exact ih fun d hd => h d (List.mem_cons_of_mem _ hd)

/-- The comments of the in-place text are copies of the leading comment. -/
lemma comment_copies_deleteInPlace {cs : List Char}
    (hquiet : ∀ p ∈ (locate cs).1, Quiet p.gap) :
    ∀ c ∈ find (deleteInPlace cs), some c = leadingComment cs := by
  intro c hc
  obtain ⟨q, hq, rfl⟩ := List.mem_map.mp hc
  exact locateFrom_kept (locate cs).2
    (locateFrom_leaves_no_comment [] cs (by simpa using not_opening_take_one cs)) (locate cs).1
    (fun p hp => ⟨(located_of_mem hp).1, hquiet p hp⟩) [] q hq

/-- The leading comment opens the in-place text. -/
lemma leading_prefix_deleteInPlace {cs c : List Char} (h : leadingComment cs = some c) :
    c <+: deleteInPlace cs := by
  unfold deleteInPlace
  rw [h]
  rcases hlocate : (locate cs).1 with _ | ⟨p, ps⟩
  · simp [leadingComment, hlocate] at h
  · rw [leadingComment_cons hlocate] at h
    split at h
    · next hg =>
      obtain rfl := Option.some.inj h
      simp [Located.kept, Located.text, hg]
    · cases h

/-- Stripping twice strips once, under the conditions that make stripping cut in place: the text
left then holds only copies of the leading comment, which stripping keeps. -/
theorem strip_idempotent (cs : List Char)
    (hslash : ∀ p ∈ (locate cs).1, p.gap.getLast? ≠ some '/')
    (hlead : ∀ c ∈ leadingComment cs,
      ¬ ['/', '*'] <:+: c.tail ∧ ∀ p ∈ (locate cs).1, p.gap.head? ≠ some '*') :
    strip (strip cs) = strip cs := by
  rw [strip_eq_deleteInPlace_of_settled (gaps_settled hslash hlead) fun c hc => (hlead c hc).1]
  exact strip_of_comments_open fun c hc =>
    leading_prefix_deleteInPlace (comment_copies_deleteInPlace (gaps_quiet hslash) c hc).symm

/-- A text opening with a comment, with another comment and a stray `*/` before a copy of the
first: stripping it twice strips it once. -/
theorem strip_idempotent_joined_close :
    (∀ p ∈ (locate "/*a*/x/*b*/y*/z/*a*/".toList).1, p.gap.getLast? ≠ some '/') ∧
      (∀ c ∈ leadingComment "/*a*/x/*b*/y*/z/*a*/".toList, ¬ ['/', '*'] <:+: c.tail ∧
        ∀ p ∈ (locate "/*a*/x/*b*/y*/z/*a*/".toList).1, p.gap.head? ≠ some '*') ∧
      strip (strip "/*a*/x/*b*/y*/z/*a*/".toList) = strip "/*a*/x/*b*/y*/z/*a*/".toList := by
  have hslash :
      ∀ p ∈ (locate "/*a*/x/*b*/y*/z/*a*/".toList).1, p.gap.getLast? ≠ some '/' := by
    decide +kernel
  have hlead : ∀ c ∈ leadingComment "/*a*/x/*b*/y*/z/*a*/".toList, ¬ ['/', '*'] <:+: c.tail ∧
      ∀ p ∈ (locate "/*a*/x/*b*/y*/z/*a*/".toList).1, p.gap.head? ≠ some '*' := by
    decide +kernel
  exact ⟨hslash, hlead, strip_idempotent _ hslash hlead⟩

/-- Without the conditions a second pass can delete more. A `/` before a deleted comment and a `*`
after it form a new comment; and a copy of a later comment deleted from inside the kept leading
one leaves its opening to swallow the text up to a `*/`, so that the later comment itself is found
on the second pass. -/
theorem strip_not_idempotent :
    strip "a//**/**/".toList = "a/**/".toList ∧ strip "a/**/".toList = "a".toList ∧
      strip "/*/*x*/b*/c/*x*/".toList = "/*b*/c/*x*/".toList ∧
      strip "/*b*/c/*x*/".toList = "/*b*/c".toList := by
  decide +kernel

end Idempotence

end StyleSplit.Comment
