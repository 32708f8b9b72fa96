import StyleSplit.Proofs.Reading
import StyleSplit.Proofs.Window

/-!
# Where and why the scanner fails

`Span.scanWindow_eq_ok_iff` says which windows of a text the scanner reads. This module says, for
every window it rejects, which error it reports and at which offset, in terms of one profile of
the window: the brace depth after each of its prefixes, the braces opened less the braces closed
(`braceDepth`). Offsets are those of the whole text: the prefix `q` of a window that starts at
byte `s` ends at byte `s + byteLength q`. Braces are one byte wide, so the depth after any byte
offset is the depth after a prefix.

`Piece.Diagnosis pos m err` reads the error off the profile of the text `m` that starts at `pos`:

* if the depth ever falls below zero, the `}` where it first reaches `-1` closes nothing;
* else, if it ends above zero, the `{` where it last rises from zero to one is never closed;
* else, if something other than blanks follows the last top-level delimiter (a `;` at depth zero,
  or a `}` that brings the depth back to zero), the first character that is not blank starts a
  header with no block.

The scanner finds the same error from a cursor that always stands at depth zero, one piece at a
time. The proof has three parts.

* `Piece.diagnosis_of_scanFrom`, by strong induction on the text, following the scanner's steps
  (`scanFrom_of_mark`, `scanFrom_of_markFree`): each way the scanner stops is one case of the
  diagnosis (`diagnosis_of_markFree`, `diagnosis_stray`, `diagnosis_unclosed`), and a piece read
  in full passes the diagnosis of the text after it through unchanged (`Diagnosis.append`), since
  it is balanced and ends at a top-level delimiter.
* `Piece.Diagnosis.unique`: the three cases exclude one another, since the depth falls below zero,
  or ends above it, or ends at it; within each case the place is the first or the last of its kind.
* `Piece.not_diagnosis_of_scanFrom_eq_ok`: an accepted text is balanced and only blanks follow its
  last piece, so no case applies.

Together they give `Piece.scanFrom_eq_error_iff`, and on a window whose ends are character
boundaries, `Span.scanWindow_eq_error_iff`.
-/

namespace StyleSplit

open StyleSplit.Text

/-- A prefix of `u ++ r` is a prefix of `u`, or `u` followed by a prefix of `r`. -/
lemma prefix_append_cases {α : Type} {p u r : List α} (h : p <+: u ++ r) :
    p <+: u ∨ ∃ t, p = u ++ t ∧ t <+: r := by
  rcases List.prefix_or_prefix_of_prefix h (List.prefix_append u r) with hp | ⟨t, rfl⟩
  · exact .inl hp
  · exact .inr ⟨t, rfl, (List.prefix_append_right_inj u).mp h⟩

/-- A prefix of `u ++ r` is no longer than `u ++ q` when each such prefix reaching past `u` stops
within `q.length` of it. -/
lemma length_le_of_prefix_append {α : Type} {p u r q : List α} (hp : p <+: u ++ r)
    (hr : ∀ t, p = u ++ t → t <+: r → t.length ≤ q.length) : p.length ≤ (u ++ q).length := by
  rcases prefix_append_cases hp with hp | ⟨t, rfl, ht⟩
  · have := hp.length_le
    simp only [List.length_append]
    omega
  · have := hr t rfl ht
    simp only [List.length_append]
    omega

/-- A property of every prefix of `c :: cs`: of the empty one, and of `c` before each prefix of
`cs`. -/
lemma forall_prefix_cons {α : Type} {c : α} {cs : List α} {P : List α → Prop} (hnil : P [])
    (hcons : ∀ t, t <+: cs → P (c :: t)) : ∀ p, p <+: c :: cs → P p := by
  intro p hp
  rcases List.prefix_cons_iff.mp hp with rfl | ⟨t, rfl, ht⟩
  · exact hnil
  · exact hcons t ht

/-- Two prefixes of one list with the same length are equal. -/
lemma eq_of_prefix_of_length_eq {α : Type} {p p' m : List α} (hp : p <+: m) (hp' : p' <+: m)
    (hlen : p.length = p'.length) : p = p' :=
  (List.prefix_of_prefix_length_le hp hp' hlen.le).eq_of_length hlen

lemma except_map_eq_error {ε α β : Type} {f : α → β} {x : Except ε α} {e : ε} :
    x.map f = .error e ↔ x = .error e := by
  cases x <;> simp [Except.map]

/-! ## The brace depth -/

/-- The brace depth a text leaves: the braces it opens less the braces it closes. -/
def braceDepth (p : List Char) : Int :=
  (p.count '{' : Int) - p.count '}'

@[simp] lemma braceDepth_nil : braceDepth [] = 0 := rfl

@[simp] lemma braceDepth_append (a b : List Char) :
    braceDepth (a ++ b) = braceDepth a + braceDepth b := by
  simp only [braceDepth, List.count_append]
  omega

@[simp] lemma braceDepth_open : braceDepth ['{'] = 1 := by decide

@[simp] lemma braceDepth_close : braceDepth ['}'] = -1 := by decide

@[simp] lemma braceDepth_semicolon : braceDepth [';'] = 0 := by decide

lemma braceDepth_cons (c : Char) (t : List Char) :
    braceDepth (c :: t) = braceDepth [c] + braceDepth t :=
  braceDepth_append [c] t

/-- A text with no marks leaves the depth where it was. -/
lemma braceDepth_of_markFree {h : List Char} (hh : ∀ c ∈ h, isMark c = false) :
    braceDepth h = 0 := by
  have hopen : h.count '{' = 0 := List.count_eq_zero.mpr fun hc => by simpa using hh _ hc
  have hclose : h.count '}' = 0 := List.count_eq_zero.mpr fun hc => by simpa using hh _ hc
  simp [braceDepth, hopen, hclose]

/-- The text never closes more braces than it has opened. -/
def NeverBelow (m : List Char) : Prop :=
  ∀ p, p <+: m → 0 ≤ braceDepth p

lemma neverBelow_of_markFree {h : List Char} (hh : ∀ c ∈ h, isMark c = false) : NeverBelow h :=
  fun p hp => by
    have := braceDepth_of_markFree fun c hc => hh c (hp.subset hc)
    omega

lemma Balanced.neverBelow {b : List Char} (h : Balanced b) : NeverBelow b := fun p hp => by
  have := h.prefixes p hp
  simp only [braceDepth]
  omega

lemma Balanced.braceDepth_eq_zero {b : List Char} (h : Balanced b) : braceDepth b = 0 := by
  simp [braceDepth, h.closed]

/-- Texts that never go below zero stay above it end to end, when the first ends at zero. -/
lemma NeverBelow.append {u r : List Char} (hu : NeverBelow u) (hzero : braceDepth u = 0)
    (hr : NeverBelow r) : NeverBelow (u ++ r) := by
  intro p hp
  rcases prefix_append_cases hp with hp | ⟨t, rfl, ht⟩
  · exact hu p hp
  · simpa [hzero] using hr t ht

/-- The text ends at a top-level delimiter: it is empty, or it ends in a `;` read at depth zero,
or in a `}` that brings the depth back to zero. -/
def TopLevelEnd (q : List Char) : Prop :=
  q = [] ∨ (∃ q', q = q' ++ [';'] ∧ braceDepth q' = 0) ∨
    ∃ q', q = q' ++ ['}'] ∧ braceDepth q = 0

/-- After a text that ends at a top-level delimiter at depth zero, the top-level delimiters of the
rest are top-level delimiters of the whole. -/
lemma TopLevelEnd.append {u t : List Char} (hu : TopLevelEnd u) (hzero : braceDepth u = 0)
    (ht : TopLevelEnd t) : TopLevelEnd (u ++ t) := by
  rcases ht with rfl | ⟨t', rfl, ht'⟩ | ⟨t', rfl, ht'⟩
  · simpa using hu
  · exact .inr (.inl ⟨u ++ t', by simp, by simp [hzero, ht']⟩)
  · exact .inr (.inr ⟨u ++ t', by simp, by simpa [hzero] using ht'⟩)

/-- A top-level delimiter read after a text at depth zero is one of the rest. -/
lemma TopLevelEnd.of_append {u t : List Char} (hzero : braceDepth u = 0)
    (h : TopLevelEnd (u ++ t)) : TopLevelEnd t := by
  rcases List.eq_nil_or_concat' t with rfl | ⟨t', c, rfl⟩
  · exact .inl rfl
  · rw [← List.append_assoc] at h
    rcases h with h | ⟨x, hx, hx'⟩ | ⟨x, hx, hx'⟩
    · simp at h
    · -- the `;` is the last character of `t`
      obtain ⟨rfl, hc⟩ := List.append_inj' hx rfl
      exact .inr (.inl ⟨t', by rw [hc], by simpa [hzero] using hx'⟩)
    · obtain ⟨-, hc⟩ := List.append_inj' hx rfl
      exact .inr (.inr ⟨t', by rw [hc], by simpa [hzero] using hx'⟩)

lemma balanced_semicolon : Balanced [';'] := by
  refine ⟨fun p hp => ?_, rfl⟩
  rcases List.prefix_cons_iff.mp hp with rfl | ⟨t, rfl, ht⟩
  · simp
  · rw [List.prefix_nil.mp ht]
    decide

namespace Piece

/-- The text of a well-formed piece is balanced. -/
lemma WellFormed.balanced {p : Piece} (hp : p.WellFormed) : Balanced p.text := by
  cases p with
  | statement t =>
    obtain ⟨h, rfl, hh⟩ := hp
    exact (balanced_of_markFree hh).append balanced_semicolon
  | block header body =>
    obtain ⟨hh, b, rfl, hb⟩ := hp
    simpa using balanced_block hh hb

/-- A well-formed piece ends at a top-level delimiter. -/
lemma WellFormed.topLevelEnd {p : Piece} (hp : p.WellFormed) : TopLevelEnd p.text := by
  have hzero := hp.balanced.braceDepth_eq_zero
  cases p with
  | statement t =>
    obtain ⟨h, rfl, hh⟩ := hp
    exact .inr (.inl ⟨h, rfl, braceDepth_of_markFree hh⟩)
  | block header body =>
    obtain ⟨hh, b, rfl, hb⟩ := hp
    exact .inr (.inr ⟨header ++ '{' :: b, by simp, hzero⟩)

/-- Well-formed pieces end to end are balanced and end at a top-level delimiter. -/
lemma balanced_topLevelEnd_flatMap {ps : List Piece} (hps : ∀ p ∈ ps, p.WellFormed) :
    Balanced (ps.flatMap text) ∧ TopLevelEnd (ps.flatMap text) := by
  induction ps with
  | nil => exact ⟨balanced_of_markFree (by simp), .inl rfl⟩
  | cons p ps ih =>
    have hp := hps p List.mem_cons_self
    obtain ⟨hbal, hend⟩ := ih fun q hq => hps q (List.mem_cons_of_mem _ hq)
    rw [List.flatMap_cons]
    exact ⟨hp.balanced.append hbal, hp.topLevelEnd.append hp.balanced.braceDepth_eq_zero hend⟩

/-! ## The diagnosis -/

/-- Why the scanner rejects the text `m` whose first byte lies at offset `pos`, read off the brace
depth of the prefixes of `m`. -/
inductive Diagnosis (pos : Nat) (m : List Char) : Malformed → Prop
  /-- The depth first reaches `-1` at the character after `q`: a `}` that closes nothing. -/
  | strayClosingBrace (q : List Char) (c : Char) (hfall : q ++ [c] <+: m)
      (hdepth : braceDepth (q ++ [c]) = -1) (hfirst : ∀ p, p <+: q → braceDepth p ≠ -1) :
      Diagnosis pos m ⟨pos + byteLength q, .strayClosingBrace⟩
  /-- The depth never falls below zero and ends above it; it last rises from zero to one at the
  character after `q`, a `{` that is never closed. -/
  | unclosedBlock (q : List Char) (c : Char) (hnever : NeverBelow m) (hopen : 0 < braceDepth m)
      (hrise : q ++ [c] <+: m) (hzero : braceDepth q = 0) (hone : braceDepth (q ++ [c]) = 1)
      (hlast : ∀ q' c', q' ++ [c'] <+: m → braceDepth q' = 0 → braceDepth (q' ++ [c']) = 1 →
        q'.length ≤ q.length) :
      Diagnosis pos m ⟨pos + byteLength q, .unclosedBlock⟩
  /-- The depth never falls below zero and ends at zero; the last top-level delimiter ends `q`,
  and after it come the blanks `w` and a character `c` that is not blank. -/
  | headerWithoutBlock (q w r : List Char) (c : Char) (hnever : NeverBelow m)
      (hclosed : braceDepth m = 0) (hend : TopLevelEnd q)
      (hlast : ∀ q', q' <+: m → TopLevelEnd q' → q'.length ≤ q.length)
      (hsplit : m = q ++ w ++ c :: r) (hw : ∀ b ∈ w, isBlank b = true) (hc : isBlank c = false) :
      Diagnosis pos m ⟨pos + byteLength q + byteLength w, .headerWithoutBlock⟩

/-! ## Each way the scanner stops is a case of the diagnosis -/

/-- Text with no marks and not all blank: its first character that is not blank starts a header
with no block. -/
lemma diagnosis_of_markFree {pos : Nat} {m : List Char} (hm : ∀ c ∈ m, isMark c = false)
    (hblank : ¬ (trimStart m).isEmpty = true) :
    Diagnosis pos m ⟨pos + byteLength (m.takeWhile isBlank), .headerWithoutBlock⟩ := by
  obtain ⟨c, r, hcr⟩ := List.exists_cons_of_ne_nil (by simpa using hblank : trimStart m ≠ [])
  have hsplit : m = [] ++ m.takeWhile isBlank ++ c :: r := by
    rw [List.nil_append, ← hcr, trimStart, List.takeWhile_append_dropWhile]
  -- with no marks, the only top-level delimiter is the start
  have hlast : ∀ q', q' <+: m → TopLevelEnd q' → q'.length ≤ ([] : List Char).length := by
    intro q' hq' hend
    rcases hend with rfl | ⟨x, rfl, -⟩ | ⟨x, rfl, -⟩
    · exact le_rfl
    · exact absurd (hm ';' (hq'.subset (by simp))) (by simp)
    · exact absurd (hm '}' (hq'.subset (by simp))) (by simp)
  have := (Diagnosis.headerWithoutBlock [] (m.takeWhile isBlank) r c (neverBelow_of_markFree hm)
    (braceDepth_of_markFree hm) (.inl rfl) hlast hsplit
    (fun b hb => List.mem_takeWhile_imp hb) (isBlank_head_trimStart hcr) : Diagnosis pos m _)
  simpa using this

/-- A `}` after a header with no marks closes nothing. -/
lemma diagnosis_stray {pos : Nat} {h rest : List Char} (hh : ∀ c ∈ h, isMark c = false) :
    Diagnosis pos (h ++ '}' :: rest) ⟨pos + byteLength h, .strayClosingBrace⟩ := by
  have hh0 := braceDepth_of_markFree hh
  refine .strayClosingBrace h '}' (by simp) (by simp [hh0]) fun p hp => ?_
  rw [braceDepth_of_markFree fun c hc => hh c (hp.subset hc)]
  decide

/-- Read from inside a block at depth `d`, a text on which the depth counter finds no closing
brace never closes more than `d` braces beyond those it opens. -/
lemma count_le_of_closeBlock_eq_none {d : Nat} {cs : List Char} (h : closeBlock d cs = none) :
    ∀ p, p <+: cs → p.count '}' ≤ d + p.count '{' := by
  fun_induction closeBlock d cs with
  | case1 d =>
    intro p hp
    simp [List.prefix_nil.mp hp]
  | case2 d cs ih =>
    -- an opening brace: the rest is read one level deeper
    have ih := ih (by simpa using h)
    refine forall_prefix_cons (by simp) fun t ht => ?_
    have := ih t ht
    simp
    omega
  | case3 cs => simp at h
  | case4 d cs ih =>
    have ih := ih (by simpa using h)
    refine forall_prefix_cons (by simp) fun t ht => ?_
    have := ih t ht
    simp
    omega
  | case5 d c cs h1 h2 h3 ih =>
    have hc : c ≠ '}' := by
      rintro rfl
      cases d with
      | zero => exact h2 rfl rfl
      | succ d => exact h3 d rfl rfl
    have ih := ih (by simpa using h)
    refine forall_prefix_cons (by simp) fun t ht => ?_
    have := ih t ht
    simp [List.count_cons, hc]
    omega

/-- A `{` after a header with no marks, whose block the depth counter never closes: the depth
stays at one or more after it, so it is where the depth last rises from zero. -/
lemma diagnosis_unclosed {pos : Nat} {h rest : List Char} (hh : ∀ c ∈ h, isMark c = false)
    (hnone : closeBlock 0 rest = none) :
    Diagnosis pos (h ++ '{' :: rest) ⟨pos + byteLength h, .unclosedBlock⟩ := by
  have hh0 := braceDepth_of_markFree hh
  -- after the `{` the depth stays at one or more
  have hafter : ∀ t, t <+: '{' :: rest → t ≠ [] → 1 ≤ braceDepth t := by
    intro t ht hne
    rcases List.prefix_cons_iff.mp ht with rfl | ⟨t', rfl, ht'⟩
    · exact absurd rfl hne
    · have := count_le_of_closeBlock_eq_none hnone t' ht'
      rw [braceDepth_cons, braceDepth_open, braceDepth]
      omega
  have hopen : NeverBelow ('{' :: rest) := by
    intro t ht
    by_cases hne : t = []
    · simp [hne]
    · have := hafter t ht hne
      omega
  refine .unclosedBlock h '{' ((neverBelow_of_markFree hh).append hh0 hopen) ?_ (by simp) hh0
    (by simp [hh0]) fun q' c' hrise hzero _ => ?_
  · have := hafter ('{' :: rest) (List.prefix_refl _) (List.cons_ne_nil _ _)
    simp only [braceDepth_append, hh0]
    omega
  · rcases prefix_append_cases ((List.prefix_append q' [c']).trans hrise) with hq | ⟨t, rfl, ht⟩
    · exact hq.length_le
    · -- a rise from zero after the `{` would need the depth back at zero
      by_cases ht0 : t = []
      · simp [ht0]
      · have := hafter t ht ht0
        simp only [braceDepth_append, hh0] at hzero
        omega

/-- A piece read in full, balanced and ending at a top-level delimiter, passes the diagnosis of the
text after it through: the depth is back at zero after it. -/
lemma Diagnosis.append {u r : List Char} (hu : Balanced u) (hend : TopLevelEnd u) {pos : Nat}
    {err : Malformed} (h : Diagnosis (pos + byteLength u) r err) : Diagnosis pos (u ++ r) err := by
  have hzero := hu.braceDepth_eq_zero
  cases h with
  | strayClosingBrace q c hfall hdepth hfirst =>
    have := (Diagnosis.strayClosingBrace (u ++ q) c (by simpa using hfall)
      (by simp [hzero, ← hdepth]) (fun p hp => ?_) : Diagnosis pos (u ++ r) _)
    · rwa [byteLength_append, ← Nat.add_assoc] at this
    · rcases prefix_append_cases hp with hp | ⟨t, rfl, ht⟩
      · have := hu.neverBelow p hp
        omega
      · simpa [hzero] using hfirst t ht
  | unclosedBlock q c hnever hopen hrise hzero' hone hlast =>
    have := (Diagnosis.unclosedBlock (u ++ q) c (hu.neverBelow.append hzero hnever)
      (by simpa [hzero]) (by simpa using hrise) (by simp [hzero, hzero'])
      (by simp [hzero, ← hone]) (fun q' c' hrise' hzero'' hone' => ?_) : Diagnosis pos (u ++ r) _)
    · rwa [byteLength_append, ← Nat.add_assoc] at this
    · -- a later rise lies in `r`, where `q` is the last
      refine length_le_of_prefix_append ((List.prefix_append q' [c']).trans hrise') ?_
      rintro t rfl -
      exact hlast t c' (by simpa using hrise') (by simpa [hzero] using hzero'')
        (by simpa [hzero] using hone')
  | headerWithoutBlock q w r' c hnever hclosed hend' hlast hsplit hw hc =>
    have := (Diagnosis.headerWithoutBlock (u ++ q) w r' c (hu.neverBelow.append hzero hnever)
      (by simpa [hzero]) (hend.append hzero hend') (fun q' hq' hend'' => ?_)
      (by simp [hsplit]) hw hc : Diagnosis pos (u ++ r) _)
    · rwa [byteLength_append, ← Nat.add_assoc] at this
    · -- a later top-level delimiter lies in `r`, where `q` ends at the last
      refine length_le_of_prefix_append hq' ?_
      rintro t rfl ht
      exact hlast t ht (hend''.of_append hzero)

/-- Each way the scanner fails is a case of the diagnosis. -/
lemma diagnosis_of_scanFrom {pos : Nat} {m : List Char} {err : Malformed}
    (h : scanFrom pos m = .error err) : Diagnosis pos m err := by
  -- by strong induction on the length of the text: each step reads at least one mark
  induction hn : m.length using Nat.strong_induction_on generalizing pos m err with
  | _ n ih =>
  subst hn
  rcases markFree_or_mark m with hfree | ⟨hd, mk, rest, rfl, hhd, hmk⟩
  · rw [scanFrom_of_markFree hfree] at h
    split at h
    · cases h
    · next hblank =>
      cases h
      exact diagnosis_of_markFree hfree hblank
  · rw [scanFrom_of_mark hhd hmk] at h
    rcases eq_of_isMark hmk with rfl | rfl | rfl
    · -- `{` opens a block, closed by the depth counter or never
      simp only [show ('{' : Char) ≠ '}' by decide, show ('{' : Char) ≠ ';' by decide,
        if_false] at h
      split at h
      · next hnone =>
        cases h
        exact diagnosis_unclosed hhd hnone
      · next inner after hc =>
        obtain ⟨b, hb, rfl, rfl⟩ := closeBlock_eq_some_iff.mp hc
        have hrest := ih _ (by simp; omega) (except_map_eq_error.mp h) rfl
        have hwf : (block hd ('{' :: b ++ ['}'])).WellFormed := ⟨hhd, b, rfl, hb⟩
        have := Diagnosis.append hwf.balanced hwf.topLevelEnd (r := after)
          (by simpa [Nat.add_assoc] using hrest)
        simpa using this
    · simp only [if_true] at h
      cases h
      exact diagnosis_stray hhd
    · -- `;` ends a statement
      simp only [show (';' : Char) ≠ '}' by decide, if_false, if_true] at h
      have hrest := ih _ (by simp; omega) (except_map_eq_error.mp h) rfl
      have hwf : (statement (hd ++ [';'])).WellFormed := ⟨hd, rfl, hhd⟩
      have := Diagnosis.append hwf.balanced hwf.topLevelEnd (r := rest)
        (by simpa [Nat.add_assoc] using hrest)
      simpa using this

/-! ## The diagnosis names one error, and none for an accepted text -/

/-- Where the depth first reaches `-1` comes no later than any other place where it reaches it. -/
lemma length_le_of_first_fall {m q q' : List Char} {c c' : Char} (hfall : q ++ [c] <+: m)
    (hfirst : ∀ p, p <+: q → braceDepth p ≠ -1) (hfall' : q' ++ [c'] <+: m)
    (hdepth' : braceDepth (q' ++ [c']) = -1) : q.length ≤ q'.length := by
  by_contra hlt
  have hpre := List.prefix_of_prefix_length_le hfall' ((List.prefix_append q [c]).trans hfall)
    (by simp; omega)
  exact hfirst _ hpre hdepth'

/-- The diagnosis names at most one error. -/
lemma Diagnosis.unique {pos : Nat} {m : List Char} {err err' : Malformed}
    (h : Diagnosis pos m err) (h' : Diagnosis pos m err') : err = err' := by
  cases h with
  | strayClosingBrace q c hfall hdepth hfirst =>
    cases h' with
    | strayClosingBrace q' c' hfall' hdepth' hfirst' =>
      -- the first fall is first for both: neither is shorter than the other
      have hle := length_le_of_first_fall hfall hfirst hfall' hdepth'
      have hge := length_le_of_first_fall hfall' hfirst' hfall hdepth
      rw [eq_of_prefix_of_length_eq ((List.prefix_append q [c]).trans hfall)
        ((List.prefix_append q' [c']).trans hfall') (by omega)]
    | unclosedBlock _ _ hnever _ _ _ _ _ =>
      have := hnever _ hfall
      omega
    | headerWithoutBlock _ _ _ _ hnever _ _ _ _ _ _ =>
      have := hnever _ hfall
      omega
  | unclosedBlock q c hnever hopen hrise hzero hone hlast =>
    cases h' with
    | strayClosingBrace _ _ hfall hdepth _ =>
      have := hnever _ hfall
      omega
    | unclosedBlock q' c' _ _ hrise' hzero' hone' hlast' =>
      -- the last rise is last for both
      have := hlast q' c' hrise' hzero' hone'
      have := hlast' q c hrise hzero hone
      rw [eq_of_prefix_of_length_eq ((List.prefix_append q [c]).trans hrise)
        ((List.prefix_append q' [c']).trans hrise') (by omega)]
    | headerWithoutBlock _ _ _ _ _ hclosed _ _ _ _ _ => omega
  | headerWithoutBlock q w r c hnever hclosed hend hlast hsplit hw hc =>
    cases h' with
    | strayClosingBrace _ _ hfall hdepth _ =>
      have := hnever _ hfall
      omega
    | unclosedBlock _ _ _ hopen _ _ _ _ => omega
    | headerWithoutBlock q' w' r' c' _ _ hend' hlast' hsplit' hw' hc' =>
      -- the last top-level delimiter is last for both, and the blanks after it are the same
      have hpre : q <+: m := by
        rw [hsplit, List.append_assoc]
        exact List.prefix_append _ _
      have hpre' : q' <+: m := by
        rw [hsplit', List.append_assoc]
        exact List.prefix_append _ _
      have hq : q = q' := eq_of_prefix_of_length_eq hpre hpre'
        (le_antisymm (hlast' q hpre hend) (hlast q' hpre' hend'))
      subst hq
      have hrest : w ++ c :: r = w' ++ c' :: r' := by
        rw [hsplit, List.append_assoc, List.append_assoc] at hsplit'
        exact List.append_cancel_left hsplit'
      have hww : w = w' := by
        rw [← takeWhile_isBlank_blank_append hw hc, hrest, takeWhile_isBlank_blank_append hw' hc']
      rw [hww]

/-- An accepted text has no diagnosis: it is balanced, and only blanks follow its last piece. -/
lemma not_diagnosis_of_scanFrom_eq_ok {pos : Nat} {m : List Char} {ps : List Piece}
    (h : scanFrom pos m = .ok ps) (err : Malformed) : ¬ Diagnosis pos m err := by
  obtain ⟨hwf, w, hw, rfl⟩ := scanFrom_eq_ok_iff.mp h
  obtain ⟨hbal, hend⟩ := balanced_topLevelEnd_flatMap hwf
  have hall : Balanced (ps.flatMap text ++ w) :=
    hbal.append (balanced_of_markFree fun c hc => isMark_eq_false_of_isBlank (hw c hc))
  intro hdiag
  cases hdiag with
  | strayClosingBrace q c hfall hdepth _ =>
    have := hall.neverBelow _ hfall
    omega
  | unclosedBlock _ _ _ hopen _ _ _ _ =>
    have := hall.braceDepth_eq_zero
    omega
  | headerWithoutBlock q w' r c _ _ _ hlast hsplit _ hc =>
    -- the pieces end at a top-level delimiter, so they end no later than `q`
    have hq : q <+: ps.flatMap text ++ w := by
      rw [hsplit, List.append_assoc]
      exact List.prefix_append _ _
    obtain ⟨t, ht⟩ := List.prefix_of_prefix_length_le (List.prefix_append _ w) hq
      (hlast _ (List.prefix_append _ w) hend)
    -- so the character that is not blank lies among the blanks
    have hmem : c ∈ w := by
      rw [← ht] at hsplit
      simp only [List.append_assoc] at hsplit
      rw [List.append_cancel_left hsplit]
      simp
    simp [hw c hmem] at hc

/-- The scanner fails exactly with the error the brace depth of the text diagnoses. -/
theorem scanFrom_eq_error_iff {pos : Nat} {m : List Char} {err : Malformed} :
    scanFrom pos m = .error err ↔ Diagnosis pos m err := by
  refine ⟨diagnosis_of_scanFrom, fun h => ?_⟩
  cases hscan : scanFrom pos m with
  | error err' => rw [Diagnosis.unique (diagnosis_of_scanFrom hscan) h]
  | ok ps => exact absurd h (not_diagnosis_of_scanFrom_eq_ok hscan err)

/-- The offsets a diagnosis names are those of the text placed at `0`, moved by where the text
starts. -/
lemma diagnosis_iff_rebase {pos o : Nat} {m : List Char} {f : Flaw} :
    Diagnosis pos m ⟨o, f⟩ ↔ ∃ o', o = pos + o' ∧ Diagnosis 0 m ⟨o', f⟩ := by
  constructor
  · intro h
    cases h with
    | strayClosingBrace q c h1 h2 h3 =>
      exact ⟨_, rfl, by simpa using (.strayClosingBrace q c h1 h2 h3 : Diagnosis 0 m _)⟩
    | unclosedBlock q c h1 h2 h3 h4 h5 h6 =>
      exact ⟨_, rfl, by simpa using (.unclosedBlock q c h1 h2 h3 h4 h5 h6 : Diagnosis 0 m _)⟩
    | headerWithoutBlock q w r c h1 h2 h3 h4 h5 h6 h7 =>
      refine ⟨byteLength q + byteLength w, by omega, ?_⟩
      simpa using (.headerWithoutBlock q w r c h1 h2 h3 h4 h5 h6 h7 : Diagnosis 0 m _)
  · rintro ⟨o', rfl, h⟩
    cases h with
    | strayClosingBrace q c h1 h2 h3 =>
      simpa using (.strayClosingBrace q c h1 h2 h3 : Diagnosis pos m _)
    | unclosedBlock q c h1 h2 h3 h4 h5 h6 =>
      simpa using (.unclosedBlock q c h1 h2 h3 h4 h5 h6 : Diagnosis pos m _)
    | headerWithoutBlock q w r c h1 h2 h3 h4 h5 h6 h7 =>
      simpa [Nat.add_assoc] using
        (.headerWithoutBlock q w r c h1 h2 h3 h4 h5 h6 h7 : Diagnosis pos m _)

end Piece

namespace Span

/-- Why the window reader rejects a window whose ends are character boundaries. It fails exactly
when the brace depth of the window's text diagnoses an error, and then with that error, at an
offset into the whole text: a `}` where the depth first falls to `-1`; else, when the depth ends
above zero, the `{` where it last rises from zero; else the first character that is not blank after
the last top-level delimiter. The offsets are those of scanning the window's text on its own,
moved by the window's start. -/
theorem scanWindow_eq_error_iff {cs : List Char} {s e : Nat} (hs : s ∈ boundaries cs)
    (he : e ∈ boundaries cs) (hse : s ≤ e) :
    (∀ err, scanWindow cs s e = .error err ↔
      ∃ m, err = .malformed m ∧ Piece.Diagnosis s (charsWithin s e cs) m) ∧
    ∀ o f, scanWindow cs s e = .error (.malformed ⟨o, f⟩) ↔
      ∃ o', o = s + o' ∧ Piece.scan (charsWithin s e cs) = .error ⟨o', f⟩ := by
  -- on such a window the reader fails only where the scanner does
  have hwin : ∀ err, scanWindow cs s e = .error err ↔
      ∃ m, err = .malformed m ∧ Piece.scanFrom s (charsWithin s e cs) = .error m := by
    intro err
    rw [scanWindow_eq hs he hse]
    split
    · next ps hscan => simp [hscan]
    · next m hscan => simp [hscan, eq_comm]
  refine ⟨fun err => ?_, fun o f => ?_⟩
  · simp only [hwin, Piece.scanFrom_eq_error_iff]
  · rw [hwin]
    simp only [WindowError.malformed.injEq, exists_eq_left', Piece.scan,
      Piece.scanFrom_eq_error_iff]
    exact Piece.diagnosis_iff_rebase

/-- The body of a media block whose last rule has no block: read as a window of the whole text,
past a two-byte `ü`, the header `.b` is reported at its offset in the text, six bytes into the
window. -/
theorem scanWindow_media_header_without_block :
    11 ∈ boundaries "@media ü \x7b .a\x7b\x7d .b \x7d".toList ∧
      20 ∈ boundaries "@media ü \x7b .a\x7b\x7d .b \x7d".toList ∧ 11 ≤ 20 ∧
      scanWindow "@media ü \x7b .a\x7b\x7d .b \x7d".toList 11 20 =
        .error (.malformed ⟨17, .headerWithoutBlock⟩) ∧
      Piece.Diagnosis 11 (charsWithin 11 20 "@media ü \x7b .a\x7b\x7d .b \x7d".toList)
        ⟨17, .headerWithoutBlock⟩ ∧
      Piece.scan (charsWithin 11 20 "@media ü \x7b .a\x7b\x7d .b \x7d".toList) =
        .error ⟨6, .headerWithoutBlock⟩ := by
  have hs : 11 ∈ boundaries "@media ü \x7b .a\x7b\x7d .b \x7d".toList := by decide
  have he : 20 ∈ boundaries "@media ü \x7b .a\x7b\x7d .b \x7d".toList := by decide
  have hread : scanWindow "@media ü \x7b .a\x7b\x7d .b \x7d".toList 11 20 =
      .error (.malformed ⟨17, .headerWithoutBlock⟩) := by
    decide +kernel
  obtain ⟨hdiag, hrebase⟩ := scanWindow_eq_error_iff hs he (by decide)
  obtain ⟨m, hm, hm'⟩ := (hdiag _).mp hread
  obtain ⟨o', ho', hscan⟩ := (hrebase 17 .headerWithoutBlock).mp hread
  obtain rfl : o' = 6 := by omega
  cases hm
  exact ⟨hs, he, by decide, hread, hm', hscan⟩

end Span

end StyleSplit
