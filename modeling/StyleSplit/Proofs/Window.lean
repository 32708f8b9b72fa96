import Mathlib
import StyleSplit.Proofs.Scan
import StyleSplit.Span

/-!
# Scanning a window of a text

`Span.scanWindow cs s e` reads the top-level pieces of the part of `cs` between the byte offsets
`s` and `e`, and reports each as a span of byte offsets into the whole of `cs`. This module
shows that, on a window whose ends are character boundaries, it is the scanner of
`Proofs/Scan.lean` run on the window's characters, with the pieces found laid end to end from
`s`.

* `charsWithin_append` is the one fact about byte offsets that everything rests on: the
  characters between the two ends of a part of a text are that part.
* `exists_window` cuts a text at two boundaries, and `nextBoundary_of_mem` says that a boundary is
  its own next boundary; with them `scanWindow_eq` unfolds the window reader once.
* `Span.Holds cs sp p` says that the span `sp` is where the text of the piece `p` lies in `cs`,
  and `Span.Chain pos spans` that the spans follow one another from `pos`.
  `holds_placeAll` and `chain_placeAll` show that the pieces laid out from a place where their
  text lies are held by their spans, and `eq_placeAll_of_holds` that no other spans are.

The main statement, `Span.scanWindow_eq_ok_iff`: the window is read exactly when its text is a
run of well-formed pieces followed by blanks, that run is unique, the spans returned hold its
pieces one after the other from `s`, only the blanks lie between the last of them and `e`, and
any other window is malformed.
-/

namespace StyleSplit

open StyleSplit.Text

namespace Text

/-! ## Byte offsets of the characters of a text -/

lemma withOffsets_append (pos : Nat) (a b : List Char) :
    withOffsets pos (a ++ b) = withOffsets pos a ++ withOffsets (pos + byteLength a) b := by
  induction a generalizing pos with
  | nil => simp [withOffsets]
  | cons c a ih => simp [withOffsets, ih, Nat.add_assoc]

lemma map_snd_withOffsets (pos : Nat) (cs : List Char) : (withOffsets pos cs).map Prod.snd = cs := by
  induction cs generalizing pos with
  | nil => rfl
  | cons c cs ih => simp [withOffsets, ih]

/-- A character starts at offset `o` only where the text before it is `o` bytes long. -/
lemma exists_append_of_mem_withOffsets {o : Nat} {c : Char} :
    ∀ {pos : Nat} {cs : List Char}, (o, c) ∈ withOffsets pos cs →
      ∃ a z, cs = a ++ c :: z ∧ o = pos + byteLength a
  | _, [], h => by simp [withOffsets] at h
  | pos, d :: cs, h => by
    simp only [withOffsets, List.mem_cons, Prod.mk.injEq] at h
    rcases h with ⟨rfl, rfl⟩ | h
    · exact ⟨[], cs, rfl, by simp⟩
    · obtain ⟨a, z, rfl, rfl⟩ := exists_append_of_mem_withOffsets h
      exact ⟨d :: a, z, rfl, by simp [Nat.add_assoc]⟩

/-- The characters between the two ends of a part of a text are that part: those before it end
by its start and those after it begin at its end, and each character is at least a byte. -/
lemma charsWithin_append (a m z : List Char) :
    charsWithin (byteLength a) (byteLength a + byteLength m) (a ++ m ++ z) = m := by
  unfold charsWithin
  -- the characters of `a` end by the window's start, those of `z` begin at its end
  rw [withOffsets_append, withOffsets_append, List.filter_append, List.filter_append,
    (List.filter_eq_nil_iff (l := withOffsets 0 a)).mpr ?before,
    (List.filter_eq_self (l := withOffsets (0 + byteLength a) m)).mpr ?inside,
    (List.filter_eq_nil_iff (l := withOffsets (0 + byteLength (a ++ m)) z)).mpr ?after]
  · simp [map_snd_withOffsets]
  case before =>
    rintro ⟨o, c⟩ h
    have := bounds_of_mem_withOffsets h
    have := c.utf8Size_pos
    simp only [Bool.and_eq_true, decide_eq_true_eq, not_and, Nat.not_le]
    omega
  case inside =>
    rintro ⟨o, c⟩ h
    have := bounds_of_mem_withOffsets h
    simp only [Bool.and_eq_true, decide_eq_true_eq]
    omega
  case after =>
    rintro ⟨o, c⟩ h
    have := bounds_of_mem_withOffsets h
    have := c.utf8Size_pos
    simp only [byteLength_append, Bool.and_eq_true, decide_eq_true_eq, not_and, Nat.not_le] at *
    omega

/-! ## Boundaries -/

/-- A boundary cuts the text in two, the first part that many bytes long. -/
lemma exists_append_of_mem_boundaries {cs : List Char} {n : Nat} (h : n ∈ boundaries cs) :
    ∃ a z, cs = a ++ z ∧ byteLength a = n := by
  simp only [boundaries, List.mem_append, List.mem_map, List.mem_singleton] at h
  rcases h with ⟨⟨o, c⟩, hmem, rfl⟩ | rfl
  · obtain ⟨a, z, rfl, ho⟩ := exists_append_of_mem_withOffsets hmem
    exact ⟨a, c :: z, rfl, by simpa using ho.symm⟩
  · exact ⟨cs, [], by simp, rfl⟩

/-- A text is longer in bytes than any of its proper beginnings. -/
lemma byteLength_lt_of_prefix {a b : List Char} (h : a <+: b) (hlen : a.length < b.length) :
    byteLength a < byteLength b := by
  obtain ⟨t, rfl⟩ := h
  obtain ⟨c, t', rfl⟩ := List.exists_cons_of_length_pos (by simpa using hlen)
  have := c.utf8Size_pos
  simp only [byteLength_append, byteLength_cons]
  omega

/-- Two boundaries in order cut the text in three: before, between and after them. -/
lemma exists_window {cs : List Char} {s e : Nat} (hs : s ∈ boundaries cs)
    (he : e ∈ boundaries cs) (hse : s ≤ e) :
    ∃ a m z, cs = a ++ m ++ z ∧ byteLength a = s ∧ byteLength a + byteLength m = e := by
  obtain ⟨a, za, hcs, rfl⟩ := exists_append_of_mem_boundaries hs
  obtain ⟨b, zb, hcs', rfl⟩ := exists_append_of_mem_boundaries he
  have ha : a <+: cs := ⟨za, hcs.symm⟩
  have hb : b <+: cs := ⟨zb, hcs'.symm⟩
  -- the shorter cut comes first, since bytes grow with characters
  have hlen : a.length ≤ b.length := by
    by_contra hlt
    have := byteLength_lt_of_prefix (List.prefix_of_prefix_length_le hb ha (by omega))
      (by omega)
    omega
  obtain ⟨m, rfl⟩ := List.prefix_of_prefix_length_le ha hb hlen
  refine ⟨a, m, zb, by simpa using hcs', rfl, by simp⟩

/-- A boundary is its own next boundary: the boundaries before it are the offsets of the
characters before it, all smaller. -/
lemma nextBoundary_of_mem {cs : List Char} {n : Nat} (h : n ∈ boundaries cs) :
    nextBoundary n cs = n := by
  obtain ⟨a, z, rfl, rfl⟩ := exists_append_of_mem_boundaries h
  have hbefore : ((withOffsets 0 a).map Prod.fst).find? (fun b => byteLength a ≤ b) = none := by
    refine List.find?_eq_none.mpr fun b hb => ?_
    obtain ⟨⟨o, c⟩, hmem, rfl⟩ := List.mem_map.mp hb
    have := bounds_of_mem_withOffsets hmem
    have := c.utf8Size_pos
    simp only [decide_eq_true_eq]
    omega
  unfold nextBoundary boundaries
  rw [withOffsets_append, List.map_append, List.append_assoc, List.find?_append, hbefore]
  cases z <;> simp [withOffsets]

end Text

namespace Span

/-! ## Spans holding pieces -/

/-- The span `sp` is where the text of the piece `p` lies in `cs`: the kinds agree, each range
is as long as the part it holds, a block's body starts where its header ends, and the text
between the ends of each range is that part. -/
def Holds (cs : List Char) : Span → Piece → Prop
  | .statement r, .statement t => r.stop = r.start + byteLength t ∧ charsWithin r.start r.stop cs = t
  | .block h b, .block header body =>
    h.stop = h.start + byteLength header ∧ b.start = h.stop ∧ b.stop = b.start + byteLength body ∧
      charsWithin h.start h.stop cs = header ∧ charsWithin b.start b.stop cs = body
  | _, _ => False

/-- Spans follow one another from `pos`: the first starts there and each starts where the one
before it ends. -/
def Chain : Nat → List Span → Prop
  | _, [] => True
  | pos, sp :: rest => sp.range.start = pos ∧ Chain sp.range.stop rest

/-- Where spans that follow one another from `pos` end: at the end of the last, or at `pos` when
there are none. -/
def lastStop : Nat → List Span → Nat
  | pos, [] => pos
  | _, sp :: rest => lastStop sp.range.stop rest

lemma range_place (pos : Nat) (p : Piece) : (p.place pos).range = ⟨pos, pos + byteLength p.text⟩ := by
  cases p <;> simp [Piece.place, range, Nat.add_assoc]

lemma startingAt_place (pos : Nat) (p : Piece) : (p.place pos).startingAt pos = p.place pos := by
  cases p <;> rfl

/-- Pieces laid out from a place where their text lies are held by their spans. -/
lemma holds_placeAll {cs : List Char} :
    ∀ (ps : List Piece) (a z : List Char), cs = a ++ ps.flatMap Piece.text ++ z →
      List.Forall₂ (Holds cs) (Piece.placeAll (byteLength a) ps) ps
  | [], _, _, _ => .nil
  | p :: ps, a, z, hcs => by
    have htail := holds_placeAll ps (a ++ p.text) z
      (hcs.trans (by simp : a ++ (p :: ps).flatMap Piece.text ++ z = _))
    rw [byteLength_append] at htail
    refine .cons ?_ htail
    cases p with
    | statement t =>
      refine ⟨rfl, ?_⟩
      rw [hcs]
      simpa using charsWithin_append a t (ps.flatMap Piece.text ++ z)
    | block header body =>
      refine ⟨rfl, rfl, rfl, ?_, ?_⟩
      · rw [hcs]
        simpa using charsWithin_append a header (body ++ (ps.flatMap Piece.text ++ z))
      · rw [hcs]
        simpa [Nat.add_assoc] using
          charsWithin_append (a ++ header) body (ps.flatMap Piece.text ++ z)

lemma chain_placeAll : ∀ (pos : Nat) (ps : List Piece), Chain pos (Piece.placeAll pos ps)
  | _, [] => trivial
  | pos, p :: ps => ⟨by simp [range_place], by simpa [range_place] using chain_placeAll _ ps⟩

lemma lastStop_placeAll : ∀ (pos : Nat) (ps : List Piece),
    lastStop pos (Piece.placeAll pos ps) = pos + byteLength (ps.flatMap Piece.text)
  | pos, [] => by simp [Piece.placeAll, lastStop]
  | pos, p :: ps => by
    simp [Piece.placeAll, lastStop, range_place, lastStop_placeAll, Nat.add_assoc]

/-- Spans that hold pieces and follow one another from `pos` are the pieces laid out from
`pos`: a range's start is given by the chain and its end by the length of what it holds. -/
lemma eq_placeAll_of_holds {cs : List Char} {spans : List Span} {ps : List Piece}
    (h : List.Forall₂ (Holds cs) spans ps) : ∀ {pos : Nat}, Chain pos spans →
      spans = Piece.placeAll pos ps := by
  induction h with
  | nil => intro _ _; rfl
  | @cons sp p spans ps hsp _ ih =>
    intro pos hchain
    obtain ⟨hstart, hrest⟩ := hchain
    have hsp' : sp = p.place pos := by
      cases sp with
      | statement r =>
        cases p with
        | statement t =>
          obtain ⟨start, stop⟩ := r
          obtain ⟨hstop, -⟩ := hsp
          simp only [range] at hstart hstop
          subst hstart hstop
          rfl
        | block => exact hsp.elim
      | block h b =>
        cases p with
        | statement => exact hsp.elim
        | block header body =>
          obtain ⟨hstart', hstop⟩ := h
          obtain ⟨bstart, bstop⟩ := b
          obtain ⟨hh, hb, hbs, -, -⟩ := hsp
          simp only [range] at hstart hh hb hbs
          subst hstart hh hb hbs
          rfl
    subst hsp'
    rw [ih (by simpa [range_place] using hrest)]
    rfl

end Span

namespace Piece

/-- `cs` is the pieces `ps`, well formed and laid end to end, followed by the blanks `w`. -/
structure Cut (cs : List Char) (ps : List Piece) (w : List Char) : Prop where
  wellFormed : ∀ p ∈ ps, p.WellFormed
  blank : ∀ c ∈ w, isBlank c = true
  eq : cs = ps.flatMap text ++ w

lemma scanFrom_eq_ok_iff_cut {pos : Nat} {cs : List Char} {ps : List Piece} :
    scanFrom pos cs = .ok ps ↔ ∃ w, Cut cs ps w := by
  rw [scanFrom_eq_ok_iff]
  exact ⟨fun ⟨hwf, w, hw, heq⟩ => ⟨w, hwf, hw, heq⟩, fun ⟨w, hwf, hw, heq⟩ => ⟨hwf, w, hw, heq⟩⟩

lemma Cut.unique {cs : List Char} {ps ps' : List Piece} {w w' : List Char} (h : Cut cs ps w)
    (h' : Cut cs ps' w') : ps = ps' ∧ w = w' :=
  eq_of_flatMap_text_append h.wellFormed h'.wellFormed h.blank h'.blank (h.eq.symm.trans h'.eq)

end Piece

namespace Span

/-- On a window whose ends are boundaries, the window reader is the scanner run on the window's
characters from its start, its pieces laid out from there. -/
lemma scanWindow_eq {cs : List Char} {s e : Nat} (hs : s ∈ boundaries cs) (he : e ∈ boundaries cs)
    (hse : s ≤ e) :
    scanWindow cs s e =
      match Piece.scanFrom s (charsWithin s e cs) with
      | .ok ps => .ok (Piece.placeAll s ps)
      | .error m => .error (.malformed m) := by
  obtain ⟨a, m, z, rfl, rfl, rfl⟩ := exists_window hs he hse
  rw [charsWithin_append]
  by_cases hm : byteLength m = 0
  · -- an empty window holds no characters
    have hnil : m = [] := by
      cases m with
      | nil => rfl
      | cons c m =>
        have := c.utf8Size_pos
        simp at hm
        omega
    subst hnil
    have hblank : Piece.scanFrom (byteLength a) [] = .ok [] := Piece.scanFrom_blank (by simp)
    simp [scanWindow, hblank, Piece.placeAll]
  · have hstop : byteLength (a ++ m ++ z) ≥ byteLength a + byteLength m := by simp
    simp only [scanWindow, nextBoundary_of_mem hs, List.contains_iff_mem.mpr hs,
      List.contains_iff_mem.mpr he, charsWithin_append]
    rw [if_neg (by omega), if_neg (by omega)]
    simp only [Bool.not_true, Bool.false_or, Bool.false_and, Bool.and_false, Bool.false_eq_true,
      if_false]
    rcases Piece.scanFrom (byteLength a) m with err | _ | ⟨p, ps⟩
    · rfl
    · rfl
    · simp [Piece.placeAll, startingAt_place]

/-- The window reader on a window whose ends are character boundaries: it reads the window
exactly when the window's text is a run of well-formed pieces followed by blanks, that run is
unique, and the spans it returns hold the pieces one after the other from the window's start,
with only the blanks between the last of them and the window's end; any other window is
malformed. -/
theorem scanWindow_eq_ok_iff {cs : List Char} {s e : Nat} (hs : s ∈ boundaries cs)
    (he : e ∈ boundaries cs) (hse : s ≤ e) :
    (∀ spans, scanWindow cs s e = .ok spans ↔
      ∃ ps w, Piece.Cut (charsWithin s e cs) ps w ∧ List.Forall₂ (Holds cs) spans ps ∧
        Chain s spans ∧ charsWithin (lastStop s spans) e cs = w) ∧
    (∀ ps w ps' w', Piece.Cut (charsWithin s e cs) ps w →
      Piece.Cut (charsWithin s e cs) ps' w' → ps = ps' ∧ w = w') ∧
    ((¬ ∃ ps w, Piece.Cut (charsWithin s e cs) ps w) →
      ∃ m, scanWindow cs s e = .error (.malformed m)) := by
  obtain ⟨a, m, z, hcs, hstart, hend⟩ := exists_window hs he hse
  have hwin : charsWithin s e cs = m := by
    rw [hcs, ← hstart, ← hend, charsWithin_append]
  refine ⟨fun spans => ⟨fun h => ?_, fun ⟨ps, w, hcut, hholds, hchain, _⟩ => ?_⟩,
    fun _ _ _ _ h h' => h.unique h', fun hnone => ?_⟩
  · -- an accepted window: the scanner's pieces, laid out from `s`
    rw [scanWindow_eq hs he hse] at h
    split at h
    · next ps hscan =>
      cases h
      obtain ⟨w, hcut⟩ := Piece.scanFrom_eq_ok_iff_cut.mp hscan
      have hm : m = ps.flatMap Piece.text ++ w := hwin ▸ hcut.eq
      have hcs' : cs = a ++ ps.flatMap Piece.text ++ (w ++ z) := by simp [hcs, hm]
      refine ⟨ps, w, hcut, hstart ▸ holds_placeAll ps a _ hcs', chain_placeAll s ps, ?_⟩
      rw [lastStop_placeAll, hcs, ← hstart, ← hend, hm]
      simpa [Nat.add_assoc] using charsWithin_append (a ++ ps.flatMap Piece.text) w z
    · cases h
  · -- spans holding a cut of the window are the ones the reader returns
    rw [eq_placeAll_of_holds hholds hchain, scanWindow_eq hs he hse,
      (Piece.scanFrom_eq_ok_iff_cut.mpr ⟨w, hcut⟩ : Piece.scanFrom s _ = .ok ps)]
  · rw [scanWindow_eq hs he hse]
    split
    · next ps hscan =>
      obtain ⟨w, hw⟩ := Piece.scanFrom_eq_ok_iff_cut.mp hscan
      exact absurd ⟨ps, w, hw⟩ hnone
    · exact ⟨_, rfl⟩

/-- The window reader at the body of a media block: the window runs from the byte after `{` to
the `}`, and its one rule is found at offsets into the whole text. -/
theorem scanWindow_media_body :
    10 ∈ boundaries "@media x \x7b .a\x7b\x7d \x7d".toList ∧
      16 ∈ boundaries "@media x \x7b .a\x7b\x7d \x7d".toList ∧ 10 ≤ 16 ∧
      scanWindow "@media x \x7b .a\x7b\x7d \x7d".toList 10 16 = .ok [.block ⟨10, 13⟩ ⟨13, 15⟩] ∧
      ∃ ps w, Piece.Cut (charsWithin 10 16 "@media x \x7b .a\x7b\x7d \x7d".toList) ps w ∧
        List.Forall₂ (Holds "@media x \x7b .a\x7b\x7d \x7d".toList) [.block ⟨10, 13⟩ ⟨13, 15⟩] ps ∧
        Chain 10 [.block ⟨10, 13⟩ ⟨13, 15⟩] ∧
        charsWithin (lastStop 10 [.block ⟨10, 13⟩ ⟨13, 15⟩]) 16
          "@media x \x7b .a\x7b\x7d \x7d".toList = w := by
  have hs : 10 ∈ boundaries "@media x \x7b .a\x7b\x7d \x7d".toList := by decide
  have he : 16 ∈ boundaries "@media x \x7b .a\x7b\x7d \x7d".toList := by decide
  have hread : scanWindow "@media x \x7b .a\x7b\x7d \x7d".toList 10 16 =
      .ok [.block ⟨10, 13⟩ ⟨13, 15⟩] := by
    decide +kernel
  exact ⟨hs, he, by decide, hread, ((scanWindow_eq_ok_iff hs he (by decide)).1 _).mp hread⟩

end Span

end StyleSplit
