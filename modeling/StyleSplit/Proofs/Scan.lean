import Mathlib
import StyleSplit.Piece

/-!
# The grammar the scanner reads

`Piece.scanFrom` cuts comment-free text into top-level pieces. This module states, with no
reference to the scanner, which texts it accepts and what it returns for them, and proves the two
agree.

A *well-formed piece* (`Piece.WellFormed`) is a statement `t ;` with `t` free of braces and
semicolons, or a block `h { b }` with `h` free of them and `b` *balanced* (`Balanced`): no prefix
of `b` closes more braces than it opens, and the whole of it closes as many as it opens.

The proof is layered after the scanner itself.

* `Piece.closeBlock` is the depth counter. `Closes d b` says that read from depth `d`, `b` never
  goes below depth zero and ends at it, so that the next `}` is the one that closes the block;
  `closeBlock_of_closes` and `closes_of_closeBlock` show that this is exactly when the counter
  stops there.
* `Piece.scanFrom_of_mark` and `Piece.scanFrom_of_markFree` are the scanner's two kinds of step,
  said once; every later proof about the scanner rewrites with them instead of unfolding it.
* `Piece.scanFrom_flatMap_append` (reading well-formed pieces back, whatever follows them) and
  `Piece.scanFrom_eq_ok` (what an accepting run has read) combine into
  `Piece.scanFrom_eq_ok_iff`: the scanner accepts a text exactly when it is a run of well-formed
  pieces followed by blanks, and returns those pieces. Since well-formed pieces are read back
  whatever follows them, the decomposition of a text is unique.
-/

namespace StyleSplit

open StyleSplit.Text

section Marks

@[simp] lemma isMark_open : isMark '{' = true := rfl

@[simp] lemma isMark_close : isMark '}' = true := rfl

@[simp] lemma isMark_semicolon : isMark ';' = true := rfl

/-- A blank character gives text no structure. -/
lemma isMark_eq_false_of_isBlank {c : Char} (h : isBlank c = true) : isMark c = false := by
  unfold isMark
  rcases Bool.eq_false_or_eq_true (c == '{') with h1 | h1 <;>
    rcases Bool.eq_false_or_eq_true (c == '}') with h2 | h2 <;>
    rcases Bool.eq_false_or_eq_true (c == ';') with h3 | h3 <;>
    simp_all only [beq_iff_eq] <;> subst_vars <;> simp_all [isBlank]

lemma eq_of_isMark {c : Char} (h : isMark c = true) : c = '{' ∨ c = '}' ∨ c = ';' := by
  simpa [isMark, or_assoc] using h

@[simp] lemma utf8Size_open : '{'.utf8Size = 1 := rfl

@[simp] lemma utf8Size_close : '}'.utf8Size = 1 := rfl

@[simp] lemma utf8Size_semicolon : ';'.utf8Size = 1 := rfl

end Marks

lemma except_map_eq_ok {ε α β : Type} {f : α → β} {x : Except ε α} {b : β} :
    x.map f = .ok b ↔ ∃ a, x = .ok a ∧ f a = b := by
  cases x <;> simp [Except.map]

lemma except_bind_eq_ok {ε α β : Type} {x : Except ε α} {f : α → Except ε β} {b : β} :
    x.bind f = .ok b ↔ ∃ a, x = .ok a ∧ f a = .ok b := by
  cases x <;> simp [Except.bind]

/-! ## Balance and the depth counter -/

/-- The inside of a block: no prefix of it closes more braces than it opens, and the whole of it
closes as many as it opens. -/
structure Balanced (b : List Char) : Prop where
  prefixes : ∀ p, p <+: b → p.count '}' ≤ p.count '{'
  closed : b.count '}' = b.count '{'

/-- Read from depth `d`, the text never goes below depth zero and ends at it. -/
structure Closes (d : Nat) (b : List Char) : Prop where
  prefixes : ∀ p, p <+: b → p.count '}' ≤ d + p.count '{'
  closed : b.count '}' = d + b.count '{'

lemma closes_nil : Closes 0 [] :=
  ⟨fun p hp => by simp [List.prefix_nil.mp hp], rfl⟩

lemma closes_cons_open {d : Nat} {b : List Char} : Closes d ('{' :: b) ↔ Closes (d + 1) b := by
  constructor
  · intro h
    refine ⟨fun p hp => ?_, ?_⟩
    · have := h.prefixes ('{' :: p) (List.cons_prefix_cons.mpr ⟨rfl, hp⟩)
      simp at this
      omega
    · have := h.closed
      simp at this
      omega
  · intro h
    refine ⟨fun p hp => ?_, ?_⟩
    · rcases List.prefix_cons_iff.mp hp with rfl | ⟨t, rfl, ht⟩
      · simp
      · have := h.prefixes t ht
        simp
        omega
    · have := h.closed
      simp
      omega

/-- A `}` read at depth zero would go below it, so a text that closes from `d` and starts with
`}` is read from a depth `d' + 1`. -/
lemma closes_cons_close {d : Nat} {b : List Char} :
    Closes d ('}' :: b) ↔ ∃ d', d = d' + 1 ∧ Closes d' b := by
  constructor
  · intro h
    have hd := h.prefixes ['}'] (List.cons_prefix_cons.mpr ⟨rfl, List.nil_prefix⟩)
    obtain ⟨d', rfl⟩ : ∃ d', d = d' + 1 := ⟨d - 1, by simp at hd; omega⟩
    refine ⟨d', rfl, fun p hp => ?_, ?_⟩
    · have := h.prefixes ('}' :: p) (List.cons_prefix_cons.mpr ⟨rfl, hp⟩)
      simp at this
      omega
    · have := h.closed
      simp at this
      omega
  · rintro ⟨d', rfl, h⟩
    refine ⟨fun p hp => ?_, ?_⟩
    · rcases List.prefix_cons_iff.mp hp with rfl | ⟨t, rfl, ht⟩
      · simp
      · have := h.prefixes t ht
        simp
        omega
    · have := h.closed
      simp
      omega

lemma closes_cons_other {c : Char} (h1 : c ≠ '{') (h2 : c ≠ '}') {d : Nat} {b : List Char} :
    Closes d (c :: b) ↔ Closes d b := by
  have hc1 : (c == '{') = false := by simpa using h1
  have hc2 : (c == '}') = false := by simpa using h2
  constructor
  · intro h
    refine ⟨fun p hp => ?_, ?_⟩
    · have := h.prefixes (c :: p) (List.cons_prefix_cons.mpr ⟨rfl, hp⟩)
      simpa [List.count_cons, hc1, hc2] using this
    · simpa [List.count_cons, hc1, hc2] using h.closed
  · intro h
    refine ⟨fun p hp => ?_, ?_⟩
    · rcases List.prefix_cons_iff.mp hp with rfl | ⟨t, rfl, ht⟩
      · simp
      · simpa [List.count_cons, hc1, hc2] using h.prefixes t ht
    · simpa [List.count_cons, hc1, hc2] using h.closed

lemma Balanced.closes {b : List Char} (h : Balanced b) : Closes 0 b :=
  ⟨fun p hp => by simpa using h.prefixes p hp, by simpa using h.closed⟩

lemma Closes.balanced {b : List Char} (h : Closes 0 b) : Balanced b :=
  ⟨fun p hp => by simpa using h.prefixes p hp, by simpa using h.closed⟩

lemma balanced_of_markFree {b : List Char} (h : ∀ c ∈ b, isMark c = false) : Balanced b := by
  have hb : ∀ c ∈ b, c ≠ '{' ∧ c ≠ '}' := fun c hc => by
    have := h c hc
    constructor <;> rintro rfl <;> simp at this
  refine ⟨fun p hp => ?_, ?_⟩
  · have hp' : ∀ c ∈ p, c ≠ '{' ∧ c ≠ '}' := fun c hc => hb c (hp.subset hc)
    simp [List.count_eq_zero.mpr fun hc => (hp' _ hc).2 rfl]
  · simp [List.count_eq_zero.mpr fun hc => (hb _ hc).1 rfl,
      List.count_eq_zero.mpr fun hc => (hb _ hc).2 rfl]

/-- Balanced texts put end to end are balanced: a prefix of the whole is a prefix of the first
followed by a prefix of the second. -/
lemma Balanced.append {a b : List Char} (ha : Balanced a) (hb : Balanced b) :
    Balanced (a ++ b) := by
  refine ⟨fun p hp => ?_, by simp [ha.closed, hb.closed]⟩
  rw [List.prefix_iff_eq_take, List.take_append] at hp
  rw [hp]
  have h1 := ha.prefixes _ (List.take_prefix p.length a)
  have h2 := hb.prefixes _ (List.take_prefix (p.length - a.length) b)
  simp only [List.count_append]
  omega

/-- A block around a balanced inside, after a header with no braces, is balanced. -/
lemma balanced_block {h b : List Char} (hh : ∀ c ∈ h, isMark c = false) (hb : Balanced b) :
    Balanced (h ++ '{' :: b ++ ['}']) := by
  have hopen : Balanced ('{' :: b ++ ['}']) := by
    refine ⟨fun p hp => ?_, by simp [hb.closed]⟩
    rcases List.prefix_concat_iff.mp hp with rfl | hp
    · simp [hb.closed]
    · rcases List.prefix_cons_iff.mp hp with rfl | ⟨t, rfl, ht⟩
      · simp
      · have := hb.prefixes t ht
        simp
        omega
  simpa using (balanced_of_markFree hh).append hopen

namespace Piece

lemma closeBlock_open (d : Nat) (cs : List Char) :
    closeBlock d ('{' :: cs) = (closeBlock (d + 1) cs).map fun (i, a) => ('{' :: i, a) := by
  simp [closeBlock]

lemma closeBlock_close_zero (cs : List Char) : closeBlock 0 ('}' :: cs) = some (['}'], cs) := by
  simp [closeBlock]

lemma closeBlock_close_succ (d : Nat) (cs : List Char) :
    closeBlock (d + 1) ('}' :: cs) = (closeBlock d cs).map fun (i, a) => ('}' :: i, a) := by
  simp [closeBlock]

lemma closeBlock_other {c : Char} (h1 : c ≠ '{') (h2 : c ≠ '}') (d : Nat) (cs : List Char) :
    closeBlock d (c :: cs) = (closeBlock d cs).map fun (i, a) => (c :: i, a) := by
  cases d <;> simp [closeBlock, h2]

/-- Read from depth `d`, a text that closes there is cut right after the `}` that follows it. -/
lemma closeBlock_of_closes {d : Nat} {b : List Char} (h : Closes d b) (rest : List Char) :
    closeBlock d (b ++ '}' :: rest) = some (b ++ ['}'], rest) := by
  induction b generalizing d with
  | nil =>
    have hd : d = 0 := by simpa using h.closed.symm
    subst hd
    simp [closeBlock_close_zero]
  | cons c b ih =>
    by_cases ho : c = '{'
    · subst ho
      rw [List.cons_append, closeBlock_open, ih (closes_cons_open.mp h)]
      simp
    · by_cases hc : c = '}'
      · subst hc
        obtain ⟨d', rfl, h'⟩ := closes_cons_close.mp h
        rw [List.cons_append, closeBlock_close_succ, ih h']
        simp
      · rw [List.cons_append, closeBlock_other ho hc, ih ((closes_cons_other ho hc).mp h)]
        simp

/-- Where the depth counter stops: right after a `}` that follows a text closing from its
depth. -/
lemma closes_of_closeBlock {d : Nat} {cs inner after : List Char}
    (h : closeBlock d cs = some (inner, after)) :
    ∃ b, inner = b ++ ['}'] ∧ cs = inner ++ after ∧ Closes d b := by
  fun_induction closeBlock d cs generalizing inner after with
  | case1 => simp at h
  | case2 d cs ih =>
    obtain ⟨⟨i, a⟩, hs, he⟩ := Option.map_eq_some_iff.mp h
    obtain ⟨rfl, rfl⟩ := Prod.mk.inj he
    obtain ⟨b, rfl, rfl, hb⟩ := ih hs
    exact ⟨'{' :: b, rfl, rfl, closes_cons_open.mpr hb⟩
  | case3 cs =>
    obtain ⟨rfl, rfl⟩ := Prod.mk.inj (Option.some.inj h)
    exact ⟨[], rfl, rfl, closes_nil⟩
  | case4 d cs ih =>
    obtain ⟨⟨i, a⟩, hs, he⟩ := Option.map_eq_some_iff.mp h
    obtain ⟨rfl, rfl⟩ := Prod.mk.inj he
    obtain ⟨b, rfl, rfl, hb⟩ := ih hs
    exact ⟨'}' :: b, rfl, rfl, closes_cons_close.mpr ⟨d, rfl, hb⟩⟩
  | case5 d c cs h1 h2 h3 ih =>
    -- the fallthrough case: neither brace at any depth
    have hc : c ≠ '}' := by
      rintro rfl
      cases d with
      | zero => exact h2 rfl rfl
      | succ d => exact h3 d rfl rfl
    obtain ⟨⟨i, a⟩, hs, he⟩ := Option.map_eq_some_iff.mp h
    obtain ⟨rfl, rfl⟩ := Prod.mk.inj he
    obtain ⟨b, rfl, rfl, hb⟩ := ih hs
    exact ⟨c :: b, rfl, rfl, (closes_cons_other h1 hc).mpr hb⟩

/-- The depth counter, started inside a block, stops exactly after a balanced text and the `}`
that follows it. -/
lemma closeBlock_eq_some_iff {cs inner after : List Char} :
    closeBlock 0 cs = some (inner, after) ↔
      ∃ b, Balanced b ∧ inner = b ++ ['}'] ∧ cs = inner ++ after := by
  constructor
  · intro h
    obtain ⟨b, rfl, rfl, hb⟩ := closes_of_closeBlock h
    exact ⟨b, hb.balanced, rfl, rfl⟩
  · rintro ⟨b, hb, rfl, rfl⟩
    simpa using closeBlock_of_closes hb.closes after

/-! ## The scanner's steps -/

/-- A piece the scanner reads back as itself: a statement whose text before its `;` has no marks,
or a block whose header has no marks and whose body is a balanced inside in braces. -/
def WellFormed : Piece → Prop
  | .statement t => ∃ h, t = h ++ [';'] ∧ ∀ c ∈ h, isMark c = false
  | .block header body =>
    (∀ c ∈ header, isMark c = false) ∧ ∃ b, body = '{' :: b ++ ['}'] ∧ Balanced b

@[simp] lemma text_statement (t : List Char) : (statement t).text = t := rfl

@[simp] lemma text_block (header body : List Char) : (block header body).text = header ++ body :=
  rfl

/-- Text either has no marks, or is a header with none followed by a mark. -/
lemma markFree_or_mark (cs : List Char) :
    (∀ c ∈ cs, isMark c = false) ∨
      ∃ h m rest, cs = h ++ m :: rest ∧ (∀ c ∈ h, isMark c = false) ∧ isMark m = true := by
  cases hd : cs.dropWhile (fun c => !isMark c) with
  | nil => exact .inl (by simpa using List.dropWhile_eq_nil_iff.mp hd)
  | cons m rest =>
    have hm := @List.head_dropWhile_not Char (fun c => !isMark c) cs (by simp [hd])
    simp only [hd, List.head_cons, Bool.not_eq_false'] at hm
    refine .inr ⟨cs.takeWhile (fun c => !isMark c), m, rest, ?_, fun c hc => ?_, by simpa using hm⟩
    · rw [← hd, List.takeWhile_append_dropWhile]
    · simpa using List.mem_takeWhile_imp hc

/-- The scanner's step at the first mark after the cursor: a `}` closes nothing, a `;` ends a
statement, and a `{` opens a block that runs to its matching `}`. -/
lemma scanFrom_of_mark {pos : Nat} {h rest : List Char} {m : Char}
    (hh : ∀ c ∈ h, isMark c = false) (hm : isMark m = true) :
    scanFrom pos (h ++ m :: rest) =
      if m = '}' then .error ⟨pos + byteLength h, .strayClosingBrace⟩
      else if m = ';' then
        (scanFrom (pos + byteLength h + 1) rest).map (.statement (h ++ [';']) :: ·)
      else
        match closeBlock 0 rest with
        | none => .error ⟨pos + byteLength h, .unclosedBlock⟩
        | some (inner, after) =>
          (scanFrom (pos + byteLength h + 1 + byteLength inner) after).map
            (.block h ('{' :: inner) :: ·) := by
  have hdrop : (h ++ m :: rest).dropWhile (fun c => !isMark c) = m :: rest := by
    rw [List.dropWhile_append_of_pos (by simpa using hh)]
    simp [hm]
  have htake : (h ++ m :: rest).takeWhile (fun c => !isMark c) = h := by
    rw [List.takeWhile_append_of_pos (by simpa using hh)]
    simp [hm]
  rw [scanFrom]
  split
  · next heq => rw [hdrop] at heq; cases heq
  · next m' rest' heq =>
    rw [hdrop] at heq
    obtain ⟨rfl, rfl⟩ := List.cons.inj heq
    simp only [htake]
    split
    · rfl
    · split
      · rfl
      · split
        · next hc => rw [hc]
        · next inner after hc => rw [hc]

/-- The scanner's last step, on text with no marks left: it must be blank. -/
lemma scanFrom_of_markFree {pos : Nat} {cs : List Char} (hcs : ∀ c ∈ cs, isMark c = false) :
    scanFrom pos cs =
      if (trimStart cs).isEmpty then .ok []
      else .error ⟨pos + byteLength (cs.takeWhile isBlank), .headerWithoutBlock⟩ := by
  have hdrop : cs.dropWhile (fun c => !isMark c) = [] :=
    List.dropWhile_eq_nil_iff.mpr (by simpa using hcs)
  rw [scanFrom]
  split
  · rfl
  · next m rest heq => rw [hdrop] at heq; cases heq

lemma trimStart_eq_nil_iff {cs : List Char} : trimStart cs = [] ↔ ∀ c ∈ cs, isBlank c = true :=
  List.dropWhile_eq_nil_iff

lemma scanFrom_blank {pos : Nat} {w : List Char} (hw : ∀ c ∈ w, isBlank c = true) :
    scanFrom pos w = .ok [] := by
  rw [scanFrom_of_markFree fun c hc => isMark_eq_false_of_isBlank (hw c hc)]
  simp [trimStart_eq_nil_iff.mpr hw]

/-- A well-formed piece is read back as itself, whatever follows it. -/
lemma scanFrom_wellFormed_append {p : Piece} (hp : p.WellFormed) (pos : Nat) (rest : List Char) :
    scanFrom pos (p.text ++ rest) = (scanFrom (pos + byteLength p.text) rest).map (p :: ·) := by
  cases p with
  | statement t =>
    obtain ⟨h, rfl, hh⟩ := hp
    rw [text, List.append_assoc, List.singleton_append, scanFrom_of_mark hh isMark_semicolon]
    simp [Nat.add_assoc]
  | block header body =>
    obtain ⟨hh, b, rfl, hb⟩ := hp
    have hclose := closeBlock_of_closes hb.closes rest
    have htext : header ++ ('{' :: b ++ ['}']) ++ rest = header ++ '{' :: (b ++ '}' :: rest) := by
      simp
    rw [text, htext, scanFrom_of_mark hh isMark_open]
    simp only [show ('{' : Char) ≠ '}' by decide, show ('{' : Char) ≠ ';' by decide, if_false]
    rw [hclose]
    simp [Nat.add_assoc]

/-- Well-formed pieces are read back as themselves, whatever follows them. -/
lemma scanFrom_flatMap_append {ps : List Piece} (hps : ∀ p ∈ ps, p.WellFormed) (pos : Nat)
    (rest : List Char) :
    scanFrom pos (ps.flatMap text ++ rest) =
      (scanFrom (pos + byteLength (ps.flatMap text)) rest).map (ps ++ ·) := by
  induction ps generalizing pos with
  | nil =>
    simp only [List.flatMap_nil, List.nil_append, byteLength_nil, Nat.add_zero]
    cases scanFrom pos rest <;> rfl
  | cons p ps ih =>
    rw [List.flatMap_cons, List.append_assoc, scanFrom_wellFormed_append (hps p (by simp)),
      ih (fun q hq => hps q (by simp [hq])), byteLength_append, Nat.add_assoc]
    cases scanFrom (pos + (byteLength p.text + byteLength (ps.flatMap text))) rest <;> rfl

/-- What an accepting run has read: well-formed pieces, then blanks. -/
lemma scanFrom_eq_ok {pos : Nat} {cs : List Char} {ps : List Piece} (h : scanFrom pos cs = .ok ps) :
    (∀ p ∈ ps, p.WellFormed) ∧ ∃ w, (∀ c ∈ w, isBlank c = true) ∧ cs = ps.flatMap text ++ w := by
  -- by strong induction on the length of the text: each step reads at least one mark
  induction hn : cs.length using Nat.strong_induction_on generalizing pos cs ps with
  | _ n ih =>
  subst hn
  rcases markFree_or_mark cs with hfree | ⟨hd, m, rest, rfl, hhd, hm⟩
  · rw [scanFrom_of_markFree hfree] at h
    split at h
    · next hblank =>
      cases h
      exact ⟨by simp, cs, trimStart_eq_nil_iff.mp (by simpa using hblank), by simp⟩
    · cases h
  · rw [scanFrom_of_mark hhd hm] at h
    rcases eq_of_isMark hm with rfl | rfl | rfl
    · -- `{` opens a block, which the depth counter closes
      simp only [show ('{' : Char) ≠ '}' by decide, show ('{' : Char) ≠ ';' by decide,
        if_false] at h
      split at h
      · cases h
      · next inner after hc =>
        obtain ⟨b, hb, rfl, rfl⟩ := closeBlock_eq_some_iff.mp hc
        obtain ⟨ps', hps', rfl⟩ := except_map_eq_ok.mp h
        obtain ⟨hwf, w, hw, rfl⟩ := ih _ (by simp; omega) hps' rfl
        refine ⟨fun p hp => ?_, w, hw, by simp⟩
        rcases List.mem_cons.mp hp with rfl | hp
        · exact ⟨hhd, b, rfl, hb⟩
        · exact hwf p hp
    · simp at h
    · -- `;` ends a statement
      simp only [show (';' : Char) ≠ '}' by decide, if_false, if_true] at h
      obtain ⟨ps', hps', rfl⟩ := except_map_eq_ok.mp h
      obtain ⟨hwf, w, hw, rfl⟩ := ih _ (by simp; omega) hps' rfl
      refine ⟨fun p hp => ?_, w, hw, by simp⟩
      rcases List.mem_cons.mp hp with rfl | hp
      · exact ⟨hd, rfl, hhd⟩
      · exact hwf p hp

/-- The scanner accepts a text exactly when it is a run of well-formed pieces followed by blanks,
and then returns those pieces. -/
lemma scanFrom_eq_ok_iff {pos : Nat} {cs : List Char} {ps : List Piece} :
    scanFrom pos cs = .ok ps ↔
      (∀ p ∈ ps, p.WellFormed) ∧ ∃ w, (∀ c ∈ w, isBlank c = true) ∧ cs = ps.flatMap text ++ w := by
  refine ⟨scanFrom_eq_ok, ?_⟩
  rintro ⟨hwf, w, hw, rfl⟩
  rw [scanFrom_flatMap_append hwf, scanFrom_blank hw]
  simp [Except.map]

/-- A text is a run of well-formed pieces followed by blanks in at most one way. -/
lemma eq_of_flatMap_text_append {ps qs : List Piece} {w w' : List Char}
    (hps : ∀ p ∈ ps, p.WellFormed) (hqs : ∀ q ∈ qs, q.WellFormed)
    (hw : ∀ c ∈ w, isBlank c = true) (hw' : ∀ c ∈ w', isBlank c = true)
    (h : ps.flatMap text ++ w = qs.flatMap text ++ w') : ps = qs ∧ w = w' := by
  have h1 : scanFrom 0 (ps.flatMap text ++ w) = .ok ps := scanFrom_eq_ok_iff.mpr ⟨hps, w, hw, rfl⟩
  have h2 : scanFrom 0 (qs.flatMap text ++ w') = .ok qs :=
    scanFrom_eq_ok_iff.mpr ⟨hqs, w', hw', rfl⟩
  rw [h, h2] at h1
  obtain rfl := (Except.ok.inj h1).symm
  exact ⟨rfl, List.append_cancel_left h⟩

end Piece

end StyleSplit
