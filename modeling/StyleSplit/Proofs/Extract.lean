import StyleSplit.Proofs.Boundaries
import StyleSplit.Proofs.Reading
import StyleSplit.Sheet.Bytes

/-!
# Reading a stylesheet by byte offsets never faults

`Stylesheet.extractBytes` cuts the pieces of a stylesheet out of its text by the byte offsets of
their spans. This module shows that it never faults, and gives what `Stylesheet.parseChars` gives,
errors included (`extractBytes_eq_parseChars`).

* A `ByteRead` is executed one bind at a time (`ByteRead.run_bind_ok`, `ByteRead.run_bind_error`),
  and a cut at the two ends of a part of the text gives that part (`ByteRead.run_cut`). The spans
  of a window at the ends of a part are the pieces the scanner finds in it, laid out from its
  start (`ByteRead.run_spans`).
* The character readers thread the offset of the next piece through a recursion of their own.
  `readFrom` is that recursion, once, and both readers are instances of it
  (`readEntries_eq_readFrom`, `mediaRules_eq_readFrom`). Reading the spans of pieces laid end to
  end, each as its piece is read, is `readFrom` (`run_mapM_placeAll`).
* Each span is then read as its piece: a statement and its keyword (`run_ofStatementBytes`), a
  block of a media body (`run_mediaRuleBytes`), a media block from its trimmed header
  (`run_mediaBytes`), and any top-level piece (`run_entryBytes`).

`cuts_on_char_boundaries` gathers what the byte readers of comments, windows and stylesheets
need: none of their cuts falls inside a character, and no brace counter goes below zero.
-/

namespace StyleSplit

open StyleSplit.Text

namespace ByteRead

variable {α β : Type}

lemma run_bind_ok {x : ByteRead α} {a : α} (hx : x.run = some (.ok a)) (f : α → ByteRead β) :
    (x >>= f).run = (f a).run := by
  rw [ExceptT.run_bind, hx]
  rfl

lemma run_bind_error {x : ByteRead α} {m : Malformed} (hx : x.run = some (.error m))
    (f : α → ByteRead β) : (x >>= f).run = some (.error m) := by
  rw [ExceptT.run_bind, hx]
  rfl

/-- A reading that gives `r`, followed by readings that give `g a` for each result `a` of it,
gives `r >>= g`. -/
lemma run_bind {x : ByteRead α} {r : Except Malformed α} (hx : x.run = some r)
    {f : α → ByteRead β} {g : α → Except Malformed β}
    (hf : ∀ a, r = .ok a → (f a).run = some (g a)) : (x >>= f).run = some (r >>= g) := by
  cases r with
  | error m => exact run_bind_error hx f
  | ok a => exact (run_bind_ok hx f).trans (hf a rfl)

/-- A cut at the two ends of a part of the text gives that part. -/
lemma run_cut {cs a m z : List Char} {lo hi : Nat} (hcs : cs = a ++ m ++ z)
    (hlo : byteLength a = lo) (hhi : byteLength a + byteLength m = hi) :
    (cut cs lo hi).run = some (.ok m) := by
  rw [cut, ExceptT.run_lift, slice?_of_parts hcs hlo hhi]
  rfl

lemma run_sub {a b : Nat} (h : b ≤ a) : (sub a b).run = some (.ok (a - b)) := by
  rw [sub, if_pos h]
  rfl

/-- The spans of a window at the two ends of a part of the text: the pieces the scanner finds in
that part, laid out from its start. -/
lemma run_spans {cs a m z : List Char} {lo hi : Nat} (hcs : cs = a ++ m ++ z)
    (hlo : byteLength a = lo) (hhi : byteLength a + byteLength m = hi) :
    (spans cs lo hi).run = some ((Piece.scanFrom lo m).map (Piece.placeAll lo)) := by
  subst hlo hhi
  have hs : byteLength a ∈ boundaries cs :=
    mem_boundaries_of_parts (z := m ++ z) (by simp [hcs]) rfl
  have he : byteLength a + byteLength m ∈ boundaries cs :=
    mem_boundaries_of_parts (a := a ++ m) (z := z) hcs (by simp)
  rw [spans, Span.scanWindow_eq hs he (Nat.le_add_right _ _), hcs, charsWithin_append]
  cases Piece.scanFrom (byteLength a) m <;> rfl

end ByteRead

/-! ## The keyword of a statement -/

/-- A search of the characters of a text placed at `pos` stops at the first character that
satisfies `p`, after the bytes of those before it, or else at the end. -/
lemma find?_withOffsets (p : Char → Bool) :
    ∀ (pos : Nat) (cs : List Char),
      (((withOffsets pos cs).find? fun oc => p oc.2).map Prod.fst).getD (pos + byteLength cs) =
        pos + byteLength (cs.takeWhile fun c => !p c)
  | pos, [] => by simp [withOffsets]
  | pos, c :: cs => by
    cases hc : p c
    · -- `c` is passed over, and the search goes on after its bytes
      have := find?_withOffsets p (pos + c.utf8Size) cs
      simp only [withOffsets, List.find?_cons, hc, byteLength_cons, List.takeWhile_cons,
        Bool.not_false, if_true, Nat.add_assoc] at this ⊢
      exact this
    · simp [withOffsets, hc]

lemma findCharOffset?_getD (p : Char → Bool) (cs : List Char) :
    (findCharOffset? p cs).getD (byteLength cs) = byteLength (cs.takeWhile fun c => !p c) := by
  simpa [findCharOffset?] using find?_withOffsets p 0 cs

/-- The keyword of an at-statement is cut out where it lies, from the byte after the `@`. -/
lemma run_ofStatementBytes (t : List Char) :
    (Entry.ofStatementBytes ('@' :: t)).run = some (.ok (Entry.ofStatement ('@' :: t))) := by
  have hname : (ByteRead.cut ('@' :: t) 1 (byteLength ('@' :: t))).run = some (.ok t) :=
    ByteRead.run_cut (a := ['@']) (z := []) (by simp) rfl (by simp)
  have hkeyword : (ByteRead.cut t 0
      ((findCharOffset? Entry.endsKeyword t).getD (byteLength t))).run =
      some (.ok (Entry.atKeyword ('@' :: t))) :=
    ByteRead.run_cut (a := []) (z := t.dropWhile fun c => !Entry.endsKeyword c)
      (by simp [Entry.atKeyword]) rfl (by simp [findCharOffset?_getD, Entry.atKeyword])
  rw [Entry.ofStatementBytes, ByteRead.run_bind_ok hname, ByteRead.run_bind_ok hkeyword]
  rfl

/-! ## Readers of pieces one after another -/

/-- Reading pieces one after another, each from its first byte, up to the first error. -/
def readFrom {γ : Type} (step : Nat → Piece → Except Malformed γ) :
    Nat → List Piece → Except Malformed (List γ)
  | _, [] => .ok []
  | pos, p :: ps => do
    let e ← step pos p
    let es ← readFrom step (pos + byteLength p.text) ps
    pure (e :: es)

/-- What the reader of a media block's body makes of one of its pieces lying at `pos`. -/
def mediaRule (pos : Nat) : Piece → Except Malformed Rule
  | .block header body => .ok ⟨String.ofList header, String.ofList body⟩
  | .statement _ => .error ⟨pos, .statementInMedia⟩

lemma mediaRules_eq_readFrom :
    ∀ (pos : Nat) (ps : List Piece), mediaRules pos ps = readFrom mediaRule pos ps
  | _, [] => rfl
  | _, .statement _ :: _ => rfl
  | pos, .block header body :: ps => by
    rw [mediaRules, mediaRules_eq_readFrom, readFrom, Piece.text_block, byteLength_append,
      Nat.add_assoc]
    cases readFrom mediaRule (pos + (byteLength header + byteLength body)) ps <;> rfl

lemma readEntries_eq_readFrom :
    ∀ (pos : Nat) (ps : List Piece), readEntries pos ps = readFrom readEntry pos ps
  | _, [] => rfl
  | pos, .statement t :: ps => by
    rw [readEntries, readEntries_eq_readFrom, readFrom, readEntry, Piece.text_statement]
    -- both readers match on the trimmed statement, an at-statement or not
    cases trim t with
    | nil => rfl
    | cons c tail =>
      by_cases hc : c = '@'
      · subst hc
        cases readFrom readEntry (pos + byteLength t) ps <;> rfl
      · simp [hc, bind, Except.bind]
  | pos, .block header body :: ps => by
    rw [readEntries, readEntries_eq_readFrom, readFrom, readEntry, Piece.text_block,
      byteLength_append, Nat.add_assoc]
    split <;> cases readFrom readEntry (pos + (byteLength header + byteLength body)) ps <;>
      cases readMedia (pos + byteLength header) (trimStart header) body <;> rfl

/-- Reading the spans of pieces laid end to end from the end of a beginning `a` of the text, each
as its piece is read, reads the pieces one after another. -/
lemma run_mapM_placeAll {γ : Type} {cs : List Char} {f : Span → ByteRead γ}
    {step : Nat → Piece → Except Malformed γ}
    (hf : ∀ a p z, p.WellFormed → cs = a ++ p.text ++ z →
      (f (p.place (byteLength a))).run = some (step (byteLength a) p)) :
    ∀ (ps : List Piece) (a z : List Char), (∀ p ∈ ps, p.WellFormed) →
      cs = a ++ ps.flatMap Piece.text ++ z →
      ((Piece.placeAll (byteLength a) ps).mapM f).run = some (readFrom step (byteLength a) ps)
  | [], _, _, _, _ => rfl
  | p :: ps, a, z, hwf, hcs => by
    have hhead := hf a p (ps.flatMap Piece.text ++ z) (hwf p List.mem_cons_self) (by simp [hcs])
    have htail := run_mapM_placeAll hf ps (a ++ p.text) z
      (fun q hq => hwf q (List.mem_cons_of_mem _ hq)) (by simp [hcs])
    rw [byteLength_append] at htail
    rw [Piece.placeAll, List.mapM_cons, readFrom]
    exact ByteRead.run_bind hhead fun _ _ => ByteRead.run_bind htail fun _ _ => rfl

/-! ## Each span is read as its piece -/

/-- A piece of a media block's body is read from its span as from its characters. -/
lemma run_mediaRuleBytes {cs a z : List Char} {p : Piece} (hcs : cs = a ++ p.text ++ z) :
    (Stylesheet.mediaRuleBytes cs (p.place (byteLength a))).run =
      some (mediaRule (byteLength a) p) := by
  cases p with
  | statement t => rfl
  | block header body =>
    have hh : (ByteRead.cut cs (byteLength a) (byteLength a + byteLength header)).run =
        some (.ok header) :=
      ByteRead.run_cut (z := body ++ z) (hcs.trans (by simp)) rfl rfl
    have hb : (ByteRead.cut cs (byteLength a + byteLength header)
        (byteLength a + byteLength header + byteLength body)).run = some (.ok body) :=
      ByteRead.run_cut (a := a ++ header) (z := z) (hcs.trans (by simp)) (by simp) (by simp)
    rw [Piece.place, Stylesheet.mediaRuleBytes, ByteRead.run_bind_ok hh, ByteRead.run_bind_ok hb]
    rfl

/-- A media block is read from the offsets of its trimmed header `m` and its body as from its
characters: the window inside the braces is the body's inside. -/
lemma run_mediaBytes {cs a m b z : List Char} {start open_ : Nat}
    (hcs : cs = a ++ m ++ ('{' :: b ++ ['}']) ++ z) (hstart : byteLength a = start)
    (hopen : byteLength a + byteLength m = open_) :
    (Stylesheet.mediaBytes cs start open_
        ⟨open_, open_ + byteLength ('{' :: b ++ ['}'])⟩).run =
      some (readMedia open_ m ('{' :: b ++ ['}'])) := by
  have hclose : (ByteRead.sub (open_ + byteLength ('{' :: b ++ ['}'])) 1).run =
      some (.ok (open_ + 1 + byteLength b)) := by
    rw [ByteRead.run_sub (by simp; omega)]
    simp only [byteLength_cons, byteLength_append, utf8Size_open, utf8Size_close,
      byteLength_nil]
    congr 2
    omega
  have hspans : (ByteRead.spans cs (open_ + 1) (open_ + 1 + byteLength b)).run =
      some ((Piece.scanFrom (open_ + 1) b).map (Piece.placeAll (open_ + 1))) :=
    ByteRead.run_spans (a := a ++ m ++ ['{']) (z := '}' :: z) (hcs.trans (by simp))
      (by simp; omega) (by simp; omega)
  have hheader : (ByteRead.cut cs start open_).run = some (.ok m) :=
    ByteRead.run_cut (z := ('{' :: b ++ ['}']) ++ z) (hcs.trans (by simp)) hstart hopen
  have hbody : (ByteRead.cut cs open_ (open_ + byteLength ('{' :: b ++ ['}']))).run =
      some (.ok ('{' :: b ++ ['}'])) :=
    ByteRead.run_cut (a := a ++ m) (z := z) hcs (by rw [byteLength_append, hopen])
      (by rw [byteLength_append, hopen])
  have hinner : (('{' :: b ++ ['}']).drop 1).dropLast = b := by simp
  rw [Stylesheet.mediaBytes, ByteRead.run_bind_ok hclose, readMedia, hinner]
  cases hscan : Piece.scanFrom (open_ + 1) b with
  | error err =>
    rw [hscan] at hspans
    exact ByteRead.run_bind_error hspans _
  | ok ps =>
    -- the window's pieces are well formed and lie just inside the braces
    obtain ⟨w, hcut⟩ := Piece.scanFrom_eq_ok_iff_cut.mp hscan
    rw [hscan] at hspans
    have hrules : ((Piece.placeAll (byteLength (a ++ m ++ ['{'])) ps).mapM
        (Stylesheet.mediaRuleBytes cs)).run =
        some (readFrom mediaRule (byteLength (a ++ m ++ ['{'])) ps) :=
      run_mapM_placeAll (fun _ _ _ _ h => run_mediaRuleBytes h) ps (a ++ m ++ ['{'])
        (w ++ '}' :: z) hcut.wellFormed (by simp [hcs, hcut.eq])
    have hpos : byteLength (a ++ m ++ ['{']) = open_ + 1 := by simp; omega
    rw [hpos, ← mediaRules_eq_readFrom] at hrules
    rw [ByteRead.run_bind_ok hspans]
    exact ByteRead.run_bind hrules fun _ _ => by
      rw [ByteRead.run_bind_ok hheader, ByteRead.run_bind_ok hbody]
      rfl

/-- A well-formed top-level piece is read from its span as from its characters. -/
lemma run_entryBytes {cs a z : List Char} {p : Piece} (hp : p.WellFormed)
    (hcs : cs = a ++ p.text ++ z) :
    (Stylesheet.entryBytes cs (p.place (byteLength a))).run =
      some (readEntry (byteLength a) p) := by
  cases p with
  | statement t =>
    have hcut : (ByteRead.cut cs (byteLength a) (byteLength a + byteLength t)).run =
        some (.ok t) :=
      ByteRead.run_cut hcs rfl rfl
    rw [Piece.place, Stylesheet.entryBytes, ByteRead.run_bind_ok hcut, readEntry]
    -- the byte reader and the reader of characters match on the same trimmed statement
    dsimp only
    cases trim t with
    | nil => rfl
    | cons c tail =>
      by_cases hc : c = '@'
      · subst hc
        exact run_ofStatementBytes tail
      · simp [hc]
  | block header body =>
    obtain ⟨-, b, rfl, -⟩ := hp
    have hh : (ByteRead.cut cs (byteLength a) (byteLength a + byteLength header)).run =
        some (.ok header) :=
      ByteRead.run_cut (z := ('{' :: b ++ ['}']) ++ z) (hcs.trans (by simp)) rfl rfl
    rw [Piece.place, Stylesheet.entryBytes, ByteRead.run_bind_ok hh, readEntry]
    dsimp only
    split
    · next hquery =>
      -- a media block's header is cut where its leading blanks end
      have hsplit := List.takeWhile_append_dropWhile (p := isBlank) (l := header)
      have hlen : byteLength (header.takeWhile isBlank) + byteLength (trimStart header) =
          byteLength header := by
        rw [trimStart, ← byteLength_append, hsplit]
      have hstart : (ByteRead.sub (byteLength a + byteLength header)
          (byteLength (trimStart header))).run =
          some (.ok (byteLength (a ++ header.takeWhile isBlank))) := by
        rw [ByteRead.run_sub (by omega)]
        simp only [byteLength_append]
        congr 2
        omega
      have hmedia : (Stylesheet.mediaBytes cs (byteLength (a ++ header.takeWhile isBlank))
          (byteLength a + byteLength header)
          ⟨byteLength a + byteLength header,
            byteLength a + byteLength header + byteLength ('{' :: b ++ ['}'])⟩).run =
          some (readMedia (byteLength a + byteLength header) (trimStart header)
            ('{' :: b ++ ['}'])) :=
        run_mediaBytes (a := a ++ header.takeWhile isBlank) (z := z)
          (hcs.trans (by rw [trimStart, ← hsplit]; simp)) rfl (by simp; omega)
      rw [ByteRead.run_bind_ok hstart,
        ByteRead.run_bind hmedia (f := fun m => pure (Entry.media m))
          (g := fun m => .ok (Entry.media m)) fun _ _ => rfl]
      cases readMedia (byteLength a + byteLength header) (trimStart header)
        ('{' :: b ++ ['}']) <;> rfl
    · have hb : (ByteRead.cut cs (byteLength a + byteLength header)
          (byteLength a + byteLength header + byteLength ('{' :: b ++ ['}']))).run =
          some (.ok ('{' :: b ++ ['}'])) :=
        ByteRead.run_cut (a := a ++ header) (z := z) (hcs.trans (by simp)) (by simp) (by simp)
      rw [ByteRead.run_bind_ok hb]
      rfl

/-- Reading comment-free stylesheet text by byte offsets never faults, and gives what reading its
characters gives. -/
theorem extractBytes_eq_parseChars (cs : List Char) :
    (Stylesheet.extractBytes cs).run = some (Stylesheet.parseChars cs) := by
  have hspans : (ByteRead.spans cs 0 (byteLength cs)).run =
      some ((Piece.scanFrom 0 cs).map (Piece.placeAll 0)) :=
    ByteRead.run_spans (a := []) (z := []) (by simp) rfl (by simp)
  rw [Stylesheet.extractBytes, Stylesheet.parseChars, Piece.scan]
  cases hscan : Piece.scanFrom 0 cs with
  | error m =>
    rw [hscan] at hspans
    exact ByteRead.run_bind_error hspans _
  | ok ps =>
    obtain ⟨w, hcut⟩ := Piece.scanFrom_eq_ok_iff_cut.mp hscan
    rw [hscan] at hspans
    have hentries : ((Piece.placeAll (byteLength []) ps).mapM (Stylesheet.entryBytes cs)).run =
        some (readFrom readEntry (byteLength []) ps) :=
      run_mapM_placeAll (fun _ _ _ hp h => run_entryBytes hp h) ps [] w hcut.wellFormed
        (by simp [hcut.eq])
    rw [byteLength_nil, ← readEntries_eq_readFrom] at hentries
    rw [ByteRead.run_bind_ok hspans]
    exact ByteRead.run_bind hentries fun _ _ => rfl

/-- No cut the splitter makes falls inside a character, and no brace counter goes below zero.
The comment search and deletion by byte offsets never fail, and agree with `find` and `strip`;
reading a stylesheet by byte offsets never faults, and agrees with reading its characters. A
reversed window has no spans; a window between two character boundaries, such as the whole text,
is never refused, and its spans lie on boundaries at every offset the sheet parser cuts at,
among them the ends of the window inside a block's braces. An at-keyword is cut on boundaries,
and a block's brace counter stays positive up to its matching `}`. -/
theorem cuts_on_char_boundaries :
    (∀ cs, Comment.findBytes? cs = some (Comment.find cs)) ∧
    (∀ cs, Comment.stripBytes? cs = some (Comment.strip cs)) ∧
    (∀ cs, (Stylesheet.extractBytes cs).run = some (Stylesheet.parseChars cs)) ∧
    (∀ (cs : List Char) (s e : Nat), e ≤ s → Span.scanWindow cs s e = .ok []) ∧
    (∀ (cs : List Char) (s e : Nat), s ∈ boundaries cs → e ∈ boundaries cs →
      (∀ f, Span.scanWindow cs s e ≠ .error (.window f)) ∧
      ∀ spans, Span.scanWindow cs s e = .ok spans → ∀ sp ∈ spans, sp.OnBoundaries cs) ∧
    (∀ cs : List Char, 0 ∈ boundaries cs ∧ byteLength cs ∈ boundaries cs) ∧
    (∀ t : List Char, 1 ∈ boundaries ('@' :: t) ∧
      1 + byteLength (Entry.atKeyword ('@' :: t)) ∈ boundaries ('@' :: t)) ∧
    (∀ rest, (∀ inner after, Piece.closeBlock 0 rest = some (inner, after) →
        ∃ b, inner = b ++ ['}'] ∧ ∀ p, p <+: b → 0 < 1 + braceDepth p) ∧
      (Piece.closeBlock 0 rest = none → ∀ p, p <+: rest → 0 < 1 + braceDepth p)) :=
  ⟨Comment.findBytes?_eq_find, Comment.stripBytes?_eq_strip, extractBytes_eq_parseChars,
    fun cs _ _ h => Span.scanWindow_of_le cs h,
    fun _ _ _ hs he =>
      ⟨Span.scanWindow_ne_window hs he, fun _ h => Span.onBoundaries_of_scanWindow hs he h⟩,
    fun cs => ⟨mem_boundaries_of_parts (a := []) (z := cs) rfl rfl,
      mem_boundaries_of_parts (z := []) (by simp) rfl⟩,
    atKeyword_on_boundaries, depth_pos_before_close⟩

end StyleSplit
