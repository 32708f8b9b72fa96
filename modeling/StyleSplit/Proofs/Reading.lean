import StyleSplit.Proofs.Scan
import StyleSplit.Sheet.Parse

/-!
# The text a stylesheet is read from

`Stylesheet.parse` accepts comment-free text in two steps: the scanner cuts it into top-level
pieces (`Proofs/Scan.lean` says exactly which texts it accepts), then each piece becomes an entry
of the stylesheet. This module describes the accepted texts by a grammar of *items* that says
nothing of the reader, and proves that the reader accepts exactly the texts the grammar derives,
derives each in one way, and builds the stylesheet from the items in order.

An item (`Item`) is one of

* a statement `u @t;`, where `u` is blank and `t` has no marks;
* a plain rule `h {b}`, where `h` has no marks, `b` is balanced, and `h` without its leading
  blanks fails the `@media` test;
* a media block `u m { z₁ … zₖ v }`, where `u` and `v` are blank, `m` has no marks and passes the
  `@media` test (`MediaQuery`), and each `zⱼ` is a block `hⱼ {bⱼ}` with `hⱼ` free of marks and `bⱼ`
  balanced.

The proof follows the reader's structure. `readEntry` is the reader's treatment of one piece, and
`readEntries_cons_eq_ok` peels one piece off a run of the reader. `readEntry_eq_ok_iff` says which
pieces are read and into what: exactly the pieces of items (`Item.piece`), into the items'
entries (`Item.entry`). `Item.piece_injective` turns the uniqueness of the scanner's
decomposition into uniqueness of the items.
-/

namespace StyleSplit

open StyleSplit.Text

/-! ## Blanks and the `@media` test -/

section Text

lemma trimStart_blank_append {u cs : List Char} (hu : ∀ c ∈ u, isBlank c = true) :
    trimStart (u ++ cs) = trimStart cs :=
  List.dropWhile_append_of_pos hu

/-- The blanks in front of a text that goes on with a character that is not blank. -/
lemma takeWhile_isBlank_blank_append {u cs : List Char} {c : Char}
    (hu : ∀ x ∈ u, isBlank x = true) (hc : isBlank c = false) :
    (u ++ c :: cs).takeWhile isBlank = u := by
  rw [List.takeWhile_append_of_pos hu]
  simp [hc]

/-- Trimming a statement ending in `;` trims the text before it, from the front only. -/
lemma trim_append_semicolon (h : List Char) : trim (h ++ [';']) = trimStart h ++ [';'] := by
  have hfront : trimStart (h ++ [';']) = trimStart h ++ [';'] := by
    unfold trimStart
    rw [List.dropWhile_append]
    split
    · next hnil =>
      rw [List.isEmpty_iff.mp hnil]
      simp [show isBlank ';' = false by decide]
    · rfl
  have hback : trimEnd (trimStart h ++ [';']) = trimStart h ++ [';'] := by
    simp [trimEnd, show isBlank ';' = false by decide]
  rw [trim, hfront, hback]

/-- ASCII lowering leaves `@` only to `@`. -/
lemma eq_of_toLower_eq_at {c : Char} (h : c.toLower = '@') : c = '@' := by
  unfold Char.toLower at h
  split at h
  · next hc =>
    -- an upper-case letter is lowered to a letter, never to `@`
    have h1 := congrArg Char.toNat h
    simp only [Char.toNat, UInt32.toNat_add] at h1
    have h2 : 65 ≤ c.val.toNat := by simpa [UInt32.le_iff_toNat_le] using hc.1
    have h3 : c.val.toNat ≤ 90 := by simpa [UInt32.le_iff_toNat_le] using hc.2
    simp at h1
    have h4 : c.toNat = c.val.toNat := rfl
    omega
  · exact h

end Text

/-- The `@media` test on a header without its leading blanks: six characters that spell `@media`
in any ASCII case, then nothing, an ASCII blank or `(`. Six such characters are ASCII, so they are
the header's first six bytes, and the character after them is an ASCII blank or `(` exactly when
the byte after them is. -/
def MediaQuery (m : List Char) : Prop :=
  ∃ k r, m = k ++ r ∧ k.map Char.toLower = "@media".toList ∧
    (r = [] ∨ ∃ c r', r = c :: r' ∧ (isAsciiBlank c = true ∨ c = '('))

lemma isMediaHeader_iff {m : List Char} : isMediaHeader m = true ↔ MediaQuery m := by
  unfold isMediaHeader
  simp only [Bool.and_eq_true, beq_iff_eq]
  constructor
  · rintro ⟨hk, hr⟩
    refine ⟨m.take 6, m.drop 6, (List.take_append_drop 6 m).symm, hk, ?_⟩
    revert hr
    cases m.drop 6 with
    | nil => simp
    | cons c r' => simp
  · rintro ⟨k, r, rfl, hk, hr⟩
    have hlen : k.length = 6 := by simpa using congrArg List.length hk
    refine ⟨by simpa [List.take_append, hlen] using hk, ?_⟩
    rw [List.drop_append, hlen, List.drop_eq_nil_of_le (by omega), Nat.sub_self, List.drop_zero,
      List.nil_append]
    rcases hr with rfl | ⟨c, r', rfl, hc⟩
    · rfl
    · simpa using hc

/-- A media query starts with `@`, which is not blank. -/
lemma MediaQuery.eq_cons {m : List Char} (h : MediaQuery m) : ∃ t, m = '@' :: t := by
  obtain ⟨k, r, rfl, hk, -⟩ := h
  cases k with
  | nil => simp at hk
  | cons c k =>
    simp only [List.map_cons] at hk
    have hc : c.toLower = '@' := (List.cons.inj hk).1
    exact ⟨k ++ r, by simp [eq_of_toLower_eq_at hc]⟩

lemma MediaQuery.trimStart_blank_append {u m : List Char} (hu : ∀ c ∈ u, isBlank c = true)
    (hm : MediaQuery m) : trimStart (u ++ m) = m := by
  obtain ⟨t, rfl⟩ := hm.eq_cons
  rw [StyleSplit.trimStart_blank_append hu, trimStart_cons_of_not_isBlank (by decide)]

/-! ## Reading one piece -/

/-- What the reader makes of one top-level piece lying at `pos`: a statement must be an at-rule
once trimmed; a block is a media block when its header passes the `@media` test, and a plain rule
otherwise. -/
def readEntry (pos : Nat) : Piece → Except Malformed Entry
  | .statement t =>
    match trim t with
    | stmt@('@' :: _) => .ok (Entry.ofStatement stmt)
    | _ => .error ⟨pos, .declarationOutsideBlock⟩
  | .block header body =>
    if isMediaHeader (trimStart header) then
      (readMedia (pos + byteLength header) (trimStart header) body).map .media
    else .ok (.rule ⟨String.ofList header, String.ofList body⟩)

/-- A run of the reader succeeds on a first piece and the rest exactly when both are read. -/
lemma readEntries_cons_eq_ok {pos : Nat} {p : Piece} {ps : List Piece} {es : List Entry} :
    readEntries pos (p :: ps) = .ok es ↔
      ∃ e es', readEntry pos p = .ok e ∧ readEntries (pos + byteLength p.text) ps = .ok es' ∧
        es = e :: es' := by
  cases p with
  | statement t =>
    simp only [readEntries, readEntry, Piece.text_statement]
    cases htrim : trim t with
    | nil => simp
    | cons c tail =>
      by_cases hc : c = '@'
      · subst hc
        cases readEntries (pos + byteLength t) ps <;> simp [Except.map, eq_comm]
      · simp [hc]
  | block header body =>
    simp only [readEntries, readEntry, Piece.text_block, byteLength_append, Nat.add_assoc]
    -- the media branch reads the block before the rest, the rule branch only the rest
    cases readEntries (pos + (byteLength header + byteLength body)) ps <;> split <;>
      cases readMedia (pos + byteLength header) (trimStart header) body <;>
      simp [bind, Except.bind, pure, Except.pure, Except.map, eq_comm]

/-- A block of a media body, as a header and the inside of its braces. -/
def blockPiece (z : List Char × List Char) : Piece :=
  .block z.1 ('{' :: z.2 ++ ['}'])

/-- The rule a block of a media body becomes. -/
def blockRule (z : List Char × List Char) : Rule :=
  ⟨String.ofList z.1, String.ofList ('{' :: z.2 ++ ['}'])⟩

/-- The text of a block of a media body. -/
def blockText (z : List Char × List Char) : List Char :=
  z.1 ++ '{' :: z.2 ++ ['}']

@[simp] lemma text_blockPiece (z : List Char × List Char) : (blockPiece z).text = blockText z := by
  simp [blockPiece, blockText]

lemma flatMap_text_map_blockPiece (zs : List (List Char × List Char)) :
    (zs.map blockPiece).flatMap Piece.text = zs.flatMap blockText := by
  simp [List.flatMap_map]

lemma wellFormed_blockPiece {z : List Char × List Char} (hz : (∀ c ∈ z.1, isMark c = false) ∧
    Balanced z.2) : (blockPiece z).WellFormed :=
  ⟨hz.1, z.2, rfl, hz.2⟩

lemma balanced_flatMap_blockText {zs : List (List Char × List Char)}
    (hzs : ∀ z ∈ zs, (∀ c ∈ z.1, isMark c = false) ∧ Balanced z.2) :
    Balanced (zs.flatMap blockText) := by
  induction zs with
  | nil => exact balanced_of_markFree (by simp)
  | cons z zs ih =>
    rw [List.flatMap_cons]
    have hz := hzs z (by simp)
    exact (balanced_block hz.1 hz.2).append (ih fun z' hz' => hzs z' (by simp [hz']))

/-- The pieces of a media body are read as rules exactly when they are all blocks. -/
lemma mediaRules_eq_ok_iff {pos : Nat} {ps : List Piece} (hps : ∀ p ∈ ps, p.WellFormed)
    {rules : List Rule} :
    mediaRules pos ps = .ok rules ↔
      ∃ zs : List (List Char × List Char), ps = zs.map blockPiece ∧
        (∀ z ∈ zs, (∀ c ∈ z.1, isMark c = false) ∧ Balanced z.2) ∧ rules = zs.map blockRule := by
  induction ps generalizing pos rules with
  | nil =>
    simp only [mediaRules]
    constructor
    · rintro ⟨⟩
      exact ⟨[], rfl, by simp, rfl⟩
    · rintro ⟨zs, hzs, -, rfl⟩
      cases zs with
      | nil => rfl
      | cons z zs => simp at hzs
  | cons p ps ih =>
    have hrest : ∀ q ∈ ps, q.WellFormed := fun q hq => hps q (by simp [hq])
    cases p with
    | statement t =>
      constructor
      · simp [mediaRules]
      · rintro ⟨zs, hzs, -, -⟩
        cases zs <;> simp [blockPiece] at hzs
    | block header body =>
      obtain ⟨hh, b, rfl, hb⟩ := hps (.block header body) (by simp)
      simp only [mediaRules, except_map_eq_ok]
      constructor
      · rintro ⟨rules', hrules', rfl⟩
        obtain ⟨zs, rfl, hzs, rfl⟩ := (ih hrest).mp hrules'
        refine ⟨(header, b) :: zs, rfl, ?_, rfl⟩
        intro z hz
        rcases List.mem_cons.mp hz with rfl | hz
        · exact ⟨hh, hb⟩
        · exact hzs z hz
      · rintro ⟨zs, hzs, hwf, rfl⟩
        cases zs with
        | nil => simp at hzs
        | cons z zs =>
          simp only [List.map_cons, List.cons.injEq] at hzs
          obtain ⟨hz, rfl⟩ := hzs
          refine ⟨zs.map blockRule, (ih hrest).mpr ⟨zs, rfl, fun z' hz' => hwf z' (by simp [hz']),
            rfl⟩, ?_⟩
          simp only [blockPiece, Piece.block.injEq] at hz
          obtain ⟨rfl, hbody⟩ := hz
          simp [blockRule, hbody]

/-- The body of a media block is read when its inside is blocks followed by blanks; the block keeps
its header and body as written, and its rules are those blocks. -/
lemma readMedia_eq_ok_iff {o : Nat} {m b : List Char} {mb : MediaBlock} :
    readMedia o m ('{' :: b ++ ['}']) = .ok mb ↔
      ∃ (zs : List (List Char × List Char)) (v : List Char),
        (∀ z ∈ zs, (∀ c ∈ z.1, isMark c = false) ∧ Balanced z.2) ∧
        (∀ c ∈ v, isBlank c = true) ∧ b = zs.flatMap blockText ++ v ∧
        mb = MediaBlock.ofParts (String.ofList m) (String.ofList ('{' :: b ++ ['}']))
          (zs.map blockRule) := by
  have hinner : (('{' :: b ++ ['}']).drop 1).dropLast = b := by simp
  simp only [readMedia, hinner, bind, pure]
  rw [except_bind_eq_ok]
  constructor
  · rintro ⟨ps, hscan, hrules⟩
    obtain ⟨hwf, v, hv, rfl⟩ := Piece.scanFrom_eq_ok hscan
    rw [except_bind_eq_ok] at hrules
    obtain ⟨rules, hrules, hmb⟩ := hrules
    obtain ⟨zs, rfl, hzs, rfl⟩ := (mediaRules_eq_ok_iff hwf).mp hrules
    refine ⟨zs, v, hzs, hv, by rw [flatMap_text_map_blockPiece], ?_⟩
    cases hmb
    rw [flatMap_text_map_blockPiece]
  · rintro ⟨zs, v, hzs, hv, rfl, rfl⟩
    have hwf : ∀ p ∈ zs.map blockPiece, p.WellFormed := by
      simp only [List.mem_map]
      rintro p ⟨z, hz, rfl⟩
      exact wellFormed_blockPiece (hzs z hz)
    refine ⟨zs.map blockPiece, ?_, ?_⟩
    · exact Piece.scanFrom_eq_ok_iff.mpr ⟨hwf, v, hv, by rw [flatMap_text_map_blockPiece]⟩
    · rw [except_bind_eq_ok]
      exact ⟨zs.map blockRule, (mediaRules_eq_ok_iff hwf).mpr ⟨zs, rfl, hzs, rfl⟩, rfl⟩

/-! ## The grammar of accepted text -/

/-- A top-level item of accepted stylesheet text. -/
inductive Item
  /-- `u @t;`: blanks, then an at-statement. -/
  | statement (u t : List Char)
  /-- `h {b}`: a plain rule. -/
  | rule (h b : List Char)
  /-- `u m { z₁ … zₖ v }`: blanks, a media query, and a body of blocks `hⱼ {bⱼ}` then blanks. -/
  | media (u m : List Char) (zs : List (List Char × List Char)) (v : List Char)
  deriving DecidableEq

namespace Item

/-- The text of an item. -/
def text : Item → List Char
  | statement u t => u ++ '@' :: t ++ [';']
  | rule h b => h ++ '{' :: b ++ ['}']
  | media u m zs v => u ++ m ++ '{' :: (zs.flatMap blockText ++ v) ++ ['}']

/-- The piece the scanner cuts an item's text into. -/
def piece : Item → Piece
  | statement u t => .statement (u ++ '@' :: t ++ [';'])
  | rule h b => .block h ('{' :: b ++ ['}'])
  | media u m zs v => .block (u ++ m) ('{' :: (zs.flatMap blockText ++ v) ++ ['}'])

/-- The conditions on the parts of an item. -/
def WellFormed : Item → Prop
  | statement u t => (∀ c ∈ u, isBlank c = true) ∧ ∀ c ∈ t, isMark c = false
  | rule h b => (∀ c ∈ h, isMark c = false) ∧ Balanced b ∧ ¬MediaQuery (trimStart h)
  | media u m zs v =>
    (∀ c ∈ u, isBlank c = true) ∧ (∀ c ∈ m, isMark c = false) ∧ MediaQuery m ∧
      (∀ z ∈ zs, (∀ c ∈ z.1, isMark c = false) ∧ Balanced z.2) ∧ ∀ c ∈ v, isBlank c = true

/-- The entry of a stylesheet an item stands for: a statement trimmed of its leading blanks and
filed by its keyword; a rule with its header and body as written; a media block with its header
from the `@` on, its body as written, and one rule for each block of its body. -/
def entry : Item → Entry
  | statement _ t => Entry.ofStatement ('@' :: t ++ [';'])
  | rule h b => .rule ⟨String.ofList h, String.ofList ('{' :: b ++ ['}'])⟩
  | media _ m zs v =>
    .media (MediaBlock.ofParts (String.ofList m)
      (String.ofList ('{' :: (zs.flatMap blockText ++ v) ++ ['}'])) (zs.map blockRule))

@[simp] lemma text_piece (x : Item) : x.piece.text = x.text := by
  cases x <;> simp [piece, text]

lemma WellFormed.piece {x : Item} (hx : x.WellFormed) : x.piece.WellFormed := by
  cases x with
  | statement u t =>
    obtain ⟨hu, ht⟩ := hx
    refine ⟨u ++ '@' :: t, by simp, fun c hc => ?_⟩
    rcases List.mem_append.mp hc with hc | hc
    · exact isMark_eq_false_of_isBlank (hu c hc)
    · rcases List.mem_cons.mp hc with rfl | hc
      · rfl
      · exact ht c hc
  | rule h b => exact ⟨hx.1, b, rfl, hx.2.1⟩
  | media u m zs v =>
    obtain ⟨hu, hm, -, hzs, hv⟩ := hx
    refine ⟨fun c hc => ?_, _, rfl, ?_⟩
    · rcases List.mem_append.mp hc with hc | hc
      · exact isMark_eq_false_of_isBlank (hu c hc)
      · exact hm c hc
    · exact (balanced_flatMap_blockText hzs).append
        (balanced_of_markFree fun c hc => isMark_eq_false_of_isBlank (hv c hc))

/-- An at-statement after blanks, trimmed, loses only the blanks. -/
lemma trimStart_blank_append_at {u t : List Char} (hu : ∀ c ∈ u, isBlank c = true) :
    trimStart (u ++ '@' :: t) = '@' :: t := by
  rw [trimStart_blank_append hu, trimStart_cons_of_not_isBlank (by decide)]

/-- A statement is read exactly when it is the piece of a statement item. -/
lemma readEntry_statement_eq_ok_iff {pos : Nat} {h : List Char} (hh : ∀ c ∈ h, isMark c = false)
    {e : Entry} :
    readEntry pos (.statement (h ++ [';'])) = .ok e ↔
      ∃ x : Item, x.WellFormed ∧ x.piece = .statement (h ++ [';']) ∧ x.entry = e := by
  simp only [readEntry, trim_append_semicolon]
  constructor
  · intro hread
    cases htrim : trimStart h with
    | nil => simp [htrim] at hread
    | cons c t =>
      rw [htrim] at hread
      by_cases hc : c = '@'
      · subst hc
        -- the statement is its leading blanks, then the trimmed text
        have hsplit : h = h.takeWhile isBlank ++ '@' :: t := by
          rw [← htrim]
          exact (List.takeWhile_append_dropWhile).symm
        have ht : ∀ x ∈ t, isMark x = false := fun x hx =>
          hh x (by rw [hsplit]; simp [hx])
        refine ⟨.statement (h.takeWhile isBlank) t,
          ⟨fun x hx => List.mem_takeWhile_imp hx, ht⟩, ?_, by simpa [entry] using hread⟩
        simp only [piece]
        conv => rhs; rw [hsplit]
      · simp [hc] at hread
  · rintro ⟨x, hx, hpx, rfl⟩
    cases x with
    | statement u t =>
      simp only [piece, Piece.statement.injEq] at hpx
      have hh' : h = u ++ '@' :: t :=
        List.append_cancel_right (by simpa using hpx.symm : h ++ [';'] = (u ++ '@' :: t) ++ [';'])
      rw [hh', trimStart_blank_append_at hx.1]
      rfl
    | rule => simp [piece] at hpx
    | media => simp [piece] at hpx

lemma body_inj {b b' : List Char} : '{' :: b ++ ['}'] = '{' :: b' ++ ['}'] ↔ b = b' := by
  simp

/-- A block is read exactly when it is the piece of a rule or of a media block, which its header
decides by the `@media` test. -/
lemma readEntry_block_eq_ok_iff {pos : Nat} {header b : List Char}
    (hh : ∀ c ∈ header, isMark c = false) (hb : Balanced b) {e : Entry} :
    readEntry pos (.block header ('{' :: b ++ ['}'])) = .ok e ↔
      ∃ x : Item, x.WellFormed ∧ x.piece = .block header ('{' :: b ++ ['}']) ∧ x.entry = e := by
  simp only [readEntry]
  split
  · next hmedia =>
    have hq := isMediaHeader_iff.mp hmedia
    rw [except_map_eq_ok]
    constructor
    · rintro ⟨mb, hmb, rfl⟩
      obtain ⟨zs, v, hzs, hv, rfl, rfl⟩ := readMedia_eq_ok_iff.mp hmb
      -- the header is its leading blanks, then the media query
      have hsplit : header.takeWhile isBlank ++ trimStart header = header :=
        List.takeWhile_append_dropWhile
      refine ⟨.media (header.takeWhile isBlank) (trimStart header) zs v,
        ⟨fun c hc => List.mem_takeWhile_imp hc,
          fun c hc => hh c ((trimStart_suffix header).subset hc), hq, hzs, hv⟩, ?_, rfl⟩
      simp only [piece, hsplit]
    · rintro ⟨x, hx, hpx, rfl⟩
      cases x with
      | statement => simp [piece] at hpx
      | rule h' b' =>
        simp only [piece, Piece.block.injEq] at hpx
        obtain ⟨rfl, -⟩ := hpx
        exact absurd hq hx.2.2
      | media u m zs v =>
        simp only [piece, Piece.block.injEq, body_inj] at hpx
        obtain ⟨rfl, rfl⟩ := hpx
        obtain ⟨hu, -, hm, hzs, hv⟩ := hx
        rw [MediaQuery.trimStart_blank_append hu hm]
        exact ⟨_, readMedia_eq_ok_iff.mpr ⟨zs, v, hzs, hv, rfl, rfl⟩, rfl⟩
  · next hnot =>
    constructor
    · rintro ⟨⟩
      exact ⟨.rule header b, ⟨hh, hb, fun hq => hnot (isMediaHeader_iff.mpr hq)⟩, rfl, rfl⟩
    · rintro ⟨x, hx, hpx, rfl⟩
      cases x with
      | statement => simp [piece] at hpx
      | rule h' b' =>
        simp only [piece, Piece.block.injEq, body_inj] at hpx
        obtain ⟨rfl, rfl⟩ := hpx
        rfl
      | media u m zs v =>
        simp only [piece, Piece.block.injEq] at hpx
        obtain ⟨rfl, -⟩ := hpx
        obtain ⟨hu, -, hm, -⟩ := hx
        exact absurd (isMediaHeader_iff.mpr (by rwa [MediaQuery.trimStart_blank_append hu hm])) hnot

/-- The pieces the reader turns into entries are exactly the pieces of items, and it turns each
into its item's entry. -/
lemma readEntry_eq_ok_iff {pos : Nat} {p : Piece} (hp : p.WellFormed) {e : Entry} :
    readEntry pos p = .ok e ↔ ∃ x : Item, x.WellFormed ∧ x.piece = p ∧ x.entry = e := by
  cases p with
  | statement t =>
    obtain ⟨h, rfl, hh⟩ := hp
    exact readEntry_statement_eq_ok_iff hh
  | block header body =>
    obtain ⟨hh, b, rfl, hb⟩ := hp
    exact readEntry_block_eq_ok_iff hh hb

end Item

/-- A run of the reader over well-formed pieces succeeds exactly when they are the pieces of
items, and returns the items' entries in order. -/
lemma readEntries_eq_ok_iff {pos : Nat} {ps : List Piece} (hps : ∀ p ∈ ps, p.WellFormed)
    {es : List Entry} :
    readEntries pos ps = .ok es ↔
      ∃ xs : List Item, (∀ x ∈ xs, x.WellFormed) ∧ xs.map Item.piece = ps ∧
        es = xs.map Item.entry := by
  induction ps generalizing pos es with
  | nil =>
    simp only [readEntries]
    constructor
    · rintro ⟨⟩
      exact ⟨[], by simp, rfl, rfl⟩
    · rintro ⟨xs, -, hxs, rfl⟩
      cases xs with
      | nil => rfl
      | cons => simp at hxs
  | cons p ps ih =>
    have hrest : ∀ q ∈ ps, q.WellFormed := fun q hq => hps q (by simp [hq])
    rw [readEntries_cons_eq_ok]
    constructor
    · rintro ⟨e, es', he, hes', rfl⟩
      obtain ⟨x, hx, rfl, rfl⟩ := (Item.readEntry_eq_ok_iff (hps p (by simp))).mp he
      obtain ⟨xs, hxs, rfl, rfl⟩ := (ih hrest).mp hes'
      refine ⟨x :: xs, fun y hy => ?_, rfl, rfl⟩
      rcases List.mem_cons.mp hy with rfl | hy
      · exact hx
      · exact hxs y hy
    · rintro ⟨xs, hxs, hmap, rfl⟩
      cases xs with
      | nil => simp at hmap
      | cons x xs =>
        simp only [List.map_cons, List.cons.injEq] at hmap
        obtain ⟨rfl, rfl⟩ := hmap
        exact ⟨x.entry, xs.map Item.entry,
          (Item.readEntry_eq_ok_iff (hps _ (by simp))).mpr ⟨x, hxs x (by simp), rfl, rfl⟩,
          (ih hrest).mpr ⟨xs, fun y hy => hxs y (by simp [hy]), rfl, rfl⟩, rfl⟩

/-! ## Accepted texts -/

/-- Comment-free text `cs` is the texts of the well-formed items `xs`, in order, followed by the
blanks `w`. -/
def Decomposes (cs : List Char) (xs : List Item) (w : List Char) : Prop :=
  (∀ x ∈ xs, x.WellFormed) ∧ (∀ c ∈ w, isBlank c = true) ∧ cs = xs.flatMap Item.text ++ w

lemma flatMap_text_map_piece (xs : List Item) :
    (xs.map Item.piece).flatMap Piece.text = xs.flatMap Item.text := by
  simp [List.flatMap_map]

/-- The reader accepts comment-free text exactly when it decomposes into items, and builds the
stylesheet from the items' entries in order. -/
lemma parseChars_eq_ok_iff {cs : List Char} {sheet : Stylesheet} :
    Stylesheet.parseChars cs = .ok sheet ↔
      ∃ xs w, Decomposes cs xs w ∧ sheet = Stylesheet.ofEntries (xs.map Item.entry) := by
  simp only [Stylesheet.parseChars, Piece.scan, bind, pure]
  rw [except_bind_eq_ok]
  constructor
  · rintro ⟨ps, hscan, hread⟩
    obtain ⟨hwf, w, hw, rfl⟩ := Piece.scanFrom_eq_ok hscan
    rw [except_bind_eq_ok] at hread
    obtain ⟨es, hes, hsheet⟩ := hread
    obtain ⟨xs, hxs, rfl, rfl⟩ := (readEntries_eq_ok_iff hwf).mp hes
    cases hsheet
    exact ⟨xs, w, ⟨hxs, hw, by rw [flatMap_text_map_piece]⟩, rfl⟩
  · rintro ⟨xs, w, ⟨hxs, hw, rfl⟩, rfl⟩
    have hwf : ∀ p ∈ xs.map Item.piece, p.WellFormed := by
      simp only [List.mem_map]
      rintro p ⟨x, hx, rfl⟩
      exact (hxs x hx).piece
    refine ⟨xs.map Item.piece, Piece.scanFrom_eq_ok_iff.mpr ⟨hwf, w, hw, ?_⟩, ?_⟩
    · rw [flatMap_text_map_piece]
    · rw [except_bind_eq_ok]
      exact ⟨_, (readEntries_eq_ok_iff hwf).mpr ⟨xs, hxs, rfl, rfl⟩, rfl⟩

namespace Item

lemma blockPiece_injective : Function.Injective blockPiece := by
  rintro ⟨h, b⟩ ⟨h', b'⟩ hz
  simp only [blockPiece, Piece.block.injEq, body_inj] at hz
  rw [hz.1, hz.2]

/-- A rule's header fails the `@media` test that a media block's header passes. -/
lemma rule_header_ne_media {h b u m : List Char} {zs : List (List Char × List Char)}
    {v : List Char} (hr : (rule h b).WellFormed) (hm : (media u m zs v).WellFormed) :
    h ≠ u ++ m := by
  rintro rfl
  exact hr.2.2 (by rw [MediaQuery.trimStart_blank_append hm.1 hm.2.2.1]; exact hm.2.2.1)

/-- The blanks before an `@`, which is not blank, are determined by the text. -/
lemma blank_append_at_inj {u u' t t' : List Char} (hu : ∀ c ∈ u, isBlank c = true)
    (hu' : ∀ c ∈ u', isBlank c = true) (h : u ++ '@' :: t = u' ++ '@' :: t') :
    u = u' ∧ t = t' := by
  have hblank := congrArg (List.takeWhile isBlank) h
  rw [takeWhile_isBlank_blank_append hu (by decide),
    takeWhile_isBlank_blank_append hu' (by decide)] at hblank
  subst hblank
  exact ⟨rfl, (List.cons.inj (List.append_cancel_left h)).2⟩

/-- Well-formed items with the same piece are the same item. -/
lemma piece_injective {x y : Item} (hx : x.WellFormed) (hy : y.WellFormed)
    (h : x.piece = y.piece) : x = y := by
  cases x with
  | statement u t =>
    cases y with
    | statement u' t' =>
      simp only [piece, Piece.statement.injEq] at h
      obtain ⟨rfl, rfl⟩ := blank_append_at_inj hx.1 hy.1
        (List.append_cancel_right (by simpa using h))
      rfl
    | rule => simp [piece] at h
    | media => simp [piece] at h
  | rule hd b =>
    cases y with
    | statement => simp [piece] at h
    | rule hd' b' =>
      simp only [piece, Piece.block.injEq, body_inj] at h
      rw [h.1, h.2]
    | media u m zs v =>
      simp only [piece, Piece.block.injEq] at h
      exact absurd h.1 (rule_header_ne_media hx hy)
  | media u m zs v =>
    cases y with
    | statement => simp [piece] at h
    | rule hd b =>
      simp only [piece, Piece.block.injEq] at h
      exact absurd h.1.symm (rule_header_ne_media hy hx)
    | media u' m' zs' v' =>
      simp only [piece, Piece.block.injEq, body_inj] at h
      obtain ⟨hhead, hbody⟩ := h
      -- the headers: the same blanks, then the same query
      obtain ⟨t, rfl⟩ := hx.2.2.1.eq_cons
      obtain ⟨t', rfl⟩ := hy.2.2.1.eq_cons
      obtain ⟨rfl, rfl⟩ := blank_append_at_inj hx.1 hy.1 hhead
      -- the bodies: the scanner reads both as the same blocks
      rw [← flatMap_text_map_blockPiece, ← flatMap_text_map_blockPiece] at hbody
      have hwf : ∀ (ws : List (List Char × List Char)),
          (∀ z ∈ ws, (∀ c ∈ z.1, isMark c = false) ∧ Balanced z.2) →
            ∀ p ∈ ws.map blockPiece, p.WellFormed := by
        intro ws hws p hp
        obtain ⟨z, hz, rfl⟩ := List.mem_map.mp hp
        exact wellFormed_blockPiece (hws z hz)
      obtain ⟨hzs, rfl⟩ := Piece.eq_of_flatMap_text_append (hwf zs hx.2.2.2.1)
        (hwf zs' hy.2.2.2.1) hx.2.2.2.2 hy.2.2.2.2 hbody
      rw [(List.map_inj_right fun a b hab => blockPiece_injective hab).mp hzs]

lemma map_piece_injective {xs ys : List Item} (hxs : ∀ x ∈ xs, x.WellFormed)
    (hys : ∀ y ∈ ys, y.WellFormed) (h : xs.map piece = ys.map piece) : xs = ys := by
  induction xs generalizing ys with
  | nil => simpa using h.symm
  | cons x xs ih =>
    cases ys with
    | nil => simp at h
    | cons y ys =>
      simp only [List.map_cons, List.cons.injEq] at h
      rw [piece_injective (hxs x (by simp)) (hys y (by simp)) h.1,
        ih (fun x' hx' => hxs x' (by simp [hx'])) (fun y' hy' => hys y' (by simp [hy'])) h.2]

end Item

/-- A text decomposes into items in at most one way. -/
lemma Decomposes.unique {cs : List Char} {xs ys : List Item} {w w' : List Char}
    (h1 : Decomposes cs xs w) (h2 : Decomposes cs ys w') : xs = ys ∧ w = w' := by
  obtain ⟨hxs, hw, hcs⟩ := h1
  obtain ⟨hys, hw', hcs'⟩ := h2
  have hwf : ∀ (zs : List Item), (∀ z ∈ zs, z.WellFormed) → ∀ p ∈ zs.map Item.piece,
      p.WellFormed := by
    intro zs hzs p hp
    obtain ⟨z, hz, rfl⟩ := List.mem_map.mp hp
    exact (hzs z hz).piece
  rw [← flatMap_text_map_piece] at hcs hcs'
  obtain ⟨hpieces, rfl⟩ := Piece.eq_of_flatMap_text_append (hwf xs hxs) (hwf ys hys) hw hw'
    (hcs.symm.trans hcs')
  exact ⟨Item.map_piece_injective hxs hys hpieces, rfl⟩

/-- The stylesheet text the reader accepts. A text is read exactly when it is a run of items
followed by blanks: statements `u @t;`, plain rules `h {b}` whose header fails the `@media` test,
and media blocks `u m { z₁ … zₖ v }` whose query passes it (`Item`, `Item.WellFormed`); the
stylesheet then holds the items' entries in order, each group of them (rules, media blocks and the
three kinds of statement) in the items' order. Every other text is refused, and no text
decomposes in two ways. -/
theorem Stylesheet.parse_eq_ok_iff_decomposes (css : String) :
    (∀ sheet, Stylesheet.parse css = .ok sheet ↔
      ∃ xs w, Decomposes css.toList xs w ∧ sheet = Stylesheet.ofEntries (xs.map Item.entry)) ∧
    ((∀ xs w, ¬Decomposes css.toList xs w) → ∃ m, Stylesheet.parse css = .error m) ∧
    ∀ xs w ys w', Decomposes css.toList xs w → Decomposes css.toList ys w' → xs = ys ∧ w = w' := by
  refine ⟨fun sheet => parseChars_eq_ok_iff, fun hnone => ?_, fun xs w ys w' h1 h2 => h1.unique h2⟩
  -- a text with no decomposition cannot be read
  cases hparse : Stylesheet.parse css with
  | error m => exact ⟨m, rfl⟩
  | ok sheet =>
    obtain ⟨xs, w, hdec, -⟩ := parseChars_eq_ok_iff.mp hparse
    exact absurd hdec (hnone xs w)

end StyleSplit
