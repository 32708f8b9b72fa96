import Mathlib
import StyleSplit.Proofs.Partition
import StyleSplit.Proofs.Reading
import StyleSplit.ChunkFile

/-!
# Reading the chunks back

Every chunk of a partition of a stylesheet that was read from text, and every file written from
one, is read again into a stylesheet that holds what the chunk was packed from: a rule chunk into
exactly its rules, a media chunk into one media block for each block packed into it with the same
selectors, and a file into the stylesheet's namespace declarations and the chunk's selectors. So
the selectors the splitter bounds are the selectors a reader of each file finds.

The proof works in the grammar of `Proofs/Reading.lean` (`Item`, `Decomposes`) and never runs the
reader:

* `Stylesheet.Rereadable`: every rule, media block and namespace declaration of a stylesheet read
  from text is one item with the entry's own text (`Item.unpad` drops the blanks before it);
* `rewrapItem`: a media block rebuilt around some of its rules (`MediaBlock.rewrap`) is one item
  too, its query trimmed at the end and followed by a space (`MediaQuery.trimEnd_append_space`),
  its first rule after the space that opens the body;
* `exists_decomposes_join`: texts that are items each are, joined, those items in order;
* `Decomposes.padFirst`: blanks put before a text go to its first item, whose entry changes only in
  a rule's header (`Entry.padLeft`), which keeps its selectors.

The chunks are handled in `Stylesheet.Rereadable.parse_ruleChunk` and
`Stylesheet.Rereadable.parse_mediaChunk`, the files in `parse_prelude_append`, and the main result
is `Stylesheet.partition_rereads`.
-/

namespace StyleSplit

open StyleSplit.Text

/-! ## Blanks, case and trailing trimming -/

section Text

/-- Lowering the ASCII case of a character that is not blank never gives a blank: only the
upper-case letters change. -/
lemma isBlank_eq_false_of_toLower {c d : Char} (h : c.toLower = d) (hd : isBlank d = false) :
    isBlank c = false := by
  unfold Char.toLower at h
  split at h
  · next hc =>
    -- an upper-case letter, with a code between 65 and 90, is not blank
    have h2 : 65 ≤ c.val.toNat := by simpa [UInt32.le_iff_toNat_le] using hc.1
    have h3 : c.val.toNat ≤ 90 := by simpa [UInt32.le_iff_toNat_le] using hc.2
    have h4 : c.toNat = c.val.toNat := rfl
    simp only [isBlank, Bool.or_eq_false_iff, Bool.and_eq_false_iff, decide_eq_false_iff_not,
      beq_eq_false_iff_ne, ne_eq]
    omega
  · exact h ▸ hd

@[simp] lemma isBlank_space : isBlank ' ' = true := by decide

@[simp] lemma isBlank_newline : isBlank '\n' = true := by decide

lemma count_comma_eq_zero {u : List Char} (hu : ∀ c ∈ u, isBlank c = true) : u.count ',' = 0 :=
  List.count_eq_zero.mpr fun h => absurd (hu ',' h) (by decide)

lemma trimEnd_prefix_self (cs : List Char) : trimEnd cs <+: cs := by
  have h : cs.reverse.dropWhile isBlank <:+ cs.reverse := List.dropWhile_suffix isBlank
  simpa [trimEnd] using List.reverse_prefix.mpr h

/-- Trailing blanks are trimmed no further than a character that is not blank. -/
lemma trimEnd_append_cons {k r : List Char} {a : Char} (ha : isBlank a = false) :
    trimEnd (k ++ a :: r) = k ++ a :: trimEnd r := by
  unfold trimEnd
  rw [List.reverse_append, List.reverse_cons, List.append_assoc, List.dropWhile_append]
  split
  · next hnil =>
    rw [List.isEmpty_iff.mp hnil]
    simp [ha]
  · simp

end Text

/-- A media query stays one when its trailing blanks are replaced by a space: the keyword ends in a
letter, which trimming does not pass, and what follows it starts as before or with the space. -/
lemma MediaQuery.trimEnd_append_space {q : List Char} (h : MediaQuery q) :
    MediaQuery (trimEnd q ++ [' ']) := by
  obtain ⟨k, r, rfl, hk, hr⟩ := h
  rcases List.eq_nil_or_concat k with rfl | ⟨k', a, rfl⟩
  · simp at hk
  have ha : a.toLower = 'a' := by
    have hsplit : "@media".toList = ['@', 'm', 'e', 'd', 'i'] ++ ['a'] := by simp
    rw [List.concat_eq_append, List.map_append, hsplit] at hk
    simpa using (List.append_inj' hk (by simp)).2
  have hblank : isBlank a = false := isBlank_eq_false_of_toLower ha (by decide)
  rw [List.concat_eq_append, List.append_assoc, List.singleton_append,
    trimEnd_append_cons hblank]
  refine ⟨k'.concat a, trimEnd r ++ [' '], by simp, hk, Or.inr ?_⟩
  cases htr : trimEnd r with
  | nil => exact ⟨' ', [], rfl, .inl rfl⟩
  | cons c r' =>
    -- what is left of the text after the keyword starts with its first character
    obtain ⟨t, ht⟩ := trimEnd_prefix_self r
    rw [htr] at ht
    rcases hr with rfl | ⟨c', r'', rfl, hc'⟩
    · simp at ht
    · obtain ⟨rfl, -⟩ := List.cons.inj ht
      exact ⟨c, r' ++ [' '], rfl, hc'⟩

/-! ## Entries and their texts -/

namespace Entry

/-- The text an entry keeps: a rule's or a media block's whole text, a statement as trimmed. -/
def text : Entry → String
  | .rule r => r.text
  | .media m => m.text
  | .leading s | .namespaceDecl s | .otherStatement s => s

/-- The selectors an entry adds to a stylesheet. -/
def selectorCount : Entry → Nat
  | .rule r => r.selectorCount
  | .media m => m.selectorCount
  | _ => 0

/-- An entry is a block, a rule or a media block, rather than a statement. -/
def isBlock : Entry → Bool
  | .rule _ | .media _ => true
  | _ => false

lemma text_ofStatement (stmt : List Char) : (ofStatement stmt).text = String.ofList stmt := by
  unfold ofStatement ofKeyword
  split <;> rfl

lemma isBlock_ofStatement (stmt : List Char) : (ofStatement stmt).isBlock = false := by
  unfold ofStatement ofKeyword
  split <;> rfl

/-- The entry read from a text with blanks put before it: a rule's header starts with them, and
media blocks and statements, which are read from their first non-blank character, do not keep
them. -/
def padLeft (u : List Char) : Entry → Entry
  | .rule r => .rule ⟨String.ofList u ++ r.header, r.body⟩
  | e => e

/-- The entries read from a text with blanks put before it: the first entry takes them. -/
def padFirst (u : List Char) : List Entry → List Entry
  | [] => []
  | e :: es => e.padLeft u :: es

lemma padLeft_ofStatement (u stmt : List Char) :
    (ofStatement stmt).padLeft u = ofStatement stmt := by
  unfold ofStatement ofKeyword
  split <;> rfl

lemma padLeft_padLeft (u u' : List Char) (e : Entry) :
    (e.padLeft u').padLeft u = e.padLeft (u ++ u') := by
  cases e <;> simp [padLeft, String.append_assoc]

lemma isBlock_padLeft (u : List Char) (e : Entry) : (e.padLeft u).isBlock = e.isBlock := by
  cases e <;> rfl

lemma selectorCount_padLeft {u : List Char} (hu : ∀ c ∈ u, isBlank c = true) (e : Entry) :
    (e.padLeft u).selectorCount = e.selectorCount := by
  cases e <;> simp [padLeft, selectorCount, Rule.selectorCount, countSelectors, List.count_append,
    count_comma_eq_zero hu]

@[simp] lemma padLeft_nil (e : Entry) : e.padLeft [] = e := by
  cases e <;> simp [padLeft]

@[simp] lemma padFirst_nil_left (es : List Entry) : padFirst [] es = es := by
  cases es with
  | nil => rfl
  | cons e es => simp [padFirst, padLeft_nil]

lemma padFirst_padFirst (u u' : List Char) (es : List Entry) :
    padFirst u (padFirst u' es) = padFirst (u ++ u') es := by
  cases es <;> simp [padFirst, padLeft_padLeft]

lemma forall_isBlock_padFirst {u : List Char} {es : List Entry} (h : ∀ e ∈ es, e.isBlock) :
    ∀ e ∈ padFirst u es, e.isBlock := by
  cases es with
  | nil => simp [padFirst]
  | cons e es =>
    intro e' he'
    rcases List.mem_cons.mp he' with rfl | he'
    · rw [isBlock_padLeft]
      exact h e (by simp)
    · exact h e' (by simp [he'])

lemma sum_selectorCount_padFirst {u : List Char} (hu : ∀ c ∈ u, isBlank c = true)
    (es : List Entry) :
    ((padFirst u es).map selectorCount).sum = (es.map selectorCount).sum := by
  cases es <;> simp [padFirst, selectorCount_padLeft hu]

end Entry

namespace Stylesheet

/-- A group of a stylesheet holds exactly the values of its kind of entry. -/
lemma mem_filterMap_iff {α : Type} {f : Entry → Option α} {g : α → Entry}
    (hfg : ∀ e a, f e = some a ↔ e = g a) {es : List Entry} {a : α} :
    a ∈ es.filterMap f ↔ g a ∈ es := by
  simp only [List.mem_filterMap, hfg]
  exact ⟨fun ⟨_, he, h⟩ => h ▸ he, fun h => ⟨_, h, rfl⟩⟩

lemma mem_rules_ofEntries {es : List Entry} {r : Rule} :
    r ∈ (ofEntries es).rules ↔ Entry.rule r ∈ es :=
  mem_filterMap_iff fun e r => by cases e <;> simp [eq_comm]

lemma mem_media_ofEntries {es : List Entry} {m : MediaBlock} :
    m ∈ (ofEntries es).media ↔ Entry.media m ∈ es :=
  mem_filterMap_iff fun e m => by cases e <;> simp [eq_comm]

lemma mem_namespaces_ofEntries {es : List Entry} {n : String} :
    n ∈ (ofEntries es).namespaces ↔ Entry.namespaceDecl n ∈ es :=
  mem_filterMap_iff fun e n => by cases e <;> simp [eq_comm]

@[simp] lemma ofEntries_map_rule (rs : List Rule) : ofEntries (rs.map .rule) = { rules := rs } := by
  simp [ofEntries, List.filterMap_map]

@[simp] lemma ofEntries_map_media (ms : List MediaBlock) :
    ofEntries (ms.map .media) = { media := ms } := by
  simp [ofEntries, List.filterMap_map]

lemma selectorCount_ofEntries (es : List Entry) :
    (ofEntries es).selectorCount = (es.map Entry.selectorCount).sum := by
  induction es with
  | nil => rfl
  | cons e es ih =>
    rw [List.map_cons, List.sum_cons, ← ih]
    cases e <;> simp [ofEntries, selectorCount, Entry.selectorCount] <;> omega

/-- A stylesheet has no statements of any kind exactly when all its entries are blocks. -/
lemma forall_isBlock_iff {es : List Entry} :
    (∀ e ∈ es, e.isBlock) ↔ (ofEntries es).statements = [] ∧ (ofEntries es).namespaces = [] ∧
      (ofEntries es).otherStatements = [] := by
  simp only [ofEntries, List.filterMap_eq_nil_iff]
  constructor
  · intro h
    refine ⟨fun e he => ?_, fun e he => ?_, fun e he => ?_⟩ <;>
      have hb := h e he <;> cases e <;> simp_all [Entry.isBlock]
  · rintro ⟨h1, h2, h3⟩ e he
    have := h1 e he
    have := h2 e he
    have := h3 e he
    cases e <;> simp_all [Entry.isBlock]

end Stylesheet

/-! ## Entries read back from their own text -/

namespace Item

/-- An item without the blanks before it: the text its entry keeps. -/
def unpad : Item → Item
  | statement _ t => statement [] t
  | rule h b => rule h b
  | media _ m zs v => media [] m zs v

lemma WellFormed.unpad {x : Item} (hx : x.WellFormed) : x.unpad.WellFormed := by
  cases x with
  | statement u t => exact ⟨by simp, hx.2⟩
  | rule h b => exact hx
  | media u m zs v => exact ⟨by simp, hx.2⟩

@[simp] lemma entry_unpad (x : Item) : x.unpad.entry = x.entry := by
  cases x <;> rfl

lemma text_unpad (x : Item) : x.unpad.text = x.entry.text.toList := by
  cases x with
  | statement u t => simp [unpad, text, entry, Entry.text_ofStatement]
  | rule h b => simp [unpad, text, entry, Entry.text, Rule.text]
  | media u m zs v => simp [unpad, text, entry, Entry.text, MediaBlock.ofParts]

/-- A media block of an item comes from a media item: its header is the query and its rules are
the blocks of the body. -/
lemma eq_media_of_entry {x : Item} {m : MediaBlock} (h : x.entry = .media m) :
    ∃ u q zs v, x = media u q zs v ∧ m.header = String.ofList q ∧ m.rules = zs.map blockRule := by
  cases x with
  | statement u t =>
    have hb := Entry.isBlock_ofStatement ('@' :: t ++ [';'])
    rw [← entry, h] at hb
    simp [Entry.isBlock] at hb
  | rule h b => cases h
  | media u q zs v =>
    cases h
    exact ⟨u, q, zs, v, rfl, rfl, rfl⟩

end Item

/-- An entry is read back from its own text, as one well-formed item. -/
def Entry.Rereadable (e : Entry) : Prop :=
  ∃ x : Item, x.WellFormed ∧ x.text = e.text.toList ∧ x.entry = e

lemma rereadable_of_mem_entries {xs : List Item} (hxs : ∀ x ∈ xs, x.WellFormed) {e : Entry}
    (he : e ∈ xs.map Item.entry) : e.Rereadable := by
  obtain ⟨x, hx, rfl⟩ := List.mem_map.mp he
  exact ⟨x.unpad, (hxs x hx).unpad, x.text_unpad, x.entry_unpad⟩

/-- Every rule, media block and namespace declaration of the stylesheet is read back from its own
text. -/
structure Stylesheet.Rereadable (sheet : Stylesheet) : Prop where
  rules : ∀ r ∈ sheet.rules, (Entry.rule r).Rereadable
  media : ∀ m ∈ sheet.media, (Entry.media m).Rereadable
  namespaces : ∀ n ∈ sheet.namespaces, (Entry.namespaceDecl n).Rereadable

lemma Stylesheet.rereadable_of_parse {css : String} {sheet : Stylesheet}
    (h : Stylesheet.parse css = .ok sheet) : sheet.Rereadable := by
  obtain ⟨xs, w, ⟨hxs, -, -⟩, rfl⟩ := parseChars_eq_ok_iff.mp h
  exact ⟨fun r hr => rereadable_of_mem_entries hxs (mem_rules_ofEntries.mp hr),
    fun m hm => rereadable_of_mem_entries hxs (mem_media_ofEntries.mp hm),
    fun n hn => rereadable_of_mem_entries hxs (mem_namespaces_ofEntries.mp hn)⟩

/-! ## Rebuilt media blocks -/

@[simp] lemma toList_text_blockRule (z : List Char × List Char) :
    (blockRule z).text.toList = blockText z := by
  simp [blockRule, blockText, Rule.text]

lemma blockText_cons (c : Char) (z : List Char × List Char) :
    blockText (c :: z.1, z.2) = c :: blockText z := rfl

lemma selectorCount_blockRule_blank_append {u : List Char} (hu : ∀ c ∈ u, isBlank c = true)
    (z : List Char × List Char) :
    (blockRule (u ++ z.1, z.2)).selectorCount = (blockRule z).selectorCount := by
  simp [blockRule, Rule.selectorCount, countSelectors, List.count_append, count_comma_eq_zero hu]

lemma exists_blocks_of_forall_mem {rs : List Rule} {zs : List (List Char × List Char)}
    (h : ∀ r ∈ rs, r ∈ zs.map blockRule) :
    ∃ zs' : List (List Char × List Char), (∀ z ∈ zs', z ∈ zs) ∧ rs = zs'.map blockRule := by
  induction rs with
  | nil => exact ⟨[], by simp, rfl⟩
  | cons r rs ih =>
    obtain ⟨z, hz, rfl⟩ := List.mem_map.mp (h r (by simp))
    obtain ⟨zs', hzs', rfl⟩ := ih fun r' hr' => h r' (by simp [hr'])
    refine ⟨z :: zs', fun z' hz' => ?_, rfl⟩
    rcases List.mem_cons.mp hz' with rfl | hz'
    · exact hz
    · exact hzs' z' hz'

/-- The item a media block rebuilt around the blocks `zs` under the query `q` is read as: the query
without trailing blanks and a space, then the blocks, the first of them after the space that opens
the body, then the space before the closing brace. -/
def rewrapItem (q : List Char) : List (List Char × List Char) → Item
  | [] => .media [] (trimEnd q ++ [' ']) [] [' ', ' ']
  | z :: zs => .media [] (trimEnd q ++ [' ']) ((' ' :: z.1, z.2) :: zs) [' ']

lemma text_rewrapItem (q : List Char) (zs : List (List Char × List Char)) :
    (rewrapItem q zs).text =
      (MediaBlock.rewrap (String.ofList q) (zs.map blockRule)).text.toList := by
  cases zs with
  | nil =>
    simp [rewrapItem, Item.text, MediaBlock.rewrap, MediaBlock.joinRules, String.trimBlankEnd]
  | cons z zs =>
    simp [rewrapItem, Item.text, MediaBlock.rewrap, MediaBlock.joinRules, String.trimBlankEnd,
      List.flatMap_map, blockText_cons]

lemma wellFormed_rewrapItem {q : List Char} (hq : ∀ c ∈ q, isMark c = false) (hmq : MediaQuery q)
    {zs : List (List Char × List Char)}
    (hzs : ∀ z ∈ zs, (∀ c ∈ z.1, isMark c = false) ∧ Balanced z.2) :
    (rewrapItem q zs).WellFormed := by
  have hquery : ∀ c ∈ trimEnd q ++ [' '], isMark c = false := by
    intro c hc
    rcases List.mem_append.mp hc with hc | hc
    · exact hq c ((trimEnd_prefix_self q).subset hc)
    · rw [List.mem_singleton.mp hc]
      decide
  cases zs with
  | nil => exact ⟨by simp, hquery, hmq.trimEnd_append_space, by simp, by simp⟩
  | cons z zs =>
    refine ⟨by simp, hquery, hmq.trimEnd_append_space, ?_, by simp⟩
    -- the first block takes the space that opens the body
    intro z' hz'
    rcases List.mem_cons.mp hz' with rfl | hz'
    · have hz := hzs z (by simp)
      exact ⟨List.forall_mem_cons.mpr ⟨by decide, hz.1⟩, hz.2⟩
    · exact hzs z' (by simp [hz'])

lemma selectorCount_entry_rewrapItem (q : List Char) (zs : List (List Char × List Char)) :
    ∃ mb, (rewrapItem q zs).entry = .media mb ∧
      mb.selectorCount = ((zs.map blockRule).map Rule.selectorCount).sum := by
  cases zs with
  | nil => exact ⟨_, rfl, rfl⟩
  | cons z zs =>
    refine ⟨_, rfl, ?_⟩
    have hz := selectorCount_blockRule_blank_append (show ∀ c ∈ [' '], isBlank c = true by simp) z
    simp only [MediaBlock.selectorCount, MediaBlock.ofParts, List.map_cons, List.sum_cons]
    simpa using hz

/-- A media block rebuilt around some of the rules of a block read back from its text is read back
from its own text as one media block with the same selectors. -/
lemma rereads_rewrap {m : MediaBlock} (hm : (Entry.media m).Rereadable) {rs : List Rule}
    (hrs : ∀ r ∈ rs, r ∈ m.rules) :
    ∃ x : Item, x.WellFormed ∧ x.text = (MediaBlock.rewrap m.header rs).text.toList ∧
      ∃ mb, x.entry = .media mb ∧
        mb.selectorCount = (MediaBlock.rewrap m.header rs).selectorCount := by
  obtain ⟨x, hx, -, hxe⟩ := hm
  obtain ⟨u, q, zs, v, rfl, hheader, hrules⟩ := Item.eq_media_of_entry hxe
  obtain ⟨-, hq, hmq, hzs, -⟩ := hx
  obtain ⟨zs', hzs', rfl⟩ := exists_blocks_of_forall_mem (hrules ▸ hrs)
  obtain ⟨mb, hmb, hsc⟩ := selectorCount_entry_rewrapItem q zs'
  refine ⟨rewrapItem q zs', wellFormed_rewrapItem hq hmq fun z hz => hzs z (hzs' z hz), ?_, mb, hmb,
    by simp [hsc]⟩
  rw [hheader, text_rewrapItem]

/-! ## Texts joined and padded -/

lemma Decomposes.cons {cs : List Char} {xs : List Item} {w : List Char} {x : Item}
    (hx : x.WellFormed) (h : Decomposes cs xs w) : Decomposes (x.text ++ cs) (x :: xs) w := by
  obtain ⟨hxs, hw, rfl⟩ := h
  refine ⟨?_, hw, by simp⟩
  intro y hy
  rcases List.mem_cons.mp hy with rfl | hy
  · exact hx
  · exact hxs y hy

/-- Texts that are each read as one item are read, joined, as those items in order. -/
lemma exists_decomposes_join {α : Type} (text : α → String) (R : α → Entry → Prop) {l : List α}
    (h : ∀ a ∈ l, ∃ x : Item, x.WellFormed ∧ x.text = (text a).toList ∧ R a x.entry) :
    ∃ xs, Decomposes (String.join (l.map text)).toList xs [] ∧
      List.Forall₂ R l (xs.map Item.entry) := by
  induction l with
  | nil => exact ⟨[], ⟨by simp, by simp, by simp⟩, .nil⟩
  | cons a l ih =>
    obtain ⟨x, hx, hxt, hxR⟩ := h a (by simp)
    obtain ⟨xs, hdec, hR⟩ := ih fun b hb => h b (by simp [hb])
    refine ⟨x :: xs, ?_, .cons hxR hR⟩
    simpa [hxt] using hdec.cons hx

namespace Item

/-- An item with blanks put before it. -/
def padLeft (u : List Char) : Item → Item
  | statement u' t => statement (u ++ u') t
  | rule h b => rule (u ++ h) b
  | media u' m zs v => media (u ++ u') m zs v

@[simp] lemma text_padLeft (u : List Char) (x : Item) : (x.padLeft u).text = u ++ x.text := by
  cases x <;> simp [padLeft, text]

lemma entry_padLeft (u : List Char) (x : Item) : (x.padLeft u).entry = x.entry.padLeft u := by
  cases x with
  | statement u' t => simp [padLeft, entry, Entry.padLeft_ofStatement]
  | rule h b => simp [padLeft, entry, Entry.padLeft]
  | media u' m zs v => rfl

lemma WellFormed.padLeft {u : List Char} (hu : ∀ c ∈ u, isBlank c = true) {x : Item}
    (hx : x.WellFormed) : (x.padLeft u).WellFormed := by
  cases x with
  | statement u' t =>
    obtain ⟨hu', ht⟩ := hx
    exact ⟨List.forall_mem_append.mpr ⟨hu, hu'⟩, ht⟩
  | rule h b =>
    obtain ⟨hh, hb, hq⟩ := hx
    refine ⟨List.forall_mem_append.mpr ⟨fun c hc => isMark_eq_false_of_isBlank (hu c hc), hh⟩,
      hb, ?_⟩
    -- the `@media` test looks past leading blanks
    show ¬MediaQuery (trimStart (u ++ h))
    rwa [trimStart_blank_append hu]
  | media u' m zs v =>
    obtain ⟨hu', hm⟩ := hx
    exact ⟨List.forall_mem_append.mpr ⟨hu, hu'⟩, hm⟩

end Item

/-- Blanks put before a text go to its first item, or to the blanks after the items when there is
none. -/
lemma Decomposes.padFirst {u : List Char} (hu : ∀ c ∈ u, isBlank c = true) {cs : List Char}
    {xs : List Item} {w : List Char} (h : Decomposes cs xs w) :
    ∃ xs' w', Decomposes (u ++ cs) xs' w' ∧
      xs'.map Item.entry = Entry.padFirst u (xs.map Item.entry) := by
  obtain ⟨hxs, hw, rfl⟩ := h
  cases xs with
  | nil => exact ⟨[], u ++ w, ⟨by simp, List.forall_mem_append.mpr ⟨hu, hw⟩, by simp⟩, rfl⟩
  | cons x xs =>
    refine ⟨x.padLeft u :: xs, w, ⟨?_, hw, by simp⟩, by simp [Entry.padFirst, Item.entry_padLeft]⟩
    intro y hy
    rcases List.mem_cons.mp hy with rfl | hy
    · exact (hxs x (by simp)).padLeft hu
    · exact hxs y (by simp [hy])

/-- Namespace declarations, one a line, put before a text: each declaration is read as itself,
and the line break after the last one goes to the text's first item. -/
lemma exists_decomposes_prelude {nss : List String}
    (hnss : ∀ n ∈ nss, (Entry.namespaceDecl n).Rereadable) {cs : List Char} {ys : List Item}
    {w : List Char} (hys : Decomposes cs ys w) :
    ∃ xs w' u, Decomposes ((String.join (nss.map (· ++ "\n"))).toList ++ cs) xs w' ∧
      (∀ c ∈ u, isBlank c = true) ∧
      xs.map Item.entry = nss.map .namespaceDecl ++ Entry.padFirst u (ys.map Item.entry) := by
  induction nss with
  | nil => exact ⟨ys, w, [], by simpa using hys, by simp, by simp⟩
  | cons n nss ih =>
    obtain ⟨x, hx, hxt, hxe⟩ := hnss n (by simp)
    obtain ⟨xs, w', u, hdec, hu, hent⟩ := ih fun n' hn' => hnss n' (by simp [hn'])
    obtain ⟨xs', w'', hdec', hent'⟩ :=
      hdec.padFirst (show ∀ c ∈ ['\n'], isBlank c = true by simp)
    have htext : x.text = n.toList := hxt
    have hdec'' : Decomposes ((String.join ((n :: nss).map (· ++ "\n"))).toList ++ cs) (x :: xs')
        w'' := by
      simpa [htext] using hdec'.cons hx
    -- the line break goes to the next declaration, or to the text's first item after the last
    cases nss with
    | nil =>
      refine ⟨x :: xs', w'', '\n' :: u, hdec'', List.forall_mem_cons.mpr ⟨isBlank_newline, hu⟩, ?_⟩
      simp [hent', hent, hxe, Entry.padFirst_padFirst]
    | cons n' nss =>
      refine ⟨x :: xs', w'', u, hdec'', hu, ?_⟩
      simp [hent', hent, hxe, Entry.padFirst, Entry.padLeft]

/-- A text read into blocks alone, put after namespace declarations that are read back from their
own texts, one a line, is read into those declarations and blocks of the same selectors. -/
lemma parse_prelude_append {nss : List String}
    (hnss : ∀ n ∈ nss, (Entry.namespaceDecl n).Rereadable) {text : String} {s : Stylesheet}
    (h : Stylesheet.parse text = .ok s)
    (hs : s.statements = [] ∧ s.namespaces = [] ∧ s.otherStatements = []) :
    ∃ s', Stylesheet.parse (String.join (nss.map (· ++ "\n")) ++ text) = .ok s' ∧
      s'.namespaces = nss ∧ s'.statements = [] ∧ s'.otherStatements = [] ∧
      s'.selectorCount = s.selectorCount := by
  obtain ⟨ys, w, hys, rfl⟩ := parseChars_eq_ok_iff.mp h
  obtain ⟨xs, w', u, hdec, hu, hent⟩ := exists_decomposes_prelude hnss hys
  -- the text's entries, the first one padded, are still blocks, of the same selectors
  have hblock : ∀ e ∈ Entry.padFirst u (ys.map Item.entry), e.isBlock :=
    Entry.forall_isBlock_padFirst (Stylesheet.forall_isBlock_iff.mpr hs)
  obtain ⟨h1, h2, h3⟩ := Stylesheet.forall_isBlock_iff.mp hblock
  refine ⟨Stylesheet.ofEntries (xs.map Item.entry),
    parseChars_eq_ok_iff.mpr ⟨xs, w', by simpa using hdec, rfl⟩, ?_, ?_, ?_, ?_⟩
  · rw [hent]
    simpa [Stylesheet.ofEntries, List.filterMap_append, List.filterMap_map] using h2
  · rw [hent]
    simpa [Stylesheet.ofEntries, List.filterMap_append, List.filterMap_map] using h1
  · rw [hent]
    simpa [Stylesheet.ofEntries, List.filterMap_append, List.filterMap_map] using h3
  · rw [Stylesheet.selectorCount_ofEntries, Stylesheet.selectorCount_ofEntries, hent,
      List.map_append, List.sum_append, Entry.sum_selectorCount_padFirst hu]
    simp [Function.comp_def, Entry.selectorCount]

/-! ## The chunks read back -/

lemma exists_eq_map_media {l : List MediaBlock} {es : List Entry}
    (h : List.Forall₂ (fun b e => ∃ mb, e = Entry.media mb ∧ mb.selectorCount = b.selectorCount)
      l es) :
    ∃ ms : List MediaBlock, es = ms.map .media ∧
      ms.map MediaBlock.selectorCount = l.map MediaBlock.selectorCount := by
  induction h with
  | nil => exact ⟨[], rfl, rfl⟩
  | cons hb _ ih =>
    obtain ⟨mb, rfl, hsc⟩ := hb
    obtain ⟨ms, rfl, hms⟩ := ih
    exact ⟨mb :: ms, rfl, by simp [hsc, hms]⟩

/-- Each part of a media block read back from its text is read back from its own text, as one
media block with the same selectors: the block itself, or a block rebuilt around some of its
rules. -/
lemma rereads_of_mem_resplit {limit : Nat} {m : MediaBlock} (hm : (Entry.media m).Rereadable)
    {b : MediaBlock} (hb : b ∈ m.resplit limit) :
    ∃ x : Item, x.WellFormed ∧ x.text = b.text.toList ∧
      ∃ mb, x.entry = .media mb ∧ mb.selectorCount = b.selectorCount := by
  by_cases hle : m.selectorCount ≤ limit
  · rw [MediaBlock.resplit_of_le hle, List.mem_singleton] at hb
    subst hb
    obtain ⟨x, hx, hxt, hxe⟩ := hm
    exact ⟨x, hx, hxt, b, hxe, rfl⟩
  · rw [MediaBlock.resplit_of_lt (Nat.lt_of_not_le hle)] at hb
    obtain ⟨c, hc, rfl⟩ := List.mem_map.mp hb
    exact rereads_rewrap hm fun r hr => mem_of_mem_pack hc hr

namespace Stylesheet.Rereadable

variable {sheet : Stylesheet} {limit : Nat}

lemma parse_ruleChunk (hs : sheet.Rereadable) {k : Chunk Rule} (hk : k ∈ sheet.ruleChunks limit) :
    Stylesheet.parse (k.text Rule.text) = .ok { rules := k.items } := by
  have hread : ∀ r ∈ k.items, ∃ x : Item, x.WellFormed ∧ x.text = r.text.toList ∧
      Entry.rule r = x.entry := by
    intro r hr
    obtain ⟨x, hx, hxt, hxe⟩ := hs.rules r (mem_of_mem_pack hk hr)
    exact ⟨x, hx, hxt, hxe.symm⟩
  obtain ⟨ys, hdec, hR⟩ := exists_decomposes_join Rule.text (fun r e => Entry.rule r = e) hread
  -- the entries read are the chunk's rules, in order
  have hent : k.items.map Entry.rule = ys.map Item.entry := by
    have h := List.forall₂_map_left_iff.mpr hR
    rwa [List.forall₂_eq_eq_eq] at h
  exact parseChars_eq_ok_iff.mpr ⟨ys, [], hdec, by rw [← hent, ofEntries_map_rule]⟩

/-- A media chunk is read into one media block for each block packed into it, with the same
selectors. -/
lemma parse_mediaChunk (hs : sheet.Rereadable) {k : Chunk MediaBlock}
    (hk : k ∈ sheet.mediaChunks limit) :
    ∃ ms : List MediaBlock, Stylesheet.parse (k.text MediaBlock.text) = .ok { media := ms } ∧
      ms.map MediaBlock.selectorCount = k.items.map MediaBlock.selectorCount := by
  have hread : ∀ b ∈ k.items, ∃ x : Item, x.WellFormed ∧ x.text = b.text.toList ∧
      ∃ mb, x.entry = .media mb ∧ mb.selectorCount = b.selectorCount := by
    intro b hb
    obtain ⟨m, hm, hbm⟩ :=
      List.mem_flatMap.mp (mem_of_mem_pack (mem_pack_of_mem_mediaChunks hk) hb)
    exact rereads_of_mem_resplit (hs.media m hm) hbm
  obtain ⟨ys, hdec, hR⟩ := exists_decomposes_join MediaBlock.text
    (fun b e => ∃ mb, e = Entry.media mb ∧ mb.selectorCount = b.selectorCount) hread
  obtain ⟨ms, hms, hsc⟩ := exists_eq_map_media hR
  exact ⟨ms, parseChars_eq_ok_iff.mpr ⟨ys, [], hdec, by rw [hms, ofEntries_map_media]⟩, hsc⟩

/-- Each chunk of a partition is read into a stylesheet with no statements and the chunk's
selectors: a rule chunk into exactly its rules, a media chunk into one media block for each block
packed into it. -/
lemma parse_of_mem_partition (hs : sheet.Rereadable) {c : OutputChunk}
    (hc : c ∈ sheet.partition limit) :
    ∃ s, Stylesheet.parse c.text = .ok s ∧
      s.statements = [] ∧ s.namespaces = [] ∧ s.otherStatements = [] ∧
      s.selectorCount = c.selectorCount ∧
      (c.origin = .rules → s.media = [] ∧
        ∃ k ∈ sheet.ruleChunks limit, c = OutputChunk.ofChunk Rule.text .rules k ∧
          s.rules = k.items) ∧
      (c.origin = .media → s.rules = [] ∧
        ∃ k ∈ sheet.mediaChunks limit, c = OutputChunk.ofChunk MediaBlock.text .media k ∧
          s.media.map MediaBlock.selectorCount = k.items.map MediaBlock.selectorCount) := by
  rw [partition_eq] at hc
  rcases List.mem_append.mp hc with hc | hc
  · obtain ⟨k, hk, rfl⟩ := List.mem_map.mp hc
    refine ⟨{ rules := k.items }, hs.parse_ruleChunk hk, rfl, rfl, rfl, ?_,
      fun _ => ⟨rfl, k, hk, rfl, rfl⟩, fun h => by simp [OutputChunk.ofChunk] at h⟩
    -- a chunk records the selectors of the items packed into it
    simp [Stylesheet.selectorCount, OutputChunk.ofChunk, (pack_packed _ k hk).weighs]
  · obtain ⟨k, hk, rfl⟩ := List.mem_map.mp hc
    obtain ⟨ms, hparse, hms⟩ := hs.parse_mediaChunk hk
    refine ⟨{ media := ms }, hparse, rfl, rfl, rfl, ?_,
      fun h => by simp [OutputChunk.ofChunk] at h, fun _ => ⟨rfl, k, hk, rfl, hms⟩⟩
    simp [Stylesheet.selectorCount, OutputChunk.ofChunk, hms,
      (pack_packed _ k (mem_pack_of_mem_mediaChunks hk)).weighs]

end Stylesheet.Rereadable

/-- The chunks of a partition, and the files written from them, read back. Split a stylesheet read
from text under any limit: each chunk's text is read into a stylesheet with no statements and
the chunk's selectors; a rule chunk into exactly the rules packed into it, in order, and no media
block; a media chunk into no plain rule and one media block for each block packed into it, with
the same selectors. Each file, the namespace declarations one a line and then a chunk's text, is
read into those declarations, no other statement, and the file's selectors. -/
theorem Stylesheet.partition_rereads (css : String) (sheet : Stylesheet)
    (hread : Stylesheet.parse css = .ok sheet) (limit : Nat) (chunkPrefix : String) :
    (∀ c ∈ sheet.partition limit, ∃ s, Stylesheet.parse c.text = .ok s ∧
      s.statements = [] ∧ s.namespaces = [] ∧ s.otherStatements = [] ∧
      s.selectorCount = c.selectorCount ∧
      (c.origin = .rules → s.media = [] ∧
        ∃ k ∈ sheet.ruleChunks limit, c = OutputChunk.ofChunk Rule.text .rules k ∧
          s.rules = k.items) ∧
      (c.origin = .media → s.rules = [] ∧
        ∃ k ∈ sheet.mediaChunks limit, c = OutputChunk.ofChunk MediaBlock.text .media k ∧
          s.media.map MediaBlock.selectorCount = k.items.map MediaBlock.selectorCount)) ∧
    ∀ f ∈ nameChunks chunkPrefix sheet.namespaces (sheet.partition limit), ∃ s,
      Stylesheet.parse f.contents = .ok s ∧ s.namespaces = sheet.namespaces ∧
      s.statements = [] ∧ s.otherStatements = [] ∧ s.selectorCount = f.selectorCount := by
  have hs := Stylesheet.rereadable_of_parse hread
  refine ⟨fun c hc => hs.parse_of_mem_partition hc, fun f hf => ?_⟩
  -- a file is the namespace declarations, one a line, then a chunk's text
  obtain ⟨⟨c, i⟩, hci, rfl⟩ := List.mem_map.mp hf
  obtain ⟨s, hparse, h1, h2, h3, hsc, -⟩ :=
    hs.parse_of_mem_partition (List.fst_mem_of_mem_zipIdx hci)
  obtain ⟨s', hparse', hns, hst, hot, hsc'⟩ :=
    parse_prelude_append hs.namespaces hparse ⟨h1, h2, h3⟩
  exact ⟨s', hparse', hns, hst, hot, hsc'.trans hsc⟩

/-- The stylesheet read from a namespace declaration, a rule and a media block. -/
def namespacedSample : Stylesheet where
  media := [MediaBlock.ofParts "@media print" "\x7bc\x7b\x7dd\x7b\x7d\x7d"
    [⟨"c", "\x7b\x7d"⟩, ⟨"d", "\x7b\x7d"⟩]]
  rules := [⟨"\na,b", "\x7b\x7d"⟩]
  namespaces := ["@namespace svg url(x);"]

/-- The sample stylesheet split under a limit of one selector, which splits its media block: every
file is read back with the declaration and the file's selectors. -/
theorem partition_rereads_namespaced :
    Stylesheet.parse "@namespace svg url(x);\na,b\x7b\x7d@media print\x7bc\x7b\x7dd\x7b\x7d\x7d" =
      .ok namespacedSample ∧
    ∀ f ∈ nameChunks "part" namespacedSample.namespaces (namespacedSample.partition 1),
      ∃ s, Stylesheet.parse f.contents = .ok s ∧ s.namespaces = namespacedSample.namespaces ∧
        s.selectorCount = f.selectorCount := by
  have hread : Stylesheet.parse
      "@namespace svg url(x);\na,b\x7b\x7d@media print\x7bc\x7b\x7dd\x7b\x7d\x7d" =
      .ok namespacedSample := by
    decide +kernel
  refine ⟨hread, fun f hf => ?_⟩
  obtain ⟨s, hs, hns, -, -, hsc⟩ := (Stylesheet.partition_rereads _ _ hread 1 "part").2 f hf
  exact ⟨s, hs, hns, hsc⟩

end StyleSplit
