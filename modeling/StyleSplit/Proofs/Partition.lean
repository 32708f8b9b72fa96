import StyleSplit.Proofs.Packing
import StyleSplit.Partition

/-!
# Partition laws

What `Stylesheet.partition` guarantees of the chunks it returns, for every stylesheet and every
limit. The partition is two runs of the greedy packer: one over the plain rules, one over the
media blocks after `MediaBlock.resplit` has broken each block over the limit into rebuilt blocks
within it. `Stylesheet.ruleChunks` and `Stylesheet.mediaChunks` name the packed chunks behind the
output chunks (`partition_eq`), so that the laws can speak of the items packed into each one.

The laws of a single packing come from `Proofs/Packing.lean`. What the media stage adds is proved
of `MediaBlock.resplit` first:

* `MediaBlock.sum_selectorCount_resplit`: splitting keeps every nested rule, so the parts weigh
  what the block weighs;
* `MediaBlock.fits_of_mem_resplit`: a part is within the limit, or it is a rebuilt block holding a
  single rule over the limit;
* `MediaBlock.selectorCount_le_of_resplit_eq_cons`: the first part is within the limit, even when
  it is the empty block left by a first rule over the limit, so the first media chunk is never
  empty.

`MediaBlock.resplit_within_or_rebuilt` collects what splitting does to one block: the parts keep
its rules and its weight, are written anew under its trimmed header, and only the first can be
empty.

The main results are `Stylesheet.partition_within_limit` (the selector ceiling and which chunks
may be empty) and `Stylesheet.partition_conserves_text` (no text or selector is lost, duplicated
or reordered).
-/

namespace StyleSplit

namespace MediaBlock

variable {limit : Nat} {m : MediaBlock}

lemma resplit_of_le (h : m.selectorCount ≤ limit) : m.resplit limit = [m] := by
  simp [resplit, h]

lemma resplit_of_lt (h : limit < m.selectorCount) :
    m.resplit limit =
      (pack Rule.selectorCount limit m.rules).map fun c => rewrap m.header c.items := by
  simp [resplit, Nat.not_le.mpr h]

/-- A block rebuilt from a packed chunk weighs what the chunk records. -/
lemma selectorCount_rewrap_of_packed {c : Chunk Rule} (h : c.Packed Rule.selectorCount limit)
    (header : String) : (rewrap header c.items).selectorCount = c.selectorCount := by
  simp [h.weighs]

lemma resplit_ne_nil (limit : Nat) (m : MediaBlock) : m.resplit limit ≠ [] := by
  by_cases h : m.selectorCount ≤ limit
  · simp [resplit_of_le h]
  · simp [resplit_of_lt (Nat.not_le.mp h), pack_ne_nil]

/-- Splitting a media block keeps its selectors: the parts weigh what the block weighs. -/
lemma sum_selectorCount_resplit (limit : Nat) (m : MediaBlock) :
    ((m.resplit limit).map selectorCount).sum = m.selectorCount := by
  by_cases h : m.selectorCount ≤ limit
  · simp [resplit_of_le h]
  · rw [resplit_of_lt (Nat.not_le.mp h), List.map_map]
    -- each part weighs its chunk, and the chunks weigh the rules
    have hparts : ((pack Rule.selectorCount limit m.rules).map (selectorCount ∘
        fun c => rewrap m.header c.items)) =
        (pack Rule.selectorCount limit m.rules).map Chunk.selectorCount := by
      refine List.map_congr_left fun c hc => ?_
      exact selectorCount_rewrap_of_packed (pack_packed m.rules c hc) m.header
    rw [hparts, sum_selectorCount_pack]
    rfl

/-- Every part of a split block is within the limit, unless the block was over the limit and the
part is that block's header rebuilt around one of its rules, itself over the limit. -/
lemma fits_of_mem_resplit {b : MediaBlock} (hb : b ∈ m.resplit limit) :
    b.selectorCount ≤ limit ∨ limit < m.selectorCount ∧
      ∃ r ∈ m.rules, b = rewrap m.header [r] ∧ limit < r.selectorCount := by
  by_cases h : m.selectorCount ≤ limit
  · rw [resplit_of_le h, List.mem_singleton] at hb
    exact .inl (hb ▸ h)
  · rw [resplit_of_lt (Nat.not_le.mp h), List.mem_map] at hb
    obtain ⟨c, hc, rfl⟩ := hb
    have hpacked := pack_packed m.rules c hc
    rcases hpacked.fits with hle | ⟨r, hr, hover⟩
    · exact .inl (by rw [selectorCount_rewrap_of_packed hpacked m.header]; exact hle)
    · -- the chunk holds one rule over the limit, and it is one of the block's rules
      have hmem : r ∈ m.rules := by
        rw [← flatMap_items_pack Rule.selectorCount limit m.rules]
        exact List.mem_flatMap.mpr ⟨c, hc, by simp [hr]⟩
      exact .inr ⟨Nat.not_le.mp h, r, hmem, by rw [hr], hover⟩

/-- The first part of a split block is within the limit. -/
lemma selectorCount_le_of_resplit_eq_cons {b : MediaBlock} {rest : List MediaBlock}
    (h : m.resplit limit = b :: rest) : b.selectorCount ≤ limit := by
  by_cases hm : m.selectorCount ≤ limit
  · rw [resplit_of_le hm, List.cons.injEq] at h
    exact h.1 ▸ hm
  · obtain ⟨c, cs, hpack⟩ := List.exists_cons_of_ne_nil
      (pack_ne_nil Rule.selectorCount limit m.rules)
    have hc : c ∈ pack Rule.selectorCount limit m.rules := by
      rw [hpack]
      exact List.mem_cons_self
    rw [resplit_of_lt (Nat.not_le.mp hm), hpack, List.map_cons, List.cons.injEq] at h
    rw [← h.1, selectorCount_rewrap_of_packed (pack_packed m.rules c hc)]
    exact selectorCount_le_of_pack_eq_cons hpack

/-- Splitting a media block keeps its rules, in order, each once. -/
lemma flatMap_rules_resplit (limit : Nat) (m : MediaBlock) :
    (m.resplit limit).flatMap rules = m.rules := by
  by_cases h : m.selectorCount ≤ limit
  · simp [resplit_of_le h]
  · rw [resplit_of_lt (Nat.not_le.mp h), List.flatMap_map]
    exact flatMap_items_pack Rule.selectorCount limit m.rules

/-- A block over the limit is split into blocks rebuilt under its header from packed chunks of its
rules: every part but the first holds a rule, and the first holds none exactly when the block's
first rule is over the limit. -/
lemma resplit_shape_of_lt (h : limit < m.selectorCount) :
    (∀ p ∈ (m.resplit limit).tail, p.rules ≠ []) ∧
      ∃ p rest, m.resplit limit = p :: rest ∧
        (p.rules = [] ↔ ∃ r rs, m.rules = r :: rs ∧ limit < r.selectorCount) := by
  obtain ⟨c, cs, hpack⟩ := List.exists_cons_of_ne_nil (pack_ne_nil Rule.selectorCount limit m.rules)
  -- a block over the limit has a rule
  have hrules : m.rules ≠ [] := by
    rintro hnil
    simp [selectorCount, hnil] at h
  rw [resplit_of_lt h, hpack, List.map_cons]
  refine ⟨fun p hp => ?_, _, _, rfl, ?_⟩
  · obtain ⟨d, hd, rfl⟩ := List.mem_map.mp hp
    exact items_ne_nil_of_pack_eq_cons hpack d hd
  · simpa [hrules] using items_eq_nil_iff_of_pack_eq_cons hpack

/-- Splitting a media block under a limit. A block within the limit is kept as it is. A block over
it becomes blocks that hold its rules in order and weigh what it weighs, each written anew under
its header without trailing blanks, as `{ ` rules ` }`; each is within the limit unless it holds a
single rule over the limit; only the first can hold no rule, which happens exactly when the
block's first rule is over the limit. -/
theorem resplit_within_or_rebuilt (limit : Nat) (m : MediaBlock) :
    (m.selectorCount ≤ limit → m.resplit limit = [m]) ∧
    (limit < m.selectorCount →
      (m.resplit limit).flatMap rules = m.rules ∧
      ((m.resplit limit).map selectorCount).sum = m.selectorCount ∧
      (∀ p ∈ m.resplit limit, p.header = m.header.trimBlankEnd ∧
        p.body = "\x7b " ++ joinRules p.rules ++ " \x7d" ∧ p.text = p.header ++ " " ++ p.body ∧
        (p.selectorCount ≤ limit ∨ ∃ r, p.rules = [r] ∧ limit < r.selectorCount)) ∧
      (∀ p ∈ (m.resplit limit).tail, p.rules ≠ []) ∧
      ∃ p rest, m.resplit limit = p :: rest ∧
        (p.rules = [] ↔ ∃ r rs, m.rules = r :: rs ∧ limit < r.selectorCount)) := by
  refine ⟨resplit_of_le, fun h => ⟨flatMap_rules_resplit limit m, sum_selectorCount_resplit limit m,
    fun p hp => ?_, resplit_shape_of_lt h⟩⟩
  have hfits := fits_of_mem_resplit hp
  rw [resplit_of_lt h] at hp
  obtain ⟨c, -, rfl⟩ := List.mem_map.mp hp
  refine ⟨rfl, rfl, rfl, ?_⟩
  rcases hfits with hle | ⟨-, r, -, hr, hover⟩
  · exact .inl hle
  · -- the part is rebuilt around the one rule over the limit
    exact .inr ⟨r, by rw [hr]; rfl, hover⟩

end MediaBlock

namespace Stylesheet

/-- The plain rules packed under the limit: the chunks behind the rule chunks of a partition. -/
def ruleChunks (limit : Nat) (sheet : Stylesheet) : List (Chunk Rule) :=
  pack Rule.selectorCount limit sheet.rules

/-- The media blocks as the partition packs them, each block over the limit split first. -/
def resplitMedia (limit : Nat) (sheet : Stylesheet) : List MediaBlock :=
  sheet.media.flatMap (MediaBlock.resplit limit)

/-- The media blocks packed under the limit: the chunks behind the media chunks of a partition,
none when the stylesheet has no media blocks. -/
def mediaChunks (limit : Nat) (sheet : Stylesheet) : List (Chunk MediaBlock) :=
  if sheet.media.isEmpty then [] else pack MediaBlock.selectorCount limit (sheet.resplitMedia limit)

variable {limit : Nat} {sheet : Stylesheet}

/-- A partition is its rule chunks, then its media chunks. -/
lemma partition_eq (limit : Nat) (sheet : Stylesheet) :
    sheet.partition limit =
      (sheet.ruleChunks limit).map (OutputChunk.ofChunk Rule.text .rules) ++
        (sheet.mediaChunks limit).map (OutputChunk.ofChunk MediaBlock.text .media) := by
  unfold partition mediaChunks
  split <;> rfl

lemma ruleChunks_ne_nil (limit : Nat) (sheet : Stylesheet) : sheet.ruleChunks limit ≠ [] :=
  pack_ne_nil _ _ _

lemma mediaChunks_eq_nil_iff : sheet.mediaChunks limit = [] ↔ sheet.media = [] := by
  unfold mediaChunks
  split
  · next h => simpa using h
  · next h => simpa [pack_ne_nil] using h

lemma resplitMedia_eq_nil_iff : sheet.resplitMedia limit = [] ↔ sheet.media = [] := by
  cases hm : sheet.media with
  | nil => simp [resplitMedia, hm]
  | cons m ms =>
    obtain ⟨p, ps, hp⟩ := List.exists_cons_of_ne_nil (MediaBlock.resplit_ne_nil limit m)
    simp [resplitMedia, hm, hp]

/-- The first block the media stage packs is within the limit. -/
lemma selectorCount_le_of_resplitMedia_eq_cons {b : MediaBlock} {rest : List MediaBlock}
    (h : sheet.resplitMedia limit = b :: rest) : b.selectorCount ≤ limit := by
  cases hm : sheet.media with
  | nil => simp [resplitMedia, hm] at h
  | cons m ms =>
    obtain ⟨p, ps, hp⟩ := List.exists_cons_of_ne_nil (MediaBlock.resplit_ne_nil limit m)
    simp only [resplitMedia, hm, List.flatMap_cons, hp, List.cons_append, List.cons.injEq] at h
    exact h.1 ▸ MediaBlock.selectorCount_le_of_resplit_eq_cons hp

/-- A media chunk is a chunk of the packing of the split media blocks. -/
lemma mem_pack_of_mem_mediaChunks {k : Chunk MediaBlock} (hk : k ∈ sheet.mediaChunks limit) :
    k ∈ pack MediaBlock.selectorCount limit (sheet.resplitMedia limit) := by
  unfold mediaChunks at hk
  split at hk
  · simp at hk
  · exact hk

/-- Every media chunk holds a block: the first block packed is within the limit, so the first
media chunk is not closed empty. -/
lemma items_ne_nil_of_mem_mediaChunks {k : Chunk MediaBlock} (hk : k ∈ sheet.mediaChunks limit) :
    k.items ≠ [] := by
  unfold mediaChunks at hk
  split at hk
  · simp at hk
  · next hmedia =>
    obtain ⟨b, bs, hb⟩ := List.exists_cons_of_ne_nil (show sheet.resplitMedia limit ≠ [] by
      simpa [resplitMedia_eq_nil_iff] using hmedia)
    have hfirst := selectorCount_le_of_resplitMedia_eq_cons hb
    obtain ⟨c, cs, hcs⟩ := List.exists_cons_of_ne_nil
      (pack_ne_nil MediaBlock.selectorCount limit (sheet.resplitMedia limit))
    rw [hcs] at hk
    rcases List.mem_cons.mp hk with rfl | hk
    · intro hnil
      rcases (items_eq_nil_iff_of_pack_eq_cons hcs).mp hnil with h | ⟨x, ys, h, hx⟩
      · simp [hb] at h
      · rw [hb, List.cons.injEq] at h
        obtain ⟨rfl, -⟩ := h
        omega
    · exact items_ne_nil_of_pack_eq_cons hcs k hk

/-- Every media chunk is within the limit, or holds a single rebuilt block of a block over the
limit, around one rule that is itself over the limit. -/
lemma fits_of_mem_mediaChunks {k : Chunk MediaBlock} (hk : k ∈ sheet.mediaChunks limit) :
    k.selectorCount ≤ limit ∨ ∃ b ∈ sheet.media, ∃ r ∈ b.rules, limit < b.selectorCount ∧
      k.items = [MediaBlock.rewrap b.header [r]] ∧ limit < r.selectorCount := by
  have hk' := mem_pack_of_mem_mediaChunks hk
  rcases (pack_packed _ k hk').fits with hle | ⟨p, hp, hover⟩
  · exact .inl hle
  · -- the oversized item is a part of some block of the stylesheet
    have hmem : p ∈ sheet.resplitMedia limit := mem_of_mem_pack hk' (by simp [hp])
    obtain ⟨b, hb, hpb⟩ := List.mem_flatMap.mp hmem
    rcases MediaBlock.fits_of_mem_resplit hpb with hle | ⟨hb', r, hr, rfl, hr'⟩
    · omega
    · exact .inr ⟨b, hb, r, hr, hb', hp, hr'⟩

lemma sum_selectorCount_resplitMedia (limit : Nat) (sheet : Stylesheet) :
    ((sheet.resplitMedia limit).map MediaBlock.selectorCount).sum =
      (sheet.media.map MediaBlock.selectorCount).sum := by
  unfold resplitMedia
  induction sheet.media with
  | nil => simp
  | cons m ms ih =>
    simp only [List.flatMap_cons, List.map_append, List.sum_append, List.map_cons, List.sum_cons]
    rw [ih, MediaBlock.sum_selectorCount_resplit]

/-- The selector ceiling of a partition. Its chunks are the rule chunks, then the media chunks; each
records the selectors of the items packed into it, and is within the limit unless it holds one
item over the limit: a plain rule over the limit, or the rebuilt part of a split media block
holding one rule over the limit. Every chunk but the first rule chunk holds an item; the first
rule chunk is empty exactly when there are no rules or the first rule is over the limit. -/
theorem partition_within_limit (limit : Nat) (sheet : Stylesheet) :
    sheet.partition limit =
        (sheet.ruleChunks limit).map (OutputChunk.ofChunk Rule.text .rules) ++
          (sheet.mediaChunks limit).map (OutputChunk.ofChunk MediaBlock.text .media) ∧
      (∀ k ∈ sheet.ruleChunks limit, k.selectorCount = (k.items.map Rule.selectorCount).sum ∧
        (k.selectorCount ≤ limit ∨ ∃ r, k.items = [r] ∧ limit < r.selectorCount)) ∧
      (∀ k ∈ sheet.mediaChunks limit,
        k.selectorCount = (k.items.map MediaBlock.selectorCount).sum ∧
        (k.selectorCount ≤ limit ∨ ∃ b ∈ sheet.media, ∃ r ∈ b.rules, limit < b.selectorCount ∧
          k.items = [MediaBlock.rewrap b.header [r]] ∧ limit < r.selectorCount)) ∧
      (∀ k ∈ (sheet.ruleChunks limit).tail, k.items ≠ []) ∧
      (∀ k ∈ sheet.mediaChunks limit, k.items ≠ []) ∧
      ∃ k rest, sheet.ruleChunks limit = k :: rest ∧
        (k.items = [] ↔
          sheet.rules = [] ∨ ∃ r rs, sheet.rules = r :: rs ∧ limit < r.selectorCount) := by
  obtain ⟨k, rest, hk⟩ := List.exists_cons_of_ne_nil (ruleChunks_ne_nil limit sheet)
  refine ⟨partition_eq limit sheet, fun k hk => ?_, fun k hk => ?_, ?_,
    fun k hk => items_ne_nil_of_mem_mediaChunks hk, k, rest, hk, ?_⟩
  · exact ⟨(pack_packed _ k hk).weighs, (pack_packed _ k hk).fits⟩
  · have hpacked := pack_packed _ k (mem_pack_of_mem_mediaChunks hk)
    exact ⟨hpacked.weighs, fits_of_mem_mediaChunks hk⟩
  · rw [hk]
    exact items_ne_nil_of_pack_eq_cons hk
  · exact items_eq_nil_iff_of_pack_eq_cons hk

/-- A partition loses, repeats and reorders nothing. It is a non-empty run of rule chunks followed
by a run of media chunks, the latter empty exactly when there are no media blocks; the rule chunks'
texts make up the rules' texts, the media chunks' texts make up the texts of the split media
blocks, and the chunks' selectors add up to the stylesheet's. -/
theorem partition_conserves_text (limit : Nat) (sheet : Stylesheet) :
    ∃ R M, sheet.partition limit = R ++ M ∧ R ≠ [] ∧ (∀ c ∈ R, c.origin = .rules) ∧
      (∀ c ∈ M, c.origin = .media) ∧ (M = [] ↔ sheet.media = []) ∧
      String.join (R.map OutputChunk.text) = String.join (sheet.rules.map Rule.text) ∧
      String.join (M.map OutputChunk.text) =
        String.join (sheet.media.flatMap fun b => (b.resplit limit).map MediaBlock.text) ∧
      ((sheet.partition limit).map OutputChunk.selectorCount).sum = sheet.selectorCount := by
  refine ⟨_, _, partition_eq limit sheet, by simpa using ruleChunks_ne_nil limit sheet,
    by simp [OutputChunk.ofChunk], by simp [OutputChunk.ofChunk],
    by simpa using mediaChunks_eq_nil_iff, ?_, ?_, ?_⟩
  · -- the rule chunks' texts
    simpa [ruleChunks, OutputChunk.ofChunk, Function.comp_def] using
      join_text_pack Rule.selectorCount limit Rule.text sheet.rules
  · -- the media chunks' texts
    unfold mediaChunks
    split
    · next h => simp_all
    · have h := join_text_pack MediaBlock.selectorCount limit MediaBlock.text
        (sheet.resplitMedia limit)
      simpa [OutputChunk.ofChunk, Function.comp_def, resplitMedia, List.map_flatMap] using h
  · -- the selectors: the rule chunks weigh the rules, the media chunks the split blocks
    have hrules := sum_selectorCount_pack Rule.selectorCount limit sheet.rules
    have hmedia : ((sheet.mediaChunks limit).map Chunk.selectorCount).sum =
        (sheet.media.map MediaBlock.selectorCount).sum := by
      unfold mediaChunks
      split
      · next h => simp_all
      · rw [sum_selectorCount_pack, sum_selectorCount_resplitMedia]
    simp only [partition_eq, List.map_append, List.map_map, List.sum_append]
    simp only [Function.comp_def, OutputChunk.ofChunk, selectorCount]
    rw [← hmedia, ← hrules]
    rfl

end Stylesheet

end StyleSplit
