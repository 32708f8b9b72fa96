import Mathlib
import StyleSplit.Proofs.Packing

/-!
# Greedy packing needs the fewest chunks

A `Segmentation` of some items cuts them into consecutive groups, none of them empty, each
within the limit or a single item. The non-empty chunks of `pack` form one, and no segmentation
has fewer groups (`pack_fewest_groups`).

The lower bound is an exchange argument. It is carried by the number of chunks a run of the
packer emits from an open chunk, and two facts about it, both by induction on the items left,
splitting on the packer's test:

* `length_packFrom_mono`: a heavier open chunk never leads to fewer chunks, since it closes no
  later than a lighter one;
* `length_packFrom_le_succ`: whatever the open chunks, two runs over the same items differ by at
  most one chunk.

A group of a segmentation that is within the limit fits whole into the chunk it opens
(`packFrom_append_of_fits`), so after the first group the packer has used one chunk and stands
at the next group with some open chunk; that costs at most one chunk more than starting afresh
there (`length_packFrom_le_countP_succ`), and induction on the groups finishes the bound.
-/

namespace StyleSplit

variable {α : Type}

/-- `gs` cuts `items` into consecutive groups, none of them empty, each weighing at most the
limit or holding a single item. -/
structure Segmentation (weight : α → Nat) (limit : Nat) (items : List α) (gs : List (List α)) :
    Prop where
  flatten_eq : gs.flatten = items
  ne_nil : ∀ g ∈ gs, g ≠ []
  fits : ∀ g ∈ gs, (g.map weight).sum ≤ limit ∨ ∃ x, g = [x]

section Fewest

variable {weight : α → Nat} {limit : Nat}

/-- An open chunk already past the limit is closed by the next item, so the run from it has at
most one chunk more than the run from an empty chunk. -/
lemma length_packFrom_le_of_lt {o : Chunk α} (ho : limit < o.selectorCount) (ys : List α) :
    (packFrom weight limit o ys).length ≤ (packFrom weight limit Chunk.empty ys).length + 1 := by
  cases ys with
  | nil => simp
  | cons z zs =>
    rw [packFrom_cons_of_lt (by omega : limit < o.selectorCount + weight z)]
    by_cases hz : limit < (Chunk.empty : Chunk α).selectorCount + weight z
    · rw [packFrom_cons_of_lt hz]
      simp
    · rw [packFrom_cons_of_le (Nat.not_lt.mp hz)]
      simp

/-- A heavier open chunk never leads to fewer chunks: whenever the lighter one is closed, so is
the heavier one. -/
lemma length_packFrom_mono {c d : Chunk α} (h : c.selectorCount ≤ d.selectorCount) (xs : List α) :
    (packFrom weight limit c xs).length ≤ (packFrom weight limit d xs).length := by
  induction xs generalizing c d with
  | nil => simp
  | cons y ys ih =>
    by_cases hd : limit < d.selectorCount + weight y
    · rw [packFrom_cons_of_lt hd]
      by_cases hc : limit < c.selectorCount + weight y
      · simp only [packFrom_cons_of_lt hc, List.length_cons, Nat.le_refl]
      · -- `y` joins `c` but closes `d`: the run from `c` is no longer than one that has gone
        -- past the limit at `y`, which costs one chunk over starting afresh at `y`
        rw [packFrom_cons_of_le (Nat.not_lt.mp hc), List.length_cons]
        calc (packFrom weight limit (c.push weight y) ys).length
            ≤ (packFrom weight limit (d.push weight y) ys).length := ih (by simp; omega)
          _ ≤ (packFrom weight limit Chunk.empty ys).length + 1 :=
            length_packFrom_le_of_lt (by simpa using hd) ys
          _ ≤ (packFrom weight limit (Chunk.empty.push weight y) ys).length + 1 := by
            have := @ih Chunk.empty (Chunk.empty.push weight y) (by simp)
            omega
    · -- `y` joins both open chunks
      have hc : c.selectorCount + weight y ≤ limit := by omega
      rw [packFrom_cons_of_le hc, packFrom_cons_of_le (Nat.not_lt.mp hd)]
      exact ih (by simpa using h)

/-- Two runs of the packer over the same items, from any two open chunks, differ by at most one
chunk. -/
lemma length_packFrom_le_succ (c d : Chunk α) (xs : List α) :
    (packFrom weight limit c xs).length ≤ (packFrom weight limit d xs).length + 1 := by
  induction xs generalizing c d with
  | nil => simp
  | cons z zs ih =>
    by_cases hc : limit < c.selectorCount + weight z
    · -- `c` is closed at `z`; the run from `d` still covers the run opened by `z`
      rw [packFrom_cons_of_lt hc, List.length_cons]
      have hd : (packFrom weight limit (Chunk.empty.push weight z) zs).length ≤
          (packFrom weight limit d (z :: zs)).length := by
        by_cases hd : limit < d.selectorCount + weight z
        · rw [packFrom_cons_of_lt hd, List.length_cons]
          omega
        · rw [packFrom_cons_of_le (Nat.not_lt.mp hd)]
          exact length_packFrom_mono (by simp) zs
      omega
    · rw [packFrom_cons_of_le (Nat.not_lt.mp hc)]
      by_cases hd : limit < d.selectorCount + weight z
      · rw [packFrom_cons_of_lt hd, List.length_cons]
        have := ih (c.push weight z) (Chunk.empty.push weight z)
        omega
      · rw [packFrom_cons_of_le (Nat.not_lt.mp hd)]
        exact ih _ _

/-- The non-empty chunks of a packing of `x :: xs` are the run of the packer opened by `x`: the
packer either puts `x` into its empty first chunk or closes that chunk first. -/
lemma countP_pack_cons (x : α) (xs : List α) :
    (pack weight limit (x :: xs)).countP (fun c => !c.isEmpty) =
      (packFrom weight limit (Chunk.empty.push weight x) xs).length := by
  obtain ⟨c, rest, hrun, ⟨t, ht⟩, -, hne⟩ := packFrom_eq_cons weight limit
    (Chunk.empty.push weight x) xs
  -- every chunk of the run opened by `x` holds an item
  have hall : (packFrom weight limit (Chunk.empty.push weight x) xs).countP
      (fun c => !c.isEmpty) = (packFrom weight limit (Chunk.empty.push weight x) xs).length := by
    rw [List.countP_eq_length]
    intro d hd
    rw [hrun] at hd
    rcases List.mem_cons.mp hd with rfl | hd
    · simp [Chunk.isEmpty, ← ht]
    · simpa [Chunk.isEmpty] using hne d hd
  by_cases hx : limit < (Chunk.empty : Chunk α).selectorCount + weight x
  · rw [pack, packFrom_cons_of_lt hx, List.countP_cons, hall]
    simp [Chunk.isEmpty]
  · rw [pack, packFrom_cons_of_le (Nat.not_lt.mp hx), hall]

/-- A run of the packer from any open chunk has at most one chunk more than the packing of the
same items has non-empty chunks. -/
lemma length_packFrom_le_countP_succ (c : Chunk α) (ys : List α) :
    (packFrom weight limit c ys).length ≤
      (pack weight limit ys).countP (fun c => !c.isEmpty) + 1 := by
  cases ys with
  | nil => simp
  | cons z zs =>
    rw [countP_pack_cons]
    by_cases hz : limit < c.selectorCount + weight z
    · simp only [packFrom_cons_of_lt hz, List.length_cons, Nat.le_refl]
    · rw [packFrom_cons_of_le (Nat.not_lt.mp hz)]
      exact length_packFrom_le_succ _ _ zs

/-- Items that fit together into the open chunk all join it. -/
lemma packFrom_append_of_fits {c : Chunk α} {g : List α}
    (hg : c.selectorCount + (g.map weight).sum ≤ limit) (ys : List α) :
    packFrom weight limit c (g ++ ys) =
      packFrom weight limit (g.foldl (Chunk.push weight) c) ys := by
  induction g generalizing c with
  | nil => simp
  | cons z g ih =>
    simp only [List.map_cons, List.sum_cons] at hg
    rw [List.cons_append, packFrom_cons_of_le (by omega), List.foldl_cons]
    exact ih (by simp; omega)

/-- No segmentation has fewer groups than the packing has non-empty chunks. -/
lemma countP_pack_le_length {items : List α} {gs : List (List α)}
    (h : Segmentation weight limit items gs) :
    (pack weight limit items).countP (fun c => !c.isEmpty) ≤ gs.length := by
  induction gs generalizing items with
  | nil =>
    obtain rfl : items = [] := by simpa using h.flatten_eq.symm
    simp [pack, Chunk.isEmpty]
  | cons g gs ih =>
    obtain ⟨x, g', rfl⟩ := List.exists_cons_of_ne_nil (h.ne_nil _ List.mem_cons_self)
    have htail : Segmentation weight limit gs.flatten gs :=
      ⟨rfl, fun g hg => h.ne_nil g (List.mem_cons_of_mem _ hg),
        fun g hg => h.fits g (List.mem_cons_of_mem _ hg)⟩
    -- the first group goes into the chunk opened by `x`, which then stands open at the rest
    have hfirst : ∃ c, packFrom weight limit (Chunk.empty.push weight x) (g' ++ gs.flatten) =
        packFrom weight limit c gs.flatten := by
      rcases h.fits _ List.mem_cons_self with hle | ⟨y, hy⟩
      · refine ⟨_, packFrom_append_of_fits ?_ gs.flatten⟩
        simpa using hle
      · obtain ⟨-, rfl⟩ := List.cons_eq_cons.mp hy
        exact ⟨_, rfl⟩
    obtain ⟨c, hc⟩ := hfirst
    rw [← h.flatten_eq, List.flatten_cons, List.cons_append, countP_pack_cons, hc,
      List.length_cons]
    exact Nat.le_trans (length_packFrom_le_countP_succ c gs.flatten) (Nat.succ_le_succ (ih htail))

/-- The non-empty chunks of a packing, read as groups of items, are a segmentation. -/
lemma segmentation_pack (items : List α) :
    Segmentation weight limit items
      (((pack weight limit items).filter fun c => !c.isEmpty).map Chunk.items) := by
  refine ⟨?_, ?_, ?_⟩
  · -- dropping the empty chunks changes nothing in the items
    have hfilter : ((pack weight limit items).filter fun c => !c.isEmpty).map Chunk.items =
        ((pack weight limit items).map Chunk.items).filter fun l => !l.isEmpty := by
      rw [List.filter_map]
      rfl
    rw [hfilter, List.flatten_filter_not_isEmpty, ← List.flatMap_def, flatMap_items_pack]
  · intro g hg
    obtain ⟨c, hc, rfl⟩ := List.mem_map.mp hg
    simpa [Chunk.isEmpty] using (List.mem_filter.mp hc).2
  · intro g hg
    obtain ⟨c, hc, rfl⟩ := List.mem_map.mp hg
    have hpacked := pack_packed items c (List.mem_filter.mp hc).1
    rcases hpacked.fits with hle | ⟨x, hx, -⟩
    · exact .inl (hpacked.weighs ▸ hle)
    · exact .inr ⟨x, hx⟩

/-- Greedy packing needs the fewest chunks: its non-empty chunks cut the items into consecutive
groups that are each within the limit or a single item, and every such cut has at least as many
groups. -/
theorem pack_fewest_groups (weight : α → Nat) (limit : Nat) (items : List α) :
    IsLeast {n | ∃ gs, Segmentation weight limit items gs ∧ gs.length = n}
      ((pack weight limit items).countP fun c => !c.isEmpty) := by
  refine ⟨⟨_, segmentation_pack items, ?_⟩, ?_⟩
  · rw [List.length_map, List.countP_eq_length_filter]
  · rintro n ⟨gs, hgs, rfl⟩
    exact countP_pack_le_length hgs

/-- An item over the limit stands alone, and a weightless item after it opens a chunk of its own:
three groups, as few as any segmentation has. -/
example : (pack id 5 [3, 10, 0, 2]).countP (fun c => !c.isEmpty) = 3 := by decide

end Fewest

end StyleSplit
