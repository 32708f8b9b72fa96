import Mathlib
import StyleSplit.Pack

/-!
# Laws of greedy packing

The laws of `pack` that hold for every weight, every limit and every list of items. The packer
is a left fold that keeps an open chunk; `packFrom` is that fold with the open chunk as an
argument, so each law here is first proved of `packFrom` for every open chunk satisfying an
invariant, by induction on the items left, and then read off for `pack`, whose open chunk is
empty.

* `Chunk.Packed` is what every chunk of a packing satisfies: its recorded weight is the sum of
  its items' weights, and it is within the limit unless it holds exactly one item that is over it.
  `Chunk.Packed.push` is the step (an item that fits is added), `Chunk.packed_single` the chunk
  opened by an item, and `packFrom_packed` the whole run.
* `packFrom_eq_cons` shapes the output: the open chunk grows into the first chunk, and every
  later chunk was opened by an item, so none of them is empty.
* `items_eq_nil_iff_of_pack_eq_cons`: the first chunk is empty exactly when there are no items or
  the first item alone is over the limit; `selectorCount_le_of_pack_eq_cons`: it is always within
  the limit.
* `sum_selectorCount_pack` and `join_text_pack`: the weights and the texts of the chunks add up to
  those of the items.
-/

namespace StyleSplit

variable {α : Type}

namespace Chunk

/-- What every chunk of a packing satisfies: its weight is the sum of its items' weights, and it
is within the limit or holds a single item over the limit. -/
structure Packed (weight : α → Nat) (limit : Nat) (c : Chunk α) : Prop where
  weighs : c.selectorCount = (c.items.map weight).sum
  fits : c.selectorCount ≤ limit ∨ ∃ x, c.items = [x] ∧ limit < weight x

@[simp] lemma items_empty : (Chunk.empty : Chunk α).items = [] := rfl

@[simp] lemma selectorCount_empty : (Chunk.empty : Chunk α).selectorCount = 0 := rfl

lemma packed_empty {weight : α → Nat} {limit : Nat} : (Chunk.empty : Chunk α).Packed weight limit :=
  ⟨rfl, .inl (Nat.zero_le _)⟩

/-- A chunk opened by one item is packed, whatever the item weighs. -/
lemma packed_single {weight : α → Nat} {limit : Nat} (x : α) :
    (Chunk.empty.push weight x).Packed weight limit := by
  refine ⟨by simp, ?_⟩
  by_cases hx : weight x ≤ limit
  · exact .inl (by simpa using hx)
  · exact .inr ⟨x, by simp, by omega⟩

/-- Adding an item that keeps a chunk within the limit keeps it packed. -/
lemma Packed.push {weight : α → Nat} {limit : Nat} {c : Chunk α} {x : α}
    (hc : c.Packed weight limit) (hx : c.selectorCount + weight x ≤ limit) :
    (c.push weight x).Packed weight limit :=
  ⟨by simp [hc.weighs], .inl (by simpa using hx)⟩

end Chunk

section Laws

variable {weight : α → Nat} {limit : Nat}

@[simp] lemma packFrom_nil (current : Chunk α) : packFrom weight limit current [] = [current] := by
  simp [packFrom]

lemma packFrom_cons_of_lt {current : Chunk α} {x : α} {xs : List α}
    (h : limit < current.selectorCount + weight x) :
    packFrom weight limit current (x :: xs) =
      current :: packFrom weight limit (Chunk.empty.push weight x) xs := by
  simp [packFrom, h]

lemma packFrom_cons_of_le {current : Chunk α} {x : α} {xs : List α}
    (h : current.selectorCount + weight x ≤ limit) :
    packFrom weight limit current (x :: xs) = packFrom weight limit (current.push weight x) xs := by
  simp [packFrom, Nat.not_lt.mpr h]

/-- Every chunk of a run of the packer is packed, when the open chunk it starts from is. -/
lemma packFrom_packed {current : Chunk α} (hc : current.Packed weight limit) (xs : List α) :
    ∀ c ∈ packFrom weight limit current xs, c.Packed weight limit := by
  induction xs generalizing current with
  | nil => simpa using hc
  | cons x xs ih =>
    by_cases h : limit < current.selectorCount + weight x
    · -- the open chunk is closed as it is, and `x` opens the next one
      rw [packFrom_cons_of_lt h]
      intro c hmem
      rcases List.mem_cons.mp hmem with rfl | hmem
      · exact hc
      · exact ih (Chunk.packed_single x) c hmem
    · rw [packFrom_cons_of_le (Nat.not_lt.mp h)]
      exact ih (hc.push (Nat.not_lt.mp h))

/-- Every chunk of a packing weighs the sum of its items and is within the limit, unless it holds
a single item over the limit. -/
lemma pack_packed (xs : List α) : ∀ c ∈ pack weight limit xs, c.Packed weight limit :=
  packFrom_packed Chunk.packed_empty xs

/-- A run of the packer starts with the open chunk, grown by the items that fit into it; every
chunk after the first was opened by an item. The first chunk stays within the limit when the open
chunk is. -/
lemma packFrom_eq_cons (weight : α → Nat) (limit : Nat) (current : Chunk α) (xs : List α) :
    ∃ c rest, packFrom weight limit current xs = c :: rest ∧ current.items <+: c.items ∧
      (current.selectorCount ≤ limit → c.selectorCount ≤ limit) ∧ ∀ d ∈ rest, d.items ≠ [] := by
  induction xs generalizing current with
  | nil => exact ⟨current, [], by simp, List.prefix_refl _, id, by simp⟩
  | cons x xs ih =>
    by_cases h : limit < current.selectorCount + weight x
    · obtain ⟨c, rest, hrun, hpre, -, hne⟩ := ih (Chunk.empty.push weight x)
      refine ⟨current, c :: rest, by rw [packFrom_cons_of_lt h, hrun], List.prefix_refl _, id, ?_⟩
      -- the chunk opened by `x` starts with `x`
      have hc : c.items ≠ [] := by
        obtain ⟨t, ht⟩ := hpre
        simp [← ht]
      intro d hd
      rcases List.mem_cons.mp hd with rfl | hd
      · exact hc
      · exact hne d hd
    · have hle : current.selectorCount + weight x ≤ limit := Nat.not_lt.mp h
      obtain ⟨c, rest, hrun, hpre, hlim, hne⟩ := ih (current.push weight x)
      refine ⟨c, rest, by rw [packFrom_cons_of_le hle, hrun], ?_, fun _ => hlim (by simpa), hne⟩
      exact (List.prefix_append current.items [x]).trans (by simpa using hpre)

/-- A packing is never empty: the last open chunk is always kept. -/
lemma pack_ne_nil (weight : α → Nat) (limit : Nat) (xs : List α) : pack weight limit xs ≠ [] := by
  obtain ⟨c, rest, h, -⟩ := packFrom_eq_cons weight limit Chunk.empty xs
  simp [pack, h]

section FirstChunk

variable {xs : List α} {c : Chunk α} {rest : List (Chunk α)}

/-- Every chunk of a packing but the first holds an item. -/
lemma items_ne_nil_of_pack_eq_cons (h : pack weight limit xs = c :: rest) :
    ∀ d ∈ rest, d.items ≠ [] := by
  obtain ⟨c', rest', h', -, -, hne⟩ := packFrom_eq_cons weight limit
    Chunk.empty xs
  rw [pack, h'] at h
  obtain ⟨-, rfl⟩ := List.cons.inj h
  exact hne

/-- The first chunk of a packing is within the limit: an item over the limit first closes the
empty open chunk. -/
lemma selectorCount_le_of_pack_eq_cons (h : pack weight limit xs = c :: rest) :
    c.selectorCount ≤ limit := by
  obtain ⟨c', rest', h', -, hlim, -⟩ := packFrom_eq_cons weight limit
    Chunk.empty xs
  rw [pack, h'] at h
  obtain ⟨rfl, -⟩ := List.cons.inj h
  exact hlim (Nat.zero_le _)

/-- The first chunk of a packing is empty exactly when there are no items or the first item alone
is over the limit. -/
lemma items_eq_nil_iff_of_pack_eq_cons (h : pack weight limit xs = c :: rest) :
    c.items = [] ↔ xs = [] ∨ ∃ x ys, xs = x :: ys ∧ limit < weight x := by
  cases xs with
  | nil =>
    simp only [pack, packFrom_nil, List.cons.injEq] at h
    simp [← h.1]
  | cons x ys =>
    by_cases hx : limit < weight x
    · have hlt : limit < (Chunk.empty : Chunk α).selectorCount + weight x := by simpa using hx
      simp only [pack, packFrom_cons_of_lt hlt, List.cons.injEq] at h
      simp [← h.1, hx]
    · -- `x` goes into the first chunk
      have hle : (Chunk.empty : Chunk α).selectorCount + weight x ≤ limit := by simpa using hx
      obtain ⟨c', rest', hrun, ⟨t, ht⟩, -⟩ := packFrom_eq_cons weight limit
        (Chunk.empty.push weight x) ys
      rw [pack, packFrom_cons_of_le hle, hrun] at h
      obtain ⟨rfl, -⟩ := List.cons.inj h
      simp [← ht, hx]

end FirstChunk

/-- Packing keeps the total weight: the chunks' weights add up to the open chunk's and the
items'. -/
lemma sum_selectorCount_packFrom (weight : α → Nat) (limit : Nat) (current : Chunk α)
    (xs : List α) :
    ((packFrom weight limit current xs).map Chunk.selectorCount).sum =
      current.selectorCount + (xs.map weight).sum := by
  induction xs generalizing current with
  | nil => simp
  | cons x xs ih =>
    by_cases h : limit < current.selectorCount + weight x
    · rw [packFrom_cons_of_lt h, List.map_cons, List.sum_cons, ih]
      simp
    · rw [packFrom_cons_of_le (Nat.not_lt.mp h), ih]
      simp
      omega

lemma sum_selectorCount_pack (weight : α → Nat) (limit : Nat) (xs : List α) :
    ((pack weight limit xs).map Chunk.selectorCount).sum = (xs.map weight).sum := by
  simp [pack, sum_selectorCount_packFrom]

lemma mem_of_mem_pack {xs : List α} {c : Chunk α} (hc : c ∈ pack weight limit xs) {x : α}
    (hx : x ∈ c.items) : x ∈ xs := by
  rw [← flatMap_items_pack weight limit xs]
  exact List.mem_flatMap.mpr ⟨c, hc, hx⟩

/-- The texts of the chunks, one after another, are the texts of the items. -/
lemma join_text_pack (weight : α → Nat) (limit : Nat) (text : α → String) (xs : List α) :
    String.join ((pack weight limit xs).map (Chunk.text text)) = String.join (xs.map text) := by
  rw [← String.toList_inj]
  have h := congrArg (fun l => (l.map text).flatMap String.toList)
    (flatMap_items_pack weight limit xs)
  simpa [Chunk.text, List.flatMap_map, List.map_flatMap, List.flatMap_assoc] using h

end Laws

end StyleSplit
