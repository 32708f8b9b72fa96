import Mathlib
import StyleSplit.Proofs.Packing

/-!
# Greedy packing is the only packing of its kind

`Proofs/Packing.lean` proves laws that every output of `pack` satisfies. Here those laws are
sharpened into a description of the output that no other list of chunks meets.

`GreedyCut weight limit 0 items cs` says, with no reference to the packer, that the chunks `cs`
cut `items` the greedy way:

1. the chunks hold the items, in order, each exactly once;
2. each chunk records the sum of its items' weights;
3. every chunk after the first holds an item;
4. within each chunk the running total of the weights up to each item is within the limit,
   except at the item that opens a chunk after the first;
5. every chunk after the first is opened by an item that would have taken the chunk before it
   past the limit.

The index `start` in `GreedyCut weight limit start` is where condition 4 starts to count in the
first chunk: `0` for a whole packing, `1` for what the packer still emits after it has closed a
chunk, whose first chunk is opened by an item of any weight.

`GreedyCut.cons` puts a greedy cut together from a first chunk and the greedy cut after it, and
`GreedyCut.tail` with `GreedyCut.next_opens_with` takes one apart.

The packer is a fold with an open chunk, so both directions are proved of `packFrom` for every
open chunk, by induction on the items left, splitting on the packer's test:

* `greedyCut_packFrom`: a run of the packer is a greedy cut of the open chunk's items and the
  items left;
* `eq_packFrom_of_greedyCut`: a greedy cut whose first chunk extends the open chunk is that run.
  An item that fits cannot open the next chunk (condition 5), and an item that does not fit cannot
  join the open chunk (condition 4).

The main statement is `greedyCut_iff_eq_pack`.
-/

namespace StyleSplit

variable {α : Type}

namespace Chunk

variable {weight : α → Nat} {limit : Nat}

/-- The running totals of a chunk stay within the limit from its item at index `start` on: the
items up to and including each such item weigh at most the limit. -/
def FitsFrom (weight : α → Nat) (limit start : Nat) (c : Chunk α) : Prop :=
  ∀ k, start ≤ k → k < c.items.length → ((c.items.take (k + 1)).map weight).sum ≤ limit

lemma fitsFrom_empty (start : Nat) : (Chunk.empty : Chunk α).FitsFrom weight limit start :=
  fun _ _ hk => absurd hk (by simp)

/-- A chunk opened by one item fits from its second item on, whatever the item weighs. -/
lemma fitsFrom_single (x : α) : (Chunk.empty.push weight x).FitsFrom weight limit 1 :=
  fun k hk hlt => absurd hlt (by simp; omega)

/-- Adding an item that keeps the chunk within the limit keeps its running totals within it. -/
lemma FitsFrom.push {c : Chunk α} {start : Nat} {x : α} (hc : c.FitsFrom weight limit start)
    (hw : c.selectorCount = (c.items.map weight).sum) (hx : c.selectorCount + weight x ≤ limit) :
    (c.push weight x).FitsFrom weight limit start := by
  intro k hk hlt
  simp only [items_push, List.length_append, List.length_singleton] at hlt ⊢
  rcases Nat.lt_succ_iff_lt_or_eq.mp hlt with hlt | rfl
  · rw [List.take_append_of_le_length (by omega)]
    exact hc k hk hlt
  · -- the running total at the new item is the whole chunk
    rw [List.take_of_length_le (by simp)]
    simpa [← hw] using hx

/-- The running total at an item counted by `FitsFrom` is within the limit. -/
lemma FitsFrom.sum_le {c : Chunk α} {start : Nat} {l : List α} {x : α}
    (hc : c.FitsFrom weight limit start) (hpre : l ++ [x] <+: c.items) (hl : start ≤ l.length) :
    ((l ++ [x]).map weight).sum ≤ limit := by
  have hlen := hpre.length_le
  simp only [List.length_append, List.length_singleton] at hlen
  have htake : c.items.take (l.length + 1) = l ++ [x] := by
    simpa using (List.prefix_iff_eq_take.mp hpre).symm
  simpa [htake] using hc l.length hl (by omega)

/-- A chunk whose items and recorded weight are those of another is that chunk. -/
lemma eq_of_items_eq {c d : Chunk α} (hc : c.selectorCount = (c.items.map weight).sum)
    (hd : d.selectorCount = (d.items.map weight).sum) (h : c.items = d.items) : c = d := by
  cases c
  cases d
  simp_all

/-- An item over the limit in a packed chunk is the chunk's only item. -/
lemma Packed.eq_singleton_of_lt {c : Chunk α} (hc : c.Packed weight limit) {x : α}
    (hx : x ∈ c.items) (hover : limit < weight x) : c.items = [x] := by
  rcases hc.fits with hle | ⟨y, hy, -⟩
  · have := List.le_sum_of_mem (List.mem_map_of_mem (f := weight) hx)
    rw [← hc.weighs] at this
    omega
  · rw [hy, List.mem_singleton] at hx
    rw [hy, hx]

end Chunk

/-- The chunks `cs` cut `items` greedily under the limit, the running totals of the first chunk
counted from its item at index `start` on. -/
structure GreedyCut (weight : α → Nat) (limit start : Nat) (items : List α)
    (cs : List (Chunk α)) : Prop where
  ne_nil : cs ≠ []
  items_eq : cs.flatMap Chunk.items = items
  weighs : ∀ c ∈ cs, c.selectorCount = (c.items.map weight).sum
  later_ne_nil : ∀ c ∈ cs.tail, c.items ≠ []
  first_fits : ∀ c ∈ cs.head?, c.FitsFrom weight limit start
  later_fit : ∀ c ∈ cs.tail, c.FitsFrom weight limit 1
  /-- Each chunk after the first is opened by an item that would take the one before past the
  limit. -/
  full : cs.IsChain fun c d => ∀ x ∈ d.items.head?, limit < c.selectorCount + weight x

section Greedy

variable {weight : α → Nat} {limit : Nat}

/-- What follows the first chunk of a greedy cut is a greedy cut of the items after it, from its
second item on. -/
lemma GreedyCut.tail {start : Nat} {items : List α} {c : Chunk α} {rest : List (Chunk α)}
    (h : GreedyCut weight limit start items (c :: rest)) (hrest : rest ≠ []) :
    GreedyCut weight limit 1 (rest.flatMap Chunk.items) rest where
  ne_nil := hrest
  items_eq := rfl
  weighs := fun d hd => h.weighs d (List.mem_cons_of_mem _ hd)
  later_ne_nil := fun d hd => h.later_ne_nil d (List.mem_of_mem_tail hd)
  first_fits := fun d hd => h.later_fit d (List.mem_of_mem_head? hd)
  later_fit := fun d hd => h.later_fit d (List.mem_of_mem_tail hd)
  full := h.full.tail

/-- A chunk that records its weight and fits from `start`, closed before an item that would take
it past the limit, followed by a greedy cut opened by that item, is a greedy cut. -/
lemma GreedyCut.cons {start : Nat} {items : List α} {c d : Chunk α} {rest : List (Chunk α)}
    {x : α} {t : List α} (hw : c.selectorCount = (c.items.map weight).sum)
    (hfit : c.FitsFrom weight limit start) (h : GreedyCut weight limit 1 items (d :: rest))
    (hd : d.items = x :: t) (hover : limit < c.selectorCount + weight x) :
    GreedyCut weight limit start (c.items ++ items) (c :: d :: rest) where
  ne_nil := List.cons_ne_nil _ _
  items_eq := by rw [List.flatMap_cons, h.items_eq]
  weighs := by
    intro e he
    rcases List.mem_cons.mp he with rfl | he
    · exact hw
    · exact h.weighs e he
  later_ne_nil := by
    intro e he
    rcases List.mem_cons.mp he with rfl | he
    · simp [hd]
    · exact h.later_ne_nil e he
  first_fits := by simpa using hfit
  later_fit := by
    intro e he
    rcases List.mem_cons.mp he with rfl | he
    · exact h.first_fits e rfl
    · exact h.later_fit e he
  full := List.isChain_cons_cons.mpr ⟨by simpa [hd] using hover, h.full⟩

/-- When items are left after the first chunk of a greedy cut, the next chunk opens with the first
of them. -/
lemma GreedyCut.next_opens_with {start : Nat} {items : List α} {c : Chunk α}
    {rest : List (Chunk α)} {x : α} {xs : List α}
    (h : GreedyCut weight limit start items (c :: rest))
    (hrest : rest.flatMap Chunk.items = x :: xs) :
    ∃ d rest', rest = d :: rest' ∧ ∃ t, d.items = x :: t := by
  obtain ⟨d, rest', rfl⟩ := List.exists_cons_of_ne_nil (show rest ≠ [] by
    rintro rfl
    simp at hrest)
  obtain ⟨z, t, hz⟩ := List.exists_cons_of_ne_nil (h.later_ne_nil d List.mem_cons_self)
  rw [List.flatMap_cons, hz, List.cons_append, List.cons.injEq] at hrest
  exact ⟨d, rest', rfl, t, hrest.1 ▸ hz⟩

/-- A run of the packer from an open chunk that records its weight and fits from `start` is a
greedy cut of the open chunk's items followed by the items left. -/
lemma greedyCut_packFrom {current : Chunk α} {start : Nat}
    (hw : current.selectorCount = (current.items.map weight).sum)
    (hfit : current.FitsFrom weight limit start) (xs : List α) :
    GreedyCut weight limit start (current.items ++ xs) (packFrom weight limit current xs) := by
  induction xs generalizing current start with
  | nil =>
    rw [packFrom_nil]
    exact ⟨by simp, by simp, by simpa using hw, by simp, by simpa using hfit, by simp,
      .singleton _⟩
  | cons x xs ih =>
    by_cases h : limit < current.selectorCount + weight x
    · -- the open chunk is closed as it is, and `x` opens a chunk of its own
      rw [packFrom_cons_of_lt h]
      have hrest := ih (by simp) (Chunk.fitsFrom_single x)
      obtain ⟨d, rest, hrun, ⟨t, ht⟩, -⟩ :=
        packFrom_eq_cons weight limit (Chunk.empty.push weight x) xs
      rw [hrun] at hrest ⊢
      exact GreedyCut.cons hw hfit (by simpa using hrest) (by simpa using ht.symm) h
    · -- `x` joins the open chunk
      have hle : current.selectorCount + weight x ≤ limit := Nat.not_lt.mp h
      rw [packFrom_cons_of_le hle]
      have hrest := ih (by simp [hw]) (hfit.push hw hle)
      simpa using hrest

/-- A greedy cut whose first chunk extends the open chunk is the packer's run from it. -/
lemma eq_packFrom_of_greedyCut {current : Chunk α} {start : Nat}
    (hw : current.selectorCount = (current.items.map weight).sum)
    (hlen : start ≤ current.items.length) {xs : List α} {cs : List (Chunk α)}
    (h : GreedyCut weight limit start (current.items ++ xs) cs)
    (hpre : ∀ c ∈ cs.head?, current.items <+: c.items) :
    cs = packFrom weight limit current xs := by
  induction xs generalizing current start cs with
  | nil =>
    obtain ⟨c, rest, rfl⟩ := List.exists_cons_of_ne_nil h.ne_nil
    obtain ⟨ys, hys⟩ := hpre c rfl
    have hitems : ys = [] ∧ ∀ d ∈ rest, d.items = [] := by simpa [← hys] using h.items_eq
    -- the chunks after the first would hold items, and there are none left
    have hrest : rest = [] :=
      List.eq_nil_iff_forall_not_mem.mpr fun d hd => h.later_ne_nil d hd (hitems.2 d hd)
    subst hrest
    rw [packFrom_nil, Chunk.eq_of_items_eq (h.weighs c List.mem_cons_self) hw
      (by rw [← hys, hitems.1, List.append_nil])]
  | cons x xs ih =>
    obtain ⟨c, rest, rfl⟩ := List.exists_cons_of_ne_nil h.ne_nil
    obtain ⟨ys, hys⟩ := hpre c rfl
    have hitems : ys ++ rest.flatMap Chunk.items = x :: xs := by
      have := h.items_eq
      rwa [List.flatMap_cons, ← hys, List.append_assoc, List.append_cancel_left_eq] at this
    have hwc : c.selectorCount = (c.items.map weight).sum := h.weighs c List.mem_cons_self
    by_cases hx : limit < current.selectorCount + weight x
    · -- `x` cannot join the first chunk, so the first chunk is the open one
      obtain rfl : ys = [] := by
        rcases ys with _ | ⟨y, ys⟩
        · rfl
        · obtain ⟨rfl, -⟩ := List.cons_eq_cons.mp hitems
          have := (h.first_fits c rfl).sum_le (l := current.items) (x := y)
            (by rw [← hys]; simp) hlen
          simp only [List.map_append, List.sum_append, List.map_singleton, List.sum_singleton,
            ← hw] at this
          omega
      rw [List.nil_append] at hitems
      obtain rfl : c = current := Chunk.eq_of_items_eq hwc hw (by simpa using hys.symm)
      obtain ⟨d, rest', rfl, t, hd⟩ := h.next_opens_with hitems
      have htail := h.tail (List.cons_ne_nil d rest')
      rw [hitems] at htail
      rw [packFrom_cons_of_lt hx,
        @ih (Chunk.empty.push weight x) 1 (by simp) (by simp) (d :: rest') htail (by simp [hd])]
    · -- `x` fits, so it cannot open the next chunk and joins the first
      have hle : current.selectorCount + weight x ≤ limit := Nat.not_lt.mp hx
      obtain ⟨ys', rfl⟩ : ∃ ys', ys = x :: ys' := by
        rcases ys with _ | ⟨y, ys'⟩
        · rw [List.nil_append] at hitems
          obtain ⟨d, rest', rfl, t, hd⟩ := h.next_opens_with hitems
          have hchain := (List.isChain_cons_cons.mp h.full).1 x (by simp [hd])
          rw [hwc, ← hys, List.append_nil, ← hw] at hchain
          omega
        · exact ⟨ys', (List.cons_eq_cons.mp hitems).1 ▸ rfl⟩
      rw [packFrom_cons_of_le hle]
      refine @ih (current.push weight x) start (by simp [hw]) (by simp; omega) _
        (by simpa using h) ?_
      intro d hd
      obtain rfl : d = c := by simpa using hd.symm
      rw [← hys]
      simp

/-- The greedy packing is the only greedy cut of the items: the chunks hold the items in order,
each records its weight, all but the first hold an item, running totals stay within the limit
except at the item opening a later chunk, and each later chunk is opened by an item that would
take the one before past the limit. In particular the first chunk is within the limit and is
empty exactly when there are no items or the first is over the limit, and an item over the limit
sits alone in its chunk. -/
theorem greedyCut_iff_eq_pack (weight : α → Nat) (limit : Nat) (items : List α) :
    (∀ cs, GreedyCut weight limit 0 items cs ↔ cs = pack weight limit items) ∧
    (∃ c rest, pack weight limit items = c :: rest ∧ c.selectorCount ≤ limit ∧
      (c.items = [] ↔ items = [] ∨ ∃ x ys, items = x :: ys ∧ limit < weight x)) ∧
    ∀ c ∈ pack weight limit items, ∀ x ∈ c.items, limit < weight x → c.items = [x] := by
  obtain ⟨c, rest, hpack⟩ := List.exists_cons_of_ne_nil (pack_ne_nil weight limit items)
  refine ⟨fun cs => ⟨fun h => ?_, ?_⟩, ⟨c, rest, hpack, ?_, ?_⟩, ?_⟩
  · -- a greedy cut is the packer's run from the empty open chunk
    exact eq_packFrom_of_greedyCut rfl (Nat.zero_le _) (by simpa using h) (by simp)
  · rintro rfl
    simpa [pack] using greedyCut_packFrom (by rfl) (Chunk.fitsFrom_empty 0) items
  · exact selectorCount_le_of_pack_eq_cons hpack
  · exact items_eq_nil_iff_of_pack_eq_cons hpack
  · intro c hc x hx hover
    exact (pack_packed items c hc).eq_singleton_of_lt hx hover

end Greedy

end StyleSplit
