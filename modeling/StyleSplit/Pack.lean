/-!
# Greedy packing under a limit

Items with weights are packed, in order, into chunks. A chunk is closed as soon as the next item
would take its weight past the limit, even when the chunk is still empty; the chunk left open
at the end is always kept. So the first chunk is empty exactly when there are no items or the
first item alone is over the limit, and an item over the limit sits alone in its chunk.

## Main definitions

* `Chunk`: the items of a chunk, in order, and their total weight.
* `pack weight limit items`: the greedy packing.
-/

namespace StyleSplit

/-- Items packed together, in order, and their total weight. -/
structure Chunk (α : Type) where
  items : List α
  /-- The sum of the items' weights. -/
  selectorCount : Nat
  deriving Repr, DecidableEq

namespace Chunk

variable {α : Type}

/-- The chunk with no items. -/
def empty : Chunk α :=
  ⟨[], 0⟩

/-- The chunk with one more item at its end. -/
def push (weight : α → Nat) (c : Chunk α) (x : α) : Chunk α :=
  ⟨c.items ++ [x], c.selectorCount + weight x⟩

/-- A chunk is empty when it has no items. -/
def isEmpty (c : Chunk α) : Bool :=
  c.items.isEmpty

/-- The texts of a chunk's items, one after another. -/
def text (text : α → String) (c : Chunk α) : String :=
  String.join (c.items.map text)

@[simp] theorem items_push (weight : α → Nat) (c : Chunk α) (x : α) :
    (c.push weight x).items = c.items ++ [x] := rfl

@[simp] theorem selectorCount_push (weight : α → Nat) (c : Chunk α) (x : α) :
    (c.push weight x).selectorCount = c.selectorCount + weight x := rfl

end Chunk

variable {α : Type}

/-- Packs items after an open chunk: an item that would take the open chunk past the limit
closes it and opens the next. -/
def packFrom (weight : α → Nat) (limit : Nat) (current : Chunk α) : List α → List (Chunk α)
  | [] => [current]
  | x :: xs =>
    if limit < current.selectorCount + weight x then
      current :: packFrom weight limit (Chunk.empty.push weight x) xs
    else
      packFrom weight limit (current.push weight x) xs

/-- Packs items greedily, in order, into chunks under a limit. -/
def pack (weight : α → Nat) (limit : Nat) (items : List α) : List (Chunk α) :=
  packFrom weight limit Chunk.empty items

/-- Packing never loses, repeats or reorders an item. -/
theorem flatMap_items_packFrom (weight : α → Nat) (limit : Nat) (current : Chunk α)
    (items : List α) :
    (packFrom weight limit current items).flatMap Chunk.items = current.items ++ items := by
  induction items generalizing current with
  | nil => simp [packFrom]
  | cons x xs ih =>
    simp only [packFrom]
    split
    · simp [ih, Chunk.empty]
    · simp [ih]

theorem flatMap_items_pack (weight : α → Nat) (limit : Nat) (items : List α) :
    (pack weight limit items).flatMap Chunk.items = items := by
  simp [pack, flatMap_items_packFrom, Chunk.empty]

end StyleSplit
