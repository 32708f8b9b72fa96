/-!
# Byte widths

Offsets into stylesheet text count bytes of its UTF-8 encoding, while the library reads the
text as a list of characters. `byteLength` joins the two views: the offset of a character is
the byte length of the characters before it.

The structural characters `{`, `}` and `;` are one byte wide, so cutting a text at them never
falls inside a character.
-/

namespace StyleSplit.Text

/-- The number of bytes the text takes in UTF-8. -/
def byteLength : List Char → Nat
  | [] => 0
  | c :: cs => c.utf8Size + byteLength cs

@[simp] theorem byteLength_nil : byteLength [] = 0 := rfl

@[simp] theorem byteLength_cons (c : Char) (cs : List Char) :
    byteLength (c :: cs) = c.utf8Size + byteLength cs := rfl

@[simp] theorem byteLength_append (xs ys : List Char) :
    byteLength (xs ++ ys) = byteLength xs + byteLength ys := by
  induction xs with
  | nil => simp
  | cons c cs ih => simp [ih, Nat.add_assoc]

/-- Each character is at least one byte, so the byte length bounds the length. -/
theorem length_le_byteLength (cs : List Char) : cs.length ≤ byteLength cs := by
  induction cs with
  | nil => simp
  | cons c cs ih =>
    have := c.utf8Size_pos
    simp only [List.length_cons, byteLength_cons]
    omega

/-- The characters paired with their byte offsets, the first at `pos`. -/
def withOffsets (pos : Nat) : List Char → List (Nat × Char)
  | [] => []
  | c :: cs => (pos, c) :: withOffsets (pos + c.utf8Size) cs

/-- The byte offsets at which a character starts, and the end of the text: the places where
the text may be cut. -/
def boundaries (cs : List Char) : List Nat :=
  (withOffsets 0 cs).map Prod.fst ++ [byteLength cs]

/-- Each character of a text placed at `pos` lies within the text's bytes. -/
theorem bounds_of_mem_withOffsets {o : Nat} {c : Char} :
    ∀ {pos : Nat} {cs : List Char}, (o, c) ∈ withOffsets pos cs →
      pos ≤ o ∧ o + c.utf8Size ≤ pos + byteLength cs
  | _, [], h => by simp [withOffsets] at h
  | pos, d :: cs, h => by
    simp only [withOffsets, List.mem_cons, Prod.mk.injEq] at h
    rcases h with ⟨rfl, rfl⟩ | h
    · simp
    · have := bounds_of_mem_withOffsets h
      simp only [byteLength_cons]
      omega

/-- A place where the text may be cut lies within it. -/
theorem le_byteLength_of_mem_boundaries {cs : List Char} {n : Nat} (h : n ∈ boundaries cs) :
    n ≤ byteLength cs := by
  simp only [boundaries, List.mem_append, List.mem_map, List.mem_singleton] at h
  rcases h with ⟨⟨o, c⟩, hmem, rfl⟩ | rfl
  · have := bounds_of_mem_withOffsets hmem
    omega
  · exact Nat.le_refl _

/-- The characters that lie wholly between the byte offsets `lo` and `hi`. -/
def charsWithin (lo hi : Nat) (cs : List Char) : List Char :=
  ((withOffsets 0 cs).filter fun (o, c) => lo ≤ o && o + c.utf8Size ≤ hi).map Prod.snd

/-- The first place at or after the byte offset `n` where the text may be cut. -/
def nextBoundary (n : Nat) (cs : List Char) : Nat :=
  ((boundaries cs).find? fun b => n ≤ b).getD (byteLength cs)

end StyleSplit.Text
