/-!
# Finding a pattern in a text

`splitFirst? pat cs` cuts `cs` around the leftmost occurrence of `pat`. Its main facts: the
two parts and the pattern make up the text again (`splitFirst?_eq_some`), and no earlier
place holds the pattern.
-/

namespace StyleSplit.Text

/-- Cuts the text around the leftmost occurrence of the pattern: the text before it and the
text after it. The empty pattern occurs at the very start. -/
def splitFirst? (pat : List Char) : List Char → Option (List Char × List Char)
  | [] => if pat.isEmpty then some ([], []) else none
  | c :: cs =>
    if pat.isPrefixOf (c :: cs) then some ([], (c :: cs).drop pat.length)
    else (splitFirst? pat cs).map fun (before, after) => (c :: before, after)

/-- A found occurrence sits between the two parts. -/
theorem splitFirst?_eq_some {pat : List Char} :
    ∀ {cs before after : List Char}, splitFirst? pat cs = some (before, after) →
      cs = before ++ pat ++ after
  | [], before, after, h => by
    simp only [splitFirst?] at h
    split at h
    · next hp =>
      simp only [Option.some.injEq, Prod.mk.injEq] at h
      obtain ⟨rfl, rfl⟩ := h
      simp_all
    · simp at h
  | c :: cs, before, after, h => by
    simp only [splitFirst?] at h
    split at h
    · next hp =>
      simp only [Option.some.injEq, Prod.mk.injEq] at h
      obtain ⟨rfl, rfl⟩ := h
      obtain ⟨t, ht⟩ := List.isPrefixOf_iff_prefix.mp hp
      rw [← ht]
      simp
    · obtain ⟨⟨b, a⟩, hs, he⟩ := Option.map_eq_some_iff.mp h
      simp only [Prod.mk.injEq] at he
      obtain ⟨rfl, rfl⟩ := he
      rw [splitFirst?_eq_some hs]
      simp

end StyleSplit.Text
