import Mathlib
import StyleSplit.Path

/-!
# Laws of paths

A path means its list of components (`Path.components`), and everything the store does with
paths (same, lies under, directly in) goes through components. This module says what `join`
and `parent`, which work on the written text, do to components.

* `componentsOf` is `Path.components` on the written characters; it is the components of the
  lead (root or a leading `.`) followed by `bodyComponents` of the rest, the parts between
  separators that stand for a component.
* `componentsOf_append_slash`: a separator cuts the components of a text in two, as long as
  something stands before it. From it, `components_join`: joining a relative path to a non-empty
  one appends the components of its parts, and `components_join_name` for a single name.
* `parent_map_components`: the parent of a path is its components without the last one, and
  there is none exactly for the empty path and the root. Its proof rebuilds the parent's text as
  a beginning of the path's text, ended by a separator and the last part.
* `compare_eq_iff_same`: paths are equal in path order exactly when they are the same path.
-/

namespace StyleSplit

namespace Path

/-- The components that the parts of a path's body stand for, the parts cut at `/`. -/
def bodyComponents (body : List Char) : List Component :=
  (body.splitOn '/').filterMap Component.ofPart

/-- The components of a path written as these characters. -/
def componentsOf (cs : List Char) : List Component :=
  (leadComponent cs).toList ++ bodyComponents (cs.drop (leadLength cs))

/-- A name that stands for one normal component: no `/` in it, and neither empty, `.` nor
`..`. -/
def IsName (n : String) : Prop :=
  '/' ∉ n.toList ∧ n.toList ≠ [] ∧ n.toList ≠ ['.'] ∧ n.toList ≠ ['.', '.']

instance : DecidablePred IsName := fun _ => inferInstanceAs (Decidable (_ ∧ _))

/-! ## Parts between separators -/

section Parts

lemma splitOn_append_slash (u v : List Char) :
    (u ++ '/' :: v).splitOn '/' = u.splitOn '/' ++ v.splitOn '/' := by
  simp only [List.splitOn_eq_splitOnP]
  exact List.splitOnP_append_cons u v (by decide)

/-- No part has a separator in it. -/
lemma slash_not_mem_of_mem_splitOn : ∀ {cs part : List Char}, part ∈ cs.splitOn '/' → '/' ∉ part
  | [], part, h => by simp_all [List.splitOn_eq_splitOnP]
  | c :: cs, part, h => by
    by_cases hc : c = '/'
    · subst hc
      have : ('/' :: cs).splitOn '/' = [] :: cs.splitOn '/' := by
        simpa using splitOn_append_slash [] cs
      rw [this, List.mem_cons] at h
      rcases h with rfl | h
      · simp
      · exact slash_not_mem_of_mem_splitOn h
    · simp only [List.splitOn_eq_splitOnP, List.splitOnP_cons_eq_if_modifyHead,
        beq_iff_eq, hc, if_false] at h
      -- the first part gets `c` in front, the others are parts of `cs`
      obtain ⟨first, rest, hsplit⟩ := List.exists_cons_of_ne_nil
        (List.splitOnP_ne_nil (fun x => x == '/') cs)
      rw [hsplit, List.modifyHead_cons, List.mem_cons] at h
      have hmem : ∀ x ∈ first :: rest, '/' ∉ x := fun x hx =>
        slash_not_mem_of_mem_splitOn (by rw [List.splitOn_eq_splitOnP, hsplit]; exact hx)
      rcases h with rfl | h
      · simpa [Ne.symm hc] using hmem first (by simp)
      · exact hmem part (by simp [h])

@[simp] lemma bodyComponents_nil : bodyComponents [] = [] := rfl

lemma bodyComponents_append_slash (u v : List Char) :
    bodyComponents (u ++ '/' :: v) = bodyComponents u ++ bodyComponents v := by
  simp [bodyComponents, splitOn_append_slash]

lemma ofPart_eq_none_iff {part : List Char} :
    Component.ofPart part = none ↔ isComponentPart part = false := by
  simp [isComponentPart]

lemma filterMap_parts (body : List Char) :
    (parts body).filterMap Component.ofPart = bodyComponents body := by
  cases body <;> simp [parts, bodyComponents, List.splitOn_eq_splitOnP, Component.ofPart]

/-- The parts of a text put back together with separators are the text. -/
lemma intercalate_parts {body : List Char} (h : body ≠ []) :
    ['/'].intercalate (parts body) = body := by
  simp [parts, List.isEmpty_iff, h, List.intercalate_splitOn]

/-- Putting parts together with separators, a run of parts after another. -/
lemma intercalate_append {xs ys : List (List Char)} (hxs : xs ≠ []) (hys : ys ≠ []) :
    ['/'].intercalate (xs ++ ys) = ['/'].intercalate xs ++ '/' :: ['/'].intercalate ys := by
  induction xs with
  | nil => exact absurd rfl hxs
  | cons x xs ih =>
    cases xs with
    | nil =>
      obtain ⟨y, ys, rfl⟩ := List.exists_cons_of_ne_nil hys
      simp [List.intercalate_cons_cons]
    | cons x' xs =>
      rw [List.cons_append, List.cons_append, List.intercalate_cons_cons, ← List.cons_append,
        ih (by simp), List.intercalate_cons_cons]
      simp

lemma bodyComponents_intercalate {ps : List (List Char)} (hps : ps ≠ [])
    (hslash : ∀ part ∈ ps, '/' ∉ part) :
    bodyComponents (['/'].intercalate ps) = ps.filterMap Component.ofPart := by
  rw [bodyComponents, List.splitOn_intercalate '/' hslash hps]

end Parts

/-! ## Components of a written path -/

section Components

lemma components_eq (p : Path) : p.components = componentsOf p.text.toList := by
  simp [components, componentsOf, filterMap_parts]

lemma leadLength_eq (cs : List Char) : leadLength cs = (leadComponent cs).toList.length := by
  unfold leadLength leadComponent
  split <;> rfl

lemma leadLength_le_one (cs : List Char) : leadLength cs ≤ 1 := by
  rw [leadLength_eq]
  cases leadComponent cs <;> simp

/-- The lead of a text is decided by its first two characters, so a separator after a
non-empty text does not change it. -/
lemma leadComponent_append_slash {b : List Char} (hb : b ≠ []) (q : List Char) :
    leadComponent (b ++ '/' :: q) = leadComponent b := by
  obtain ⟨c, b, rfl⟩ := List.exists_cons_of_ne_nil hb
  by_cases hslash : c = '/'
  · subst hslash; rfl
  · by_cases hdot : c = '.'
    · subst hdot
      rcases b with _ | ⟨d, b⟩
      · rfl
      · by_cases hd : d = '/'
        · subst hd; rfl
        · simp [leadComponent, hd]
    · simp [leadComponent, hslash, hdot]

/-- A separator after a non-empty text cuts its components in two. -/
lemma componentsOf_append_slash {b : List Char} (hb : b ≠ []) (q : List Char) :
    componentsOf (b ++ '/' :: q) = componentsOf b ++ bodyComponents q := by
  have hlen : leadLength (b ++ '/' :: q) = leadLength b := by
    rw [leadLength_eq, leadLength_eq, leadComponent_append_slash hb]
  have hle : leadLength b ≤ b.length := by
    have := leadLength_le_one b
    have := List.length_pos_iff.mpr hb
    omega
  simp only [componentsOf, hlen, leadComponent_append_slash hb, List.drop_append_of_le_length hle,
    bodyComponents_append_slash, List.append_assoc]

@[simp] lemma componentsOf_nil : componentsOf [] = [] := rfl

lemma componentsOf_slash (q : List Char) : componentsOf ('/' :: q) = .root :: bodyComponents q :=
  rfl

/-- The lead of a text, written alone, is the lead component. -/
lemma componentsOf_take_leadLength (cs : List Char) :
    componentsOf (cs.take (leadLength cs)) = (leadComponent cs).toList := by
  unfold leadLength leadComponent
  split <;> rfl

lemma leadComponent_eq_some {cs : List Char} {c : Component} (h : leadComponent cs = some c) :
    c = .root ∨ c = .current := by
  unfold leadComponent at h
  split at h <;> simp_all

lemma ofPart_ne_root {part : List Char} : Component.ofPart part ≠ some .root := by
  unfold Component.ofPart
  split <;> simp

lemma ofPart_of_isName {n : String} (h : IsName n) : Component.ofPart n.toList = some (.normal n) := by
  obtain ⟨-, h1, h2, h3⟩ := h
  unfold Component.ofPart
  split <;> simp_all

lemma bodyComponents_of_isName {n : String} (h : IsName n) : bodyComponents n.toList = [.normal n] := by
  simp [bodyComponents, List.splitOn_eq_singleton h.1, ofPart_of_isName h]

lemma components_of_isName {n : String} (h : IsName n) : (⟨n⟩ : Path).components = [.normal n] := by
  have hlead : leadComponent n.toList = none := by
    obtain ⟨hslash, -, hdot, -⟩ := h
    unfold leadComponent
    split <;> simp_all
  have hlen : leadLength n.toList = 0 := by simp [leadLength_eq, hlead]
  rw [components_eq, componentsOf, hlead, hlen, List.drop_zero, bodyComponents_of_isName h]
  rfl

end Components

/-! ## Joining -/

section Join

/-- Joining a relative path to a non-empty one appends the components of its parts. -/
lemma components_join {base q : Path} (hbase : base.text ≠ "") (hq : q.isAbsolute = false) :
    (base.join q).components = base.components ++ bodyComponents q.text.toList := by
  have hne : base.text.toList ≠ [] := by simpa using hbase
  simp only [join, hq, Bool.false_eq_true, if_false]
  split
  · next hend =>
    -- the base already ends in a separator
    have hlast : base.text.toList.getLast? = some '/' := by simpa [hbase] using hend
    obtain ⟨w, hw⟩ := List.getLast?_eq_some_iff.mp hlast
    rw [components_eq, components_eq, String.toList_append, hw]
    rcases w with _ | ⟨c, w⟩
    · simp [componentsOf_slash]
    · rw [List.append_assoc, List.singleton_append, componentsOf_append_slash (by simp),
        componentsOf_append_slash (by simp)]
      simp
  · rw [components_eq, components_eq]
    simpa using componentsOf_append_slash hne q.text.toList

/-- Joining a name to a path appends one normal component. -/
lemma components_join_name (dir : Path) {n : String} (h : IsName n) :
    (dir.join ⟨n⟩).components = dir.components ++ [.normal n] := by
  have hrel : (⟨n⟩ : Path).isAbsolute = false := by
    have := h.1
    cases hn : n.toList with
    | nil => simp [isAbsolute, hn]
    | cons c cs =>
      have hc : c ≠ '/' := fun hc => this (by simp [hn, hc])
      simp [isAbsolute, hn, hc]
  by_cases hdir : dir.text = ""
  · have hjoin : dir.join ⟨n⟩ = ⟨n⟩ := by simp [join, hrel, hdir]
    have hnil : dir.components = [] := by simp [components_eq, hdir]
    rw [hjoin, hnil, components_of_isName h]
    rfl
  · rw [components_join hdir hrel, bodyComponents_of_isName h]

/-- A relative path joined to a path lies under it. -/
lemma startsWith_join (base : Path) {q : Path} (hq : q.isAbsolute = false) :
    (base.join q).startsWith base = true := by
  by_cases hbase : base.text = ""
  · have hnil : base.components = [] := by simp [components_eq, hbase]
    simp [startsWith, hnil]
  · simp [startsWith, components_join hbase hq, List.isPrefixOf_iff_prefix]

end Join

/-! ## Parents -/

section Parent

/-- The first element left by `dropWhile` fails the test. -/
lemma not_of_dropWhile_eq_cons {α : Type} {p : α → Bool} :
    ∀ {l rest : List α} {x : α}, l.dropWhile p = x :: rest → p x = false
  | [], _, _, h => by simp at h
  | y :: l, rest, x, h => by
    by_cases hy : p y
    · rw [List.dropWhile_cons_of_pos hy] at h
      exact not_of_dropWhile_eq_cons h
    · rw [List.dropWhile_cons_of_neg hy] at h
      obtain ⟨rfl, -⟩ := List.cons.inj h
      simpa using hy

/-- Parts with no component contribute no components. -/
lemma filterMap_ofPart_eq_nil {l : List (List Char)}
    (hl : ∀ part ∈ l, (!isComponentPart part) = true) : l.filterMap Component.ofPart = [] :=
  List.filterMap_eq_nil_iff.mpr fun part hp => by simpa [ofPart_eq_none_iff] using hl part hp

/-- Where the parent is cut from a path: the parts of its body are those of the parent's body,
then parts with no component, the last component's part, and parts with no component again. -/
lemma parts_eq_of_dropWhile {P before : List (List Char)} {x : List Char}
    (h : P.reverse.dropWhile (fun part => !isComponentPart part) = x :: before) :
    ∃ M, P = (before.dropWhile fun part => !isComponentPart part).reverse ++ M ∧
      M.filterMap Component.ofPart = (Component.ofPart x).toList ∧ M ≠ [] := by
  have hrev : P.reverse = (P.reverse.takeWhile fun part => !isComponentPart part) ++
      x :: ((before.takeWhile fun part => !isComponentPart part) ++
        (before.dropWhile fun part => !isComponentPart part)) := by
    rw [List.takeWhile_append_dropWhile, ← h, List.takeWhile_append_dropWhile]
  have hgap : ∀ {l : List (List Char)}, ∀ part ∈ (l.takeWhile fun part => !isComponentPart part).reverse,
      (!isComponentPart part) = true := fun part hp =>
    @List.mem_takeWhile_imp _ (fun part => !isComponentPart part) _ _ (List.mem_reverse.mp hp)
  refine ⟨(before.takeWhile fun part => !isComponentPart part).reverse ++ x ::
    (P.reverse.takeWhile fun part => !isComponentPart part).reverse, ?_, ?_, by simp⟩
  · have key : ∀ D E B' : List (List Char), P.reverse = D ++ x :: (E ++ B') →
        P = B'.reverse ++ (E.reverse ++ x :: D.reverse) := by
      intro D E B' hD
      rw [← List.reverse_reverse P, hD]
      simp
    exact key _ _ _ hrev
  · rw [List.filterMap_append, List.filterMap_cons, filterMap_ofPart_eq_nil hgap,
      filterMap_ofPart_eq_nil hgap]
    cases Component.ofPart x <;> simp

/-- Texts put together with separators end with the last of them. -/
lemma intercalate_ne_nil {ps : List (List Char)} {x : List Char} (hx : x ≠ [])
    (hlast : ps.getLast? = some x) : ['/'].intercalate ps ≠ [] := by
  obtain ⟨init, rfl⟩ := List.getLast?_eq_some_iff.mp hlast
  rcases init with _ | ⟨y, init⟩
  · simpa using hx
  · rw [intercalate_append (by simp) (by simp)]
    simp

/-- Cutting a text after its lead and its first parts keeps the components of those parts. -/
lemma componentsOf_cut {cs : List Char} {body M : List (List Char)}
    (hP : parts (cs.drop (leadLength cs)) = body ++ M) (hbody : body ≠ []) (hM : M ≠ [])
    (hne : cs.take (leadLength cs) ++ ['/'].intercalate body ≠ []) :
    componentsOf (cs.take (leadLength cs) ++ ['/'].intercalate body) =
      (leadComponent cs).toList ++ body.filterMap Component.ofPart := by
  have hdrop : cs.drop (leadLength cs) ≠ [] := by
    intro hd
    simp [hd, parts] at hP
    exact hbody hP.1
  have hslash : ∀ part ∈ parts (cs.drop (leadLength cs)), '/' ∉ part := fun part hp =>
    slash_not_mem_of_mem_splitOn (by simpa [parts, List.isEmpty_iff, hdrop] using hp)
  -- the cut text, a separator and the remaining parts make up the text
  have htext : cs = (cs.take (leadLength cs) ++ ['/'].intercalate body) ++
      '/' :: ['/'].intercalate M := by
    conv_lhs => rw [← List.take_append_drop (leadLength cs) cs, ← intercalate_parts hdrop, hP,
      intercalate_append hbody hM]
    simp
  have hsplit := componentsOf_append_slash hne (['/'].intercalate M)
  rw [← htext, bodyComponents_intercalate hM fun part hp => hslash part (by rw [hP]; simp [hp])]
    at hsplit
  have hall : componentsOf cs = (leadComponent cs).toList ++ body.filterMap Component.ofPart ++
      M.filterMap Component.ofPart := by
    rw [componentsOf, ← filterMap_parts, hP, List.filterMap_append, List.append_assoc]
  rw [hall] at hsplit
  exact (List.append_cancel_right hsplit).symm

/-- The parent of a path is its components without the last one; the empty path and the root
have none. -/
theorem parent_map_components (p : Path) :
    p.parent.map components =
      if p.components = [] ∨ p.components = [.root] then none else some p.components.dropLast := by
  set cs := p.text.toList with hcs
  have hcomp : p.components =
      (leadComponent cs).toList ++ (parts (cs.drop (leadLength cs))).filterMap Component.ofPart :=
    rfl
  unfold parent
  simp only [← hcs]
  split
  · next x before hkept =>
    -- the last component's part is `x`; the parent keeps the parts before it
    obtain ⟨M, hP, hM, hMne⟩ := parts_eq_of_dropWhile hkept
    set body := (before.dropWhile fun part => !isComponentPart part).reverse with hbody
    obtain ⟨c, hc⟩ : ∃ c, Component.ofPart x = some c := by
      have := not_of_dropWhile_eq_cons hkept
      exact Option.isSome_iff_exists.mp (by simpa [isComponentPart] using this)
    have hcomp' : p.components =
        (leadComponent cs).toList ++ body.filterMap Component.ofPart ++ [c] := by
      rw [hcomp, hP, List.filterMap_append, hM, hc]
      simp
    have hnot : ¬ (p.components = [] ∨ p.components = [.root]) := by
      rintro (h | h)
      · simp [hcomp'] at h
      · rw [hcomp'] at h
        have hlast := congrArg List.getLast? h
        simp only [List.getLast?_append, List.getLast?_singleton, Option.some_or] at hlast
        exact ofPart_ne_root (hc.trans (by simpa using hlast))
    rw [if_neg hnot, hcomp', List.dropLast_concat]
    simp only [Option.map_some, Option.some.injEq]
    rw [components_eq, String.toList_ofList]
    by_cases hnil : body = []
    · rw [hnil]
      simpa using componentsOf_take_leadLength cs
    · have hne : cs.take (leadLength cs) ++ ['/'].intercalate body ≠ [] := by
        obtain ⟨y, ys, hys⟩ := List.exists_cons_of_ne_nil
          (show (before.dropWhile fun part => !isComponentPart part) ≠ [] by simpa [hbody] using hnil)
        have hy : isComponentPart y = true := by simpa using not_of_dropWhile_eq_cons hys
        have hyne : y ≠ [] := by rintro rfl; simp [isComponentPart, Component.ofPart] at hy
        have := intercalate_ne_nil hyne (show body.getLast? = some y by simp [hbody, hys])
        simp [this]
      exact componentsOf_cut hP hnil hMne hne
  · next hkept =>
    -- no part stands for a component: the path is its lead alone
    have hbody : (parts (cs.drop (leadLength cs))).filterMap Component.ofPart = [] := by
      refine List.filterMap_eq_nil_iff.mpr fun part hp => ofPart_eq_none_iff.mpr ?_
      have := List.dropWhile_eq_nil_iff.mp hkept part (List.mem_reverse.mpr hp)
      simpa using this
    rw [hcomp, hbody, List.append_nil]
    rcases hlead : leadComponent cs with _ | c
    · simp
    · rcases leadComponent_eq_some hlead with rfl | rfl
      · simp
      · simp
        rfl

end Parent

/-! ## Order -/

lemma Component.compare_eq_iff {a b : Component} : a.compare b = .eq ↔ a = b := by
  cases a <;> cases b <;> simp [Component.compare, Component.rank]

lemma compareComponents_eq_iff :
    ∀ {as bs : List Component}, compareComponents as bs = .eq ↔ as = bs
  | [], [] => by simp [compareComponents]
  | [], _ :: _ => by simp [compareComponents]
  | _ :: _, [] => by simp [compareComponents]
  | a :: as, b :: bs => by
    have hab := @Component.compare_eq_iff a b
    have hrest := @compareComponents_eq_iff as bs
    simp only [compareComponents, List.cons.injEq]
    cases h : a.compare b <;> simp_all

/-- Paths are equal in path order exactly when they are the same path. -/
lemma compare_eq_iff_same {p q : Path} : p.compare q = .eq ↔ p.same q = true := by
  simp [compare, same, compareComponents_eq_iff]

end Path

end StyleSplit
