/-!
# Paths

A path is kept as written, and means its list of components: a leading `/` is the root, a
leading `.` (alone or before `/`) is the current directory, and the rest is cut at `/` into
names, where empty parts and `.` are dropped and `..` is the parent directory. So `a//b`,
`a/./b` and `a/b/` are the same path, while a leading `..` and a leading `.` stay.

Two paths are the same when their components are; paths are ordered by their components, the
root first, then the current directory, the parent directory, and names by their text. A path
lies under another when the other's components begin its own; the empty path lies under every
path.

`parent` and `join` work on the written text: the parent is the text before the last
component, without the separators and `.` parts that end it, and joining puts a `/` between two
paths unless the first is empty or ends in one; an absolute path replaces what it is joined to.
-/

namespace StyleSplit

/-- A component of a path. -/
inductive Component
  /-- The leading `/`. -/
  | root
  /-- A leading `.`. -/
  | current
  /-- `..`. -/
  | parent
  /-- Any other name. -/
  | normal (name : String)
  deriving Repr, DecidableEq

namespace Component

/-- The place of a component's kind in the order of components. -/
def rank : Component → Nat
  | .root => 0
  | .current => 1
  | .parent => 2
  | .normal _ => 3

/-- Components are ordered by kind, and names by their text. -/
def compare : Component → Component → Ordering
  | .normal a, .normal b => Ord.compare a b
  | a, b => Ord.compare a.rank b.rank

/-- The component a part between separators stands for: none for an empty part or `.`. -/
def ofPart : List Char → Option Component
  | [] => none
  | ['.'] => none
  | ['.', '.'] => some .parent
  | part => some (.normal (String.ofList part))

end Component

/-- A path, as written. -/
structure Path where
  text : String
  deriving Repr, DecidableEq

namespace Path

/-- The number of characters before a path's body: one for the root or a leading `.`
component, else none. -/
def leadLength : List Char → Nat
  | '/' :: _ => 1
  | ['.'] => 1
  | '.' :: '/' :: _ => 1
  | _ => 0

/-- The parts of a path's body between separators; an empty body has none. -/
def parts (body : List Char) : List (List Char) :=
  if body.isEmpty then [] else body.splitOn '/'

/-- The leading component of a path, if it has one. -/
def leadComponent : List Char → Option Component
  | '/' :: _ => some .root
  | ['.'] => some .current
  | '.' :: '/' :: _ => some .current
  | _ => none

/-- The components of a path. -/
def components (p : Path) : List Component :=
  let cs := p.text.toList
  (leadComponent cs).toList ++ (parts (cs.drop (leadLength cs))).filterMap Component.ofPart

/-- A path is absolute when it starts at the root. -/
def isAbsolute (p : Path) : Bool :=
  p.text.toList.head? == some '/'

/-- Two paths are the same when their components are. -/
def same (p q : Path) : Bool :=
  p.components == q.components

/-- Component lists in lexicographic order. -/
def compareComponents : List Component → List Component → Ordering
  | [], [] => .eq
  | [], _ :: _ => .lt
  | _ :: _, [] => .gt
  | a :: as, b :: bs =>
    match a.compare b with
    | .eq => compareComponents as bs
    | o => o

/-- Paths in the order of their components. -/
def compare (p q : Path) : Ordering :=
  compareComponents p.components q.components

/-- `p.startsWith base`: the components of `base` begin those of `p`. -/
def startsWith (p base : Path) : Bool :=
  base.components.isPrefixOf p.components

/-- A part stands for a component. -/
def isComponentPart (part : List Char) : Bool :=
  (Component.ofPart part).isSome

/-- The path without its last component, written as the text before it with the separators
and `.` parts that end it removed. The root and the empty path have no parent; a lone leading
`.` has the empty path. -/
def parent (p : Path) : Option Path :=
  let cs := p.text.toList
  let n := leadLength cs
  let lead := cs.take n
  let kept := (parts (cs.drop n)).reverse.dropWhile (fun part => !isComponentPart part)
  match kept with
  | _ :: before =>
    let body := (before.dropWhile fun part => !isComponentPart part).reverse
    some ⟨String.ofList (lead ++ List.intercalate ['/'] body)⟩
  | [] =>
    match leadComponent cs with
    | some .current => some ⟨""⟩
    | _ => none

/-- The last component, when it is a name. -/
def fileName (p : Path) : Option String :=
  match p.components.getLast? with
  | some (.normal name) => some name
  | _ => none

/-- `base.join p`: `p` after `base`, with a separator between them unless `base` is empty or
ends in one; an absolute `p` replaces `base`. -/
def join (base p : Path) : Path :=
  if p.isAbsolute then p
  else if base.text.isEmpty || base.text.toList.getLast? == some '/' then ⟨base.text ++ p.text⟩
  else ⟨base.text ++ "/" ++ p.text⟩

end Path

end StyleSplit
