import StyleSplit.Path
import StyleSplit.Error

/-!
# A file store in memory

The store holds files, by path, and the directories that were created. Files are kept in path
order; two paths that are the same name one file, kept under the path as first written.

A path exists when it is a file, a created directory, or lies above some file: every path that
begins a file's path exists, the empty path included. Clearing a directory removes the files
directly in it and keeps those further down. Listing a directory gives the names of the files
directly in it, in path order.
-/

namespace StyleSplit

/-- Files by path, in path order, and the directories created. -/
structure Store where
  files : List (Path × String) := []
  dirs : List Path := []
  deriving Repr, DecidableEq

namespace Store

/-- Puts a file into a list of files in path order; a file at the same path keeps its path
as written and takes the new contents. -/
def putFile (p : Path) (contents : String) : List (Path × String) → List (Path × String)
  | [] => [(p, contents)]
  | (q, old) :: rest =>
    match p.compare q with
    | .lt => (p, contents) :: (q, old) :: rest
    | .eq => (q, contents) :: rest
    | .gt => (q, old) :: putFile p contents rest

/-- The contents of the file at a path. -/
def file (s : Store) (p : Path) : Option String :=
  (s.files.find? fun (q, _) => q.same p).map Prod.snd

/-- Writes a file, replacing any contents at the same path. -/
def write (s : Store) (p : Path) (contents : String) : Store :=
  { s with files := putFile p contents s.files }

/-- A path exists when it is a file, a created directory, or begins the path of a file. -/
def has (s : Store) (p : Path) : Bool :=
  s.files.any (fun (q, _) => q.same p) || s.dirs.any (·.same p) ||
    s.files.any (fun (q, _) => q.startsWith p)

/-- Reads a file. -/
def read (s : Store) (p : Path) : Except SplitError String :=
  match s.file p with
  | some contents => .ok contents
  | none => .error (.io p)

/-- A file lies directly in a directory when its parent is the directory. -/
def inDir (dir q : Path) : Bool :=
  match q.parent with
  | some parent => parent.same dir
  | none => false

/-- Creates a directory unless the path exists. -/
def createDir (s : Store) (p : Path) : Store :=
  if s.has p then s else { s with dirs := s.dirs ++ [p] }

/-- Removes the files directly in a directory. -/
def clearDir (s : Store) (dir : Path) : Store :=
  { s with files := s.files.filter fun (q, _) => !inDir dir q }

/-- The names of the files directly in a directory, in path order. -/
def list (s : Store) (dir : Path) : List String :=
  s.files.filterMap fun (q, _) => if inDir dir q then q.fileName else none

/-- The store holding the given files, written in order. -/
def ofFiles (files : List (Path × String)) : Store :=
  files.foldl (fun s (p, contents) => s.write p contents) {}

end Store

end StyleSplit
