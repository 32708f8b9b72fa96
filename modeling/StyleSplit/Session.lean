import StyleSplit.Splitter

/-!
# Sessions

A session runs commands, one after another, against one store under fixed settings and a fixed
compiler: splitting runs, questions about paths, and the store's own operations. It remembers
the path texts it has named: the paths of the files it started with, the paths written, after
each run the files in the output directory, and after a run that split the stylesheet the files
it wrote and the manifest. Its snapshot shows, for each remembered text, the contents of the
file there, if any.
-/

namespace StyleSplit

/-- A command of a session. -/
inductive Command
  | run (input : Path)
  | outputDir (input : Path)
  | importRoot (input : Path)
  | write (path : Path) (contents : String)
  | read (path : Path)
  | file (path : Path)
  | has (path : Path)
  | createDir (path : Path)
  | clearDir (path : Path)
  | list (dir : Path)
  deriving Repr, DecidableEq

/-- The reply to a command. -/
inductive Reply
  /-- A run's outcome or error, and what its compiler was asked. -/
  | ran (result : Except SplitError Outcome) (request : Option CompileRequest)
  | path (p : Path)
  | done
  | read (result : Except SplitError String)
  | file (contents : Option String)
  | flag (b : Bool)
  | names (names : List String)

/-- A session: its store and the path texts it has named, in the order first named. -/
structure Session where
  store : Store
  named : List String

namespace Session

/-- Remembers the text of a path. -/
def note (s : Session) (p : Path) : Session :=
  if s.named.contains p.text then s else { s with named := s.named ++ [p.text] }

/-- Remembers the texts of paths, in order. -/
def noteAll (s : Session) (ps : List Path) : Session :=
  ps.foldl note s

/-- The session over a store holding the given files. -/
def start (files : List (Path × String)) : Session :=
  noteAll ⟨Store.ofFiles files, []⟩ (files.map Prod.fst)

/-- The paths a run names: the files in the output directory after it and, when it split the
stylesheet, the files it wrote and the manifest. -/
def runPaths (c : Config) (input : Path) (r : Run) : List Path :=
  let dir := c.outputDir input
  let listed := (r.store.list dir).map fun name => dir.join ⟨name⟩
  let written := match r.result with
    | .ok ⟨manifest, .split _ files⟩ => files.map (fun name => dir.join ⟨name⟩) ++ [manifest]
    | _ => []
  listed ++ written

/-- Runs a command. -/
def step (c : Config) (compiler : Compiler) (s : Session) : Command → Session × Reply
  | .run input =>
    let r := StyleSplit.run c compiler s.store input
    (noteAll { s with store := r.store } (runPaths c input r), .ran r.result r.request)
  | .outputDir input => (s, .path (c.outputDir input))
  | .importRoot input => (s, .path (c.importRoot input))
  | .write p contents => (note { s with store := s.store.write p contents } p, .done)
  | .read p => (s, .read (s.store.read p))
  | .file p => (s, .file (s.store.file p))
  | .has p => (s, .flag (s.store.has p))
  | .createDir p => ({ s with store := s.store.createDir p }, .done)
  | .clearDir p => ({ s with store := s.store.clearDir p }, .done)
  | .list dir => (s, .names (s.store.list dir))

/-- The named path texts that hold a file, with its contents. -/
def snapshot (s : Session) : List (String × String) :=
  s.named.filterMap fun t => (s.store.file ⟨t⟩).map fun contents => (t, contents)

end Session

end StyleSplit
