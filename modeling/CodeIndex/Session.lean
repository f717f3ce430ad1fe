import CodeIndex.Environment
import CodeIndex.Semantic.Visit
import CodeIndex.Syntactic.Visit

/-!
# Indexing sessions

A session indexes a file or a piece of text: it reads the file, chooses the environment, and runs an
indexer that reports to the recorder of the session.
-/

namespace CodeIndex

/-- What surrounds a session. -/
structure World where
  /-- The file system. -/
  files : FileSystem
  /-- The Python environments. -/
  environments : Environments
  /-- The tree that the parser makes of the text. -/
  tree : Tree
  /-- The resolver. -/
  resolver : Resolver
  /-- The directory of the stub files for the standard library. -/
  stubs : String

/-- The two indexers. -/
inductive Method where
  /-- The tree alone decides. -/
  | syntactic
  /-- A resolver is asked. -/
  | semantic
  deriving DecidableEq, Repr

/-- The state of a session. -/
structure Session (ρ : Type) where
  /-- The recorder. -/
  recorder : ρ
  /-- The lines printed so far. -/
  lines : List String := []
  /-- The text that was given to the parser. -/
  parsed : Option String := none

/-- A computation in a session. -/
abbrev SessionM (ρ : Type) := EStateM Fault (Session ρ)

namespace Session

variable {ρ : Type}

/-- Prints lines. -/
def print (lines : List String) : SessionM ρ Unit :=
  modify fun s => { s with lines := s.lines ++ lines }

/-- Prints a line if `b` holds. -/
def printIf (b : Bool) (line : String) : SessionM ρ Unit := if b then print [line] else pure ()

/-- Gives text to the parser. -/
def parse (text : String) : SessionM ρ Unit := modify fun s => { s with parsed := some text }

/-- The session after a run that ended with the trace `t`. -/
def after (s : Session ρ) (t : Trace ρ) : Session ρ :=
  { s with recorder := t.recorder, lines := s.lines ++ t.lines.toList }

/-- Runs an indexer. What it recorded and printed before a fault stays. -/
def carryOut (m : Indexing ρ Unit) : SessionM ρ Unit := fun s =>
  match m { recorder := s.recorder } with
  | .ok _ t => .ok () (s.after t)
  | .error e t => .error e (s.after t)

/-- Chooses the environment. -/
def chooseEnvironment (w : World) (p : Option String) : SessionM ρ Environment := do
  let (lines, offer) := w.environments.choose p
  print lines
  match offer with
  | .ok e => return e
  | .error failure => throw (.reported failure)

/-- Runs the syntactic indexer on the tree of the source at a path. -/
def runSyntactic [Recorder ρ] (w : World) (path : String) (searchPath : List String)
    (verbose : Bool) : SessionM ρ Unit := do
  let source ← Source.locate w.files path searchPath
  carryOut (Syntactic.index ⟨source, verbose⟩ w.tree)

/-- Runs the semantic indexer on the tree of the source at a path. -/
def runSemantic [Recorder ρ] (w : World) (e : Environment) (path : String)
    (searchPath : List String) (verbose : Bool) : SessionM ρ Unit := do
  let source ← Source.locate w.files path searchPath
  let setting : Semantic.Setting :=
    ⟨source, e.major, e.minor, w.stubs, w.resolver, verbose⟩
  carryOut (setting.index w.tree)

/-- Indexes a file. -/
def indexFile [Recorder ρ] (w : World) (method : Method) (path : String)
    (environment : Option String) (verbose : Bool) : SessionM ρ Unit := do
  printIf verbose ("INFO: Indexing source file \"" ++ path ++ "\".")
  let text ← w.files.text path
  match method with
  | .syntactic =>
    parse (String.ofList (unifyLineEnds text.toList))
    runSyntactic w path [] verbose
  | .semantic =>
    let e ← chooseEnvironment w environment
    printIf verbose ("INFO: Using Python environment at \"" ++ e.path ++ "\" for indexing.")
    parse text
    runSemantic w e path e.orderedSearchPath verbose

/-- Indexes a piece of text that comes from no file. A search path may be given; the semantic
indexer otherwise takes that of the environment. -/
def indexText [Recorder ρ] (w : World) (method : Method) (text : String)
    (environment : Option String) (searchPath : Option (List String)) (verbose : Bool) :
    SessionM ρ Unit := do
  match method with
  | .syntactic =>
    parse text
    runSyntactic w virtualFile (searchPath.getD []) verbose
  | .semantic =>
    let e ← chooseEnvironment w environment
    parse text
    runSemantic w e virtualFile (searchPath.getD e.orderedSearchPath) verbose

end Session

end CodeIndex
