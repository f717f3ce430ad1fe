import CodeIndex.Recording
import CodeIndex.Source
import CodeIndex.Tree.Cursor

/-!
# Traces

The state of an indexer on its way through a tree: the definitions it is inside of, the kinds of
reference that the constructs around it impose, what it has recorded, and what it has printed. A
fault ends the run and keeps the state, so everything recorded before it counts.
-/

namespace CodeIndex

/-- The names of the logical constants and of the missing value. They refer to nothing. -/
def constantNames : List String := ["True", "False", "None"]

/-- What encloses the names that are visited. -/
inductive ContextKind where
  | file | moduleLevel | classBody | function | method
  deriving DecidableEq, Repr, Inhabited

/-- A file, module, class or function that the indexer is inside of. -/
structure Context where
  /-- The recording of the file or symbol. -/
  id : Value
  /-- What it is. -/
  kind : ContextKind
  /-- Its display name. -/
  name : String
  /-- The place of its definition; a file and a module have none. -/
  place : Option Cursor := none
  /-- The name of the first parameter of a method. -/
  selfName : Option String := none
  /-- The names of its local variables that are known so far. -/
  locals : List String := []
  deriving Repr, Inhabited

/-- A kind of reference that a construct imposes on the names inside it. -/
structure ImposedKind where
  /-- The kind. -/
  kind : ReferenceKind
  /-- The place of the construct. -/
  place : Cursor
  deriving Repr, Inhabited

/-- The state of an indexer that reports to a recorder of type `ρ`. -/
structure Trace (ρ : Type) where
  /-- The recorder. -/
  recorder : ρ
  /-- The contexts, the innermost first. -/
  contexts : List Context := []
  /-- The imposed kinds, the innermost first. -/
  kinds : List ImposedKind := []
  /-- The lines printed so far. -/
  lines : Array String := #[]
  /-- The depth to which the tree listing is indented. -/
  indent : Nat := 0

/-- A computation of an indexer. -/
abbrev Indexing (ρ : Type) := EStateM Fault (Trace ρ)

namespace Indexing

variable {ρ : Type}

/-- A computation of the recorder. -/
def recording {α : Type} (m : EStateM Fault ρ α) : Indexing ρ α :=
  focus Trace.recorder (fun recorder t => { t with recorder }) m

/-- Prints a line. -/
def say (line : String) : Indexing ρ Unit :=
  modify fun t => { t with lines := t.lines.push line }

/-! ### Contexts -/

/-- The innermost context. -/
def context : Indexing ρ Context := do
  match (← get).contexts with
  | [] => throw .outOfRange
  | top :: _ => return top

/-- Enters a context. -/
def enter (c : Context) : Indexing ρ Unit :=
  modify fun t => { t with contexts := c :: t.contexts }

/-- The contexts without the innermost one if that was entered at `place`. -/
def leaveFrom (place : Cursor) : List Context → List Context
  | [] => []
  | top :: rest => if top.place.any place.sameAs then rest else top :: rest

/-- Leaves the innermost context if it was entered at `place`. -/
def leave (place : Cursor) : Indexing ρ Unit :=
  modify fun t => { t with contexts := leaveFrom place t.contexts }

/-- The contexts with one more local variable of the innermost one. -/
def withLocal (name : String) : List Context → List Context
  | [] => []
  | top :: rest => { top with locals := top.locals ++ [name] } :: rest

/-- Makes a local variable of the innermost context known. -/
def declare (name : String) : Indexing ρ Unit :=
  modify fun t => { t with contexts := withLocal name t.contexts }

/-! ### Imposed kinds -/

/-- Imposes a kind of reference. -/
def impose (kind : ReferenceKind) (place : Cursor) : Indexing ρ Unit :=
  modify fun t => { t with kinds := ⟨kind, place⟩ :: t.kinds }

/-- The kinds without the innermost one if it was imposed at `place`. -/
def liftFrom (place : Cursor) : List ImposedKind → List ImposedKind
  | [] => []
  | top :: rest => if place.sameAs top.place then rest else top :: rest

/-- Lifts the innermost imposed kind if it was imposed at `place`. -/
def lift (place : Cursor) : Indexing ρ Unit :=
  modify fun t => { t with kinds := liftFrom place t.kinds }

/-- Takes the innermost imposed kind away, if there is one. -/
def suspend : Indexing ρ (Option ImposedKind) := fun t =>
  .ok t.kinds.head? { t with kinds := t.kinds.tail }

/-- Puts a kind that was taken away back. -/
def resume : Option ImposedKind → Indexing ρ Unit
  | none => pure ()
  | some k => modify fun t => { t with kinds := k :: t.kinds }

/-! ### Listing the tree -/

/-- The line of the tree listing for a place at the given depth. -/
def treeLine (indent : Nat) (c : Cursor) (range : SourceRange) : String :=
  "AST: " ++ String.join (List.replicate indent "| ") ++ c.tree.label ++
    (match c.tree.text? with
      | some text => " (" ++ Text.quote text ++ ")"
      | none => "") ++
    " " ++ range.text

/-- The line of a place, when the tree is to be listed. What follows is indented by one more
step. -/
def beginListing (verbose : Bool) (c : Cursor) : Indexing ρ Unit :=
  if verbose then do
    say (treeLine (← get).indent c (← c.range))
    modify fun t => { t with indent := t.indent + 1 }
  else pure ()

/-- The end of what is indented below a place. -/
def endListing (verbose : Bool) : Indexing ρ Unit :=
  if verbose then modify fun t => { t with indent := t.indent - 1 } else pure ()

/-- A visit of a place. When the tree is to be listed, the line of the place comes before the visit,
and the places visited from there are indented by one more step. -/
def listed (verbose : Bool) (c : Cursor) (visit : Indexing ρ Unit) : Indexing ρ Unit := do
  beginListing verbose c
  visit
  endListing verbose

/-! ### What both indexers record alike -/

variable [Recorder ρ]

/-- Makes a recording and gives back what the recorder does. -/
def emit (r : Recording) : Indexing ρ Value := recording (Recorder.record r)

/-- Makes a recording of which nothing is given back. -/
def note (r : Recording) : Indexing ρ Unit := do
  let _ ← emit r

/-- A reference from the innermost context to something unknown. -/
def referToUnsolved (kind : ReferenceKind) (c : Cursor) : Indexing ρ Unit := do
  note (.unsolvedReference (← context).id kind (← c.range))

/-- A reference from the innermost context to a symbol. -/
def refer (target : Value) (kind : ReferenceKind) (range : SourceRange) : Indexing ρ Unit := do
  let reference ← emit (.reference (← context).id target kind)
  note (.referenceLocation reference range)

/-- An occurrence of a local variable. -/
def useLocal (name : String) (range : SourceRange) : Indexing ρ Unit := do
  let symbol ← emit (.localSymbol name)
  note (.localLocation symbol range)

/-- The beginning of a run: the file and, if it has a name, its module. Both are contexts. A file
whose identifier is zero was refused. -/
def start (source : Source) (moduleName : Except Fault (Option QualifiedName)) :
    Indexing ρ Unit := do
  let file ← emit (.file source.path)
  if file.number? = some 0 then
    say ("ERROR: " ++ (← recording Recorder.explain))
  note (.fileLanguage file language)
  enter { id := file, kind := .file, name := source.path }
  match ← moduleName with
  | none => pure ()
  | some name =>
    let symbol ← emit (.symbol name)
    note (.definitionKind symbol .explicit)
    note (.symbolKind symbol .moduleSymbol)
    enter { id := symbol, kind := .moduleLevel, name := name.display }

/-- The symbol of a class or function whose definition is at `c` and whose name is at `nameAt`. -/
def define (name : QualifiedName) (kind : SymbolKind) (nameAt : Option Cursor) (c : Cursor) :
    Indexing ρ Value := do
  let symbol ← emit (.symbol name)
  note (.definitionKind symbol .explicit)
  note (.symbolKind symbol kind)
  note (.symbolLocation symbol (← rangeOf nameAt))
  note (.scopeLocation symbol (← c.range))
  return symbol

/-- A string literal is atomic if it spans several lines. -/
def visitString (c : Cursor) : Indexing ρ Unit := do
  let range ← c.range
  if range.spansLines then note (.atomicRange range)

/-- A token that fits nowhere is an error. -/
def visitErrorToken (c : Cursor) : Indexing ρ Unit := do
  let token ← c.tree.unexpected
  note (.error (.text ("Unexpected token of type \"" ++ token ++ "\" encountered.")) (.flag false)
    (← c.range))

end Indexing

end CodeIndex
