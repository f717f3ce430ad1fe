import CodeIndex.Syntactic.Naming
import CodeIndex.Tree.Definition

/-!
# The syntactic indexer

An indexer that knows nothing but the tree. It records classes, functions and variables where they
are defined and local variables where they are used; every other name is a reference to something
unknown.
-/

namespace CodeIndex.Syntactic

open Indexing

/-- What the indexer has to know. -/
structure Setting where
  /-- The source to index. -/
  source : Source
  /-- Whether the tree is listed on the way. -/
  verbose : Bool

variable {ρ : Type}

/-- The name of a local variable: the context that it belongs to, and its own name. -/
def localName (context : Context) (name : String) : String := context.name ++ "<" ++ name ++ ">"

/-! ### Names -/

/-- The token after the place is the operator `sign`. -/
def followedBy (sign : String) (c : Cursor) : Bool := c.nextLeaf?.any (·.tree.isOperator sign)

/-- The name is an attribute: it stands after a dot in a trailer. -/
def isAttribute (c : Cursor) : Except Fault Bool :=
  if c.parent?.any (Cursor.isKind .trailer) then
    match c.previousSibling? with
    | none => .ok false
    | some d => do return (← d.tree.text) = "."
  else .ok false

/-- The qualified name of a place in the present contexts. -/
def nameAt (s : Setting) (c : Cursor) : Indexing ρ (Option QualifiedName) := do
  qualifiedName s.source (← get).contexts c

/-- The kind that is imposed on names here, if it decides what they are. -/
def imposedKind : Indexing ρ (Option ReferenceKind) := do
  match (← get).kinds with
  | [] => return none
  | k :: _ =>
    if k.kind = .inheritance || k.kind = .importing then return some k.kind else return none

variable [Recorder ρ]

/-- The definition of a variable that outlives the function it is in. -/
def defineVariable (name : QualifiedName) (kind : SymbolKind) (range : SourceRange) :
    Indexing ρ Value := do
  let symbol ← emit (.symbol name)
  note (.symbolKind symbol kind)
  note (.definitionKind symbol .explicit)
  note (.symbolLocation symbol range)
  return symbol

/-- An occurrence of a local variable of the present context. -/
def recordLocal (c : Cursor) : Indexing ρ Unit := do
  useLocal (localName (← context) (← c.tree.text)) (← c.range)

/-- The definition of a local variable of the present context. -/
def defineLocal (c : Cursor) : Indexing ρ Unit := do
  recordLocal c
  declare (← c.tree.text)

/-- A defining name outside of all definitions, or directly in a class, is a variable of `kind`. -/
def visitLasting (s : Setting) (c : Cursor) (kind : SymbolKind) (reference : ReferenceKind) :
    Indexing ρ Unit := do
  match ← nameAt s c with
  | some name => let _ ← defineVariable name kind (← c.range)
  | none => referToUnsolved reference c

/-- A defining attribute inside a function: a member of the class if it is an attribute of the first
parameter, and otherwise a member of some other object. -/
def visitMember (s : Setting) (c : Cursor) (reference : ReferenceKind) : Indexing ρ Unit := do
  if ← isSelf (← context) c then
    match ← nameAt s c with
    | some name =>
      let range ← c.range
      let symbol ← defineVariable name .field range
      refer symbol reference range
    | none => defineLocal c
  else referToUnsolved reference c

/-- A defining name. -/
def visitDefining (s : Setting) (c : Cursor) (reference : ReferenceKind) : Indexing ρ Unit := do
  match c.definitionAround? with
  | none => visitLasting s c .globalVariable reference
  | some around =>
    if around.isKind .classdef then
      if c.namedParent?.any around.sameAs then visitLasting s c .field reference
      else referToUnsolved reference c
    else if ← isAttribute c then visitMember s c reference
    else defineLocal c

/-- A name that defines nothing: a local variable that is known, or something unknown. -/
def visitUse (c : Cursor) (reference : ReferenceKind) : Indexing ρ Unit := do
  if !(← isAttribute c) && (← context).locals.contains (← c.tree.text) then recordLocal c
  else referToUnsolved reference c

/-- A name: nothing outside of all contexts and for the constants, a qualifier in front of a dot, a
reference of the imposed kind if there is one, and otherwise a definition or a use. -/
def visitName (s : Setting) (c : Cursor) : Indexing ρ Unit := do
  if (← get).contexts.isEmpty then return
  else if constantNames.contains (← c.tree.text) then return
  else if followedBy "." c then
    let symbol ← emit (.symbol .unsolved)
    note (.qualifierLocation symbol (← c.range))
  else
    match ← imposedKind with
    | some kind => referToUnsolved kind c
    | none =>
      let reference := if followedBy "(" c then ReferenceKind.call else .usage
      if ← c.isDefining then visitDefining s c reference else visitUse c reference

/-- What is done for a node itself, whatever parts it has. -/
def visitSelf (s : Setting) (c : Cursor) : Indexing ρ Unit :=
  match c.tree.kind with
  | .name => visitName s c
  | .string => visitString c
  | .errorLeaf => visitErrorToken c
  | _ => pure ()

/-- A token. One that claims to be a construct with parts of its own is a fault. -/
def visitToken (s : Setting) (c : Cursor) : Indexing ρ Unit :=
  match c.tree.kind with
  | .classdef | .funcdef | .param | .argument | .importFrom | .dottedAsName | .importAsName =>
    throw (.lacking "children")
  | _ => visitSelf s c

/-- The end of the visit of a node itself: if it had been entered as a context, that is left. -/
def leaveSelf (c : Cursor) : Indexing ρ Unit :=
  match c.tree.kind with
  | .name | .string | .errorLeaf => leave c
  | _ => pure ()

/-! ### Definitions -/

/-- The name under which a definition is recorded. -/
def definitionName (s : Setting) (name : Cursor) : Indexing ρ QualifiedName := do
  return (← nameAt s name).getD .unsolved

/-- Enters a class. -/
def enterClass (s : Setting) (c : Cursor) : Indexing ρ Unit := do
  let name ← c.definedName
  let full ← definitionName s name
  let symbol ← define full .classSymbol (some name) c
  enter { id := symbol, kind := .classBody, name := full.display, place := some c }

/-- Enters a function. A function directly in a class is a method, and its first parameter is the
object. All parameters are local variables. -/
def enterFunction (s : Setting) (c : Cursor) : Indexing ρ Unit := do
  let name ← c.definedName
  let full ← definitionName s name
  let isMethod := (← context).kind = .classBody
  let parameters ← (← c.parameterList).mapM fun p => do (← p.parameterName).tree.text
  let symbol ← define full (if isMethod then .method else .function) (some name) c
  enter
    { id := symbol
      kind := if isMethod then .method else .function
      name := full.display
      place := some c
      selfName := if isMethod then parameters.head? else none
      locals := parameters }

/-- A parameter is a local variable. -/
def visitParameter (c : Cursor) : Indexing ρ Unit := do
  let name ← c.parameterName
  useLocal (localName (← context) (← name.tree.text)) (← name.range)

/-- The number of the first part of an argument that is visited, given the parts from number `i` on:
the name of a keyword argument is not visited. -/
def argumentStart : List Tree → Nat → Except Fault Nat
  | [], _ => .ok 0
  | t :: ts, i => do if ← t.reads .operator "=" then return i + 1 else argumentStart ts (i + 1)

/-! ### The traversal -/

mutual

/-- Visits a tree. Of a class the base classes and the body are visited, of a function the
parameters and the body, of a parameter the default, of an argument the value; of everything else
all parts. The base classes are under the kind of inheritance, what an import statement names is
under the kind of import, and an alias is exempt from it. -/
def visit (s : Setting) (above : List Ancestor) : Tree → Indexing ρ Unit
  | .leaf token =>
    let c : Cursor := ⟨.leaf token, above⟩
    listed s.verbose c do
      visitToken s c
      leaveSelf c
  | .node kind parts =>
    let c : Cursor := ⟨.node kind parts, above⟩
    let place := fun i => ⟨kind, parts, i⟩ :: above
    listed s.verbose c <|
      match kind with
      | .classdef => do
        enterClass s c
        match ← basesIndex? parts with
        | none => pure ()
        | some i =>
          let bases ← c.child i
          impose .inheritance bases
          visitParts s place (· = i) 0 parts
          lift bases
        let body ← bodyIndex parts
        visitParts s place (· = body) 0 parts
        leave c
      | .funcdef => do
        enterFunction s c
        let _ ← c.parameterList
        visitParameters s place 0 parts
        let body ← bodyIndex parts
        visitParts s place (· = body) 0 parts
        leave c
      | .param => do
        visitParameter c
        match ← defaultIndex? parts with
        | none => pure ()
        | some i => visitParts s place (· = i) 0 parts
        leave c
      | .argument => do
        let first ← argumentStart parts 0
        visitParts s place (first ≤ ·) 0 parts
      | .importFrom => do
        if ← visitImport s place c false 0 parts then
          let _ ← suspend
      | .dottedAsName | .importAsName => do resume (← visitAlias s place none 0 parts)
      | .importName => do
        impose .importing c
        visitParts s place (fun _ => true) 0 parts
        lift c
      | _ => do
        visitSelf s c
        visitParts s place (fun _ => true) 0 parts
        leaveSelf c

/-- Visits those trees of a list whose number is selected; the first one has number `i`, and `place`
gives what is above each. -/
def visitParts (s : Setting) (place : Nat → List Ancestor) (selected : Nat → Bool) (i : Nat) :
    List Tree → Indexing ρ Unit
  | [] => pure ()
  | t :: ts => do
    if selected i then visit s (place i) t
    visitParts s place selected (i + 1) ts

/-- Visits the trees of a list, the parts of the import statement at `c`. From the word `import` on
they are under the kind of import; the result says whether that kind is imposed, and `imposed`
whether it is so far. -/
def visitImport (s : Setting) (place : Nat → List Ancestor) (c : Cursor) (imposed : Bool)
    (i : Nat) : List Tree → Indexing ρ Bool
  | [] => return imposed
  | t :: ts => do
    visit s (place i) t
    let begins ← t.reads .keyword "import"
    if begins && !imposed then impose .importing c
    visitImport s place c (imposed || begins) (i + 1) ts

/-- Visits the trees of a list, the parts of an import with an alias. From the word `as` on the
innermost imposed kind is suspended; the result is that kind, and `held` the one that is suspended
so far. -/
def visitAlias (s : Setting) (place : Nat → List Ancestor) (held : Option ImposedKind) (i : Nat) :
    List Tree → Indexing ρ (Option ImposedKind)
  | [] => return held
  | t :: ts => do
    visit s (place i) t
    let held ←
      if (← t.reads .keyword "as") && held.isNone then suspend else pure held
    visitAlias s place held (i + 1) ts

/-- Visits the parameters of a function, given its parts from number `i` on: those parts of the
third part that are parameters. -/
def visitParameters (s : Setting) (place : Nat → List Ancestor) (i : Nat) :
    List Tree → Indexing ρ Unit
  | [] => pure ()
  | t :: ts => do
    if i = 2 then visitParametersOf s (place i) t
    visitParameters s place (i + 1) ts

/-- Visits the parts of a tree that are parameters. -/
def visitParametersOf (s : Setting) (above : List Ancestor) : Tree → Indexing ρ Unit
  | .leaf _ => pure ()
  | .node kind parts =>
    visitParts s (fun i => ⟨kind, parts, i⟩ :: above)
      (fun i => (parts[i]?.any (Tree.isKind .param))) 0 parts

end

/-- Begins a run: records the file and its module. -/
def begin (s : Setting) : Indexing ρ Unit :=
  start s.source (.ok (moduleName s.source (some s.source.path)))

/-- Indexes a tree. -/
def index (s : Setting) (t : Tree) : Indexing ρ Unit := do
  begin s
  visit s [] t

end CodeIndex.Syntactic
