import CodeIndex.Recording
import CodeIndex.Resolver
import CodeIndex.Source

/-!
# Names by way of the resolver

The semantic indexer names a place after its definition: it asks the resolver where the name is
defined, names the definition around that place in the same way, and so on outwards to the module.
-/

namespace CodeIndex.Semantic

/-- What the indexer has to know. -/
structure Setting where
  /-- The source to index. -/
  source : Source
  /-- The major version of the language. -/
  major : Int
  /-- The minor version of the language. -/
  minor : Int
  /-- The directory of the stub files for the standard library. -/
  stubs : String
  /-- The resolver. -/
  resolver : Resolver
  /-- Whether the tree is listed on the way. -/
  verbose : Bool

namespace Setting

/-! ### Modules -/

/-- The directories of stub files that apply to the version of the language. -/
def stubDirectories (s : Setting) : List String :=
  let directory := fun name => s.stubs ++ "/" ++ name
  if s.major = 2 then [directory "2", directory "2and3"]
  else if s.major = 3 then
    [directory "2and3", directory "3"] ++
      (if s.minor = 5 then [directory "3.5"]
        else if s.minor = 6 then [directory "3.6"]
        else if s.minor = 7 then [directory "3.7"]
        else [])
  else []

/-- The name of a module by its components. The module of the built-in functions has a name of its
own, which stands in front. -/
def nameOfComponents (components : List String) : Except Fault (Option QualifiedName) :=
  match components.getLast? with
  | none => .error .outOfRange
  | some last =>
    .ok (.some (.dotted
      (if last = "__builtin__" then "builtins" :: components.dropLast else components)))

/-- The name of the module at a path, below the first of the stub directories and the search path
that is above it. -/
def moduleName (s : Setting) : Option String → Except Fault (Option QualifiedName)
  | none => .ok none
  | some path =>
    if path = virtualFile then .ok (some virtualModule)
    else
      let stem := Path.dropExtension (Path.absolute s.source.workingDirectory path)
      match Path.componentsBelow? (s.stubDirectories ++ s.source.searchPath) stem with
      | none => .ok none
      | some components => nameOfComponents (dropPackageMarker components)

/-- The file that holds a definition. A definition that belongs to no file belongs to the text that
is indexed, if that comes from no file either. -/
def fileOf (s : Setting) (d : Definition) : Except Fault (Option String) := do
  match ← d.modulePath with
  | some path => return some path
  | none => return if s.source.isVirtual then some s.source.path else none

/-! ### Places -/

/-- The definitions that the place in the given file may refer to. -/
def definitionsAt (s : Setting) (c : Cursor) (file : String) : List (Option Definition) :=
  match c.tree.start? with
  | none => []
  | some position =>
    s.resolver.definitions ⟨if file = virtualFile then none else some file, position⟩

end Setting

/-- The class of which a definition is the first parameter of a method, if it is one: a parameter of
a function directly in a class, with something other than a parameter right before it. -/
def classOfSelf (d : Definition) : Except Fault (Option Cursor) := do
  if (← d.kind) ≠ some "param" then return none
  match ← d.site.cursor with
  | none => return none
  | some site =>
    match site.namedParent? with
    | none => return none
    | some function =>
      if !function.isKind .funcdef then return none
      match function.namedParent? with
      | none => return none
      | some owner =>
        if !owner.isKind .classdef then return none
        match site.parent?.bind Cursor.previousSibling? with
        | none => return none
        | some before => return if before.isKind .param then none else some owner

/-- The last class of which one of the definitions is the first parameter of a method. -/
def lastClassOfSelf : List (Option Definition) → Except Fault (Option Cursor)
  | [] => .ok none
  | none :: rest => lastClassOfSelf rest
  | some d :: rest => do
    let here ← classOfSelf d
    return (← lastClassOfSelf rest).or here

namespace Setting

/-- The class of which the place is an attribute by way of the first parameter of a method. -/
def classOfAttribute (s : Setting) (site : Cursor) (file : String) : Except Fault (Option Cursor) :=
  match site.namedParent? with
  | none => .ok none
  | some around => do
    match ← around.firstName? with
    | none => return none
    | some name => lastClassOfSelf (s.definitionsAt name file)

/-- The name of a place in `file` after the first of its definitions that says where it stands.
`outer` names the definition around that place. -/
def nameByDefinition (s : Setting)
    (outer : Cursor → String → Except Fault (Option QualifiedName)) (file : String) :
    List (Option Definition) → Except Fault (Option QualifiedName)
  | [] => .ok none
  | none :: rest => nameByDefinition s outer file rest
  | some d :: rest => do
    match ← s.fileOf d with
    | none => nameByDefinition s outer file rest
    | some itsFile =>
      match ← d.site.cursor with
      | none => nameByDefinition s outer file rest
      | some site =>
        let ofSelf ← s.classOfAttribute site itsFile
        let text ← site.tree.text
        match ofSelf.or (site.parent?.bind Cursor.definitionAround?) with
        | some around => return (← outer around itsFile).map (·.child text)
        | none => return (← s.moduleName (some file)).map (·.child text)

/-- The qualified name of a place in a file, found in at most `fuel` steps. A search that takes
more is a fault. -/
def nameUpTo (s : Setting) : Nat → Cursor → String → Except Fault (Option QualifiedName)
  | 0, _, _ => .error .unending
  | fuel + 1, c, file => do
    match ← c.nameLeaf? with
    | none => return none
    | some name => s.nameByDefinition (s.nameUpTo fuel) file (s.definitionsAt name file)

/-- The qualified name of a place in a file. A search that goes round in circles finds nothing. -/
def qualifiedName (s : Setting) (c : Cursor) (file : String) :
    Except Fault (Option QualifiedName) :=
  match s.nameUpTo (s.resolver.reach + c.above.length + 1) c file with
  | .error .unending => .ok none
  | result => result

/-! ### Definitions -/

/-- The name by the dotted name under which a definition can be imported. -/
def nameByFullName (d : Definition) : Except Fault QualifiedName := do
  match ← d.fullName with
  | none => throw (.absent "split")
  | some full => return .dotted ((full.toList.splitOn '.').map String.ofList)

/-- The recording of a module definition by its file. The module is named by the path of the file,
with its own name at the end if it has one. -/
def recordingByFile (s : Setting) (d : Definition) : Except Fault (Option Recording) := do
  match ← s.moduleName (← d.modulePath) with
  | none => return none
  | some q =>
    match ← d.name with
    | none => return some (.namelessMember q)
    | some name =>
      if q.elements.getLast?.map NameElement.name = some name then return some (.symbol q)
      else return some (.symbol (q.child name))

/-- The name of a built-in class or function. -/
def builtinName (d : Definition) : Except Fault QualifiedName := do
  match ← d.fullName with
  | some full => return .dotted ("builtins" :: (full.toList.splitOn '.').map String.ofList)
  | none =>
    match ← d.name with
    | some name => return .dotted ("builtins" :: (name.toList.splitOn '.').map String.ofList)
    | none => throw (.absent "split")

/-- The definition stands at no position. The column is only read if the line is unknown. -/
def isUnlocated (d : Definition) : Except Fault Bool := do
  match ← d.line with
  | some _ => return false
  | none => return (← d.column).isNone

/-- The name of the class or function that a definition defines. -/
def nameOfDefinition (s : Setting) (d : Definition) : Except Fault (Option QualifiedName) := do
  if ← isUnlocated d then
    if ["builtins", "__builtin__"].contains ((← d.moduleName).getD "") then
      return some (← builtinName d)
    else return some (← nameByFullName d)
  else
    match d.site with
    | .nameless | .unplaced => return none
    | .place site =>
      match ← s.fileOf d with
      | none => return none
      | some file => s.qualifiedName site file

end Setting

end CodeIndex.Semantic
