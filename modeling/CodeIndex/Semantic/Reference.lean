import CodeIndex.Semantic.Naming
import CodeIndex.Trace

/-!
# References of the semantic indexer

What is recorded for a name and one of its definitions. Each function says whether the definition
settled what the name is; if none does, the name is a reference to something unknown.
-/

namespace CodeIndex.Semantic

open Indexing

namespace Setting

variable {ρ : Type} [Recorder ρ]

/-- Anything inside a `from … import` statement is imported; otherwise it is used as `kind`. -/
def orImported (c : Cursor) (kind : ReferenceKind) : ReferenceKind :=
  if c.within .importFrom then .importing else kind

/-- A name for an instance is a global variable. -/
def referToInstance (c : Cursor) (d : Definition) : Indexing ρ Bool := do
  let symbol ← emit (.symbol (← nameByFullName d))
  note (.symbolKind symbol .globalVariable)
  refer symbol (orImported c .usage) (← c.range)
  return true

/-- A module is recorded by its file, or else by its full name. -/
def recordingOfModule (s : Setting) (d : Definition) : Except Fault Recording := do
  match ← s.recordingByFile d with
  | some recording => return recording
  | none => return .symbol (← nameByFullName d)

/-- A name for a module is a qualifier, an import or a use. -/
def referToModule (s : Setting) (c : Cursor) (d : Definition) : Indexing ρ Bool := do
  let symbol ← emit (← s.recordingOfModule d)
  note (.symbolKind symbol .moduleSymbol)
  if ← c.isQualifier then note (.qualifierLocation symbol (← c.range))
  else refer symbol (if c.within .importName then .importing else .usage) (← c.range)
  return true

/-- How a name refers to a class: as a base class, as an import, or as a type. -/
def classReferenceKind (c : Cursor) : ReferenceKind :=
  match c.parent? with
  | none => .typeUsage
  | some p =>
    if p.isKind .classdef then .inheritance
    else if (p.isKind .arglist || p.isKind .testlist) && p.parent?.any (Cursor.isKind .classdef)
    then .inheritance
    else orImported c .typeUsage

/-- A name for a class is a qualifier or a reference. A call of the class is also a call of its
constructor. -/
def referToClass (s : Setting) (c : Cursor) (d : Definition) : Indexing ρ Bool := do
  match ← s.nameOfDefinition d with
  | none => return false
  | some name =>
    let symbol ← emit (.symbol name)
    note (.symbolKind symbol .classSymbol)
    if ← c.isQualifier then note (.qualifierLocation symbol (← c.range))
    else
      let kind := classReferenceKind c
      refer symbol kind (← c.range)
      if kind = .typeUsage then
        if ← c.isCall then
          let constructor ← emit (.symbol (name.child "__init__"))
          note (.symbolKind constructor .method)
          refer constructor .call (← c.range)
    return true

/-- A name for a function is a call or an import; otherwise the function is recorded without a
reference to it. -/
def referToFunction (s : Setting) (c : Cursor) (d : Definition) : Indexing ρ Bool := do
  match ← s.nameOfDefinition d with
  | none => return false
  | some name =>
    let symbol ← emit (.symbol name)
    note (.symbolKind symbol .function)
    if ← c.isCall then
      refer symbol .call (← c.range)
      return true
    else if c.within .importFrom then
      refer symbol .importing (← c.range)
      return true
    else return false

/-! ### Variables -/

/-- The name of a local variable: the function in which it is defined, or else the present context,
and its own name. -/
def localName (s : Setting) (d : Definition) : Indexing ρ String := do
  let site ← d.site.cursor
  let function :=
    match ← s.fileOf d, site.bind (Cursor.enclosing? (· = .funcdef)) with
    | some file, some function => some (file, function)
    | _, _ => none
  let owner ←
    match function with
    | none => pure ""
    | some (file, function) => do
      match ← function.firstName? with
      | none => pure ""
      | some name => do
        match ← s.qualifiedName name file with
        | none => pure ""
        | some q => pure q.display
  let owner ← if owner.isEmpty then pure (← context).name else pure owner
  match site with
  | none => throw (.absent "value")
  | some site => return owner ++ "<" ++ (← site.tree.text) ++ ">"

/-- A name for a local variable. -/
def referToLocal (s : Setting) (c : Cursor) (d : Definition) : Indexing ρ Bool := do
  useLocal (← s.localName d) (← c.range)
  return true

/-- Both places cover the same range. -/
def sameRange (c d : Cursor) : Except Fault Bool := do
  if (← c.tree.start) = (← d.tree.start) then return (← c.tree.finish) = (← d.tree.finish)
  else return false

/-- What a name is, given where the variable it refers to is defined. Without a symbol and a
reference it is a local variable. -/
structure Role where
  /-- The kind of symbol, if this occurrence tells. -/
  symbol : Option SymbolKind := none
  /-- Whether this occurrence is the definition. -/
  defines : Bool := false
  /-- The kind of reference, if this occurrence is one. -/
  reference : Option ReferenceKind := none
  deriving DecidableEq, Repr

/-- The role of a name for a variable that is defined directly in a class. -/
def fieldRole (c site around : Cursor) : Except Fault Role := do
  if site.namedParent?.any around.sameAs then
    if ← sameRange site c then return { symbol := some .field, defines := true }
    else return { reference := some .usage }
  else return {}

/-- The role of a name for a variable that is defined in a function: an attribute of the first
parameter of a method is a field. -/
def attributeRole (s : Setting) (c site : Cursor) (file : String) : Except Fault Role := do
  if site.parent?.any (Cursor.isKind .trailer) then
    match site.namedParent? with
    | none => return {}
    | some object =>
      match ← lastClassOfSelf (s.definitionsAt object file) with
      | none => return {}
      | some _ =>
        if ← sameRange site c then
          return { symbol := some .field, defines := true, reference := some .usage }
        else return { reference := some .usage }
  else return {}

/-- The role of a name for a variable that is defined outside of all classes and functions. -/
def globalRole (c site : Cursor) : Except Fault Role := do
  if ← sameRange site c then return { symbol := some .globalVariable, defines := true }
  else return { symbol := some .globalVariable, reference := some (orImported c .usage) }

/-- The role of a name for a variable whose definition stands at `site`. -/
def role (s : Setting) (c site : Cursor) (file : String) : Except Fault Role :=
  match site.definitionAround? with
  | none => globalRole c site
  | some around =>
    if around.isKind .classdef then fieldRole c site around else s.attributeRole c site file

/-- A name for a variable. -/
def referToVariable (s : Setting) (c : Cursor) (d : Definition) : Indexing ρ Bool := do
  match ← s.fileOf d with
  | none => return false
  | some file =>
    match ← d.site.cursor with
    | none => throw (.absent "start_pos")
    | some site =>
      let role ← s.role c site file
      let range ← c.range
      if role.symbol.isSome || role.reference.isSome then
        match ← s.qualifiedName site file with
        | none => return false
        | some name =>
          let symbol ← emit (.symbol name)
          match role.symbol with
          | none => pure ()
          | some kind => note (.symbolKind symbol kind)
          if role.defines then
            note (.definitionKind symbol .explicit)
            note (.symbolLocation symbol range)
          match role.reference with
          | none => pure ()
          | some kind => refer symbol kind range
          return true
      else
        useLocal (← s.localName d) range
        return true

end Setting

end CodeIndex.Semantic
