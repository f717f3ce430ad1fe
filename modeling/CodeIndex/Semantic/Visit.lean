import CodeIndex.Semantic.Reference

/-!
# The semantic indexer

An indexer that asks a resolver for the definitions of every name. A fault that comes up while one
definition of a name is looked at is reported and does not end the run.
-/

namespace CodeIndex.Semantic

open Indexing

/-- What a definition says about a name. -/
inductive Verdict where
  /-- The name stands at the definition itself. -/
  | here
  /-- The definition settled what the name is. -/
  | solved
  /-- It did not. -/
  | unsolved
  deriving DecidableEq, Repr

/-- The verdict by whether the name is settled. -/
def Verdict.ofBool (b : Bool) : Verdict := if b then solved else unsolved

namespace Setting

variable {ρ : Type} [Recorder ρ]

/-- The definition stands at the position. The column is only read if the line fits. -/
def standsAt (d : Definition) (p : Position) : Except Fault Bool := do
  if (← d.line) = some p.line then return (← d.column) = some p.column else return false

/-- The definition stands at a known position. The column is only read if the line is known. -/
def isLocated (d : Definition) : Except Fault Bool := do
  match ← d.line with
  | none => return false
  | some _ => return (← d.column).isSome

/-- Looks at one definition of the name at a place. -/
def consider (s : Setting) (c : Cursor) (d : Definition) : Indexing ρ Verdict := do
  match ← d.kind with
  | some "instance" =>
    if ← isUnlocated d then return .ofBool (← referToInstance c d) else return .unsolved
  | some "module" => return .ofBool (← s.referToModule c d)
  | some "class" =>
    if ← standsAt d (← c.tree.start) then return .here
    else return .ofBool (← s.referToClass c d)
  | some "function" =>
    if ← standsAt d (← c.tree.start) then return .here
    else return .ofBool (← s.referToFunction c d)
  | some "param" =>
    if ← isLocated d then return .ofBool (← s.referToLocal c d) else return .unsolved
  | some "statement" =>
    if ← isLocated d then return .ofBool (← s.referToVariable c d) else return .unsolved
  | _ => return .unsolved

/-- The line that reports a fault. -/
def faultLine (e : Fault) (name : String) (range : SourceRange) : String :=
  "ERROR: Encountered exception \"" ++ e.report ++
    "\" while trying to solve the definition of node \"" ++ name ++ "\" at " ++ range.text ++ "."

/-- Looks at one definition of the name at a place; a fault is reported. -/
def considerSafely (s : Setting) (c : Cursor) (d : Definition) : Indexing ρ Verdict :=
  tryCatch (s.consider c d) fun e => do
    say (faultLine e (← c.tree.text) (← c.range))
    return .unsolved

/-- Looks at the definitions of the name at a place in turn. The name is a reference to something
unknown if none of them settles what it is. At a definition that stands at the place itself the
search ends. -/
def visitDefinitions (s : Setting) (c : Cursor) :
    List (Option Definition) → Bool → Indexing ρ Unit
  | [], solved => if solved then pure () else referToUnsolved .usage c
  | none :: rest, solved => visitDefinitions s c rest solved
  | some d :: rest, solved => do
    match ← s.considerSafely c d with
    | .here => pure ()
    | .solved => visitDefinitions s c rest true
    | .unsolved => visitDefinitions s c rest solved

/-- A name. Nothing is done outside of all contexts. -/
def visitName (s : Setting) (c : Cursor) : Indexing ρ Unit := do
  if (← get).contexts.isEmpty then return
  else if constantNames.contains (← c.tree.text) then return
  else s.visitDefinitions c (s.definitionsAt c s.source.path) false

/-! ### Imports -/

/-- A name in an import statement is in error if the resolver knows no definition of it. -/
def checkName (s : Setting) (t : Tree) : Indexing ρ Bool := do
  if (s.definitionsAt (.root t) s.source.path).isEmpty then
    let message := "Imported symbol named \"" ++ (← t.text) ++ "\" has not been found."
    note (.error (.text message) (.flag false) (← t.range))
    return false
  else return true

mutual

/-- Records an error for each name in an import statement that cannot be resolved. The first such
component of a module path makes the rest of the path pointless, and in a `from … import` statement
also the names that are imported. Aliases are not looked at. -/
def checkImports (s : Setting) : Tree → Indexing ρ Bool
  | .leaf token =>
    match token.kind with
    | .name => s.checkName (.leaf token)
    | .importFrom | .dottedName | .importAsNames | .importName | .dottedAsNames | .importAsName
    | .dottedAsName => throw (.lacking "children")
    | _ => return true
  | .node kind parts =>
    match kind with
    | .name => s.checkName (.node kind parts)
    | .importFrom | .dottedName => checkImportsInTurn s parts
    | .importAsNames | .importName | .dottedAsNames => do
      checkAllImports s parts
      return true
    | .importAsName | .dottedAsName => do
      checkImportsToKeyword s parts
      return true
    | _ => return true

/-- Checks trees up to the first that cannot be resolved. -/
def checkImportsInTurn (s : Setting) : List Tree → Indexing ρ Bool
  | [] => return true
  | t :: ts => do
    if ← checkImports s t then checkImportsInTurn s ts else return false

/-- Checks all trees. -/
def checkAllImports (s : Setting) : List Tree → Indexing ρ Unit
  | [] => pure ()
  | t :: ts => do
    let _ ← checkImports s t
    checkAllImports s ts

/-- Checks the trees before the first reserved word. -/
def checkImportsToKeyword (s : Setting) : List Tree → Indexing ρ Unit
  | [] => pure ()
  | t :: ts => do
    if t.isKind .keyword then return
    let _ ← checkImports s t
    checkImportsToKeyword s ts

end

/-! ### Definitions and the traversal -/

/-- Enters a class or function. -/
def enterDefinition (s : Setting) (symbolKind : SymbolKind) (kind : ContextKind) (c : Cursor) :
    Indexing ρ Unit := do
  let name ← c.firstName?
  let full ←
    match name with
    | none => pure none
    | some n => s.qualifiedName n s.source.path
  let full := full.getD .unsolved
  let symbol ← define full symbolKind name c
  enter { id := symbol, kind, name := full.display, place := some c }

/-- What is done for a node before its parts are visited. -/
def visitSelf (s : Setting) (c : Cursor) : Indexing ρ Unit :=
  match c.tree.kind with
  | .classdef => s.enterDefinition .classSymbol .classBody c
  | .funcdef => s.enterDefinition .function .function c
  | .importFrom | .importName => do
    let _ ← s.checkImports c.tree
  | .name => s.visitName c
  | .string => visitString c
  | .errorLeaf => visitErrorToken c
  | _ => pure ()

/-- The end of the visit of a node: if it had been entered as a context, that is left. -/
def leaveSelf (c : Cursor) : Indexing ρ Unit :=
  match c.tree.kind with
  | .classdef | .funcdef | .importFrom | .importName | .name | .string | .errorLeaf => leave c
  | _ => pure ()

mutual

/-- Visits a tree and all its parts. -/
def visit (s : Setting) (above : List Ancestor) : Tree → Indexing ρ Unit
  | .leaf token =>
    let c : Cursor := ⟨.leaf token, above⟩
    listed s.verbose c do
      s.visitSelf c
      leaveSelf c
  | .node kind parts =>
    let c : Cursor := ⟨.node kind parts, above⟩
    listed s.verbose c do
      s.visitSelf c
      visitParts s (fun i => ⟨kind, parts, i⟩ :: above) 0 parts
      leaveSelf c

/-- Visits the trees of a list; the first one has number `i`, and `place` gives what is above
each. -/
def visitParts (s : Setting) (place : Nat → List Ancestor) (i : Nat) : List Tree → Indexing ρ Unit
  | [] => pure ()
  | t :: ts => do
    visit s (place i) t
    visitParts s place (i + 1) ts

end

/-- Begins a run: records the file and its module. -/
def begin (s : Setting) : Indexing ρ Unit := start s.source (s.moduleName (some s.source.path))

/-- Indexes a tree. -/
def index (s : Setting) (t : Tree) : Indexing ρ Unit := do
  s.begin
  s.visit [] t

end Setting

end CodeIndex.Semantic
