import CodeIndex.Tree.Cursor

/-!
# The resolver

A resolver knows for places in source files which definitions the name there may refer to. Its
answers are incomplete and not always sound: entries may be missing, properties may be unknown, and
reading a property may fail.
-/

namespace CodeIndex

/-- A property of a definition: it may be unknown, and reading it may fail. -/
abbrev Property (α : Type) := Except Fault (Option α)

/-- Where the name of a definition stands. -/
inductive Site where
  /-- The definition has no name at all. -/
  | nameless
  /-- The name stands in no tree. -/
  | unplaced
  /-- The name stands at a place of a tree. -/
  | place (c : Cursor)
  deriving Repr, Inhabited

/-- The place of the name. -/
def Site.cursor : Site → Except Fault (Option Cursor)
  | nameless => .error (.absent "tree_name")
  | unplaced => .ok none
  | place c => .ok (some c)

/-- A definition that a name may refer to. -/
structure Definition where
  /-- What is defined: a class, a function, a parameter, a statement, a module, an instance. -/
  kind : Property String := .ok none
  /-- The line of the definition. -/
  line : Property Int := .ok none
  /-- The column of the definition. -/
  column : Property Int := .ok none
  /-- The path of the file that holds it. -/
  modulePath : Property String := .ok none
  /-- The name of the module that holds it. -/
  moduleName : Property String := .ok none
  /-- The dotted name under which it can be imported. -/
  fullName : Property String := .ok none
  /-- Its own name. -/
  name : Property String := .ok none
  /-- Where its name stands. -/
  site : Site := .unplaced

/-- An answer of the resolver: definitions, some of which may be missing, or a failure. -/
abbrev Answer := Except Failure (List (Option Definition))

/-- A question to the resolver: a file, or none for text that comes from no file, and a position. -/
structure Question where
  /-- The path of the file. -/
  path : Option String
  /-- The position in the file. -/
  position : Position
  deriving DecidableEq, Repr

/-- A resolver, given by its answers to the questions it knows something about. -/
structure Resolver where
  /-- The answers. -/
  answers : List (Question × Answer)

namespace Resolver

/-- The definitions that the name at a place may refer to. A failure counts as no answer. -/
def definitions (r : Resolver) (q : Question) : List (Option Definition) :=
  match r.answers.lookup q with
  | some (.ok definitions) => definitions
  | _ => []

/-- The definitions in all answers. -/
def known (r : Resolver) : List Definition :=
  r.answers.flatMap fun a =>
    match a.2 with
    | .ok definitions => definitions.filterMap id
    | .error _ => []

/-- The different files that hold definitions. -/
def files (r : Resolver) : List String :=
  (r.known.filterMap fun d => d.modulePath.toOption.join).eraseDups

/-- How many steps from definition to definition can be different. A step leads to a place that one
of the definitions determines, either as what is around it or as its class, in one of the files or
in the text that comes from no file. So a longer way goes round in circles. -/
def reach (r : Resolver) : Nat := 2 * r.known.length * (r.files.length + 1) + 1

end Resolver

end CodeIndex
