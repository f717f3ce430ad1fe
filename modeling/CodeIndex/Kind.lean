import CodeIndex.Value

/-!
# Kinds of symbols, definitions and references

The database knows each kind by a code. The codes are open: a recorder takes any of them, and the
constants name those that have a meaning.
-/

namespace CodeIndex

/-- The label of a code among labels whose codes are consecutive from `first` on; empty if the code
is none of them. -/
def labelFrom (first : Int) (labels : List String) (code : Value) : String :=
  match code.number? with
  | none => ""
  | some n => if n < first then "" else labels[(n - first).toNat]?.getD ""

/-- How a symbol is defined. -/
structure DefinitionKind where
  /-- The code of the kind. -/
  code : Value
  deriving DecidableEq, Repr, Inhabited

namespace DefinitionKind

/-- The symbol is defined without being written down. -/
def implicit : DefinitionKind := ⟨.number 1⟩
/-- The symbol is defined in the source text. -/
def explicit : DefinitionKind := ⟨.number 2⟩

end DefinitionKind

/-- What a symbol is. -/
structure SymbolKind where
  /-- The code of the kind. -/
  code : Value
  deriving DecidableEq, Repr, Inhabited

namespace SymbolKind

/-- The kinds with a meaning, in the order of their codes from 100 on. -/
def labels : List String :=
  ["TYPE", "BUILTIN_TYPE", "MODULE", "NAMESPACE", "PACKAGE", "STRUCT", "CLASS", "INTERFACE",
    "ANNOTATION", "GLOBAL_VARIABLE", "FIELD", "FUNCTION", "METHOD", "ENUM", "ENUM_CONSTANT",
    "TYPEDEF", "TYPE_PARAMETER", "FILE", "MACRO", "UNION"]

/-- The label of a kind; empty if the code has no meaning. -/
def label (k : SymbolKind) : String := labelFrom 100 labels k.code

/-- A module. -/
def moduleSymbol : SymbolKind := ⟨.number 102⟩
/-- A class. -/
def classSymbol : SymbolKind := ⟨.number 106⟩
/-- An annotation. -/
def annotation : SymbolKind := ⟨.number 108⟩
/-- A variable of a module. -/
def globalVariable : SymbolKind := ⟨.number 109⟩
/-- A variable of a class or of its instances. -/
def field : SymbolKind := ⟨.number 110⟩
/-- A function. -/
def function : SymbolKind := ⟨.number 111⟩
/-- A function of a class. -/
def method : SymbolKind := ⟨.number 112⟩

end SymbolKind

/-- How a symbol is referred to. -/
structure ReferenceKind where
  /-- The code of the kind. -/
  code : Value
  deriving DecidableEq, Repr, Inhabited

namespace ReferenceKind

/-- The kinds with a meaning, in the order of their codes from 200 on. -/
def labels : List String :=
  ["TYPE_USAGE", "USAGE", "CALL", "INHERITANCE", "OVERRIDE", "TYPE_ARGUMENT",
    "TEMPLATE_SPECIALIZATION", "INCLUDE", "IMPORT", "MACRO_USAGE", "ANNOTATION_USAGE"]

/-- The label of a kind; empty if the code has no meaning. -/
def label (k : ReferenceKind) : String := labelFrom 200 labels k.code

/-- A class is used. -/
def typeUsage : ReferenceKind := ⟨.number 200⟩
/-- Something is used. -/
def usage : ReferenceKind := ⟨.number 201⟩
/-- A function is called. -/
def call : ReferenceKind := ⟨.number 202⟩
/-- A class is a base class. -/
def inheritance : ReferenceKind := ⟨.number 203⟩
/-- Something is imported. -/
def importing : ReferenceKind := ⟨.number 208⟩

end ReferenceKind

end CodeIndex
