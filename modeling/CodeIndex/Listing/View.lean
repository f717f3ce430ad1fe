import CodeIndex.Listing
import CodeIndex.Text.CharacterClass

/-!
# The lines of a listing

A listing is read as six lists of lines. Reading it leaves a trace: a reference without any place is
from then on shown once without a place.
-/

namespace CodeIndex

/-- The lines of a listing. -/
structure View where
  /-- A line for each symbol and file. -/
  symbols : List String
  /-- A line for each place of a local variable. -/
  localSymbols : List String
  /-- A line for each showing of a reference. -/
  references : List String
  /-- A line for each place of a qualifier. -/
  qualifiers : List String
  /-- A line for each atomic range. -/
  atomicRanges : List String
  /-- A line for each error. -/
  errors : List String
  deriving DecidableEq, Repr

/-- A range after the words that introduce it, if there is one. -/
def rangeClause (words : String) : Option Extent → String
  | none => ""
  | some r => words ++ r.text

/-- The line of a symbol. -/
def SymbolEntry.line (e : SymbolEntry) : String :=
  Text.trim <|
    (match e.definition with | some word => word ++ " " | none => "NON-INDEXED ") ++
    (match e.kind with | some word => word ++ ": " | none => "SYMBOL: ") ++
    e.name ++ rangeClause " at " e.location ++ rangeClause " with scope " e.scope ++
    rangeClause " with signature " e.signature

namespace Listing

/-- The name of a symbol that may be unknown. -/
def nameOf (l : Listing) (i : Value) : String :=
  match l.symbol? i with
  | some e => e.name
  | none => "UNKNOWN SYMBOL"

/-- The line of one showing of a reference. -/
def referenceLine (l : Listing) (e : ReferenceEntry) (place : Option Extent) : String :=
  Text.trim <|
    e.kind.label ++ ": " ++ l.nameOf e.context ++ " -> " ++ l.nameOf e.target ++
    rangeClause " at " place

/-- The listing in which every reference is shown at least once. -/
def settle (l : Listing) : Listing :=
  { l with
    references := l.references.map fun e =>
      if e.places.isEmpty then { e with places := [none] } else e }

/-- The lines of a settled listing. -/
def lines (l : Listing) : View where
  symbols := (l.symbols.map SymbolEntry.line).filter fun s => !s.isEmpty
  localSymbols := l.locals.flatMap fun e =>
    if e.name.isEmpty then [] else e.places.map fun r => e.name ++ " at " ++ r.text
  references := (l.references.flatMap fun e => e.places.map (l.referenceLine e)).filter
    fun s => !s.isEmpty
  qualifiers := l.qualifiers.flatMap fun e =>
    e.places.map fun r => l.nameOf e.symbol ++ " at " ++ r.text
  atomicRanges := l.atomicRanges.map fun r => "ATOMIC SOURCE RANGE: " ++ r.text
  errors := l.errors.map fun e =>
    (if e.fatal then "FATAL " else "") ++ "ERROR: \"" ++ e.message ++ "\" at " ++ e.range.text

/-- Reads the listing: the lines and the listing afterwards. -/
def read (l : Listing) : View × Listing := (l.settle.lines, l.settle)

end Listing

end CodeIndex
