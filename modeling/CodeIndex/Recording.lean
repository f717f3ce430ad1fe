import CodeIndex.Extent
import CodeIndex.Kind
import CodeIndex.QualifiedName

/-!
# Recordings

What an indexer has to say about a source: the symbols, the references between them, the places of
both, local variables and errors. A recording speaks about earlier ones by the identifiers that the
recorder gave out for them.

A recorder takes recordings one after the other. It may refuse one by a fault, and what it took
before stays.
-/

namespace CodeIndex

/-- The language that is indexed. -/
def language : Value := .text "python"

/-- One statement of an indexer. -/
inductive Recording where
  /-- The file that is indexed. -/
  | file (path : String)
  /-- The language of a file. -/
  | fileLanguage (file language : Value)
  /-- A symbol. -/
  | symbol (name : QualifiedName)
  /-- A symbol for which there is no name. -/
  | namelessSymbol
  /-- A symbol inside `owner` that has no name of its own. -/
  | namelessMember (owner : QualifiedName)
  /-- How a symbol is defined. -/
  | definitionKind (symbol : Value) (kind : DefinitionKind)
  /-- What a symbol is. -/
  | symbolKind (symbol : Value) (kind : SymbolKind)
  /-- Where the name of a symbol stands in its definition. -/
  | symbolLocation (symbol : Value) (range : Extent)
  /-- Where the whole definition of a symbol stands. -/
  | scopeLocation (symbol : Value) (range : Extent)
  /-- Where the signature of a symbol stands. -/
  | signatureLocation (symbol : Value) (range : Extent)
  /-- One symbol refers to another. -/
  | reference (context target : Value) (kind : ReferenceKind)
  /-- Where a reference stands. -/
  | referenceLocation (reference : Value) (range : Extent)
  /-- A reference has more than one possible target. -/
  | ambiguousReference (reference : Value)
  /-- A symbol refers to something unknown. -/
  | unsolvedReference (context : Value) (kind : ReferenceKind) (range : Extent)
  /-- Where a symbol stands in front of a dot. -/
  | qualifierLocation (symbol : Value) (range : Extent)
  /-- A local variable. -/
  | localSymbol (name : String)
  /-- Where a local variable stands. -/
  | localLocation (symbol : Value) (range : Extent)
  /-- A stretch of text that is not to be folded. -/
  | atomicRange (range : Extent)
  /-- An error in the source, and whether indexing could not go on. -/
  | error (message fatal : Value) (range : Extent)
  deriving DecidableEq, Repr

/-- A type of recorders. -/
class Recorder (ρ : Type) where
  /-- Takes a recording. What is given back identifies the symbol, reference or local variable that
  was recorded; for other recordings it says nothing. -/
  record : Recording → EStateM Fault ρ Value
  /-- Says why the file was refused. -/
  explain : EStateM Fault ρ String

end CodeIndex
