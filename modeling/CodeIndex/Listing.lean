import CodeIndex.Recording

/-!
# Listings

A listing collects recordings in memory. The same symbol, reference or local variable always gets
the same identifier, and everything keeps the order in which it was first recorded.
-/

namespace CodeIndex

/-- A symbol or a file of a listing. -/
structure SymbolEntry where
  /-- Its identifier. -/
  id : Int
  /-- Its display name. -/
  name : String
  /-- The word for how it is defined, if that was recorded. -/
  definition : Option String := none
  /-- The word for what it is, if that was recorded. -/
  kind : Option String := none
  /-- Where it is defined. -/
  location : Option Extent := none
  /-- The range of its definition. -/
  scope : Option Extent := none
  /-- The range of its signature. -/
  signature : Option Extent := none
  deriving DecidableEq, Repr

/-- The written form of a reference. A listing takes references that are written alike for the same
one. -/
def writtenReference (context target : Value) (kind : ReferenceKind) : String :=
  context.render ++ " -> " ++ target.render ++ "[" ++ kind.code.render ++ "]"

/-- A reference of a listing. -/
structure ReferenceEntry where
  /-- Its identifier. -/
  id : Int
  /-- The identifier of the symbol that refers. -/
  context : Value
  /-- The identifier of the symbol that is referred to. -/
  target : Value
  /-- Its kind. -/
  kind : ReferenceKind
  /-- The places at which it is shown; `none` is a showing without a place. -/
  places : List (Option Extent) := []
  deriving DecidableEq, Repr

/-- The written form of a reference of a listing. -/
def ReferenceEntry.written (e : ReferenceEntry) : String :=
  writtenReference e.context e.target e.kind

/-- A local variable of a listing. -/
structure LocalEntry where
  /-- Its identifier. -/
  id : Int
  /-- Its name. -/
  name : String
  /-- Its places. -/
  places : List Extent := []
  deriving DecidableEq, Repr

/-- The places at which a symbol is a qualifier. -/
structure QualifierEntry where
  /-- The identifier of the symbol. -/
  symbol : Value
  /-- The places. -/
  places : List Extent := []
  deriving DecidableEq, Repr

/-- An error in the source. -/
structure ErrorEntry where
  /-- What is wrong. -/
  message : String
  /-- Whether indexing could not go on. -/
  fatal : Bool
  /-- Where. -/
  range : Extent
  deriving DecidableEq, Repr

/-- A listing. -/
structure Listing where
  /-- The identifier to be given out next. -/
  nextId : Int := 1
  /-- The identifiers by what they stand for: the stored form of a name, or the path of a file. -/
  keys : List (String × Int) := []
  /-- The symbols and files. -/
  symbols : List SymbolEntry := []
  /-- The references. -/
  references : List ReferenceEntry := []
  /-- The local variables. -/
  locals : List LocalEntry := []
  /-- The qualifiers. -/
  qualifiers : List QualifierEntry := []
  /-- The atomic ranges. -/
  atomicRanges : List Extent := []
  /-- The errors. -/
  errors : List ErrorEntry := []
  deriving Repr, Inhabited

namespace Listing

/-- The word for how a symbol is defined. The code of an annotation reads as an explicit
definition; an explicit definition itself has no word. -/
def definitionWord (k : DefinitionKind) : String :=
  if k.code.plain = SymbolKind.annotation.code then "EXPLICIT"
  else if k.code.plain = DefinitionKind.implicit.code then "IMPLICIT"
  else ""

/-- A new identifier. -/
def takeId (l : Listing) : Int × Listing := (l.nextId, { l with nextId := l.nextId + 1 })

/-- The symbol with an identifier. -/
def symbol? (l : Listing) (i : Value) : Option SymbolEntry :=
  l.symbols.find? fun e => some e.id = i.number?

/-- A new identifier for a key. -/
def addKey (l : Listing) (key : String) : Int × Listing :=
  let (i, l) := l.takeId
  (i, { l with keys := l.keys ++ [(key, i)] })

/-- The identifier of the symbol with the given key, which is added if it is new. -/
def addSymbol (l : Listing) (key : String) (entry : Int → SymbolEntry) : Int × Listing :=
  match l.keys.lookup key with
  | some i => (i, l)
  | none =>
    let (i, l) := l.addKey key
    (i, { l with symbols := l.symbols ++ [entry i] })

/-- The listing with the symbol `i`, if there is one, changed by `f`. -/
def changeSymbol (l : Listing) (i : Value) (f : SymbolEntry → SymbolEntry) : Listing :=
  { l with symbols := l.symbols.map fun e => if some e.id = i.number? then f e else e }

/-- A symbol by its name. -/
def addNamed (l : Listing) (name : QualifiedName) : Int × Listing :=
  l.addSymbol name.stored fun i => { id := i, name := name.display }

/-- A file by its path. -/
def addFile (l : Listing) (path : String) : Int × Listing :=
  l.addSymbol path fun i =>
    { id := i, name := path, definition := some "INDEXED", kind := some "FILE" }

/-- The identifier of a reference, which is added if it is new. -/
def addReference (l : Listing) (context target : Value) (kind : ReferenceKind) : Int × Listing :=
  match l.references.find? (·.written = writtenReference context target kind) with
  | some e => (e.id, l)
  | none =>
    let (i, l) := l.takeId
    (i, { l with references := l.references ++ [{ id := i, context, target, kind }] })

/-- One more place of a reference, if it is known. -/
def placeReference (l : Listing) (i : Value) (range : Extent) : Listing :=
  { l with
    references := l.references.map fun e =>
      if some e.id = i.number? then { e with places := e.places ++ [some range] } else e }

/-- The identifier of a local variable, which is added if it is new. -/
def addLocal (l : Listing) (name : String) : Int × Listing :=
  match l.locals.find? (·.name = name) with
  | some e => (e.id, l)
  | none =>
    let (i, l) := l.takeId
    (i, { l with locals := l.locals ++ [{ id := i, name }] })

/-- One more place of a local variable, if it is known. -/
def placeLocal (l : Listing) (i : Value) (range : Extent) : Listing :=
  { l with
    locals := l.locals.map fun e =>
      if some e.id = i.number? then { e with places := e.places ++ [range] } else e }

/-- One more place at which a symbol, known or not, is a qualifier. -/
def placeQualifier (l : Listing) (i : Value) (range : Extent) : Listing :=
  { l with
    qualifiers :=
      if l.qualifiers.any (·.symbol.plain = i.plain) then
        l.qualifiers.map fun e =>
          if e.symbol.plain = i.plain then { e with places := e.places ++ [range] } else e
      else l.qualifiers ++ [⟨i, [range]⟩] }

/-- A recording that gives back an identifier. -/
def identify (f : Listing → Int × Listing) : EStateM Fault Listing Value := fun l =>
  let (i, l) := f l
  .ok (.number i) l

/-- A recording that gives back nothing. -/
def change (f : Listing → Listing) : EStateM Fault Listing Value := fun l => .ok .null (f l)

/-- A symbol without a name cannot be shown, so there is a fault when it comes up. It has got its
identifier by then, which is given back when it comes up again. -/
def recordNameless (owner : QualifiedName) : EStateM Fault Listing Value := fun l =>
  match l.keys.lookup owner.storedNameless with
  | some i => .ok (.number i) l
  | none => .error (.notText Value.null.typeName) (l.addKey owner.storedNameless).2

/-- Takes a recording. -/
def record : Recording → EStateM Fault Listing Value
  | .file path => identify (·.addFile path)
  | .fileLanguage _ _ => return .null
  | .symbol name => identify (·.addNamed name)
  | .namelessSymbol => throw (.absent "serialize")
  | .namelessMember owner => recordNameless owner
  | .definitionKind i kind =>
    change (·.changeSymbol i fun e => { e with definition := some (definitionWord kind) })
  | .symbolKind i kind => change (·.changeSymbol i fun e => { e with kind := some kind.label })
  | .symbolLocation i range =>
    change (·.changeSymbol i fun e => { e with location := some range })
  | .scopeLocation i range => change (·.changeSymbol i fun e => { e with scope := some range })
  | .signatureLocation i range =>
    change (·.changeSymbol i fun e => { e with signature := some range })
  | .reference context target kind => identify (·.addReference context target kind)
  | .referenceLocation i range => change (·.placeReference i range)
  | .ambiguousReference _ => throw .unsupported
  | .unsolvedReference context kind range => do
    let target ← identify (·.addNamed .unsolved)
    let reference ← identify (·.addReference context target kind)
    let _ ← change (·.placeReference reference range)
    return reference
  | .qualifierLocation i range => change (·.placeQualifier i range)
  | .localSymbol name => identify (·.addLocal name)
  | .localLocation i range => change (·.placeLocal i range)
  | .atomicRange range => change fun l => { l with atomicRanges := l.atomicRanges ++ [range] }
  | .error message fatal range => do
    let message ← message.asText
    change fun l => { l with errors := l.errors ++ [⟨message, fatal.holds, range⟩] }

end Listing

instance : Recorder Listing where
  record := Listing.record
  explain := return ""

end CodeIndex
