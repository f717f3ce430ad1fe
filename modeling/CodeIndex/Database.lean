import CodeIndex.Extent
import CodeIndex.Kind

/-!
# The database

The functions of the symbol database, and a database that answers each call and keeps a log of all
of them. It gives out increasing identifiers and agrees to everything else, unless an answer is
fixed beforehand. What is fixed may be different for every call: it depends on the call and on all
calls before it.
-/

namespace CodeIndex

/-- A call of a database function. -/
inductive Call where
  | versionString
  | isCompatible
  | supportedVersion
  | loadedVersion
  | lastError
  | openAt (path : String)
  | close
  | clear
  | isEmpty
  | beginTransaction
  | commitTransaction
  | symbol (stored : String)
  | definitionKind (symbol : Value) (kind : DefinitionKind)
  | symbolKind (symbol : Value) (kind : SymbolKind)
  | symbolLocation (symbol file : Value) (range : Extent)
  | scopeLocation (symbol file : Value) (range : Extent)
  | signatureLocation (symbol file : Value) (range : Extent)
  | reference (context target : Value) (kind : ReferenceKind)
  | referenceLocation (reference file : Value) (range : Extent)
  | ambiguousReference (reference : Value)
  | unsolvedReference (context : Value) (kind : ReferenceKind) (file : Value) (range : Extent)
  | qualifierLocation (symbol file : Value) (range : Extent)
  | file (path : String)
  | fileLanguage (file language : Value)
  | localSymbol (name : String)
  | localLocation (symbol file : Value) (range : Extent)
  | atomicRange (file : Value) (range : Extent)
  | error (message fatal file : Value) (range : Extent)
  deriving DecidableEq, Repr

/-- The name of the function for a version of the database. -/
def versionFunction : String := "getVersionString"

namespace Call

/-- The name of the function called. -/
def function : Call → String
  | versionString => versionFunction
  | isCompatible => "isCompatible"
  | supportedVersion => "getSupportedDatabaseVersion"
  | loadedVersion => "getLoadedDatabaseVersion"
  | lastError => "getLastError"
  | openAt _ => "open"
  | close => "close"
  | clear => "clear"
  | isEmpty => "isEmpty"
  | beginTransaction => "beginTransaction"
  | commitTransaction => "commitTransaction"
  | symbol _ => "recordSymbol"
  | definitionKind _ _ => "recordSymbolDefinitionKind"
  | symbolKind _ _ => "recordSymbolKind"
  | symbolLocation _ _ _ => "recordSymbolLocation"
  | scopeLocation _ _ _ => "recordSymbolScopeLocation"
  | signatureLocation _ _ _ => "recordSymbolSignatureLocation"
  | reference _ _ _ => "recordReference"
  | referenceLocation _ _ _ => "recordReferenceLocation"
  | ambiguousReference _ => "recordReferenceIsAmbiuous"
  | unsolvedReference _ _ _ _ => "recordReferenceToUnsolvedSymhol"
  | qualifierLocation _ _ _ => "recordQualifierLocation"
  | file _ => "recordFile"
  | fileLanguage _ _ => "recordFileLanguage"
  | localSymbol _ => "recordLocalSymbol"
  | localLocation _ _ _ => "recordLocalSymbolLocation"
  | atomicRange _ _ => "recordAtomicSourceRange"
  | error _ _ _ _ => "recordError"

/-- The arguments of a call. -/
def arguments : Call → List Value
  | versionString | isCompatible | supportedVersion | loadedVersion | lastError | close | clear
  | isEmpty | beginTransaction | commitTransaction => []
  | openAt path => [.text path]
  | symbol stored => [.text stored]
  | definitionKind i kind => [i, kind.code]
  | symbolKind i kind => [i, kind.code]
  | symbolLocation i f range | scopeLocation i f range | signatureLocation i f range
  | referenceLocation i f range | qualifierLocation i f range
  | localLocation i f range => i :: f :: range.bounds
  | reference context target kind => [context, target, kind.code]
  | ambiguousReference i => [i]
  | unsolvedReference context kind f range => context :: kind.code :: f :: range.bounds
  | file path => [.text path]
  | fileLanguage i language => [i, language]
  | localSymbol name => [.text name]
  | atomicRange f range => f :: range.bounds
  | error message fatal f range => message :: fatal :: f :: range.bounds

/-- The function gives out a new identifier. -/
def issuesId : Call → Bool
  | symbol _ | reference _ _ _ | unsolvedReference _ _ _ _ | file _ | localSymbol _ => true
  | _ => false

end Call

/-- A call and the answer it got. -/
structure LogEntry where
  /-- The call. -/
  call : Call
  /-- The answer. -/
  answer : Value
  deriving DecidableEq, Repr

/-- The version of the database that this indexer needs. -/
def requiredVersion : String := "v3.db25.p0"

/-- A database. -/
structure Database where
  /-- The answer that is fixed beforehand for a call that comes after the given ones, if any is. -/
  fixed : Array LogEntry → Call → Option Value := fun _ _ => none
  /-- Functions that this database does not have. -/
  unavailable : List String := []
  /-- The identifier given out last. -/
  lastId : Int := 1
  /-- All calls so far. -/
  log : Array LogEntry := #[]

namespace Database

/-- Answers that are fixed by function, the same for all calls. -/
def answersByFunction (answers : List (String × Value)) : Array LogEntry → Call → Option Value :=
  fun _ c => answers.lookup c.function

/-- The answer to a call when nothing is fixed. -/
def ownAnswer (d : Database) (c : Call) : Value :=
  if c.issuesId then .number (d.lastId + 1)
  else
    match c with
    | .versionString => .text requiredVersion
    | .supportedVersion | .loadedVersion => .number 25
    | .lastError => .text ""
    | _ => .flag true

/-- The answer to a call. -/
def answer (d : Database) (c : Call) : Value := (d.fixed d.log c).getD (d.ownAnswer c)

/-- The call uses up an identifier: it gives one out, and its answer is not fixed. -/
def usesId (d : Database) (c : Call) : Bool :=
  c.issuesId && (d.fixed d.log c).isNone

/-- The database after a call. -/
def after (d : Database) (c : Call) : Database :=
  { d with
    lastId := if d.usesId c then d.lastId + 1 else d.lastId
    log := d.log.push ⟨c, d.answer c⟩ }

/-- A call: its answer and the database after it. -/
def call (d : Database) (c : Call) : Value × Database := (d.answer c, d.after c)

end Database

end CodeIndex
