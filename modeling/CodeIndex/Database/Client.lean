import CodeIndex.Database
import CodeIndex.Recording

/-!
# Recording into the database

A client turns recordings into database calls. It remembers the identifier of the file that is
being indexed, which every place refers to.
-/

namespace CodeIndex

/-- The complaint about a database, which is described in brackets if anything is known about it. -/
def versionComplaint (description : String) : String :=
  "ERROR: Used version of SourcetrailDB " ++ description ++
    "is incompatible to what is required by this version of SourcetrailPythonIndexer (" ++
    requiredVersion ++ ")."

/-- The version check that comes before any work. The database must have the required version; if
complaints are wanted, the lines say what is wrong. A version that is no text cannot be shown. -/
def Database.isUsable (d : Database) (complain : Bool) :
    Except Fault (Bool × List String) × Database :=
  if d.unavailable.contains versionFunction then
    (.ok (false, if complain then [versionComplaint ""] else []), d)
  else
    let (version, d) := d.call .versionString
    if version = .text requiredVersion then (.ok (true, []), d)
    else if complain then
      (version.asText.map fun v => (false, [versionComplaint ("(" ++ v ++ ") ")]), d)
    else (.ok (false, []), d)

/-- A client of the database. -/
structure Client where
  /-- The database. -/
  database : Database
  /-- The identifier of the file that is being indexed. -/
  file : Value := .number 0

namespace Client

/-- A new client, and the lines it prints about the compatibility of the database. -/
def connect (d : Database) : Client × List String :=
  let (compatible, d) := d.call .isCompatible
  if compatible.holds then ({ database := d }, ["INFO: Loaded database is compatible."])
  else
    let (supported, d) := d.call .supportedVersion
    let (loaded, d) := d.call .loadedVersion
    ({ database := d },
      ["WARNING: Loaded database is not compatible.",
        "INFO: Supported DB Version: " ++ supported.render,
        "INFO: Loaded DB Version: " ++ loaded.render])

/-- A call whose answer is passed on. -/
def ask (c : Client) (call : Call) : Value × Client :=
  (c.database.answer call, { c with database := c.database.after call })

/-- A call whose answer is of no interest. -/
def tell (c : Client) (call : Call) : Value × Client :=
  (.null, { c with database := c.database.after call })

/-- A path with forward slashes only. -/
def slashed (path : String) : String :=
  String.ofList (path.toList.map fun c => if c = '\\' then '/' else c)

/-- A recording as database calls, with what it gives back. A file becomes the one that is being
indexed, and its language is recorded with it. A symbol without a name is not recorded. -/
def record (c : Client) : Recording → Value × Client
  | .file path =>
    let (id, c) := c.ask (.file (slashed path))
    (id, ({ c with file := id }.tell (.fileLanguage id language)).2)
  | .fileLanguage i language => c.tell (.fileLanguage i language)
  | .symbol name => c.ask (.symbol name.stored)
  | .namelessSymbol => (.number 0, c)
  | .namelessMember owner => c.ask (.symbol owner.storedNameless)
  | .definitionKind i kind => c.tell (.definitionKind i kind)
  | .symbolKind i kind => c.tell (.symbolKind i kind)
  | .symbolLocation i range => c.tell (.symbolLocation i c.file range)
  | .scopeLocation i range => c.tell (.scopeLocation i c.file range)
  | .signatureLocation i range => c.tell (.signatureLocation i c.file range)
  | .reference context target kind => c.ask (.reference context target kind)
  | .referenceLocation i range => c.tell (.referenceLocation i c.file range)
  | .ambiguousReference i => c.ask (.ambiguousReference i)
  | .unsolvedReference context kind range =>
    c.ask (.unsolvedReference context kind c.file range)
  | .qualifierLocation i range => c.ask (.qualifierLocation i c.file range)
  | .localSymbol name => c.ask (.localSymbol name)
  | .localLocation i range => c.tell (.localLocation i c.file range)
  | .atomicRange range => c.tell (.atomicRange c.file range)
  | .error message fatal range => c.tell (.error message fatal c.file range)

/-- The explanation of the database for what went wrong last. -/
def lastError (c : Client) : Except Fault String × Client :=
  let (reason, c) := c.ask .lastError
  (reason.asText, c)

end Client

instance : Recorder Client where
  record r c :=
    let (answer, c) := c.record r
    .ok answer c
  explain c :=
    match c.lastError with
    | (.ok reason, c) => .ok reason c
    | (.error e, c) => .error e c

end CodeIndex
