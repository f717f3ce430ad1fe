import CodeIndex.CommandLine.Commands
import CodeIndex.Database.Client
import CodeIndex.Session

/-!
# Running commands

What the commands do. Indexing opens the database, clears it if asked to, and records everything
inside of one transaction, which is committed only if no fault came up.
-/

namespace CodeIndex.CommandLine

open Session

/-- A database call. -/
def ask (call : Call) : SessionM Client Value := do
  let (answer, client) := (← get).recorder.ask call
  modify fun s => { s with recorder := client }
  return answer

/-- A database call that may be refused; the reason is printed. The result says whether it was
carried out. -/
def attempt (call : Call) : SessionM Client Bool := do
  if (← ask call).holds then return true
  else
    print ["ERROR: " ++ (← (← ask .lastError).asText)]
    return false

/-- Clears the database. -/
def clear (verbose : Bool) : SessionM Client Unit := do
  printIf verbose "INFO: Clearing database..."
  if ← attempt .clear then printIf verbose "INFO: Clearing done."

/-- Says whether the database is empty. -/
def reportContent : SessionM Client Unit := do
  if (← ask .isEmpty).holds then print ["INFO: Loaded database is empty."]
  else print ["INFO: Loaded database contains data."]

/-- Starts a client for the file to come. -/
def connect : SessionM Client Unit := do
  let (client, lines) := Client.connect (← get).recorder.database
  modify fun s => { s with recorder := client }
  print lines

/-- The check of the version of the database. -/
def checkVersion : SessionM Client Bool := do
  let (result, database) := (← get).recorder.database.isUsable true
  modify fun s => { s with recorder := { s.recorder with database } }
  let (usable, lines) ← result
  print lines
  return usable

/-- A path seen from the working directory. It is not put into normal form. -/
def located (w : World) (p : String) : String := Path.join w.files.workingDirectory p

/-- Indexes a file into a database that has the right version. -/
def indexInto (w : World) (a : IndexArguments) : SessionM Client Unit := do
  let _ ← attempt (.openAt (located w a.database))
  if a.clear then clear a.verbose
  if a.verbose then reportContent
  let _ ← ask .beginTransaction
  connect
  indexFile w (if a.shallow then .syntactic else .semantic) (located w a.source)
    (a.environment.map (located w)) a.verbose
  let _ ← ask .commitTransaction
  let _ ← attempt .close

/-- Carries out a command. -/
def execute (w : World) : Command → SessionM Client Unit
  | .index a => do
    if ← checkVersion then indexInto w a
  | .checkEnvironment p =>
    match w.environments.diagnosis (some (located w p)) with
    | "" => print ["The provided path is a valid Python environment."]
    | message => print ["The provided path is not a valid Python environment: " ++ message]

/-- How a program ends. -/
inductive Ending where
  /-- It comes to its end. -/
  | returned (status : Int)
  /-- It stops before any work. -/
  | exited (status : Int)
  /-- It stops at a fault. -/
  | failed (fault : Fault)
  deriving Repr

/-- What a program leaves behind. -/
structure Outcome where
  /-- How it ended. -/
  ending : Ending
  /-- What it printed. -/
  out : String := ""
  /-- What it complained about. -/
  err : String := ""
  /-- The text that was given to the parser. -/
  parsed : Option String := none
  /-- The database. -/
  database : Database

/-- Lines as printed text. -/
def printed (lines : List String) : String := String.join (lines.map (· ++ "\n"))

/-- Runs the program. -/
def run (w : World) (d : Database) (words : List String) : Outcome :=
  match parse words with
  | .error e => { ending := .exited e.status, out := e.out, err := e.err, database := d }
  | .ok none =>
    { ending := .returned 1, err := "Error: No command has been specified.", database := d }
  | .ok (some command) =>
    match EStateM.run (execute w command) { recorder := { database := d } } with
    | .ok _ s =>
      { ending := .returned 0
        out := printed s.lines
        parsed := s.parsed
        database := s.recorder.database }
    | .error e s =>
      { ending := .failed e
        out := printed s.lines
        parsed := s.parsed
        database := s.recorder.database }

end CodeIndex.CommandLine
