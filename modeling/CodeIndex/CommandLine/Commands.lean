import CodeIndex.CommandLine.Options

/-!
# Commands

The commands of the program with their options and texts, and the command that a command line
gives.
-/

namespace CodeIndex.CommandLine

/-- The version line of the program. -/
def version : String := "SourcetrailPythonIndexer v1.db25.p2"

/-- The help option. -/
def helpOption : Opt := ⟨["-h", "--help"], .help, false⟩

/-- The options in front of the command. -/
def program : Grammar where
  program := "run.py"
  usage := "usage: run.py [-h] [--version] \x7bindex,check-environment\x7d ...\n"
  details :=
    "Python source code indexer that generates a Sourcetrail compatible database.\n" ++
    "\n" ++
    "options:\n" ++
    "  -h, --help            show this help message and exit\n" ++
    "  --version             show program's version number and exit\n" ++
    "\n" ++
    "commands:\n" ++
    "  \x7bindex,check-environment\x7d\n" ++
    "    index               Index a Python source file and store the indexed data\n" ++
    "                        to a Sourcetrail database file. Run \"index -h\" for\n" ++
    "                        more info on available arguments.\n" ++
    "    check-environment   Check if the provided path specifies a valid Python\n" ++
    "                        environment. This command exits with code \"0\" if a\n" ++
    "                        valid Python environment has been provided, otherwise\n" ++
    "                        code \"1\" is returned. Run \"check-environment -h\" for\n" ++
    "                        more info on available arguments.\n"
  options := [helpOption, ⟨["--version"], .version, false⟩]

/-- The options of the command that indexes a file. -/
def indexCommand : Grammar where
  program := "run.py index"
  usage :=
    "usage: run.py index [-h] --source-file-path SOURCE_FILE_PATH\n" ++
    "                    --database-file-path DATABASE_FILE_PATH\n" ++
    "                    [--environment-path ENVIRONMENT_PATH] [--clear]\n" ++
    "                    [--verbose] [--shallow]\n"
  details :=
    "options:\n" ++
    "  -h, --help            show this help message and exit\n" ++
    "  --source-file-path SOURCE_FILE_PATH\n" ++
    "                        path to the source file to index\n" ++
    "  --database-file-path DATABASE_FILE_PATH\n" ++
    "                        path to the generated Sourcetrail database file\n" ++
    "  --environment-path ENVIRONMENT_PATH\n" ++
    "                        path to the Python executable or the directory that\n" ++
    "                        contains the Python environment that should be used to\n" ++
    "                        resolve dependencies within the indexed source code\n" ++
    "                        (if not specified the path to the currently used\n" ++
    "                        interpreter is used)\n" ++
    "  --clear               clear the database before indexing\n" ++
    "  --verbose             enable verbose console output\n" ++
    "  --shallow\n"
  options :=
    [helpOption,
      ⟨["--source-file-path"], .value, true⟩,
      ⟨["--database-file-path"], .value, true⟩,
      ⟨["--environment-path"], .value, false⟩,
      ⟨["--clear"], .switch, false⟩,
      ⟨["--verbose"], .switch, false⟩,
      ⟨["--shallow"], .switch, false⟩]

/-- The options of the command that checks an environment. -/
def checkCommand : Grammar where
  program := "run.py check-environment"
  usage := "usage: run.py check-environment [-h] --environment-path ENVIRONMENT_PATH\n"
  details :=
    "options:\n" ++
    "  -h, --help            show this help message and exit\n" ++
    "  --environment-path ENVIRONMENT_PATH\n" ++
    "                        path to the Python executable or the directory that\n" ++
    "                        contains the Python environment that should be checked\n" ++
    "                        for compatibility\n"
  options := [helpOption, ⟨["--environment-path"], .value, true⟩]

/-- What the command that indexes a file is told. -/
structure IndexArguments where
  /-- The path of the source file. -/
  source : String
  /-- The path of the database file. -/
  database : String
  /-- The path of the environment. -/
  environment : Option String := none
  /-- Whether the database is cleared first. -/
  clear : Bool := false
  /-- Whether every step is reported. -/
  verbose : Bool := false
  /-- Whether the tree alone decides. -/
  shallow : Bool := false
  deriving DecidableEq, Repr

/-- A command. -/
inductive Command where
  /-- Indexes a file. -/
  | index (arguments : IndexArguments)
  /-- Checks an environment. -/
  | checkEnvironment (path : String)
  deriving DecidableEq, Repr

/-- The arguments of the command that indexes a file. -/
def IndexArguments.ofReading (r : Reading) : IndexArguments where
  source := (r.value? "--source-file-path").getD ""
  database := (r.value? "--database-file-path").getD ""
  environment := r.value? "--environment-path"
  clear := r.isOn "--clear"
  verbose := r.isOn "--verbose"
  shallow := r.isOn "--shallow"

/-- The command with a name and the words after it, together with the words that mean nothing. -/
def readCommand (name : String) (words : List String) : Except Exit (Command × List String) := do
  if name = "index" then
    let r ← indexCommand.read version words
    return (.index (.ofReading r), r.extras)
  else if name = "check-environment" then
    let r ← checkCommand.read version words
    return (.checkEnvironment ((r.value? "--environment-path").getD ""), r.extras)
  else
    throw (program.failAt "command" ("invalid choice: " ++ Text.quote name ++
      " (choose from 'index', 'check-environment')"))

/-- Reads the words of the program, given also as they were written. The first one that is no option
is the command, and all words after it belong to the command. A mark is no exception, unless nothing
follows it: then it means nothing. The words in front that mean nothing come first among the
extras. -/
def readProgram : List Word → List String → List String →
    Except Exit (Option Command × List String)
  | .option o spelling attached :: rest, _ :: written, extras => do
    let _ ←
      match attached with
      | some value => program.readAttached version o spelling value {}
      | none => program.carryOut version o {}
    readProgram rest written extras
  | .unknown text :: rest, _ :: written, extras => readProgram rest written (extras ++ [text])
  | [.mark], _, extras => .ok (none, extras ++ [Word.mark.text])
  | _ :: _, name :: written, extras => do
    let (command, more) ← readCommand name written
    return (some command, extras ++ more)
  | _, _, extras => .ok (none, extras)

/-- The command that a command line gives, if it gives one. -/
def parse (words : List String) : Except Exit (Option Command) := do
  let (command, extras) ← readProgram (← program.readWords words) words []
  if extras.isEmpty then return command
  else throw (program.fail ("unrecognized arguments: " ++ String.intercalate " " extras))

end CodeIndex.CommandLine
