import CodeIndex.CommandLine.Run

/-!
# The program

The command line on a real file system. The parser, the resolver and the database are not part of
this library: here the tree of a file is empty, nothing is resolved, and what is recorded stays in
memory. An environment is taken for valid if its interpreter exists.
-/

namespace CodeIndex.CommandLine

/-- There is something at the path. -/
def isPresent (p : String) : IO Bool :=
  try (← IO.FS.realPath p).pathExists catch _ => return false

/-- What is found at the path of an environment. -/
def probe (p : String) : IO (List (String × Offer)) := do
  let path := Environments.interpreter p
  if ← isPresent path then return [(p, .ok { path, major := 3, minor := 7, searchPath := [] })]
  else return []

/-- The source file of a command, and the markers of the packages around it. -/
def survey (cwd : String) : Command → IO FileSystem
  | .checkEnvironment _ => return ⟨cwd, [], []⟩
  | .index a => do
    let path := Path.absolute cwd a.source
    let files ← try pure [(path, ← IO.FS.readBinFile path)] catch _ => pure []
    let markers := (Path.directories (Path.directory path)).map (Path.join · "__init__.py")
    return ⟨cwd, files, ← markers.filterM isPresent⟩

/-- The path at which a command looks for an environment. -/
def Command.environment? : Command → Option String
  | .checkEnvironment p => some p
  | .index a => a.environment

/-- What surrounds a command. -/
def surroundings (cwd : String) (command : Command) : IO World := do
  let atPath ← match command.environment? with
    | none => pure []
    | some p => probe (Path.join cwd p)
  let preferred := (← probe "/usr").head?.map Prod.snd
  return {
    files := ← survey cwd command
    environments :=
      { preferred := preferred.getD (.error (invalidEnvironment "")), atPath }
    tree := .node (.ofLabel "file_input") []
    resolver := ⟨[]⟩
    stubs := "" }

/-- The world of a command line that gives no command. -/
def emptyWorld (cwd : String) : World where
  files := ⟨cwd, [], []⟩
  environments := { preferred := .error (invalidEnvironment "") }
  tree := default
  resolver := ⟨[]⟩
  stubs := ""

/-- The status with which the program ends. -/
def Ending.status : Ending → Int
  | .returned n | .exited n => n
  | .failed _ => 1

end CodeIndex.CommandLine

open CodeIndex CodeIndex.CommandLine in
/-- Runs the program on its command line. -/
def main (words : List String) : IO UInt32 := do
  let cwd := (← IO.currentDir).toString
  let world ← match CommandLine.parse words with
    | .ok (some command) => surroundings cwd command
    | _ => pure (emptyWorld cwd)
  let outcome := CommandLine.run world {} words
  IO.print outcome.out
  IO.eprint outcome.err
  match outcome.ending with
  | .failed fault => IO.eprintln fault.report
  | _ => pure ()
  return outcome.ending.status.toNat.toUInt32
