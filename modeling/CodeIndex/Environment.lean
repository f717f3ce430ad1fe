import CodeIndex.Fault
import CodeIndex.Path

/-!
# Python environments

The resolver works inside a Python environment. A path may specify one; if it does not, or if the
environment does not work, another one is looked for. A path can also be checked for an environment
beforehand. The check and the choice go through the same attempts, each on its own.
-/

namespace CodeIndex

/-- A Python environment. -/
structure Environment where
  /-- The path of its interpreter. -/
  path : String
  /-- Its major version. -/
  major : Int
  /-- Its minor version. -/
  minor : Int
  /-- The directories in which it looks for modules. -/
  searchPath : List String
  /-- The failure that comes up when its interpreter is started, if one does. -/
  defect : Option Failure := none
  deriving DecidableEq, Repr, Inhabited

/-- The search path with the entries in decreasing order, so that an entry stands before those that
are above it. -/
def Environment.orderedSearchPath (e : Environment) : List String :=
  e.searchPath.mergeSort fun a b => !(a < b)

/-- An environment or the failure to set it up. -/
abbrev Offer := Except Failure Environment

/-- The failure of something that is no Python environment. -/
def invalidEnvironment (message : String) : Failure := ⟨"InvalidPythonEnvironment", message⟩

/-- The environment, provided that its interpreter starts. -/
def Offer.working (o : Offer) : Offer := do
  let e ← o
  match e.defect with
  | none => return e
  | some failure => throw failure

/-- The environments of a system. -/
structure Environments where
  /-- The environment that is used by default. -/
  preferred : Offer
  /-- What is found at paths. -/
  atPath : List (String × Offer) := []
  /-- The environments that the system offers, one after the other. A failure of the search for them
  stands at the place at which it comes up. -/
  installed : List Offer := []
  /-- Whether the system keeps a registry of interpreters, and interpreters have an extension. -/
  windows : Bool := false
  /-- The paths that are directories. -/
  directories : List String := []
  /-- The versions for which the registry is asked, in this order. -/
  versions : List String := []
  /-- The interpreters in the registry, by version. -/
  registry : List (String × List String) := []
  /-- The environments of interpreters. -/
  interpreters : List (String × Offer) := []

namespace Environments

/-- The path of the interpreter of an environment at `p`. -/
def interpreter (p : String) : String := Path.join (Path.join p "bin") "python"

/-- The environment that a path specifies. -/
def create (es : Environments) (p : String) : Offer :=
  (es.atPath.lookup p).getD (.error (invalidEnvironment (interpreter p ++ " seems to be missing.")))

/-- What is wrong with the environment at a path; empty if it works. There must be a path. The path
may also be the directory of a working interpreter; if it is not, what is wrong with the path itself
is given. -/
def diagnosis (es : Environments) : Option String → String
  | none => "expected str, bytes or os.PathLike object, not NoneType"
  | some p =>
    match (es.create p).working with
    | .ok _ => ""
    | .error failure =>
      if es.windows && es.directories.contains p then
        match (es.create (Path.join p "python.exe")).working with
        | .ok _ => ""
        | .error _ => failure.text
      else failure.text

/-- The first environment that the system offers, unless the search for it fails. -/
def firstInstalled? (es : Environments) : Option Environment :=
  match es.installed with
  | .ok e :: _ => some e
  | .error _ :: _ | [] => none

/-- The environment of the first of the interpreters that has one. Only invalid environments are
passed over; any other failure is given. -/
def firstInterpreter (es : Environments) : List String → Except Failure (Option Environment)
  | [] => .ok none
  | interpreter :: rest =>
    match (es.interpreters.lookup interpreter).getD (.error (invalidEnvironment "")) with
    | .ok e => .ok (some e)
    | .error failure =>
      if failure.kind = (invalidEnvironment "").kind then es.firstInterpreter rest
      else .error failure

/-- The interpreters in the registry. -/
def registered (es : Environments) : List String :=
  es.versions.flatMap fun v => (es.registry.lookup v).getD []

/-- The environment that is used if none is specified. -/
def fallback (es : Environments) : Offer :=
  match es.preferred.working with
  | .ok e => .ok e
  | .error _ =>
    match es.firstInstalled? with
    | some e => .ok e
    | none => do
      let found ← if es.windows then es.firstInterpreter es.registered else pure none
      match found with
      | some e => return e
      | none => throw (invalidEnvironment "Unable to find an executable Python environment.")

/-- The line that is printed when the specified environment is not used. -/
def warning (p : String) (failure : Failure) : String :=
  "WARNING: The provided environment path \"" ++ p ++
    "\" does not specify a functional Python environment (details: \"" ++ failure.text ++
    "\"). Using fallback environment instead."

/-- The environment to use when `p` may specify one, and the lines that are printed. -/
def choose (es : Environments) (p : Option String) : List String × Offer :=
  match p with
  | none => ([], es.fallback)
  | some p =>
    match (es.create p).working with
    | .ok e => ([], .ok e)
    | .error failure =>
      if es.windows && es.directories.contains p then
        match (es.create (Path.join p "python.exe")).working with
        | .ok e => ([], .ok e)
        | .error _ => ([warning p failure], es.fallback)
      else ([warning p failure], es.fallback)

end Environments

end CodeIndex
