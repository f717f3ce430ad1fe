import CodeIndex.Fault
import CodeIndex.Path
import CodeIndex.QualifiedName

/-!
# Sources

The file to index as the file system shows it: its path, its text, the root directory of its
package, and the search path below which modules get their names.
-/

namespace CodeIndex

/-- The part of a file system that a run can see. -/
structure FileSystem where
  /-- The working directory. -/
  workingDirectory : String
  /-- The readable files by their absolute paths. -/
  files : List (String × ByteArray)
  /-- Further paths at which there is something. -/
  present : List String

namespace FileSystem

/-- There is something at the path. -/
def holds (fs : FileSystem) (p : String) : Bool :=
  fs.present.contains p || fs.files.any (·.1 == p)

/-- The bytes of a file. -/
def bytes (fs : FileSystem) (p : String) : Except Fault ByteArray :=
  match fs.files.lookup (Path.absolute fs.workingDirectory p) with
  | some b => .ok b
  | none => .error (.noFile p)

/-- The text of a file, which must be well-formed UTF-8. -/
def text (fs : FileSystem) (p : String) : Except Fault String := do
  match String.fromUTF8? (← fs.bytes p) with
  | some s => return s
  | none => throw .badEncoding

/-- The package root above a directory: the nearest of the directory and those around it that is
not itself a package, that is, that has no `__init__.py`. Missing if all are packages. -/
def packageRoot? (fs : FileSystem) (dir : String) : Option String :=
  (Path.directories dir).find? fun d => !fs.holds (Path.join d "__init__.py")

end FileSystem

/-- Every line end as a single newline. -/
def unifyLineEnds : List Char → List Char
  | [] => []
  | '\r' :: '\n' :: rest => '\n' :: unifyLineEnds rest
  | c :: rest => (if c = '\r' then '\n' else c) :: unifyLineEnds rest

/-- The path under which text that comes from no file is indexed. -/
def virtualFile : String := "virtual_file.py"

/-- The module name of text that comes from no file. -/
def virtualModule : QualifiedName := .dotted [Path.dropExtension virtualFile]

/-- A file to index. -/
structure Source where
  /-- The working directory. -/
  workingDirectory : String
  /-- The path of the file, absolute unless it is the virtual file. -/
  path : String
  /-- The directories below which modules are named, the first one that fits wins. -/
  searchPath : List String
  deriving Repr

namespace Source

/-- The name of the file. -/
def fileName (s : Source) : String := Path.baseName s.path

/-- The text comes from no file. -/
def isVirtual (s : Source) : Bool := s.path = virtualFile

/-- The source at a path. Its search path is the root of its package and then the given
directories, without empty entries. -/
def locate (fs : FileSystem) (p : String) (directories : List String) : Except Fault Source :=
  let path := if p = virtualFile then p else Path.absolute fs.workingDirectory p
  match fs.packageRoot? (Path.directory path) with
  | none => .error .unending
  | some root =>
    .ok ⟨fs.workingDirectory, path, (root :: directories).filter fun d => !d.isEmpty⟩

end Source

/-- The components of a module's path without the marker of a package at the end. -/
def dropPackageMarker (components : List String) : List String :=
  if components.getLast? = some "__init__" then components.dropLast else components

end CodeIndex
