/-!
# Paths

Paths with `/` between their components. A path is absolute if it begins with `/`. Normal paths have
no empty, `.` or inner `..` components; exactly two leading slashes are kept as they are.
-/

namespace CodeIndex.Path

/-- The path begins at the root directory. -/
def isAbsolute (p : String) : Bool := p.toList.head? == some '/'

/-- The path `q` seen from directory `p`. -/
def join (p q : String) : String :=
  if isAbsolute q then q
  else if p.isEmpty || p.toList.getLast? == some '/' then p ++ q
  else p ++ "/" ++ q

/-- The number of leading slashes that a normal form keeps: two if there are exactly two, otherwise
at most one. -/
def leadingSlashes (p : List Char) : Nat :=
  match (p.takeWhile (· == '/')).length with
  | 0 => 0
  | 2 => 2
  | _ => 1

/-- One more component of a path, whose components so far are given in reverse. The parent of the
root directory is the root directory itself. -/
def resolve (absolute : Bool) (done : List (List Char)) (component : List Char) :
    List (List Char) :=
  if component = [] || component = ['.'] then done
  else if component = ['.', '.'] then
    match done with
    | [] => if absolute then [] else [component]
    | last :: earlier => if last = ['.', '.'] then component :: done else earlier
  else component :: done

/-- The normal form of a path. -/
def normalize (p : String) : String :=
  let lead := leadingSlashes p.toList
  let components := ((p.toList.splitOn '/').foldl (resolve (lead > 0)) []).reverse
  let normal := List.replicate lead '/' ++ List.intercalate ['/'] components
  if normal.isEmpty then "." else String.ofList normal

/-- The absolute normal form of a path seen from directory `cwd`. -/
def absolute (cwd p : String) : String := normalize (if isAbsolute p then p else join cwd p)

/-- The last component of a path. -/
def baseName (p : String) : String :=
  String.ofList (p.toList.reverse.takeWhile (· != '/')).reverse

/-- The path without its last component, and without the slashes before it unless nothing else is
left. -/
def directory (p : String) : String :=
  let head := p.toList.reverse.dropWhile (· != '/')
  String.ofList (if head.all (· == '/') then head else head.dropWhile (· == '/')).reverse

/-- The path without the extension of its last component. The extension begins at the last dot,
provided that something other than dots stands before it. -/
def dropExtension (p : String) : String :=
  let base := p.toList.reverse.takeWhile (· != '/')
  let extension := base.takeWhile (· != '.')
  if (base.drop (extension.length + 1)).any (· != '.') then
    String.ofList (p.toList.reverse.drop (extension.length + 1)).reverse
  else p

/-- The path and the directories around it, at most `fuel` of them, the nearest first. -/
def directoriesUpTo : Nat → String → List String
  | 0, p => [p]
  | fuel + 1, p => if directory p = p then [p] else p :: directoriesUpTo fuel (directory p)

/-- The path and all directories around it, the nearest first. A directory that is not a root is
longer than the one around it, so the length of the path bounds their number. -/
def directories (p : String) : List String := directoriesUpTo p.length p

/-- What is left of a path below the directory `root`, without the slash between them. -/
def below? (root p : String) : Option (List Char) :=
  match root.toList.isPrefixOf? p.toList with
  | none => none
  | some ('/' :: rest) => if rest.isEmpty then none else some rest
  | some rest => if rest.isEmpty then none else some rest

/-- The components of a path below the first of the directories that holds it, unless one of them is
empty. -/
def componentsBelow? (roots : List String) (p : String) : Option (List String) :=
  match roots.findSome? (below? · p) with
  | none => none
  | some rest =>
    let components := rest.splitOn '/'
    if components.contains [] then none else some (components.map String.ofList)

end CodeIndex.Path
