import CodeIndex.Trace

/-!
# Names from the tree alone

The syntactic indexer derives qualified names from the nesting of the definitions in the tree, below
the name of the module. An attribute of the first parameter of a method is named as a member of the
class.
-/

namespace CodeIndex.Syntactic

/-- The name of the module at a path. The file gets its name from the first directory of the search
path that is above it. -/
def moduleName (s : Source) : Option String → Option QualifiedName
  | none => none
  | some path =>
    if path = virtualFile then some virtualModule
    else
      let full := (Path.absolute s.workingDirectory path).toList
      let stem := String.ofList ((".py".toList.isSuffixOf? full).getD full)
      match Path.componentsBelow? s.searchPath stem with
      | none => none
      | some components => QualifiedName.dotted? (dropPackageMarker components)

/-- The place holds the name of the first parameter of the method `top`, and what is asked for is
one of its attributes. -/
def isSelf (top : Context) (c : Cursor) : Except Fault Bool :=
  match c.namedParent? with
  | none => .ok false
  | some owner => do
    match ← owner.firstName? with
    | none => return false
    | some name => return some (← name.tree.text) = top.selfName

/-- The definition in whose name the name of the place begins: the nearest one around it, but for an
attribute of the first parameter of a method the class of the method. The contexts are those of the
indexer. -/
def owner? (contexts : List Context) (c name : Cursor) : Except Fault (Option Cursor) :=
  match contexts with
  | [] => .error .outOfRange
  | top :: outer => do
    let ofSelf ← if top.kind = .method then isSelf top c else pure false
    if ofSelf then
      match outer with
      | [] => throw .outOfRange
      | below :: _ => return below.place
    else return name.parent?.bind Cursor.definitionAround?

/-- The qualified name of a place, with at most `fuel` elements below the module. -/
def nameUpTo (s : Source) (contexts : List Context) :
    Nat → Cursor → Except Fault (Option QualifiedName)
  | 0, _ => .error .unending
  | fuel + 1, c => do
    match ← c.nameLeaf? with
    | none => return none
    | some name =>
      let owner ← owner? contexts c name
      let text ← name.tree.text
      match owner with
      | some owner => return (← nameUpTo s contexts fuel owner).map (·.child text)
      | none => return (moduleName s (some s.path)).map (·.child text)

/-- The qualified name of a place. A definition in whose name another one begins lies around it, so
there are at most as many elements as constructs around the place. -/
def qualifiedName (s : Source) (contexts : List Context) (c : Cursor) :
    Except Fault (Option QualifiedName) :=
  nameUpTo s contexts (c.above.length + 1) c

end CodeIndex.Syntactic
