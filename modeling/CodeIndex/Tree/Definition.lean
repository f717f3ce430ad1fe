import CodeIndex.Tree.Parts

/-!
# Defining occurrences of identifiers

An identifier defines something if it is the name of a class or function, the target of an
assignment, of a loop, of a `with` or an `except` clause, a parameter, or a name that an import
brings in. The statement that could define it is the nearest one around it; the identifier must
then be one of the names which that statement defines.

A name that a statement defines is given by its path from the statement.
-/

namespace CodeIndex

/-- The elements of a list with even numbers. -/
def evens {α : Type} : List α → List α
  | [] => []
  | [x] => [x]
  | x :: _ :: rest => x :: evens rest

namespace Tree

/-- Parts with their paths from the construct they belong to. -/
abbrev Located := List Nat × Tree

/-- The parts of a tree, each with its path. -/
def located (t : Tree) : Except Fault (List Located) := do
  return (← t.children).zipIdx.map fun (c, i) => ([i], c)

/-- A part of a part, with its path from the outer construct. -/
def Located.child (l : Located) (i : Int) : Except Fault Located := do
  let (path, c) ← pick (← l.2.located) i
  return (l.1 ++ path, c)

mutual

/-- The paths of what an assignment to the tree defines: the elements of a list or tuple, what
stands in brackets or after a star, the attribute at the end of a dotted expression, and otherwise
the tree itself. -/
def targets : Tree → Except Fault (List (List Nat))
  | node kind children =>
    match kind with
    | .testlistStarExpr | .testlistComp | .exprlist | .testlist => targetsEvery children 0 0
    | .atom | .starExpr => targetsAt children 1 1
    | .power | .atomExpr => do
      if (← pick children (-2)).isToken "**" then return []
      let last ← (← pick children (-1)).children
      if (← pick last 0).isToken "." then
        let _ ← pick last 1
        return [[children.length - 1, 1]]
      else return []
    | _ => .ok [[]]
  | leaf token =>
    match token.kind with
    | .testlistStarExpr | .testlistComp | .exprlist | .testlist | .atom | .starExpr | .power
    | .atomExpr => .error (.lacking "children")
    | _ => .ok [[]]

/-- The targets in the trees of a list, the first of which has number `i`, of which every second
one counts, beginning after `skip` ones. -/
def targetsEvery : List Tree → Nat → Nat → Except Fault (List (List Nat))
  | [], _, _ => .ok []
  | t :: ts, i, 0 => do
    let here ← targets t
    return here.map (i :: ·) ++ (← targetsEvery ts (i + 1) 1)
  | _ :: ts, i, skip + 1 => targetsEvery ts (i + 1) skip

/-- The targets in the tree `skip` places down a list, which has number `i`. -/
def targetsAt : List Tree → Nat → Nat → Except Fault (List (List Nat))
  | [], _, _ => .error .outOfRange
  | t :: _, i, 0 => do return (← targets t).map (i :: ·)
  | _ :: ts, i, skip + 1 => targetsAt ts i skip

end

/-- The targets in a part. -/
def Located.targets (l : Located) : Except Fault (List (List Nat)) := do
  return (← Tree.targets l.2).map (l.1 ++ ·)

/-- The targets of the assignments `x = y = … = value` among parts that begin with number `i`:
every second part but for the last two counts if the sign after it holds an equals sign. -/
def assigned : List Tree → Nat → Except Fault (List (List Nat))
  | t :: sign :: value :: rest, i => do
    let here ←
      if (← sign.text).toList.contains '=' then Located.targets ([i], t) else pure []
    return here ++ (← assigned (value :: rest) (i + 2))
  | _, _ => .ok []

/-- The names an assignment statement defines. -/
def assignmentNames (children : List Tree) : Except Fault (List (List Nat)) := do
  let annotated ←
    if (← pick children 1).isKind .annassign then targetsAt children 0 0 else pure []
  return (← assigned children 0) ++ annotated

/-- The name that an item of an `import` statement defines: the alias, or else the first component
of the module. A module that has an alias must be a name or a construct. -/
def importedModule (item : Located) : Except Fault (List Nat) :=
  if item.2.isKind .dottedAsName then do
    let given ← item.child 2
    let path ← item.child 0
    if !path.2.isName then
      let _ ← path.2.children
    return given.1
  else if item.2.isName then .ok item.1
  else do return (← item.child 0).1

/-- The name that an item of a `from … import` statement defines: the name itself, or else the
alias, which is the second of exactly two parts when every other part is left out. -/
def importedName (item : Located) : Except Fault (List Nat) :=
  if item.2.isName then .ok item.1
  else do
    if (evens (← item.2.children)).length = 2 then return item.1 ++ [2]
    else throw .wrongCount

/-- The items of a list of kind `k`; any other part is the only item. -/
def items (k : NodeKind) (l : Located) : Except Fault (List Located) :=
  if l.2.isKind k then do
    return evens ((← l.2.located).map fun (path, t) => (l.1 ++ path, t))
  else .ok [l]

/-- The names a construct defines, if its kind is one that defines names. The result is missing for
every other kind. The clause of a comprehension is a `comp_for`, with or without `async` in front of
its `for`; a grammar that has a `sync_comp_for` for the clause without `async` is not provided
for. -/
def definedNames? (kind : NodeKind) (children : List Tree) :
    Option (Except Fault (List (List Nat))) :=
  let parts := children.zipIdx.map fun (t, i) => (([i], t) : Located)
  match kind with
  | .exprStmt => some (assignmentNames children)
  | .forStmt => some (targetsAt children 1 1)
  | .compFor => some <|
    match children.findIdx? (isToken "for") with
    | none => .error .notInList
    | some i => targetsAt children (i + 1) (i + 1)
  | .withStmt => some do
    let heads := evens ((parts.take (parts.length - 2)).drop 1)
    let found ← (heads.filter (·.2.isKind .withItem)).mapM fun item => do
      Located.targets (← item.child 2)
    return found.flatten
  | .importName => some do
    (← items .dottedAsNames (← pick parts 1)).mapM importedModule
  | .importFrom => some do
    let last ← pick parts (-1)
    if last.2.isToken ")" then
      (← items .importAsNames (← pick parts (-2))).mapM importedName
    else if last.2.isToken "*" then return []
    else (← items .importAsNames last).mapM importedName
  | .param => some do
    return [(← (Cursor.root (node kind children)).parameterName).path]
  | _ => none

end Tree

namespace Cursor

/-- The identifier with path `below` from the nearest of the constructs is one of the names which
the nearest defining statement around it defines. A block ends the search. -/
def definedAbove : List Ancestor → List Nat → Except Fault Bool
  | [], _ => .ok false
  | a :: rest, below =>
    if a.kind = .suite then .ok false
    else
      match Tree.definedNames? a.kind a.children with
      | some names => do return (← names).contains (a.index :: below)
      | none => definedAbove rest (a.index :: below)

/-- The identifier at the place is a defining occurrence. -/
def isDefining (c : Cursor) : Except Fault Bool :=
  match c.above with
  | [] => .error (.absent "type")
  | a :: rest =>
    match a.kind with
    | .power | .atomExpr => .ok false
    | .funcdef | .classdef => do
      let _ ← pick a.children 1
      return a.index = 1
    | .exceptClause =>
      .ok (c.previousSibling?.any (·.tree.isToken "as") && !rest.isEmpty)
    | _ => definedAbove (a :: rest) []

end Cursor

end CodeIndex
