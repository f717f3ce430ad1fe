import CodeIndex.Tree.Basic

/-!
# Cursors

A cursor is a place in a tree: the subtree there and the constructs around it. Two cursors into one
tree are at the same place if their paths are equal. From a cursor one can move to the parent, to
the neighbours, and to the next place in document order.
-/

namespace CodeIndex

/-- A construct around a place, with the number of the part in which the place lies. -/
structure Ancestor where
  /-- The kind of the construct. -/
  kind : NodeKind
  /-- All its parts. -/
  children : List Tree
  /-- The number of the part in which the place lies. -/
  index : Nat
  deriving Repr, Inhabited

/-- A place in a tree. -/
structure Cursor where
  /-- The subtree at the place. -/
  tree : Tree
  /-- The constructs around it, the nearest first. -/
  above : List Ancestor
  deriving Repr, Inhabited

/-- The construct as a tree. -/
def Ancestor.tree (a : Ancestor) : Tree := .node a.kind a.children

namespace Cursor

/-- The root of a tree. -/
def root (t : Tree) : Cursor := ⟨t, []⟩

/-- The numbers of the parts on the way from the root to the place. -/
def path (c : Cursor) : List Nat := (c.above.map Ancestor.index).reverse

/-- Both cursors are at the same place of one tree: the same way leads there, and what stands there
is of one kind. -/
def sameAs (c d : Cursor) : Bool := c.path = d.path && c.tree.kind = d.tree.kind

/-- The place is an identifier. -/
def isName (c : Cursor) : Bool := c.tree.isName

/-- The place is a construct of kind `k`. -/
def isKind (k : NodeKind) (c : Cursor) : Bool := c.tree.isKind k

/-- The range of the subtree. -/
def range (c : Cursor) : Except Fault SourceRange := c.tree.range

/-- The places of the parts of a construct. -/
def childrenOf (kind : NodeKind) (children : List Tree) (above : List Ancestor) : List Cursor :=
  children.zipIdx.map fun (t, i) => ⟨t, ⟨kind, children, i⟩ :: above⟩

/-- The places of the parts; a token has none. -/
def children (c : Cursor) : Except Fault (List Cursor) :=
  match c.tree with
  | .leaf _ => .error (.lacking "children")
  | .node kind parts => .ok (childrenOf kind parts c.above)

/-- The place a path leads to from here. -/
def descend? (c : Cursor) : List Nat → Option Cursor
  | [] => some c
  | i :: path =>
    match c.tree with
    | .leaf _ => none
    | .node kind parts =>
      match parts[i]? with
      | none => none
      | some t => descend? ⟨t, ⟨kind, parts, i⟩ :: c.above⟩ path

/-! ### Upwards -/

/-- The construct around the place. -/
def parent? (c : Cursor) : Option Cursor :=
  match c.above with
  | [] => none
  | a :: rest => some ⟨a.tree, rest⟩

/-- The nearest of the constructs whose kind satisfies `p`. -/
def nearest? (p : NodeKind → Bool) : List Ancestor → Option Cursor
  | [] => none
  | a :: rest => if p a.kind then some ⟨a.tree, rest⟩ else nearest? p rest

/-- The nearest construct around the place whose kind satisfies `p`. -/
def enclosing? (p : NodeKind → Bool) (c : Cursor) : Option Cursor := nearest? p c.above

/-- The place lies inside a construct of kind `k`. -/
def within (k : NodeKind) (c : Cursor) : Bool := (c.enclosing? (· = k)).isSome

/-- The class or function definition around the place. -/
def definitionAround? (c : Cursor) : Option Cursor := c.enclosing? NodeKind.isDefinition

/-- The nearest of the constructs that has an identifier among its parts. -/
def nearestNamed? : List Ancestor → Option Cursor
  | [] => none
  | a :: rest =>
    if a.children.any Tree.isName then some ⟨a.tree, rest⟩ else nearestNamed? rest

/-- The nearest construct around the place that has an identifier among its parts. For an
identifier the construct to which it belongs does not count. -/
def namedParent? (c : Cursor) : Option Cursor :=
  nearestNamed? (if c.isName then c.above.drop 1 else c.above)

/-! ### Downwards -/

/-- The first part that satisfies `p`. -/
def firstChild? (p : Tree → Bool) (c : Cursor) : Except Fault (Option Cursor) := do
  return (← c.children).find? (p ·.tree)

/-- The first identifier among the parts. -/
def firstName? (c : Cursor) : Except Fault (Option Cursor) := c.firstChild? Tree.isName

/-- The identifier of a named place: an identifier names itself, a construct is named by the first
identifier among its parts. -/
def nameLeaf? (c : Cursor) : Except Fault (Option Cursor) :=
  if c.isName then .ok (some c) else c.firstName?

/-! ### Sideways and forwards -/

/-- The part after the place in the construct around it. -/
def nextSibling? (c : Cursor) : Option Cursor :=
  match c.above with
  | [] => none
  | a :: rest =>
    match a.children[a.index + 1]? with
    | none => none
    | some t => some ⟨t, { a with index := a.index + 1 } :: rest⟩

/-- The part before the place in the construct around it. -/
def previousSibling? (c : Cursor) : Option Cursor :=
  match c.above with
  | [] => none
  | a :: rest =>
    match a.index with
    | 0 => none
    | i + 1 =>
      match a.children[i]? with
      | none => none
      | some t => some ⟨t, { a with index := i } :: rest⟩

/-- The first place in document order that lies after all of the nearest construct. -/
def after? : List Ancestor → Option Cursor
  | [] => none
  | a :: rest =>
    match a.children[a.index + 1]? with
    | some t => some ⟨t, { a with index := a.index + 1 } :: rest⟩
    | none => after? rest

/-- The next place in document order. -/
def next? (c : Cursor) : Option Cursor :=
  match c.tree with
  | .node kind (t :: ts) => some ⟨t, ⟨kind, t :: ts, 0⟩ :: c.above⟩
  | _ => after? c.above

mutual

/-- The first token of a tree, if it has one. -/
def firstLeaf? (above : List Ancestor) : Tree → Option Cursor
  | .leaf token => some ⟨.leaf token, above⟩
  | .node kind children =>
    firstLeafOf? (fun i => ⟨kind, children, i⟩ :: above) 0 children

/-- The first token of the trees of a list, the first of which has number `i`. -/
def firstLeafOf? (above : Nat → List Ancestor) (i : Nat) : List Tree → Option Cursor
  | [] => none
  | t :: ts =>
    match firstLeaf? (above i) t with
    | some c => some c
    | none => firstLeafOf? above (i + 1) ts

end

/-- The first token in document order that lies after all of the nearest construct. -/
def leafAfter? : List Ancestor → Option Cursor
  | [] => none
  | a :: rest =>
    match firstLeafOf? (fun i => { a with index := i } :: rest) (a.index + 1)
        (a.children.drop (a.index + 1)) with
    | some c => some c
    | none => leafAfter? rest

/-- The next token in document order: the first one inside a construct, or else the first one after
it. -/
def nextLeaf? (c : Cursor) : Option Cursor :=
  match c.tree with
  | .leaf _ => leafAfter? c.above
  | .node kind children =>
    match firstLeafOf? (fun i => ⟨kind, children, i⟩ :: c.above) 0 children with
    | some d => some d
    | none => leafAfter? c.above

/-! ### Qualifiers and calls -/

/-- The place is followed by a dot, at once or as the first part of a trailer. -/
def isQualifier (c : Cursor) : Except Fault Bool :=
  let next := c.next?
  match if next.any (isKind .trailer) then next.bind next? else next with
  | none => .ok false
  | some d => d.tree.reads .operator "."

/-- The parts of a trailer are in round brackets. -/
def inBrackets : List Tree → Except Fault Bool
  | first :: second :: rest => do
    if (← first.text) = "(" then
      return (← ((second :: rest).getLast (by simp)).text) = ")"
    else return false
  | _ => .ok false

/-- A bracketed argument list follows the place. -/
def isCall (c : Cursor) : Except Fault Bool :=
  match c.next? with
  | none => .ok false
  | some d => if d.isKind .trailer then do inBrackets (← d.tree.children) else .ok false

end Cursor

/-- The range of a place that may be missing. -/
def rangeOf : Option Cursor → Except Fault SourceRange
  | none => .error (.absent "start_pos")
  | some c => c.range

end CodeIndex
