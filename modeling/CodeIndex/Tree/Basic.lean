import CodeIndex.Fault
import CodeIndex.SourceRange

/-!
# Syntax trees

A syntax tree of a source file: leaves are the tokens with their text and place, inner nodes are
the constructs of the grammar. Only the kinds that the indexers tell apart have constructors of
their own; every other kind is known by its label. A parser gives the kinds of tokens to tokens and
those of constructs to constructs, but nothing here depends on it.
-/

namespace CodeIndex

/-- What a node of a tree is. -/
inductive NodeKind where
  /-- An identifier. -/
  | name
  /-- A reserved word. -/
  | keyword
  /-- An operator or a delimiter. -/
  | operator
  /-- The end of the file. -/
  | endmarker
  /-- A string literal. -/
  | string
  /-- A token that fits nowhere. -/
  | errorLeaf
  | classdef | funcdef | parameters | param | argument | arglist | tfpdef
  | importName | importFrom | dottedName | dottedAsName | dottedAsNames
  | importAsName | importAsNames
  | trailer | atom | atomExpr | power | starExpr
  | suite | exprStmt | annassign | forStmt | compFor | withStmt | withItem | exceptClause
  | testlist | testlistComp | testlistStarExpr | exprlist
  /-- Anything else. -/
  | other (label : String)
  deriving DecidableEq, Repr, Inhabited

namespace NodeKind

/-- The label of a kind. -/
def label : NodeKind → String
  | name => "name"
  | keyword => "keyword"
  | operator => "operator"
  | endmarker => "endmarker"
  | string => "string"
  | errorLeaf => "error_leaf"
  | classdef => "classdef"
  | funcdef => "funcdef"
  | parameters => "parameters"
  | param => "param"
  | argument => "argument"
  | arglist => "arglist"
  | tfpdef => "tfpdef"
  | importName => "import_name"
  | importFrom => "import_from"
  | dottedName => "dotted_name"
  | dottedAsName => "dotted_as_name"
  | dottedAsNames => "dotted_as_names"
  | importAsName => "import_as_name"
  | importAsNames => "import_as_names"
  | trailer => "trailer"
  | atom => "atom"
  | atomExpr => "atom_expr"
  | power => "power"
  | starExpr => "star_expr"
  | suite => "suite"
  | exprStmt => "expr_stmt"
  | annassign => "annassign"
  | forStmt => "for_stmt"
  | compFor => "comp_for"
  | withStmt => "with_stmt"
  | withItem => "with_item"
  | exceptClause => "except_clause"
  | testlist => "testlist"
  | testlistComp => "testlist_comp"
  | testlistStarExpr => "testlist_star_expr"
  | exprlist => "exprlist"
  | other label => label

/-- The kinds that have a constructor of their own. -/
def distinguished : List NodeKind :=
  [name, keyword, operator, endmarker, string, errorLeaf, classdef, funcdef, parameters, param,
    argument, arglist, tfpdef, importName, importFrom, dottedName, dottedAsName, dottedAsNames,
    importAsName, importAsNames, trailer, atom, atomExpr, power, starExpr, suite, exprStmt,
    annassign, forStmt, compFor, withStmt, withItem, exceptClause, testlist, testlistComp,
    testlistStarExpr, exprlist]

/-- The kind with a label. -/
def ofLabel (label : String) : NodeKind :=
  (distinguished.find? (·.label = label)).getD (other label)

/-- The construct defines a class or a function. -/
def isDefinition : NodeKind → Bool
  | classdef | funcdef => true
  | _ => false

/-- A token of this kind never reaches over the end of a line, whatever its text holds. -/
def onOneLine : NodeKind → Bool
  | name | keyword | operator | endmarker => true
  | _ => false

end NodeKind

/-- A token. -/
structure Token where
  /-- What it is. -/
  kind : NodeKind
  /-- Its text. -/
  text : String
  /-- The position of its first character. -/
  start : Position
  /-- The type of a token that fits nowhere. -/
  unexpected : Option String := none
  deriving DecidableEq, Repr, Inhabited

/-- A syntax tree. -/
inductive Tree where
  /-- A token. -/
  | leaf (token : Token)
  /-- A construct with its parts. -/
  | node (kind : NodeKind) (children : List Tree)
  deriving Repr

namespace Tree

instance : Inhabited Tree := ⟨.node (.other "") []⟩

/-- A token at a position. -/
def tokenAt (kind : NodeKind) (text : String) (line column : Nat) : Tree :=
  .leaf { kind, text, start := ⟨line, column⟩ }

/-- What the root is. -/
def kind : Tree → NodeKind
  | leaf token => token.kind
  | node kind _ => kind

/-- The label of the root. -/
def label (t : Tree) : String := t.kind.label

/-- The text of a token. -/
def text? : Tree → Option String
  | leaf token => some token.text
  | node _ _ => none

/-- The parts of a construct. -/
def children? : Tree → Option (List Tree)
  | leaf _ => none
  | node _ children => some children

/-- The tree is of kind `k`. -/
def isKind (k : NodeKind) (t : Tree) : Bool := t.kind = k

/-- The tree is an identifier. -/
def isName (t : Tree) : Bool := t.isKind .name

/-- The tree is a token. -/
def isLeaf : Tree → Bool
  | leaf _ => true
  | node _ _ => false

/-- The tree is the operator token `sign`. -/
def isOperator (sign : String) : Tree → Bool
  | leaf token => token.kind = .operator && token.text = sign
  | node _ _ => false

/-- The tree is the token `s`, an operator or a reserved word. -/
def isToken (s : String) : Tree → Bool
  | leaf token => (token.kind = .operator || token.kind = .keyword) && token.text = s
  | node _ _ => false

/-- The text of a token; a construct has none. -/
def text (t : Tree) : Except Fault String :=
  match t.text? with
  | some text => .ok text
  | none => .error (.lacking "value")

/-- The parts of a construct; a token has none. -/
def children (t : Tree) : Except Fault (List Tree) :=
  match t.children? with
  | some children => .ok children
  | none => .error (.lacking "children")

/-- The type of a token that fits nowhere; nothing else has one. -/
def unexpected : Tree → Except Fault String
  | leaf { unexpected := some type, .. } => .ok type
  | _ => .error (.lacking "token_type")

/-- The tree is of kind `k` and its text is `s`. A construct of that kind has no text. -/
def reads (k : NodeKind) (s : String) (t : Tree) : Except Fault Bool :=
  if t.isKind k then do return (← t.text) = s else .ok false

/-! ### Places -/

/-- The position right after a token. -/
def leafEnd (t : Token) : Position :=
  if t.kind.onOneLine then ⟨t.start.line, t.start.column + t.text.length⟩
  else
    match (t.text.toList.splitOn '\n').reverse with
    | last :: earlier@(_ :: _) => ⟨t.start.line + earlier.length, last.length⟩
    | _ => ⟨t.start.line, t.start.column + t.text.length⟩

/-- Where the first token begins. A construct without parts has no place. -/
def start? : Tree → Option Position
  | leaf token => some token.start
  | node _ [] => none
  | node _ (first :: _) => start? first

mutual

/-- Where the last token ends. A construct without parts has no place. -/
def end? : Tree → Option Position
  | leaf token => some (leafEnd token)
  | node _ children => endOfLast? children

/-- Where the last tree of a list ends. -/
def endOfLast? : List Tree → Option Position
  | [] => none
  | [last] => end? last
  | _ :: rest => endOfLast? rest

end

/-- Where the tree begins, or a fault. -/
def start (t : Tree) : Except Fault Position :=
  match t.start? with
  | some p => .ok p
  | none => .error .outOfRange

/-- Where the tree ends, or a fault. -/
def finish (t : Tree) : Except Fault Position :=
  match t.end? with
  | some p => .ok p
  | none => .error .outOfRange

/-- The range of the tree, or a fault. -/
def range (t : Tree) : Except Fault SourceRange := do
  return .between (← t.start) (← t.finish)

mutual

/-- The number of nodes of a tree. -/
def size : Tree → Nat
  | leaf _ => 1
  | node _ children => sizeOfList children + 1

/-- The number of nodes of a list of trees. -/
def sizeOfList : List Tree → Nat
  | [] => 0
  | t :: ts => size t + sizeOfList ts

end

end Tree

/-- The element of a list at a place; a negative place counts from the end. -/
def pick {α : Type} (xs : List α) (i : Int) : Except Fault α :=
  let place := if i < 0 then i + xs.length else i
  if place < 0 then .error .outOfRange
  else
    match xs[place.toNat]? with
    | some x => .ok x
    | none => .error .outOfRange

end CodeIndex
