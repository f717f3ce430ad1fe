import CodeIndex.Text.Quoted

/-!
# Qualified names

The name of a symbol is a list of elements with a delimiter between them. It has a display form for
people and a stored form, a record of the data format, by which the database identifies symbols.

Texts are sequences of Unicode scalar values. One half of a surrogate pair is no scalar value, so
names that hold one on its own are left out.
-/

namespace CodeIndex

/-- One element of a qualified name. -/
structure NameElement where
  /-- The name itself. -/
  name : String
  /-- What is shown in front of the name, such as a return type. -/
  leading : String := ""
  /-- What is shown right after the name, such as a parameter list. -/
  trailing : String := ""
  deriving DecidableEq, Repr, Inhabited

/-- A name made of elements, the outermost first. -/
structure QualifiedName where
  /-- The text between two elements when the name is shown. -/
  delimiter : String
  /-- The elements. -/
  elements : List NameElement
  deriving DecidableEq, Repr, Inhabited

namespace NameElement

/-- The element as people read it. -/
def display (e : NameElement) : String :=
  (if e.leading.isEmpty then "" else e.leading ++ " ") ++ e.name ++ e.trailing

/-- The record of the data format for an element whose three parts are written as given. -/
def frame (name leading trailing : String) : String :=
  "\x7b\"name\": " ++ name ++ ", \"prefix\": " ++ leading ++ ", \"postfix\": " ++ trailing ++ "\x7d"

/-- The record of the data format for an element. -/
def stored (e : NameElement) : String :=
  frame (Text.escape e.name) (Text.escape e.leading) (Text.escape e.trailing)

/-- The record of the data format for an element without a name. -/
def storedNameless : String := frame "null" (Text.escape "") (Text.escape "")

end NameElement

namespace QualifiedName

/-- The dotted name of the given parts. -/
def dotted (names : List String) : QualifiedName := ⟨".", names.map fun n => ⟨n, "", ""⟩⟩

/-- The dotted name of the given parts, if there is at least one. -/
def dotted? : List String → Option QualifiedName
  | [] => none
  | names => some (dotted names)

/-- The name that stands for every symbol whose definition is unknown. It holds a space, so no
name of a program is equal to it. -/
def unsolved : QualifiedName := ⟨"", [⟨"unsolved symbol", "", ""⟩]⟩

/-- The name with one more element inside. -/
def append (q : QualifiedName) (e : NameElement) : QualifiedName :=
  { q with elements := q.elements ++ [e] }

/-- The name of `n` inside `q`. -/
def child (q : QualifiedName) (n : String) : QualifiedName := q.append ⟨n, "", ""⟩

/-- The name as people read it. -/
def display (q : QualifiedName) : String :=
  String.intercalate q.delimiter (q.elements.map NameElement.display)

/-- The record of the data format for a name whose elements are written as given. -/
def frame (delimiter : String) (elements : List String) : String :=
  "\x7b\"name_delimiter\": " ++ Text.escape delimiter ++ ", \"name_elements\": [" ++
    String.intercalate ", " elements ++ "]\x7d"

/-- The stored form of a name. -/
def stored (q : QualifiedName) : String := frame q.delimiter (q.elements.map NameElement.stored)

/-- The stored form of what stands for the name of something inside `q` that has no name. -/
def storedNameless (q : QualifiedName) : String :=
  frame q.delimiter (q.elements.map NameElement.stored ++ [NameElement.storedNameless])

/-- The stored form of a list of names. -/
def storedList (qs : List QualifiedName) : String :=
  "[" ++ String.intercalate ", " (qs.map stored) ++ "]"

/-- The name with element number `i` called `n`; a negative number counts from the end. Nothing if
there is no such element. -/
def rename? (q : QualifiedName) (i : Int) (n : String) : Option QualifiedName :=
  let place := if i < 0 then i + q.elements.length else i
  if 0 ≤ place ∧ place < q.elements.length then
    some { q with elements := q.elements.modify place.toNat fun e => { e with name := n } }
  else none

end QualifiedName

end CodeIndex
