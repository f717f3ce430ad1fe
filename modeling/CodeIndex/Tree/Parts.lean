import CodeIndex.Tree.Cursor

/-!
# Parts of definitions

Where the parts of class definitions, function definitions and parameters stand: the name, the
body, the base classes, the parameters, the default value. Each is found by its place among the
parts, so a malformed construct gives a fault.
-/

namespace CodeIndex

namespace Cursor

/-- The part with a number; a negative number counts from the end. -/
def child (c : Cursor) (i : Int) : Except Fault Cursor := do
  pick (← c.children) i

/-- The name of a class or function definition is its second part. -/
def definedName (c : Cursor) : Except Fault Cursor := c.child 1

/-- The parameters of a function definition are the parts of its third part that are of that
kind. -/
def parameterList (c : Cursor) : Except Fault (List Cursor) := do
  return (← (← c.child 2).children).filter (isKind .param)

/-- The name of a parameter stands after the star or stars, and in front of an annotation. -/
def parameterName (c : Cursor) : Except Fault Cursor := do
  let first ← c.child 0
  let target ← if first.tree.isToken "*" || first.tree.isToken "**" then c.child 1 else pure first
  if target.isKind .tfpdef then target.child 0 else pure target

end Cursor

/-- The number of the part of a class definition that holds the base classes, if there are any:
the fourth part, unless the third is no opening or the fourth is the closing bracket. -/
def basesIndex? (parts : List Tree) : Except Fault (Option Nat) := do
  if (← pick parts 2).isToken "(" then
    if (← pick parts 3).isToken ")" then return none else return some 3
  else return none

/-- The number of the part of a class or function definition that is its body, the last one. -/
def bodyIndex (parts : List Tree) : Except Fault Nat := do
  let _ ← pick parts (-1)
  return parts.length - 1

/-- The number of the part of a parameter that is its default value, if it has one: the last part
but for a comma, when an equals sign stands before it. -/
def defaultIndex? (parts : List Tree) : Except Fault (Option Nat) := do
  let comma : Nat := if (← pick parts (-1)).isToken "," then 1 else 0
  match pick parts (-2 - comma) with
  | .error _ => return none
  | .ok sign => return if sign.isToken "=" then some (parts.length - 1 - comma) else none

end CodeIndex
