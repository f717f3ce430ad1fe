import CodeIndex.Fault

/-!
# Values

What goes into and comes out of the functions of a recorder. An identifier is such a value: whatever
a recorder gave out for a symbol is passed on unchanged.
-/

namespace CodeIndex

/-- A value. -/
inductive Value where
  /-- No value. -/
  | null
  /-- A truth value. -/
  | flag (b : Bool)
  /-- A number. -/
  | number (n : Int)
  /-- A text. -/
  | text (s : String)
  deriving DecidableEq, Repr, Inhabited

namespace Value

/-- The value counts as true: everything does but for null, falsity, zero and the empty text. -/
def holds : Value → Bool
  | null => false
  | flag b => b
  | number n => n != 0
  | text s => !s.isEmpty

/-- The value as a number. A truth value counts as one or zero. -/
def number? : Value → Option Int
  | flag b => some (if b then 1 else 0)
  | number n => some n
  | null | text _ => none

/-- The value with a truth value replaced by its number. Values that agree in this form identify the
same thing. -/
def plain (v : Value) : Value :=
  match v.number? with
  | some n => .number n
  | none => v

/-- The value as it is printed. -/
def render : Value → String
  | null => "None"
  | flag true => "True"
  | flag false => "False"
  | number n => toString n
  | text s => s

/-- The name of the type of a value. -/
def typeName : Value → String
  | null => "NoneType"
  | flag _ => "bool"
  | number _ => "int"
  | text _ => "str"

/-- The text that the value is. Any other value cannot become part of a text. -/
def asText : Value → Except Fault String
  | text s => .ok s
  | v => .error (.notText v.typeName)

end Value

end CodeIndex
