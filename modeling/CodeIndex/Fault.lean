import CodeIndex.Text.Quoted

/-!
# Faults

What can end a run, or be caught and reported while one name is looked at. A fault has a kind and a
message; a report shows both.

A computation that may end in a fault keeps its state. So one with a state of type `τ` works on any
larger state that has a part of that type, and what it did to the part is kept also if it ends in a
fault.
-/

namespace CodeIndex

/-- A failure of a collaborator, known only by its kind and its message: the resolver and the Python
environments report such failures. -/
structure Failure where
  /-- The kind of failure. -/
  kind : String
  /-- What the collaborator said about it. -/
  message : String
  deriving DecidableEq, Repr, Inhabited

/-- The text of a failure. A missing key is shown quoted, everything else as the bare message. -/
def Failure.text (f : Failure) : String :=
  if f.kind = "KeyError" then Text.quote f.message else f.message

/-- A reason to stop. -/
inductive Fault where
  /-- A property was read where there is no value at all. -/
  | absent (property : String)
  /-- A property was read of a tree element that has none of that name. -/
  | lacking (property : String)
  /-- A list has no element at the place asked for. -/
  | outOfRange
  /-- A list does not hold the element looked for. -/
  | notInList
  /-- A list has more or fewer elements than asked for. -/
  | wrongCount
  /-- A value that is no text, of the given type, was to become part of one. -/
  | notText (type : String)
  /-- A value that has no stored form. -/
  | notStorable (type : String)
  /-- There is no file at the path. -/
  | noFile (path : String)
  /-- The bytes of a file are not well-formed UTF-8. -/
  | badEncoding
  /-- A search that goes round in circles. -/
  | unending
  /-- An operation that the recorder does not offer. -/
  | unsupported
  /-- A failure of a collaborator. -/
  | reported (failure : Failure)
  deriving DecidableEq, Repr, Inhabited

namespace Fault

/-- The name of the kind of fault. -/
def kind : Fault → String
  | absent _ | lacking _ => "AttributeError"
  | outOfRange => "IndexError"
  | notInList | wrongCount => "ValueError"
  | notText _ | notStorable _ => "TypeError"
  | noFile _ => "FileNotFoundError"
  | badEncoding => "UnicodeDecodeError"
  | unending => "RecursionError"
  | unsupported => "NotImplementedError"
  | reported f => f.kind

/-- What the fault says. -/
def message : Fault → String
  | absent property => "'NoneType' object has no attribute '" ++ property ++ "'"
  | lacking property => "'Node' object has no attribute '" ++ property ++ "'"
  | outOfRange => "list index out of range"
  | notInList => "value is not in list"
  | wrongCount => "wrong number of values"
  | notText type => "can only concatenate str (not \"" ++ type ++ "\") to str"
  | notStorable type => "Object of type " ++ type ++ " is not JSON serializable"
  | noFile path => "[Errno 2] No such file or directory: " ++ Text.quote path
  | badEncoding => "invalid utf-8"
  | unending => "maximum recursion depth exceeded"
  | unsupported => ""
  | reported f => f.message

/-- The fault as a report shows it: its kind and, in brackets, its message between quotes. -/
def report (f : Fault) : String := f.kind ++ "(" ++ Text.quote f.message ++ ")"

end Fault

instance {σ : Type} : MonadLift (Except Fault) (EStateM Fault σ) where
  monadLift
    | .ok a => pure a
    | .error e => throw e

/-- Runs a computation on the part of the state that `part` reads and `replace` writes. -/
def focus {σ τ α : Type} (part : σ → τ) (replace : τ → σ → σ) (m : EStateM Fault τ α) :
    EStateM Fault σ α := fun s =>
  match m (part s) with
  | .ok a t => .ok a (replace t s)
  | .error e t => .error e (replace t s)

end CodeIndex
