import CodeIndex.SourceRange
import CodeIndex.Value

/-!
# Extents

A recorder takes the four bounds of a source range as they come and never computes with them. So an
extent is a range whose bounds are values, and every source range is one.
-/

namespace CodeIndex

/-- A range as a recorder takes it. -/
structure Extent where
  /-- The line of the first character. -/
  startLine : Value
  /-- The column of the first character. -/
  startColumn : Value
  /-- The line of the last character. -/
  endLine : Value
  /-- The column of the last character. -/
  endColumn : Value
  deriving DecidableEq, Repr, Inhabited

/-- A source range as an extent. -/
def SourceRange.extent (r : SourceRange) : Extent :=
  ⟨.number r.startLine, .number r.startColumn, .number r.endLine, .number r.endColumn⟩

instance : Coe SourceRange Extent := ⟨SourceRange.extent⟩

namespace Extent

/-- The bounds, the start before the end and the line before the column. -/
def bounds (e : Extent) : List Value := [e.startLine, e.startColumn, e.endLine, e.endColumn]

/-- The written form of an extent. -/
def text (e : Extent) : String :=
  "[" ++ e.startLine.render ++ ":" ++ e.startColumn.render ++ "|" ++ e.endLine.render ++ ":" ++
    e.endColumn.render ++ "]"

end Extent

end CodeIndex
