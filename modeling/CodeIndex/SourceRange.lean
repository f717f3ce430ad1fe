/-!
# Source ranges

Positions count lines from one and columns from zero. A source range counts both from one, and its
end column is the last one that belongs to it, so an end position carries over unchanged.
-/

namespace CodeIndex

/-- A place in a source text. -/
structure Position where
  /-- The line, counted from one. -/
  line : Int
  /-- The column, counted from zero. -/
  column : Int
  deriving DecidableEq, Repr, Inhabited

/-- A stretch of source text, from its first to its last character. -/
structure SourceRange where
  /-- The line of the first character. -/
  startLine : Int
  /-- The column of the first character, counted from one. -/
  startColumn : Int
  /-- The line of the last character. -/
  endLine : Int
  /-- The column of the last character, counted from one. -/
  endColumn : Int
  deriving DecidableEq, Repr, Inhabited

namespace SourceRange

/-- The range between two positions. -/
def between (first last : Position) : SourceRange :=
  ⟨first.line, first.column + 1, last.line, last.column⟩

/-- The written form of a range. -/
def text (r : SourceRange) : String :=
  "[" ++ toString r.startLine ++ ":" ++ toString r.startColumn ++ "|" ++ toString r.endLine ++
    ":" ++ toString r.endColumn ++ "]"

/-- The range begins and ends on different lines. -/
def spansLines (r : SourceRange) : Bool := r.startLine != r.endLine

end SourceRange

end CodeIndex
