import CodeIndex.Proofs.Discipline
import CodeIndex.Syntactic.Visit

/-!
# The syntactic indexer keeps to the discipline

Whatever the syntactic indexer does for a place that is no definition keeps to every discipline of
recording. Only a name is ever the origin of a reference.
-/

namespace CodeIndex.Syntactic

open Indexing Discipline

variable {ρ : Type} [Recorder ρ] {D : Discipline ρ} {known : List Value}

theorem moves_nameAt (s : Setting) (c : Cursor) :
    D.Moves known (nameAt s c : Indexing ρ (Option QualifiedName)) :=
  .bind .get fun _ => .lift _

theorem moves_imposedKind : D.Moves known (imposedKind : Indexing ρ (Option ReferenceKind)) := by
  refine .bind .get fun s => ?_
  split
  · exact .pure _
  · split <;> exact .pure _

/-! ### Variables -/

theorem moves_defineVariable (name : QualifiedName) (kind : SymbolKind) (range : SourceRange) :
    D.Moves known (defineVariable name kind range : Indexing ρ Value) (fun v => [v]) := by
  unfold defineVariable
  refine .bind (.symbol name) fun v => ?_
  refine .bind (.note fun s h => h v (by simp)) fun _ => ?_
  refine .bind (.note fun s h => h v (by simp)) fun _ => ?_
  refine .bind (.note fun s h => h v (by simp)) fun _ => ?_
  exact .pureSymbol (by simp)

theorem moves_recordLocal (c : Cursor) : D.Moves known (recordLocal c : Indexing ρ Unit) := by
  refine .bind .context fun top => ?_
  refine .liftBind fun text => ?_
  refine .liftBind fun range => ?_
  exact .useLocal _ _

theorem moves_defineLocal (c : Cursor) : D.Moves known (defineLocal c : Indexing ρ Unit) := by
  refine .bind (moves_recordLocal c) fun _ => ?_
  refine .liftBind fun text => ?_
  exact .declare text

theorem moves_visitParameter (c : Cursor) : D.Moves known (visitParameter c : Indexing ρ Unit) := by
  refine .liftBind fun name => ?_
  refine .bind .context fun top => ?_
  refine .liftBind fun text => ?_
  refine .liftBind fun range => ?_
  exact .useLocal _ _

/-! ### Names -/

section Names

variable (allowed : D.AllowsReferences)
include allowed

theorem moves_visitLasting (s : Setting) (c : Cursor) (kind : SymbolKind)
    (reference : ReferenceKind) :
    D.Moves known (visitLasting s c kind reference : Indexing ρ Unit) := by
  refine .bind (moves_nameAt s c) fun name => ?_
  split
  · refine .liftBind fun range => ?_
    exact .bind (moves_defineVariable _ _ _) fun _ => .pure _
  · exact .referToUnsolved allowed _ _

theorem moves_visitMember (s : Setting) (c : Cursor) (reference : ReferenceKind) :
    D.Moves known (visitMember s c reference : Indexing ρ Unit) := by
  refine .bind .context fun top => ?_
  refine .liftBind fun ofSelf => ?_
  split
  · refine .bind (moves_nameAt s c) fun name => ?_
    split
    · refine .liftBind fun range => ?_
      refine .bind (moves_defineVariable _ _ _) fun v => ?_
      exact .refer allowed _ _ (by simp)
    · exact moves_defineLocal c
  · exact .referToUnsolved allowed _ _

theorem moves_visitDefining (s : Setting) (c : Cursor) (reference : ReferenceKind) :
    D.Moves known (visitDefining s c reference : Indexing ρ Unit) := by
  unfold visitDefining
  split
  · exact moves_visitLasting allowed s c _ reference
  · split
    · split
      · exact moves_visitLasting allowed s c _ reference
      · exact .referToUnsolved allowed _ _
    · refine .liftBind fun isAttribute => ?_
      split
      · exact moves_visitMember allowed s c reference
      · exact moves_defineLocal c

theorem moves_visitUse (c : Cursor) (reference : ReferenceKind) :
    D.Moves known (visitUse c reference : Indexing ρ Unit) := by
  refine .liftBind fun isAttribute => ?_
  refine .bind .context fun top => ?_
  refine .liftBind fun text => ?_
  split
  · exact moves_recordLocal c
  · exact .referToUnsolved allowed _ _

end Names

/-- A name that is no token has no text, so the visit ends before a reference is made. -/
theorem moves_visitName (s : Setting) (c : Cursor)
    (allowed : c.tree.isLeaf = true → D.AllowsReferences) :
    D.Moves known (visitName s c : Indexing ρ Unit) := by
  refine .bind .get fun _ => ?_
  split
  · exact .pure _
  · refine .liftBindOf fun text ht => ?_
    have allowed := allowed (Tree.isLeaf_of_text ht)
    split
    · exact .pure _
    · split
      · refine .bind (.symbol _) fun v => ?_
        refine .liftBind fun range => ?_
        exact .note fun s h => h v (by simp)
      · refine .bind moves_imposedKind fun imposed => ?_
        split
        · exact .referToUnsolved allowed _ _
        · refine .liftBind fun defining => ?_
          split
          · exact moves_visitDefining allowed s c _
          · exact moves_visitUse allowed c _

theorem moves_visitSelf (s : Setting) (c : Cursor)
    (allowed : c.isName = true → c.tree.isLeaf = true → D.AllowsReferences) :
    D.Moves known (visitSelf s c : Indexing ρ Unit) := by
  unfold visitSelf
  split
  · rename_i hk
    exact moves_visitName s c (allowed (by simp [Cursor.isName, Tree.isName, Tree.isKind, hk]))
  · exact .visitString c
  · exact .visitErrorToken c
  · exact .pure _

end CodeIndex.Syntactic
