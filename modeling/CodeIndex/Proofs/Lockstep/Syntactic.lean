import CodeIndex.Proofs.Lockstep
import CodeIndex.Proofs.Walk.Syntactic

/-!
# Two runs of the syntactic indexer

Whatever the syntactic indexer does for a place keeps every bond between two recorders. The names
that it derives depend on the contexts, but not on their identifiers.
-/

namespace CodeIndex.Syntactic

open Indexing

variable {ρ σ : Type} [Recorder ρ] [Recorder σ] {B : Bond ρ σ} {known : List (Value × Value)}

/-! ### Names -/

section Contexts

variable {ks ks' : List Context}

theorem owner?_congr (h : List.Forall₂ Context.SameButId ks ks') (c name : Cursor) :
    owner? ks' c name = owner? ks c name := by
  cases h with
  | nil => rfl
  | @cons top top' _ _ same rest =>
    rw [same]
    cases rest with
    | nil => rfl
    | cons below _ =>
      rw [below]
      rfl

theorem nameUpTo_congr (source : Source) (h : List.Forall₂ Context.SameButId ks ks') (fuel : Nat)
    (c : Cursor) : nameUpTo source ks' fuel c = nameUpTo source ks fuel c := by
  induction fuel generalizing c with
  | zero => rfl
  | succ fuel ih => simp only [nameUpTo, owner?_congr h, ih]

theorem qualifiedName_congr (source : Source) (h : List.Forall₂ Context.SameButId ks ks')
    (c : Cursor) : qualifiedName source ks' c = qualifiedName source ks c :=
  nameUpTo_congr source h _ c

theorem openingName_congr (s : Setting) (h : List.Forall₂ Context.SameButId ks ks') (c : Cursor) :
    openingName s ks' c = openingName s ks c := by
  rw [openingName, openingName, qualifiedName_congr s.source h]

theorem openingOfClass_congr (s : Setting) (h : List.Forall₂ Context.SameButId ks ks')
    (c : Cursor) : openingOfClass s ks' c = openingOfClass s ks c := by
  simp only [openingOfClass, openingName_congr s h]

theorem openingOfFunction_congr (s : Setting) (h : List.Forall₂ Context.SameButId ks ks')
    (c : Cursor) : openingOfFunction s ks' c = openingOfFunction s ks c := by
  simp only [openingOfFunction, openingName_congr s h]
  cases h with
  | nil => rfl
  | @cons top top' _ _ same _ =>
    have kind : top'.kind = top.kind := by rw [same]
    simp only [kind]

end Contexts

theorem agree_nameAt (s : Setting) (c : Cursor) :
    B.Agree known (nameAt s c : Indexing ρ (Option QualifiedName)) (nameAt s c) := by
  refine .getBind fun t u related => ?_
  rw [qualifiedName_congr s.source related.same]
  exact .lift _

/-- The kind that is imposed, if it decides what names are, is one of two. -/
theorem agree_imposedKind :
    B.Agree known (imposedKind : Indexing ρ (Option ReferenceKind)) imposedKind
      fun _ _ k k' => k = k' ∧ ∀ kind ∈ k, kind.Numbered := by
  refine .getBind fun t u related => ?_
  rw [related.kinds]
  split
  · exact .pureSuch (by simp)
  · split
    · rename_i k _ decides
      refine .pureSuch fun kind hk => ?_
      obtain rfl := Option.some.inj hk
      simp only [Bool.or_eq_true, decide_eq_true_eq] at decides
      rcases decides with h | h
      · exact ⟨_, congrArg ReferenceKind.code h⟩
      · exact ⟨_, congrArg ReferenceKind.code h⟩
    · exact .pureSuch (by simp)

/-! ### Variables -/

theorem agree_defineVariable (name : QualifiedName) (kind : SymbolKind) (range : SourceRange) :
    B.Agree known (defineVariable name kind range : Indexing ρ Value)
      (defineVariable name kind range) B.link := by
  unfold defineVariable
  refine .bindSymbol (.symbol name) fun v w => ?_
  refine .bind (.note (.symbolKind (by simp) kind) rfl) fun _ => ?_
  refine .bind (.note (.definitionKind (by simp) _) rfl) fun _ => ?_
  refine .bind (.note (.symbolLocation (by simp) _) rfl) fun _ => ?_
  exact .pureSymbol (by simp)

theorem localName_ne_empty (context : Context) (name : String) : localName context name ≠ "" := by
  intro h
  have chars := congrArg String.toList h
  simp [localName] at chars

theorem agree_recordLocal (c : Cursor) :
    B.Agree known (recordLocal c : Indexing ρ Unit) (recordLocal c) := by
  refine .contextBind fun top id => ?_
  refine .liftBind fun text => ?_
  refine .liftBind fun range => ?_
  exact .useLocal range (localName_ne_empty top text)

theorem agree_defineLocal (c : Cursor) :
    B.Agree known (defineLocal c : Indexing ρ Unit) (defineLocal c) := by
  refine .bind (agree_recordLocal c) fun _ => ?_
  refine .liftBind fun text => ?_
  exact .declare text

theorem agree_visitParameter (c : Cursor) :
    B.Agree known (visitParameter c : Indexing ρ Unit) (visitParameter c) := by
  refine .liftBind fun name => ?_
  refine .contextBind fun top id => ?_
  refine .liftBind fun text => ?_
  refine .liftBind fun range => ?_
  exact .useLocal range (localName_ne_empty top text)

/-! ### References -/

section References

variable {reference : ReferenceKind} (numbered : reference.Numbered)
include numbered

theorem agree_visitLasting (s : Setting) (c : Cursor) (kind : SymbolKind) :
    B.Agree known (visitLasting s c kind reference : Indexing ρ Unit)
      (visitLasting s c kind reference) := by
  refine .bind (agree_nameAt s c) fun name => ?_
  split
  · refine .liftBind fun range => ?_
    exact .bindSymbol (agree_defineVariable _ _ _) fun _ _ => .pure _
  · exact .referToUnsolved numbered c

theorem agree_visitMember (s : Setting) (c : Cursor) :
    B.Agree known (visitMember s c reference : Indexing ρ Unit) (visitMember s c reference) := by
  refine .contextBind fun top id => ?_
  refine .liftBind fun ofSelf => ?_
  split
  · refine .bind (agree_nameAt s c) fun name => ?_
    split
    · refine .liftBind fun range => ?_
      refine .bindSymbol (agree_defineVariable _ _ _) fun v w => ?_
      exact .refer range numbered (by simp)
    · exact agree_defineLocal c
  · exact .referToUnsolved numbered c

theorem agree_visitDefining (s : Setting) (c : Cursor) :
    B.Agree known (visitDefining s c reference : Indexing ρ Unit)
      (visitDefining s c reference) := by
  unfold visitDefining
  split
  · exact agree_visitLasting numbered s c _
  · split
    · split
      · exact agree_visitLasting numbered s c _
      · exact .referToUnsolved numbered c
    · refine .liftBind fun isAttribute => ?_
      split
      · exact agree_visitMember numbered s c
      · exact agree_defineLocal c

theorem agree_visitUse (c : Cursor) :
    B.Agree known (visitUse c reference : Indexing ρ Unit) (visitUse c reference) := by
  refine .liftBind fun isAttribute => ?_
  refine .contextBind fun top id => ?_
  refine .liftBind fun text => ?_
  split
  · exact agree_recordLocal c
  · exact .referToUnsolved numbered c

end References

theorem agree_visitName (s : Setting) (c : Cursor) :
    B.Agree known (visitName s c : Indexing ρ Unit) (visitName s c) := by
  refine .getBind fun t u related => ?_
  rw [related.isEmpty]
  split
  · exact .pure _
  · refine .liftBind fun text => ?_
    split
    · exact .pure _
    · split
      · refine .bindSymbol (.symbol _) fun v w => ?_
        refine .liftBind fun range => ?_
        exact .note (.qualifierLocation (by simp) _) rfl
      · refine .bindSuch agree_imposedKind fun imposed numbered => ?_
        split
        · exact .referToUnsolved (numbered _ rfl) c
        · have used : (if followedBy "(" c then ReferenceKind.call else .usage).Numbered := by
            split <;> exact ⟨_, rfl⟩
          refine .liftBind fun defining => ?_
          split
          · exact agree_visitDefining used s c
          · exact agree_visitUse used c

theorem agree_visitSelf (s : Setting) (c : Cursor) :
    B.Agree known (visitSelf s c : Indexing ρ Unit) (visitSelf s c) := by
  unfold visitSelf
  split
  · exact agree_visitName s c
  · exact .visitString c
  · exact .visitErrorToken c
  · exact .pure _

/-- So two runs do the same at every step, also if only one of them lists the tree. -/
theorem agree_actions (source : Source) (verbose verbose' : Bool) :
    Actions.Agree B (actions ⟨source, verbose⟩) (actions ⟨source, verbose'⟩) where
  look c _ := agree_visitSelf ⟨source, verbose⟩ c
  parameter := agree_visitParameter
  opening h c := by
    change (if c.isKind .classdef then openingOfClass ⟨source, verbose⟩ _ c
      else openingOfFunction ⟨source, verbose⟩ _ c) = _
    rw [openingOfClass_congr _ h, openingOfFunction_congr _ h]
    rfl

end CodeIndex.Syntactic
