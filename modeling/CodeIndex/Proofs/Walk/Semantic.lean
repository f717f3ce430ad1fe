import CodeIndex.Proofs.Discipline.Semantic
import CodeIndex.Proofs.Walk

/-!
# The walk of the semantic indexer

The steps of the semantic indexer for a tree: it visits every part of every construct. As for the
other indexer, carrying out the steps is visiting the tree, and the steps are nested as the
definitions of the tree are, here without an exception.
-/

namespace CodeIndex.Semantic.Setting

open Indexing

variable {ρ : Type} [Recorder ρ]

/-- How a definition is entered. -/
def openingAs (s : Setting) (kind : SymbolKind) (contextKind : ContextKind) (c : Cursor) :
    Except Fault Opening := do
  let name ← c.firstName?
  let full ←
    match name with
    | none => pure none
    | some n => s.qualifiedName n s.source.path
  return { name := full.getD .unsolved, kind, nameAt := name, contextKind }

/-- What the semantic indexer does of its own at the steps. It does nothing more for a parameter
than for any other place. -/
def actions (s : Setting) : Actions ρ where
  verbose := s.verbose
  look := s.visitSelf
  opening _ c :=
    if c.isKind .classdef then s.openingAs .classSymbol .classBody c
    else s.openingAs .function .function c
  parameter _ := pure ()

theorem disciplined_actions (s : Setting) : (s.actions : Actions ρ).Disciplined where
  look _ c plain allowed := s.moves_visitSelf c plain allowed
  parameter _ _ := .pure ()

/-- The steps that end the visit of a node that is no definition. -/
def closing (c : Cursor) : List Step :=
  match c.tree.kind with
  | .importFrom | .importName | .name | .string | .errorLeaf => [.leave c]
  | _ => []

mutual

/-- The steps for a tree. A token that claims to be a definition has no parts to take a name
from. -/
def steps (above : List Ancestor) : Tree → List Step
  | .leaf token =>
    let c : Cursor := ⟨.leaf token, above⟩
    .list c ::
      ((if token.kind.isDefinition then [.fail (.lacking "children")] else .look c :: closing c) ++
        [.unlist])
  | .node kind parts =>
    let c : Cursor := ⟨.node kind parts, above⟩
    let inside := partSteps (fun i => ⟨kind, parts, i⟩ :: above) 0 parts
    .list c ::
      ((if kind.isDefinition then .enter c :: (inside ++ [.leave c])
        else .look c :: (inside ++ closing c)) ++ [.unlist])

/-- The steps for the trees of a list, the first of which has number `i`. -/
def partSteps (place : Nat → List Ancestor) (i : Nat) : List Tree → List Step
  | [] => []
  | t :: ts => steps (place i) t ++ partSteps place (i + 1) ts

end

/-! ### Carrying out the steps -/

theorem perform_openingAs (s : Setting) (kind : SymbolKind) (contextKind : ContextKind)
    (c : Cursor) :
    (liftM (s.openingAs kind contextKind c) >>= fun o : Opening => o.perform c : Indexing ρ Unit) =
      s.enterDefinition kind contextKind c := by
  unfold openingAs enterDefinition
  cases c.firstName? with
  | error e => rfl
  | ok name =>
    cases name with
    | none => rfl
    | some n =>
      rw [lift_bind, lift_ok, pure_bind, pure_bind, lift_bind, bind_assoc]
      rfl

theorem enter_eq (s : Setting) {c : Cursor} (h : c.tree.kind.isDefinition = true) :
    (s.actions : Actions ρ).enter c = s.visitSelf c := by
  funext σ
  change (liftM (if c.isKind .classdef then s.openingAs .classSymbol .classBody c
    else s.openingAs .function .function c) >>= fun o : Opening => o.perform c) σ = _
  unfold visitSelf
  rcases NodeKind.eq_of_isDefinition h with kind | kind
  · have isClass : c.isKind .classdef = true := by simp [Cursor.isKind, Tree.isKind, kind]
    rw [if_pos isClass, perform_openingAs, kind]
  · have isFunction : ¬c.isKind .classdef = true := by simp [Cursor.isKind, Tree.isKind, kind]
    rw [if_neg isFunction, perform_openingAs, kind]

omit [Recorder ρ] in
theorem leaveSelf_definition {c : Cursor} (h : c.tree.kind.isDefinition = true) :
    (leaveSelf c : Indexing ρ Unit) = leave c := by
  unfold leaveSelf
  generalize c.tree.kind = kind at h
  cases kind with
  | classdef => rfl
  | funcdef => rfl
  | _ => cases h

theorem run_closing (s : Setting) {c : Cursor} (h : c.tree.kind.isDefinition = false)
    (held : Held) :
    (s.actions : Actions ρ).run (closing c) held = (do leaveSelf c; return held) := by
  unfold closing leaveSelf
  generalize c.tree.kind = kind at h
  cases kind with
  | classdef => cases h
  | funcdef => cases h
  | _ => simp [Actions.perform]

/-- A token has no parts among which its name could be. -/
theorem visitSelf_token (s : Setting) {token : Token} (above : List Ancestor)
    (h : token.kind.isDefinition = true) :
    (s.visitSelf ⟨.leaf token, above⟩ : Indexing ρ Unit) = throw (.lacking "children") := by
  obtain ⟨kind, text, start, unexpected⟩ := token
  cases kind with
  | classdef => rfl
  | funcdef => rfl
  | _ => cases h

/-- Carrying out the steps of the tree is visiting it, wherever it stands. -/
def Realized (ρ : Type) [Recorder ρ] (s : Setting) (t : Tree) : Prop :=
  ∀ above held, (s.actions : Actions ρ).run (steps above t) held = (do s.visit above t; return held)

theorem run_partSteps {s : Setting} {ts : List Tree} (ih : ∀ t ∈ ts, Realized ρ s t)
    (place : Nat → List Ancestor) (i : Nat) (held : Held) :
    (s.actions : Actions ρ).run (partSteps place i ts) held =
      (do s.visitParts place i ts; return held) := by
  induction ts generalizing i with
  | nil => rfl
  | cons t ts ih' =>
    have here := ih t (by simp) (place i) held
    have rest := ih' (fun t ht => ih t (by simp [ht])) (i + 1)
    unfold partSteps visitParts
    simp only [Actions.run_append, here, rest, bind_assoc, pure_bind]

theorem realized (s : Setting) (t : Tree) : Realized ρ s t := by
  induction t using Tree.parts_induction with
  | leaf token =>
    intro above held
    unfold steps visit listed
    simp only [Actions.run_cons, Actions.run_append, Actions.perform, bind_assoc, pure_bind]
    refine bind_congr fun _ => ?_
    cases h : token.kind.isDefinition with
    | true =>
      rw [visitSelf_token s above h]
      rfl
    | false =>
      simp only [Bool.false_eq_true, if_false, Actions.run_cons, Actions.run_nil, Actions.perform,
        run_closing s (c := ⟨.leaf token, above⟩) h, bind_assoc, pure_bind]
      rfl
  | node kind parts ih =>
    intro above held
    unfold steps visit listed
    simp only [Actions.run_cons, Actions.run_append, Actions.perform, bind_assoc, pure_bind]
    refine bind_congr fun _ => ?_
    cases h : kind.isDefinition with
    | true =>
      simp only [if_true, Actions.run_cons, Actions.run_append, Actions.run_nil, Actions.perform,
        enter_eq s (c := ⟨.node kind parts, above⟩) h, run_partSteps ih,
        leaveSelf_definition (c := ⟨.node kind parts, above⟩) h, bind_assoc,
        pure_bind]
      rfl
    | false =>
      simp only [Bool.false_eq_true, if_false, Actions.run_cons, Actions.run_append,
        Actions.run_nil,
        Actions.perform, run_partSteps ih, run_closing s (c := ⟨.node kind parts, above⟩) h,
        bind_assoc, pure_bind]
      rfl

/-- The run of the semantic indexer on a tree. -/
def walk (s : Setting) (t : Tree) : Walk ρ :=
  ⟨s.source, s.moduleName (some s.source.path), s.actions, steps [] t⟩

theorem index_eq (s : Setting) (t : Tree) :
    (s.index t : Indexing ρ Unit) = (s.walk t).carryOut := by
  unfold index begin Walk.carryOut
  change _ = (do start s.source _; let _ ← s.actions.run (steps [] t) [])
  rw [realized s t [] []]
  simp only [bind_assoc, pure_bind, bind_pure_unit]
  rfl

/-! ### Nesting -/

/-- The place belongs to the subtree at `start` and lies inside the definitions `ds` and no
others. -/
def Inside (start : Cursor) (ds : List Cursor) (c : Cursor) : Prop :=
  c.definitionsAround = ds ∧ start.Within c

theorem nested_closing {R : List Cursor → Cursor → Prop} {b : Bool} {ds : List Cursor} {c : Cursor}
    (h : c.tree.kind.isDefinition = false) : Nested R b ds (closing c) := by
  unfold closing
  split
  iterate 5 exact .leave c h
  exact .nil

theorem nested_partSteps {R : List Cursor → Cursor → Prop} {b : Bool} {ds : List Cursor}
    {ts : List Tree} {place : Nat → List Ancestor} {i : Nat}
    (h : ∀ j t, ts[j]? = some t → Nested R b ds (steps (place (i + j)) t)) :
    Nested R b ds (partSteps place i ts) := by
  induction ts generalizing i with
  | nil => exact .nil
  | cons t ts ih =>
    unfold partSteps
    refine .append (h 0 t rfl) (ih fun j u hu => ?_)
    rw [show i + 1 + j = i + (j + 1) by omega]
    exact h (j + 1) u hu

/-- The steps of a tree are nested as its definitions are. -/
theorem nested_steps {start : Cursor} (t : Tree) (b : Bool) (above : List Ancestor)
    (within : start.Within ⟨t, above⟩) :
    Nested (Inside start) b (Cursor.definitionsAmong above) (steps above t) := by
  induction t using Tree.parts_induction generalizing b above with
  | leaf token =>
    unfold steps
    refine .cons (.list _) (.append ?_ .unlist)
    cases h : token.kind.isDefinition with
    | true => exact .fail _
    | false => exact .cons (.look _ ⟨rfl, within⟩ h) (nested_closing h)
  | node kind parts ih =>
    have inside : ∀ b i t, parts[i]? = some t →
        Nested (Inside start) b (Cursor.definitionsAmong (⟨kind, parts, i⟩ :: above))
          (steps (⟨kind, parts, i⟩ :: above) t) :=
      fun b i t ht => ih t (List.mem_of_getElem? ht) b _ (.part within ht)
    unfold steps
    refine .cons (.list _) (.append ?_ .unlist)
    cases h : kind.isDefinition with
    | true =>
      refine .define _ ⟨rfl, within⟩ h (nested_partSteps fun j t ht => ?_)
      rw [Nat.zero_add]
      have part := inside false j t ht
      rwa [Cursor.definitionsAmong_definition h] at part
    | false =>
      refine .cons (.look _ ⟨rfl, within⟩ h) (.append (nested_partSteps fun j t ht => ?_)
        (nested_closing h))
      rw [Nat.zero_add]
      have part := inside b j t ht
      rwa [Cursor.definitionsAmong_plain h] at part

/-- So the steps of a whole tree have a way through its definitions. -/
theorem way_inside (t : Tree) : Way (Inside (.root t)) [] (steps [] t) [] :=
  (nested_steps t false [] .here).way

end CodeIndex.Semantic.Setting
