import CodeIndex.Proofs.Discipline.Syntactic
import CodeIndex.Proofs.Walk

/-!
# The walk of the syntactic indexer

The steps of the syntactic indexer for a tree, and the two facts that everything else about its runs
rests on: carrying out the steps is visiting the tree, and the steps are nested as the definitions
of the tree are.
-/

namespace CodeIndex.Syntactic

open Indexing

variable {ρ : Type} [Recorder ρ]

/-- The name under which the definition whose name stands at a place is recorded. -/
def openingName (s : Setting) (contexts : List Context) (name : Cursor) :
    Except Fault QualifiedName := do
  return (← qualifiedName s.source contexts name).getD .unsolved

/-- How a class is entered. -/
def openingOfClass (s : Setting) (contexts : List Context) (c : Cursor) : Except Fault Opening := do
  let name ← c.definedName
  let full ← openingName s contexts name
  return { name := full, kind := .classSymbol, nameAt := some name, contextKind := .classBody }

/-- How a function is entered. -/
def openingOfFunction (s : Setting) (contexts : List Context) (c : Cursor) :
    Except Fault Opening := do
  let name ← c.definedName
  let full ← openingName s contexts name
  match contexts with
  | [] => throw .outOfRange
  | top :: _ =>
    let isMethod := top.kind = .classBody
    let parameters ← (← c.parameterList).mapM fun p => do (← p.parameterName).tree.text
    return {
      name := full
      kind := if isMethod then .method else .function
      nameAt := some name
      contextKind := if isMethod then .method else .function
      selfName := if isMethod then parameters.head? else none
      locals := parameters }

/-- What the syntactic indexer does of its own at the steps. -/
def actions (s : Setting) : Actions ρ where
  verbose := s.verbose
  look := visitSelf s
  opening contexts c :=
    if c.isKind .classdef then openingOfClass s contexts c else openingOfFunction s contexts c
  parameter := visitParameter

theorem disciplined_actions (s : Setting) : (actions s : Actions ρ).Disciplined where
  look _ c _ allowed := moves_visitSelf s c allowed
  parameter _ c := moves_visitParameter c

/-- The steps that end the visit of a node itself. -/
def closing (c : Cursor) : List Step :=
  match c.tree.kind with
  | .name | .string | .errorLeaf => [.leave c]
  | _ => []

/-- The steps for a token. -/
def tokenSteps (c : Cursor) : List Step :=
  match c.tree.kind with
  | .classdef | .funcdef | .param | .argument | .importFrom | .dottedAsName | .importAsName =>
    [.fail (.lacking "children")]
  | _ => .look c :: closing c

/-- The tree is the reserved word `w`. -/
def isWord (w : String) : Tree → Bool
  | .leaf token => token.kind = .keyword && token.text = w
  | .node _ _ => false

mutual

/-- The steps for a tree. -/
def steps (above : List Ancestor) : Tree → List Step
  | .leaf token =>
    let c : Cursor := ⟨.leaf token, above⟩
    .list c :: (tokenSteps c ++ [.unlist])
  | .node kind parts =>
    let c : Cursor := ⟨.node kind parts, above⟩
    let place := fun i => ⟨kind, parts, i⟩ :: above
    .list c :: ((match kind with
      | .classdef =>
        .enter c ::
          ((attempt (basesIndex? parts) (fun
            | none => []
            | some i => attempt (c.child i) fun bases =>
              .impose .inheritance bases :: (partSteps place (· = i) 0 parts ++ [.lift bases])) ++
          attempt (bodyIndex parts) fun body => partSteps place (· = body) 0 parts) ++ [.leave c])
      | .funcdef =>
        .enter c ::
          ((attempt c.parameterList (fun _ => parameterSteps place 0 parts) ++
          attempt (bodyIndex parts) fun body => partSteps place (· = body) 0 parts) ++ [.leave c])
      | .param =>
        .parameter c ::
          (attempt (defaultIndex? parts) (fun
            | none => []
            | some i => partSteps place (· = i) 0 parts) ++ [.leave c])
      | .argument =>
        attempt (argumentStart parts 0) fun first => partSteps place (first ≤ ·) 0 parts
      | .importFrom => importSteps place c false 0 parts
      | .dottedAsName | .importAsName => .beginAlias :: (aliasSteps place 0 parts ++ [.endAlias])
      | .importName =>
        .impose .importing c :: (partSteps place (fun _ => true) 0 parts ++ [.lift c])
      | _ => .look c :: (partSteps place (fun _ => true) 0 parts ++ closing c)) ++ [.unlist])

/-- The steps for those trees of a list whose number is selected. -/
def partSteps (place : Nat → List Ancestor) (selected : Nat → Bool) (i : Nat) :
    List Tree → List Step
  | [] => []
  | t :: ts =>
    (if selected i then steps (place i) t else []) ++ partSteps place selected (i + 1) ts

/-- The steps for the parts of the import statement at `c`. -/
def importSteps (place : Nat → List Ancestor) (c : Cursor) (imposed : Bool) (i : Nat) :
    List Tree → List Step
  | [] => if imposed then [.drop] else []
  | t :: ts =>
    steps (place i) t ++
      attempt (t.reads .keyword "import") (fun begins =>
        if begins && !imposed then [.impose .importing c] else []) ++
      importSteps place c (imposed || isWord "import" t) (i + 1) ts

/-- The steps for the parts of an import with an alias. -/
def aliasSteps (place : Nat → List Ancestor) (i : Nat) : List Tree → List Step
  | [] => []
  | t :: ts =>
    steps (place i) t ++
      attempt (t.reads .keyword "as") (fun begins => if begins then [.aliasWord] else []) ++
      aliasSteps place (i + 1) ts

/-- The steps for the parameters of a function, given its parts from number `i` on. -/
def parameterSteps (place : Nat → List Ancestor) (i : Nat) : List Tree → List Step
  | [] => []
  | t :: ts =>
    (if i = 2 then parameterStepsOf (place i) t else []) ++ parameterSteps place (i + 1) ts

/-- The steps for the parts of a tree that are parameters. -/
def parameterStepsOf (above : List Ancestor) : Tree → List Step
  | .leaf _ => []
  | .node kind parts =>
    partSteps (fun i => ⟨kind, parts, i⟩ :: above) (fun i => parts[i]?.any (Tree.isKind .param)) 0
      parts

end

/-! ### Carrying out the steps -/

omit [Recorder ρ] in
/-- Finding the name of a definition leaves the state alone. -/
theorem definitionName_bind {α : Type} (s : Setting) (name : Cursor)
    (f : QualifiedName → Indexing ρ α) (σ : Trace ρ) :
    (definitionName s name >>= f) σ = (liftM (openingName s σ.contexts name) >>= f) σ := by
  change ((liftM (qualifiedName s.source σ.contexts name) >>= fun full =>
    pure (full.getD .unsolved) : Indexing ρ QualifiedName) >>= f) σ = _
  unfold openingName
  cases qualifiedName s.source σ.contexts name <;> rfl

theorem enter_class (s : Setting) {c : Cursor} (h : c.isKind .classdef = true) :
    (actions s : Actions ρ).enter c = enterClass s c := by
  funext σ
  change (liftM (if c.isKind .classdef then _ else _) >>= fun o : Opening => o.perform c) σ = _
  rw [if_pos h]
  unfold openingOfClass enterClass
  cases c.definedName with
  | error e => rfl
  | ok name =>
    rw [lift_ok, pure_bind, definitionName_bind, lift_bind, lift_ok, pure_bind, lift_bind,
      bind_assoc]
    rfl

theorem enter_function (s : Setting) {c : Cursor} (h : c.isKind .classdef = false) :
    (actions s : Actions ρ).enter c = enterFunction s c := by
  funext σ
  change (liftM (if c.isKind .classdef then _ else _) >>= fun o : Opening => o.perform c) σ = _
  rw [if_neg (by simp [h])]
  unfold openingOfFunction enterFunction
  cases c.definedName with
  | error e => rfl
  | ok name =>
    rw [lift_ok, pure_bind, definitionName_bind, lift_bind, lift_ok, pure_bind, lift_bind,
      bind_assoc]
    cases openingName s σ.contexts name with
    | error e => rfl
    | ok full =>
      rw [lift_ok, pure_bind, pure_bind, context_bind]
      cases σ.contexts with
      | nil => rfl
      | cons top rest =>
        cases c.parameterList with
        | error e => rfl
        | ok parameters =>
          rw [lift_bind, lift_ok, pure_bind, lift_bind, bind_assoc, lift_mapM]
          simp only [lift_bind]
          rfl

theorem run_closing (s : Setting) (c : Cursor) (held : Held) :
    (actions s : Actions ρ).run (closing c) held = (do leaveSelf c; return held) := by
  unfold closing leaveSelf
  generalize c.tree.kind = kind
  split <;> simp [Actions.perform]

theorem run_tokenSteps (s : Setting) (c : Cursor) (held : Held) :
    (actions s : Actions ρ).run (tokenSteps c) held =
      (do visitToken s c; leaveSelf c; return held) := by
  unfold tokenSteps visitToken
  generalize c.tree.kind = kind
  split
  iterate 7 rfl
  simp only [Actions.run_cons, Actions.perform, bind_assoc, pure_bind, run_closing]
  rfl

/-- A token is read without a fault. A construct that claims to be a reserved word is not. -/
theorem reads_keyword (w : String) (t : Tree) :
    t.reads .keyword w = .ok (isWord w t) ∨
      isWord w t = false ∧ ∃ e, t.reads .keyword w = .error e := by
  cases t with
  | leaf token =>
    left
    by_cases h : token.kind = .keyword
    · simp [Tree.reads, Tree.isKind, Tree.kind, isWord, h]
      rfl
    · simp [Tree.reads, Tree.isKind, Tree.kind, isWord, h]
  | node kind parts =>
    by_cases h : kind = .keyword
    · right
      exact ⟨rfl, .lacking "value", by simp [Tree.reads, Tree.isKind, Tree.kind, h]; rfl⟩
    · left
      simp [Tree.reads, Tree.isKind, Tree.kind, isWord, h]

/-- Carrying out the steps of the tree is visiting it, wherever it stands. -/
def Realized (ρ : Type) [Recorder ρ] (s : Setting) (t : Tree) : Prop :=
  ∀ above held, (actions s : Actions ρ).run (steps above t) held = (do visit s above t; return held)

section Parts

variable {s : Setting} {ts : List Tree} (ih : ∀ t ∈ ts, Realized ρ s t)
include ih

theorem run_partSteps (place : Nat → List Ancestor) (selected : Nat → Bool) (i : Nat)
    (held : Held) :
    (actions s : Actions ρ).run (partSteps place selected i ts) held =
      (do visitParts s place selected i ts; return held) := by
  induction ts generalizing i with
  | nil => rfl
  | cons t ts ih' =>
    have here := ih t (by simp) (place i) held
    have rest := ih' (fun t ht => ih t (by simp [ht])) (i + 1)
    unfold partSteps visitParts
    cases selected i
    · exact rest
    · simp only [if_true, Actions.run_append, here, rest, bind_assoc, pure_bind]

theorem run_importSteps (place : Nat → List Ancestor) (c : Cursor) (imposed : Bool) (i : Nat)
    (held : Held) :
    (actions s : Actions ρ).run (importSteps place c imposed i ts) held =
      (do
        if ← visitImport s place c imposed i ts then
          let _ ← suspend
        return held) := by
  induction ts generalizing i imposed with
  | nil =>
    unfold importSteps visitImport
    cases imposed <;> rfl
  | cons t ts ih' =>
    have here := ih t (by simp) (place i) held
    have rest := fun imposed => ih' (fun t ht => ih t (by simp [ht])) imposed (i + 1)
    unfold importSteps visitImport
    rcases reads_keyword "import" t with h | ⟨-, e, h⟩
    · simp only [Actions.run_append, Actions.run_attempt, here, h, lift_ok, bind_assoc, pure_bind]
      cases hb : (isWord "import" t && !imposed)
      · simp [rest]
      · simp only [if_true, Actions.run_cons, Actions.run_nil, Actions.perform, bind_assoc,
          pure_bind, rest]
    · simp only [Actions.run_append, Actions.run_attempt, here, h, lift_error, bind_assoc,
        pure_bind,
        throw_bind]

theorem run_aliasSteps (place : Nat → List Ancestor) (k : Option ImposedKind) (i : Nat)
    (held : Held) :
    (actions s : Actions ρ).run (aliasSteps place i ts) (k :: held) =
      (do return (← visitAlias s place k i ts) :: held) := by
  induction ts generalizing i k with
  | nil => rfl
  | cons t ts ih' =>
    have here := ih t (by simp) (place i) (k :: held)
    have rest := fun k => ih' (fun t ht => ih t (by simp [ht])) k (i + 1)
    unfold aliasSteps visitAlias
    rcases reads_keyword "as" t with h | ⟨-, e, h⟩
    · simp only [Actions.run_append, Actions.run_attempt, here, h, lift_ok, bind_assoc, pure_bind]
      cases isWord "as" t
      · simp [rest]
      · cases k with
        | none => simp [Actions.perform, rest]
        | some k => simp [Actions.perform, rest]
    · simp only [Actions.run_append, Actions.run_attempt, here, h, lift_error, bind_assoc,
        pure_bind,
        throw_bind]

end Parts

theorem run_parameterSteps {s : Setting} {ts : List Tree}
    (ih : ∀ t ∈ ts, ∀ above held, (actions s : Actions ρ).run (parameterStepsOf above t) held =
      (do visitParametersOf s above t; return held))
    (place : Nat → List Ancestor) (i : Nat) (held : Held) :
    (actions s : Actions ρ).run (parameterSteps place i ts) held =
      (do visitParameters s place i ts; return held) := by
  induction ts generalizing i with
  | nil => rfl
  | cons t ts ih' =>
    have here := ih t (by simp) (place i) held
    have rest := ih' (fun t ht => ih t (by simp [ht])) (i + 1)
    unfold parameterSteps visitParameters
    by_cases h : i = 2
    · simp only [h, if_true, Actions.run_append] at here rest ⊢
      simp only [here, rest, bind_assoc, pure_bind]
    · simp only [h, if_false]
      exact rest

/-- Carrying out the steps of a tree is visiting it, and likewise for its parts that are
parameters. -/
theorem realized (s : Setting) (t : Tree) :
    Realized ρ s t ∧ ∀ above held, (actions s : Actions ρ).run (parameterStepsOf above t) held =
      (do visitParametersOf s above t; return held) := by
  induction t using Tree.parts_induction with
  | leaf token =>
    refine ⟨fun above held => ?_, fun above held => rfl⟩
    unfold steps visit listed
    simp only [Actions.run_cons, Actions.run_append, Actions.run_nil, Actions.perform,
      run_tokenSteps,
      bind_assoc, pure_bind]
    rfl
  | node kind parts ih =>
    have visits : ∀ t ∈ parts, Realized ρ s t := fun t ht => (ih t ht).1
    have parameters := fun t ht => (ih t ht).2
    refine ⟨fun above held => ?_, fun above held => ?_⟩
    · unfold steps visit listed
      simp only [Actions.run_cons, Actions.run_append, Actions.perform, bind_assoc, pure_bind]
      refine bind_congr fun _ => ?_
      split
      · -- a class
        have enters := enter_class (ρ := ρ) s (c := ⟨.node .classdef parts, above⟩) rfl
        simp only [Actions.run_cons, Actions.run_append, Actions.run_attempt, Actions.run_nil,
          Actions.perform, enters, bind_assoc, pure_bind]
        refine bind_congr fun _ => bind_congr fun bases => ?_
        cases bases <;>
          simp only [Actions.run_cons, Actions.run_append, Actions.run_attempt, Actions.run_nil,
            Actions.perform, run_partSteps visits, bind_assoc, pure_bind] <;> rfl
      · -- a function
        have enters := enter_function (ρ := ρ) s (c := ⟨.node .funcdef parts, above⟩) rfl
        simp only [Actions.run_cons, Actions.run_append, Actions.run_attempt, Actions.run_nil,
          Actions.perform, enters, run_parameterSteps parameters, run_partSteps visits,
          bind_assoc, pure_bind]
        rfl
      · -- a parameter
        simp only [Actions.run_cons, Actions.run_append, Actions.run_attempt, Actions.run_nil,
          Actions.perform, bind_assoc, pure_bind]
        refine bind_congr fun _ => bind_congr fun default => ?_
        cases default <;>
          simp only [Actions.run_nil, run_partSteps visits, bind_assoc, pure_bind] <;> rfl
      · -- an argument
        simp only [Actions.run_attempt, run_partSteps visits, bind_assoc, pure_bind,
          Actions.run_singleton, Actions.perform]
        rfl
      · simp only [run_importSteps visits, bind_assoc]
        refine bind_congr fun imposed => ?_
        cases imposed
        · simp only [Bool.false_eq_true, if_false, pure_bind, Actions.run_singleton,
            Actions.perform]
          rfl
        · simp only [if_true, bind_assoc, pure_bind, Actions.run_singleton, Actions.perform]
          rfl
      · simp only [Actions.run_cons, Actions.run_append, Actions.run_nil,
          Actions.perform, run_aliasSteps visits, bind_assoc, pure_bind]
        rfl
      · simp only [Actions.run_cons, Actions.run_append, Actions.run_nil,
          Actions.perform, run_aliasSteps visits, bind_assoc, pure_bind]
        rfl
      · simp only [Actions.run_cons, Actions.run_append, Actions.run_nil,
          Actions.perform, run_partSteps visits, bind_assoc, pure_bind]
        rfl
      · simp only [Actions.run_cons, Actions.run_append, Actions.run_nil,
          Actions.perform, run_partSteps visits, run_closing, bind_assoc, pure_bind]
        rfl
    · unfold parameterStepsOf visitParametersOf
      exact run_partSteps visits _ _ _ _

/-- The run of the syntactic indexer on a tree. -/
def walk (s : Setting) (t : Tree) : Walk ρ :=
  ⟨s.source, .ok (moduleName s.source (some s.source.path)), actions s, steps [] t⟩

theorem index_eq (s : Setting) (t : Tree) :
    (index s t : Indexing ρ Unit) = (walk s t).carryOut := by
  unfold index begin Walk.carryOut
  change _ = (do start s.source _; let _ ← (actions s).run (steps [] t) [])
  rw [(realized s t).1 [] []]
  simp only [bind_assoc, pure_bind, bind_pure_unit]
  rfl

/-! ### Nesting -/

/-- The definitions that the indexer is inside of when it is below the constructs `above`, the
innermost first. A definition around it is passed over only where it takes the place of the
parameter list of a function, from which the parameters of the function are visited. -/
inductive Entered : List Ancestor → List Cursor → Prop where
  | nil : Entered [] []
  | plain {a above ds} : a.kind.isDefinition = false → Entered above ds → Entered (a :: above) ds
  | definition {a above ds} : a.kind.isDefinition = true → Entered above ds →
      Entered (a :: above) (⟨a.tree, above⟩ :: ds)
  | parameters {a f above ds} : f.kind = .funcdef → f.index = 2 →
      a.children[a.index]?.any (Tree.isKind .param) = true → Entered (f :: above) ds →
      Entered (a :: f :: above) ds

theorem entered_definitionsAmong (above : List Ancestor) :
    Entered above (Cursor.definitionsAmong above) := by
  induction above with
  | nil => exact .nil
  | cons a above ih =>
    cases h : a.kind.isDefinition with
    | false =>
      rw [Cursor.definitionsAmong_plain h]
      exact .plain h ih
    | true =>
      rw [Cursor.definitionsAmong_definition h]
      exact .definition h ih

namespace Entered

theorem mem {above : List Ancestor} {ds : List Cursor} (h : Entered above ds) {d : Cursor}
    (hd : d ∈ ds) : d ∈ Cursor.definitionsAmong above := by
  induction h with
  | nil => cases hd
  | plain plain _ ih =>
    rw [Cursor.definitionsAmong_plain plain]
    exact ih hd
  | definition definition _ ih =>
    rw [Cursor.definitionsAmong_definition definition]
    rcases List.mem_cons.mp hd with rfl | hd
    · exact List.mem_cons_self
    · exact List.mem_cons_of_mem _ (ih hd)
  | @parameters a f above ds _ _ _ _ ih =>
    cases h : a.kind.isDefinition with
    | false =>
      rw [Cursor.definitionsAmong_plain h]
      exact ih hd
    | true =>
      rw [Cursor.definitionsAmong_definition h]
      exact List.mem_cons_of_mem _ (ih hd)

/-- Where the innermost definition was entered, the indexer was inside of the others. -/
theorem outside {above : List Ancestor} {d : Cursor} {ds : List Cursor}
    (h : Entered above (d :: ds)) :
    Entered d.above ds := by
  generalize hds : d :: ds = all at h
  induction h with
  | nil => cases hds
  | plain _ _ ih => exact ih hds
  | definition _ h _ =>
    obtain ⟨rfl, rfl⟩ := List.cons.inj hds
    exact h
  | parameters _ _ _ _ ih => exact ih hds

/-- Directly below a function the innermost definition is a function. -/
theorem head_function {f : Ancestor} {above : List Ancestor} {ds : List Cursor}
    (h : Entered (f :: above) ds) (function : f.kind = .funcdef) :
    ∃ g rest, ds = g :: rest ∧ g.tree.kind = .funcdef := by
  generalize hall : f :: above = all at h
  induction h generalizing f above with
  | nil => cases hall
  | plain plain _ _ =>
    obtain ⟨rfl, -⟩ := List.cons.inj hall
    rw [function] at plain
    cases plain
  | definition _ _ _ =>
    obtain ⟨rfl, rfl⟩ := List.cons.inj hall
    exact ⟨_, _, rfl, function⟩
  | parameters outer _ _ _ ih => exact ih outer rfl

/-- No class around a place is passed over on the way to an innermost class. -/
theorem head_class {above : List Ancestor} {d : Cursor} {ds : List Cursor}
    (h : Entered above (d :: ds)) (isClass : d.tree.kind = .classdef) :
    (Cursor.definitionsAmong above).head? = some d := by
  generalize hds : d :: ds = all at h
  induction h with
  | nil => cases hds
  | plain plain _ ih =>
    rw [Cursor.definitionsAmong_plain plain]
    exact ih hds
  | definition definition _ _ =>
    obtain ⟨rfl, rfl⟩ := List.cons.inj hds
    rw [Cursor.definitionsAmong_definition definition]
    rfl
  | parameters function _ _ h _ =>
    obtain ⟨g, rest, rfl, isFunction⟩ := h.head_function function
    obtain ⟨rfl, -⟩ := List.cons.inj hds
    rw [isClass] at isFunction
    cases isFunction

end Entered

/-- The place belongs to the subtree at `start`, and the indexer visits it inside the definitions
`ds`. -/
def Inside (start : Cursor) (ds : List Cursor) (c : Cursor) : Prop :=
  Entered c.above ds ∧ start.Within c

theorem nested_closing {R : List Cursor → Cursor → Prop} {b : Bool} {ds : List Cursor}
    (c : Cursor) :
    Nested R b ds (closing c) := by
  unfold closing
  split
  case _ h => exact .leave c (by rw [h]; rfl)
  case _ h => exact .leave c (by rw [h]; rfl)
  case _ h => exact .leave c (by rw [h]; rfl)
  case _ => exact .nil

theorem nested_tokenSteps {R : List Cursor → Cursor → Prop} {b : Bool} {ds : List Cursor}
    {c : Cursor} (around : R ds c) : Nested R b ds (tokenSteps c) := by
  unfold tokenSteps
  split
  iterate 7 exact .fail _
  rename_i isClass isFunction _ _ _ _ _
  exact .cons (.look c around (NodeKind.isDefinition_eq_false isClass isFunction))
    (nested_closing c)

section Parts

variable {R : List Cursor → Cursor → Prop} {ds : List Cursor} {ts : List Tree}
  {place : Nat → List Ancestor} {i : Nat}

theorem nested_partSteps {b : Bool} {selected : Nat → Bool}
    (h : ∀ j t, ts[j]? = some t → selected (i + j) = true →
      Nested R b ds (steps (place (i + j)) t)) :
    Nested R b ds (partSteps place selected i ts) := by
  induction ts generalizing i with
  | nil => exact .nil
  | cons t ts ih =>
    unfold partSteps
    refine .append ?_ (ih fun j u hu selected => ?_)
    · split
      · rename_i selected
        exact h 0 t rfl selected
      · exact .nil
    · have shifted : i + 1 + j = i + (j + 1) := by omega
      rw [shifted] at selected ⊢
      exact h (j + 1) u hu selected

/-- All parts of a construct, as far as they are selected. -/
theorem nested_parts {b : Bool} {selected : Nat → Bool}
    (h : ∀ j t, ts[j]? = some t → Nested R b ds (steps (place j) t)) :
    Nested R b ds (partSteps place selected 0 ts) := by
  refine nested_partSteps fun j t ht _ => ?_
  rw [Nat.zero_add]
  exact h j t ht

theorem nested_aliasSteps
    (h : ∀ j t, ts[j]? = some t → Nested R true ds (steps (place (i + j)) t)) :
    Nested R true ds (aliasSteps place i ts) := by
  induction ts generalizing i with
  | nil => exact .nil
  | cons t ts ih =>
    unfold aliasSteps
    refine .append (.append (h 0 t rfl) (.attempt fun begins _ => ?_)) (ih fun j u hu => ?_)
    · cases begins
      · exact .nil
      · exact .aliasWord
    · rw [show i + 1 + j = i + (j + 1) by omega]
      exact h (j + 1) u hu

/-- After the word `import` the steps end with the kind of import being taken away. -/
theorem importSteps_imposed (c : Cursor)
    (h : ∀ j t, ts[j]? = some t → Nested R false ds (steps (place (i + j)) t)) :
    ∃ xs, importSteps place c true i ts = xs ++ [.drop] ∧ Nested R false ds xs := by
  induction ts generalizing i with
  | nil => exact ⟨[], rfl, .nil⟩
  | cons t ts ih =>
    have rest : ∀ j u, ts[j]? = some u → Nested R false ds (steps (place (i + 1 + j)) u) := by
      intro j u hu
      rw [show i + 1 + j = i + (j + 1) by omega]
      exact h (j + 1) u hu
    obtain ⟨xs, hxs, nested⟩ := ih rest
    unfold importSteps
    rw [Bool.true_or, hxs, ← List.append_assoc]
    refine ⟨_, rfl, .append (.append (h 0 t rfl) (.attempt fun begins _ => ?_)) nested⟩
    rw [Bool.not_true, Bool.and_false]
    exact .nil

theorem nested_importSteps {b : Bool} (c : Cursor)
    (h : ∀ b j t, ts[j]? = some t → Nested R b ds (steps (place (i + j)) t)) :
    Nested R b ds (importSteps place c false i ts) := by
  induction ts generalizing i with
  | nil => exact .nil
  | cons t ts ih =>
    have rest : ∀ b j u, ts[j]? = some u → Nested R b ds (steps (place (i + 1 + j)) u) := by
      intro b j u hu
      rw [show i + 1 + j = i + (j + 1) by omega]
      exact h b (j + 1) u hu
    unfold importSteps
    rw [List.append_assoc]
    refine .append (h b 0 t rfl) ?_
    rcases reads_keyword "import" t with reads | ⟨other, e, reads⟩
    · rw [reads]
      cases word : isWord "import" t with
      | false => exact ih rest
      | true =>
        obtain ⟨xs, hxs, nested⟩ := importSteps_imposed c (rest false)
        rw [Bool.or_true, hxs]
        exact .dropped .importing c nested
    · rw [reads, other]
      exact .append (.fail e) (ih rest)

theorem nested_parameterSteps {b : Bool}
    (h : ∀ j t, ts[j]? = some t → i + j = 2 →
      Nested R b ds (parameterStepsOf (place (i + j)) t)) :
    Nested R b ds (parameterSteps place i ts) := by
  induction ts generalizing i with
  | nil => exact .nil
  | cons t ts ih =>
    unfold parameterSteps
    refine .append ?_ (ih fun j u hu third => ?_)
    · split
      · rename_i third
        exact h 0 t rfl third
      · exact .nil
    · have shifted : i + 1 + j = i + (j + 1) := by omega
      rw [shifted] at third ⊢
      exact h (j + 1) u hu third

end Parts

/-- The steps of a tree are nested as its definitions are. The second part is about a tree that
holds the parameters of a function. -/
theorem nested_steps {start : Cursor} (t : Tree) :
    (∀ b above ds, Inside start ds ⟨t, above⟩ → Nested (Inside start) b ds (steps above t)) ∧
      ∀ b f above ds, f.kind = .funcdef → f.index = 2 → Inside start ds ⟨t, f :: above⟩ →
        Nested (Inside start) b ds (parameterStepsOf (f :: above) t) := by
  induction t using Tree.parts_induction with
  | leaf token =>
    refine ⟨fun b above ds inside => ?_, fun b f above ds _ _ _ => .nil⟩
    unfold steps
    exact .cons (.list _) (.append (nested_tokenSteps inside) .unlist)
  | node kind parts ih =>
    refine ⟨fun b above ds inside => ?_, fun b f above ds function third inside => ?_⟩
    · obtain ⟨entered, within⟩ := inside
      have plain : kind.isDefinition = false → ∀ b i t, parts[i]? = some t →
          Nested (Inside start) b ds (steps (⟨kind, parts, i⟩ :: above) t) := by
        intro h b i t ht
        exact (ih t (List.mem_of_getElem? ht)).1 b _ ds ⟨.plain h entered, .part within ht⟩
      have body : kind.isDefinition = true → ∀ b i t, parts[i]? = some t →
          Nested (Inside start) b (⟨.node kind parts, above⟩ :: ds)
            (steps (⟨kind, parts, i⟩ :: above) t) := by
        intro h b i t ht
        exact (ih t (List.mem_of_getElem? ht)).1 b _ _ ⟨.definition h entered, .part within ht⟩
      unfold steps
      refine .cons (.list _) (.append ?_ .unlist)
      split
      · -- a class
        refine .define _ ⟨entered, within⟩ rfl (.append ?_ ?_)
        · refine .attempt fun bases _ => ?_
          cases bases with
          | none => exact .nil
          | some i =>
            exact .attempt fun c _ => .imposed _ c (nested_parts (body rfl false))
        · exact .attempt fun last _ => nested_parts (body rfl false)
      · -- a function
        refine .define _ ⟨entered, within⟩ rfl (.append ?_ ?_)
        · refine .attempt fun _ _ => nested_parameterSteps fun j t ht third => ?_
          rw [Nat.zero_add] at third ⊢
          exact (ih t (List.mem_of_getElem? ht)).2 false ⟨.funcdef, parts, j⟩ above _ rfl third
            ⟨.definition rfl entered, .part within ht⟩
        · exact .attempt fun last _ => nested_parts (body rfl false)
      · -- a parameter
        refine .cons (.parameter _ ⟨entered, within⟩) (.append (.attempt fun default _ => ?_)
          (.leave _ rfl))
        cases default with
        | none => exact .nil
        | some i => exact nested_parts (plain rfl b)
      · -- an argument
        exact .attempt fun first _ => nested_parts (plain rfl b)
      · -- a `from … import` statement
        refine nested_importSteps _ fun b j t ht => ?_
        rw [Nat.zero_add]
        exact plain rfl b j t ht
      · refine .aliased (nested_aliasSteps fun j t ht => ?_)
        rw [Nat.zero_add]
        exact plain rfl true j t ht
      · refine .aliased (nested_aliasSteps fun j t ht => ?_)
        rw [Nat.zero_add]
        exact plain rfl true j t ht
      · -- an `import` statement
        exact .imposed _ _ (nested_parts (plain rfl false))
      · -- anything else
        rename_i isClass isFunction _ _ _ _ _ _
        have other := NodeKind.isDefinition_eq_false isClass isFunction
        exact .cons (.look _ ⟨entered, within⟩ other)
          (.append (nested_parts (plain other b)) (nested_closing _))
    · obtain ⟨entered, within⟩ := inside
      unfold parameterStepsOf
      refine nested_partSteps fun j t ht isParameter => ?_
      rw [Nat.zero_add] at isParameter ⊢
      exact (ih t (List.mem_of_getElem? ht)).1 b _ ds
        ⟨.parameters function third isParameter entered, .part within ht⟩

/-- So the steps of a whole tree have a way through its definitions. -/
theorem way_inside (t : Tree) : Way (Inside (.root t)) [] (steps [] t) [] :=
  ((nested_steps t).1 false [] [] ⟨.nil, .here⟩).way

end CodeIndex.Syntactic
