import CodeIndex.Proofs.Discipline
import CodeIndex.Proofs.Places

/-!
# Walks

The way of an indexer through a tree as a list of steps. The tree alone decides which steps are
taken and in which order; the state decides only what each of them does. So a run is the list of
steps carried out one after the other until one ends in a fault, and what holds between two steps
can be said of every run and every point of it.

The steps of a tree are nested as its definitions are: what is done between entering and leaving a
definition is done for places inside it. `Nested` is the grammar of such lists.
-/

namespace CodeIndex

open Indexing

/-! ### Steps -/

/-- One step of an indexer on its way through a tree. -/
inductive Step where
  /-- The line of a place in the tree listing. What follows is indented. -/
  | list (c : Cursor)
  /-- The end of what is indented. -/
  | unlist
  /-- What is done for a place that is no definition. -/
  | look (c : Cursor)
  /-- A definition is recorded and becomes the innermost context. -/
  | enter (c : Cursor)
  /-- The innermost context is left if it was entered at the place. -/
  | leave (c : Cursor)
  /-- What is done for a parameter. -/
  | parameter (c : Cursor)
  /-- A kind of reference is imposed. -/
  | impose (kind : ReferenceKind) (place : Cursor)
  /-- The innermost imposed kind is lifted if it was imposed at the place. -/
  | lift (place : Cursor)
  /-- The innermost imposed kind is taken away for good. -/
  | drop
  /-- The beginning of an import with an alias. -/
  | beginAlias
  /-- The word in front of an alias. Unless this was done before, the innermost imposed kind is
  suspended. -/
  | aliasWord
  /-- The end of an import with an alias. The suspended kind is back. -/
  | endAlias
  /-- The run ends. -/
  | fail (e : Fault)

/-- The kinds suspended by the imports around a place, the innermost import first. -/
abbrev Held := List (Option ImposedKind)

/-- The steps after a part of the tree has been read, which may fail. -/
def attempt {α : Type} (x : Except Fault α) (steps : α → List Step) : List Step :=
  match x with
  | .ok a => steps a
  | .error e => [.fail e]

variable {ρ : Type}

/-- How a definition is entered: what is recorded of it, and what it is as a context. -/
structure Opening where
  /-- The name under which it is recorded. -/
  name : QualifiedName
  /-- What it is recorded as. -/
  kind : SymbolKind
  /-- Where its name stands. -/
  nameAt : Option Cursor
  /-- What it is as a context. -/
  contextKind : ContextKind
  /-- The name of the first parameter of a method. -/
  selfName : Option String := none
  /-- The names of its local variables that are known from the beginning. -/
  locals : List String := []

namespace Opening

/-- The context that the definition at `c` becomes, once it is recorded as `symbol`. -/
def context (o : Opening) (c : Cursor) (symbol : Value) : Context :=
  { id := symbol, kind := o.contextKind, name := o.name.display, place := some c,
    selfName := o.selfName, locals := o.locals }

/-- Records the definition at `c` and enters it. -/
def perform [Recorder ρ] (o : Opening) (c : Cursor) : Indexing ρ Unit := do
  let symbol ← define o.name o.kind o.nameAt c
  Indexing.enter (o.context c symbol)

end Opening

/-- What an indexer does of its own at the steps. -/
structure Actions (ρ : Type) where
  /-- Whether the tree is listed. -/
  verbose : Bool
  /-- What is done for a place that is no definition. -/
  look : Cursor → Indexing ρ Unit
  /-- How the definition at a place is entered from the given contexts. -/
  opening : List Context → Cursor → Except Fault Opening
  /-- What is done for a parameter. -/
  parameter : Cursor → Indexing ρ Unit

namespace Actions

variable [Recorder ρ] (A : Actions ρ)

/-- Enters the definition at a place. -/
def enter (c : Cursor) : Indexing ρ Unit := do
  let o ← A.opening (← get).contexts c
  o.perform c

/-- Carries out a step. The suspended kinds are handed on from step to step. -/
def perform (step : Step) (held : Held) : Indexing ρ Held :=
  match step with
  | .list c => do beginListing A.verbose c; return held
  | .unlist => do endListing A.verbose; return held
  | .look c => do A.look c; return held
  | .enter c => do A.enter c; return held
  | .leave c => do Indexing.leave c; return held
  | .parameter c => do A.parameter c; return held
  | .impose kind place => do Indexing.impose kind place; return held
  | .lift place => do Indexing.lift place; return held
  | .drop => do let _ ← suspend; return held
  | .beginAlias => return none :: held
  | .aliasWord =>
    match held with
    | none :: rest => return (← suspend) :: rest
    | held => return held
  | .endAlias => do resume held.head?.join; return held.tail
  | .fail e => throw e

/-- Carries out steps one after the other. -/
def run (steps : List Step) (held : Held) : Indexing ρ Held :=
  steps.foldlM (fun held step => A.perform step held) held

@[simp] theorem run_nil (held : Held) : A.run [] held = pure held := rfl

@[simp] theorem run_cons (x : Step) (xs : List Step) (held : Held) :
    A.run (x :: xs) held = A.perform x held >>= A.run xs := by
  simp only [run, List.foldlM_cons]
  rfl

theorem run_singleton (x : Step) (held : Held) : A.run [x] held = A.perform x held := by
  rw [run_cons]
  exact bind_pure _

@[simp] theorem run_append (xs ys : List Step) (held : Held) :
    A.run (xs ++ ys) held = A.run xs held >>= A.run ys := by
  simp only [run, List.foldlM_append]
  rfl

@[simp] theorem run_attempt {α : Type} (x : Except Fault α) (steps : α → List Step) (held : Held) :
    A.run (attempt x steps) held = (do A.run (steps (← x)) held) := by
  cases x with
  | ok a => rw [lift_ok, pure_bind, attempt]
  | error e => rfl

end Actions

/-! ### The effect of a step -/

namespace Actions

variable [Recorder ρ] (A : Actions ρ)

/-- What the indexer does of its own keeps to every discipline, and only a name is ever the origin
of a reference. -/
structure Disciplined : Prop where
  look : ∀ (D : Discipline ρ) c, c.tree.kind.isDefinition = false →
    (c.isName = true → c.tree.isLeaf = true → D.AllowsReferences) → D.Moves [] (A.look c)
  parameter : ∀ (D : Discipline ρ) c, D.Moves [] (A.parameter c)

variable (D : Discipline ρ)

/-- What the indexer does of its own at the step keeps to the discipline. -/
def Keeps : Step → Prop
  | .look c => D.Moves [] (A.look c)
  | .parameter c => D.Moves [] (A.parameter c)
  | _ => True

/-- What a step that does not end in a fault does to the suspended kinds and to the state. -/
def Effect (held : Held) (s : Trace ρ) (held' : Held) (t : Trace ρ) : Step → Prop
  | .list _ | .unlist | .look _ | .parameter _ => held' = held ∧ D.goes s t
  | .enter c =>
    held' = held ∧ ∃ o symbol s₁ u, A.opening s.contexts c = .ok o ∧
      emit (.symbol o.name) s = .ok symbol s₁ ∧ D.goes s u ∧ D.goes s₁ u ∧
      (D.standing u).symbol symbol ∧ t = { u with contexts := o.context c symbol :: u.contexts }
  | .leave c => held' = held ∧ t = { s with contexts := leaveFrom c s.contexts }
  | .impose kind place => held' = held ∧ t = { s with kinds := ⟨kind, place⟩ :: s.kinds }
  | .lift place => held' = held ∧ t = { s with kinds := liftFrom place s.kinds }
  | .drop => held' = held ∧ t = { s with kinds := s.kinds.tail }
  | .beginAlias => held' = none :: held ∧ t = s
  | .aliasWord =>
    match held with
    | none :: rest => held' = s.kinds.head? :: rest ∧ t = { s with kinds := s.kinds.tail }
    | _ => held' = held ∧ t = s
  | .endAlias => held' = held.tail ∧ t = { s with kinds := held.head?.join.toList ++ s.kinds }
  | .fail _ => False

variable {A D}

/-- A computation that keeps to the discipline, as a step. -/
theorem outcome_of_moves {m : Indexing ρ Unit} (h : D.Moves [] m) (held : Held) {s : Trace ρ}
    (hs : D.holds s) :
    Outcome (fun held' t => held' = held ∧ D.goes s t) (D.goes s) ((do m; return held) s) :=
  Outcome.bind ((h s hs (by simp)).mono (fun _ _ h => ⟨rfl, h.1⟩) fun _ h => h)

theorem outcome_enter (c : Cursor) (held : Held) {s : Trace ρ} (hs : D.holds s) :
    Outcome (fun held' t => A.Effect D held s held' t (.enter c)) (D.goes s)
      ((do A.enter c; return held) s) := by
  refine Outcome.bind (Outcome.bind (Outcome.liftBind (D.refl hs) fun o ho => ?_))
  unfold Opening.perform
  rw [define_eq, bind_assoc]
  refine Outcome.bind ?_
  have recorded : Outcome (fun v t => D.goes s t ∧ (D.standing t).symbol v) (D.goes s)
      (emit (.symbol o.name) s) := D.record (r := .symbol o.name) hs trivial
  cases emitted : (emit (.symbol o.name) s : EStateM.Result Fault (Trace ρ) Value) with
  | error e t =>
    rw [emitted] at recorded
    exact recorded
  | ok symbol s₁ =>
    rw [emitted] at recorded
    obtain ⟨hs₁, isSymbol⟩ := recorded
    have described : D.Moves [symbol] (describe symbol o.kind o.nameAt c) :=
      .describe o.kind o.nameAt c (by simp)
    change Outcome _ _ ((_ >>= _ : Indexing ρ Unit) s₁)
    rw [bind_assoc]
    refine Outcome.bind ((described s₁ (D.holds_of_goes hs₁) (by simpa using isSymbol)).mono ?_
      fun _ h => D.trans hs₁ h)
    rintro _ u ⟨hu, -⟩
    exact ⟨rfl, o, symbol, s₁, u, ho, emitted, D.trans hs₁ hu, hu, D.symbol_mono hu isSymbol, rfl⟩

/-- What a step does. Up to a fault it keeps to the discipline. -/
theorem outcome_perform {x : Step} (keeps : A.Keeps D x) (held : Held) {s : Trace ρ}
    (hs : D.holds s) :
    Outcome (fun held' t => A.Effect D held s held' t x) (D.goes s) (A.perform x held s) := by
  cases x with
  | list c => exact outcome_of_moves (.beginListing A.verbose c) held hs
  | unlist => exact outcome_of_moves (.endListing A.verbose) held hs
  | look c => exact outcome_of_moves keeps held hs
  | parameter c => exact outcome_of_moves keeps held hs
  | enter c => exact outcome_enter c held hs
  | leave c => exact ⟨rfl, rfl⟩
  | impose kind place => exact ⟨rfl, rfl⟩
  | lift place => exact ⟨rfl, rfl⟩
  | drop => exact ⟨rfl, rfl⟩
  | beginAlias => exact ⟨rfl, rfl⟩
  | aliasWord =>
    match held with
    | [] => exact ⟨rfl, rfl⟩
    | none :: rest => exact ⟨rfl, rfl⟩
    | some k :: rest => exact ⟨rfl, rfl⟩
  | endAlias =>
    match held with
    | [] => exact ⟨rfl, rfl⟩
    | none :: rest => exact ⟨rfl, rfl⟩
    | some k :: rest => exact ⟨rfl, rfl⟩
  | fail e => exact D.refl hs

end Actions

/-! ### Nesting -/

/-- Lists of steps that begin and end inside the definitions `ds`, the innermost first, and keep to
the nesting of definitions in between: a step for a place `c` is only taken inside definitions that
are around it in the sense of `R`. With `true` the list may contain the word of an alias that began
before. -/
inductive Nested (R : List Cursor → Cursor → Prop) : Bool → List Cursor → List Step → Prop where
  | nil {b ds} : Nested R b ds []
  | append {b ds xs ys} : Nested R b ds xs → Nested R b ds ys → Nested R b ds (xs ++ ys)
  | list {b ds} (c : Cursor) : Nested R b ds [.list c]
  | unlist {b ds} : Nested R b ds [.unlist]
  | fail {b ds} (e : Fault) : Nested R b ds [.fail e]
  | look {b ds} (c : Cursor) (around : R ds c) (plain : c.tree.kind.isDefinition = false) :
      Nested R b ds [.look c]
  | parameter {b ds} (c : Cursor) (around : R ds c) : Nested R b ds [.parameter c]
  /-- Nothing is left at a place that is no definition. -/
  | leave {b ds} (c : Cursor) (plain : c.tree.kind.isDefinition = false) : Nested R b ds [.leave c]
  /-- A definition is entered, and left at its end. -/
  | define {b ds xs} (c : Cursor) (around : R ds c) (definition : c.tree.kind.isDefinition = true)
      (inside : Nested R false (c :: ds) xs) : Nested R b ds (.enter c :: (xs ++ [.leave c]))
  | imposed {b ds xs} (kind : ReferenceKind) (c : Cursor) (inside : Nested R false ds xs) :
      Nested R b ds (.impose kind c :: (xs ++ [.lift c]))
  | dropped {b ds xs} (kind : ReferenceKind) (c : Cursor) (inside : Nested R false ds xs) :
      Nested R b ds (.impose kind c :: (xs ++ [.drop]))
  | aliasWord {ds} : Nested R true ds [.aliasWord]
  | aliased {b ds xs} (inside : Nested R true ds xs) :
      Nested R b ds (.beginAlias :: (xs ++ [.endAlias]))

namespace Nested

variable {R : List Cursor → Cursor → Prop} {b : Bool} {ds : List Cursor}

theorem attempt {α : Type} {x : Except Fault α} {steps : α → List Step}
    (h : ∀ a, x = .ok a → Nested R b ds (steps a)) :
    Nested R b ds (CodeIndex.attempt x steps) := by
  cases x with
  | ok a => exact h a rfl
  | error e => exact .fail e

theorem cons {x : Step} {xs : List Step} (hx : Nested R b ds [x]) (hxs : Nested R b ds xs) :
    Nested R b ds (x :: xs) := .append hx hxs

end Nested

/-! ### The way through the definitions -/

/-- The step is a look at a name. -/
def Step.looksAtName : Step → Prop
  | .look c => c.isName = true ∧ c.tree.isLeaf = true
  | _ => False

/-- How a step changes the definitions that the indexer is inside of. -/
def Shifts (R : List Cursor → Cursor → Prop) (ds ds' : List Cursor) : Step → Prop
  | .enter c => R ds c ∧ c.tree.kind.isDefinition = true ∧ ds' = c :: ds
  | .leave c =>
    c.tree.kind.isDefinition = true ∧ ds = c :: ds' ∨ c.tree.kind.isDefinition = false ∧ ds' = ds
  | .look c => R ds c ∧ c.tree.kind.isDefinition = false ∧ ds' = ds
  | .parameter c => R ds c ∧ ds' = ds
  | _ => ds' = ds

/-- The steps lead from inside the definitions `ds` to inside `ds'`. -/
inductive Way (R : List Cursor → Cursor → Prop) : List Cursor → List Step → List Cursor → Prop where
  | nil {ds} : Way R ds [] ds
  | cons {ds ds' ds'' x xs} : Shifts R ds ds' x → Way R ds' xs ds'' → Way R ds (x :: xs) ds''

namespace Way

variable {R : List Cursor → Cursor → Prop} {ds ds' ds'' : List Cursor}

/-- A way in one sense is a way in every wider sense. -/
theorem mono {R' : List Cursor → Cursor → Prop} (wider : ∀ ds c, R ds c → R' ds c) {xs : List Step}
    (h : Way R ds xs ds') : Way R' ds xs ds' := by
  induction h with
  | nil => exact .nil
  | @cons ds ds' ds'' x xs shifts _ ih =>
    refine .cons ?_ ih
    cases x with
    | enter c | look c | parameter c => exact ⟨wider ds c shifts.1, shifts.2⟩
    | _ => exact shifts

theorem single {x : Step} (h : Shifts R ds ds' x) : Way R ds [x] ds' := .cons h .nil

theorem append {xs ys : List Step} (hx : Way R ds xs ds') (hy : Way R ds' ys ds'') :
    Way R ds (xs ++ ys) ds'' := by
  induction hx with
  | nil => exact hy
  | cons shifts _ ih => exact .cons shifts (ih hy)

theorem shifts_of_mem {xs : List Step} {x : Step} (h : Way R ds xs ds') (hx : x ∈ xs) :
    ∃ ds₁ ds₂, Shifts R ds₁ ds₂ x := by
  induction h with
  | nil => cases hx
  | cons shifts _ ih =>
    rcases List.mem_cons.mp hx with rfl | hx
    · exact ⟨_, _, shifts⟩
    · exact ih hx

end Way

/-- Steps that are nested lead back to where they began. -/
theorem Nested.way {R : List Cursor → Cursor → Prop} {b : Bool} {ds : List Cursor} {xs : List Step}
    (nested : Nested R b ds xs) : Way R ds xs ds := by
  induction nested with
  | nil => exact .nil
  | append _ _ ihx ihy => exact ihx.append ihy
  | list c => exact .single rfl
  | unlist => exact .single rfl
  | fail e => exact .single rfl
  | look c around plain => exact .single ⟨around, plain, rfl⟩
  | parameter c around => exact .single ⟨around, rfl⟩
  | leave c plain => exact .single (.inr ⟨plain, rfl⟩)
  | define c around definition _ ih =>
    exact .cons ⟨around, definition, rfl⟩ (ih.append (.single (.inl ⟨definition, rfl⟩)))
  | imposed kind c _ ih => exact .cons rfl (ih.append (.single rfl))
  | dropped kind c _ ih => exact .cons rfl (ih.append (.single rfl))
  | aliasWord => exact .single rfl
  | aliased _ ih => exact .cons rfl (ih.append (.single rfl))

/-- What an indexer that keeps to every discipline does at a step on such a way. -/
theorem Actions.Disciplined.keeps [Recorder ρ] {A : Actions ρ} (disciplined : A.Disciplined)
    {D : Discipline ρ} {R : List Cursor → Cursor → Prop} {ds ds' : List Cursor} {x : Step}
    (shifts : Shifts R ds ds' x) (allowed : x.looksAtName → D.AllowsReferences) : A.Keeps D x := by
  cases x with
  | look c => exact disciplined.look D c shifts.2.1 fun isName isLeaf => allowed ⟨isName, isLeaf⟩
  | parameter c => exact disciplined.parameter D c
  | _ => exact trivial

/-! ### Whole runs -/

/-- A run of an indexer from the root of a tree. -/
structure Walk (ρ : Type) where
  /-- What is indexed. -/
  source : Source
  /-- The name of its module, if it has one. -/
  moduleName : Except Fault (Option QualifiedName)
  /-- What the indexer does of its own at the steps. -/
  actions : Actions ρ
  /-- The steps, all of which are taken unless one ends in a fault. -/
  steps : List Step

/-- The whole run: the file and the module are recorded, and then the steps are taken. -/
def Walk.carryOut [Recorder ρ] (w : Walk ρ) : Indexing ρ Unit := do
  start w.source w.moduleName
  let _ ← w.actions.run w.steps []

end CodeIndex
