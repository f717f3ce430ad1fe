import CodeIndex.Proofs.Lockstep.Semantic
import CodeIndex.Proofs.Lockstep.Syntactic
import CodeIndex.Proofs.Planning

/-!
# Planned runs

Every plan is carried out by a walk through the tree, whichever indexer was planned. The steps of
the walk are known beforehand, and two walks of one plan do the same at every step.
-/

namespace CodeIndex

open Indexing

variable {ρ σ : Type}

/-- A step on a way through definitions can be compared where both runs list the tree or none. -/
theorem Shifts.comparable {R : List Cursor → Cursor → Prop} {ds ds' : List Cursor} {x : Step}
    (shifts : Shifts R ds ds' x) {A : Actions ρ} {A' : Actions σ} (same : A'.verbose = A.verbose) :
    Actions.Comparable A A' x := by
  cases x with
  | look c => exact shifts.2.1
  | list c => exact .inl same
  | _ => exact trivial

namespace Session

/-! ### What is left of a run -/

theorem finalState_carryOut (m : Indexing ρ Unit) (s : Session ρ) :
    finalState (carryOut m s) = s.after (finalState (m { recorder := s.recorder })) := by
  unfold carryOut
  cases m { recorder := s.recorder } <;> rfl

theorem ending_carryOut (m : Indexing ρ Unit) (s : Session ρ) :
    ending (carryOut m s) = ending (m { recorder := s.recorder }) := by
  unfold carryOut
  cases m { recorder := s.recorder } <;> rfl

namespace Plan

variable [Recorder ρ] [Recorder σ]

/-- The walk of the planned run. -/
def walk (p : Plan) (verbose : Bool) (t : Tree) : Walk ρ :=
  match p with
  | .syntactic source => Syntactic.walk ⟨source, verbose⟩ t
  | .semantic s => (s.withListing verbose).walk t

theorem index_eq (p : Plan) (verbose : Bool) (t : Tree) :
    (p.index verbose t : Indexing ρ Unit) = (p.walk verbose t).carryOut := by
  cases p with
  | syntactic source => exact Syntactic.index_eq ⟨source, verbose⟩ t
  | semantic s => exact (s.withListing verbose).index_eq t

/-- The source of the plan. -/
def source : Plan → Source
  | .syntactic source => source
  | .semantic s => s.source

/-- The name of the module that is indexed, if it has one. -/
def moduleName : Plan → Except Fault (Option QualifiedName)
  | .syntactic source => .ok (Syntactic.moduleName source (some source.path))
  | .semantic s => s.moduleName (some s.source.path)

/-- What the planned indexer does of its own. -/
def actions (p : Plan) (verbose : Bool) : Actions ρ :=
  match p with
  | .syntactic source => Syntactic.actions ⟨source, verbose⟩
  | .semantic s => (s.withListing verbose).actions

/-- The steps of the planned run. -/
def steps (p : Plan) (t : Tree) : List Step :=
  match p with
  | .syntactic _ => Syntactic.steps [] t
  | .semantic _ => Semantic.Setting.steps [] t

theorem walk_eq (p : Plan) (verbose : Bool) (t : Tree) :
    (p.walk verbose t : Walk ρ) = ⟨p.source, p.moduleName, p.actions verbose, p.steps t⟩ := by
  cases p <;> rfl

/-- The file and the module are recorded, and then the steps are taken. -/
theorem index_eq_run (p : Plan) (verbose : Bool) (t : Tree) :
    (p.index verbose t : Indexing ρ Unit) = (do
      start p.source p.moduleName
      let _ ← (p.actions verbose).run (p.steps t) []) := by
  rw [index_eq, walk_eq]
  rfl

@[simp] theorem verbose_actions (p : Plan) (verbose : Bool) :
    (p.actions verbose : Actions ρ).verbose = verbose := by
  cases p <;> rfl

/-- No module has to be recorded without a name of its own, unless that is allowed. -/
def NamesModules (p : Plan) (nameless : Prop) : Prop :=
  match p with
  | .syntactic _ => True
  | .semantic s => s.NamesModules nameless

theorem agree_actions {B : Bond ρ σ} {p : Plan} (named : p.NamesModules B.nameless) (b b' : Bool) :
    Actions.Agree B (p.actions b) (p.actions b') := by
  cases p with
  | syntactic source => exact Syntactic.agree_actions source b b'
  | semantic s => exact (s.withListing b).agree_actions b' named

theorem plain_of_look {p : Plan} {t : Tree} {c : Cursor} (h : .look c ∈ p.steps t) :
    c.tree.kind.isDefinition = false := by
  cases p with
  | syntactic source =>
    obtain ⟨_, _, shifts⟩ := (Syntactic.way_inside t).shifts_of_mem h
    exact shifts.2.1
  | semantic s =>
    obtain ⟨_, _, shifts⟩ := (Semantic.Setting.way_inside t).shifts_of_mem h
    exact shifts.2.1

theorem comparable {p : Plan} {t : Tree} {b b' : Bool}
    (ranges : b' = b ∨ ∀ c, .list c ∈ p.steps t → ∃ range, c.range = .ok range) :
    ∀ x ∈ p.steps t, Actions.Comparable (p.actions b : Actions ρ) (p.actions b' : Actions σ) x := by
  intro x hx
  cases x with
  | look c => exact plain_of_look hx
  | list c =>
    rcases ranges with same | ranges
    · left
      rw [verbose_actions, verbose_actions, same]
    · exact .inr (ranges c hx)
  | _ => exact trivial

/-- Two runs of a plan that begin alike end alike. -/
theorem lockstep_index {B : Bond ρ σ} {p : Plan} (named : p.NamesModules B.nameless) {b b' : Bool}
    {t : Tree} (ranges : b' = b ∨ ∀ c, .list c ∈ p.steps t → ∃ range, c.range = .ok range)
    {s : Trace ρ} {s' : Trace σ}
    (begun : Lockstep (fun _ s _ s' => B.Related s s') B.Related
      (start p.source p.moduleName s) (start p.source p.moduleName s')) :
    Lockstep (fun _ s _ s' => B.Related s s') B.Related (p.index b t s) (p.index b' t s') := by
  rw [index_eq_run, index_eq_run]
  refine Lockstep.bind (begun.mono (fun _ u _ u' related => ?_) fun _ _ h => h)
  refine Lockstep.bind ((Actions.lockstep_run (agree_actions named b b') (comparable ranges) []
    related).mono (fun _ _ _ _ h => h.2) fun _ _ h => h)

end Plan

/-! ### Where the source is -/

theorem path_of_locate {files : FileSystem} {path : String} {directories : List String}
    {source : Source} (h : Source.locate files path directories = .ok source) :
    source.path =
      if path = virtualFile then path else Path.absolute files.workingDirectory path := by
  simp only [Source.locate] at h
  split at h
  · cases h
  · rw [← Except.ok.inj h]

namespace Subject

/-- The path under which the subject is recorded. -/
def location (w : World) (subject : Subject) : String :=
  if subject.path = virtualFile then subject.path
  else Path.absolute w.files.workingDirectory subject.path

variable {w : World} {method : Method} {environment : Option String} {subject : Subject} {p : Plan}

/-- The plan is one for the indexer that was asked for, and for the subject where it is. -/
theorem plan_cases (h : subject.plan w method environment = .ok p) :
    p.source.path = subject.location w ∧
      ((method = .syntactic ∧ ∃ source, p = .syntactic source) ∨
        (method = .semantic ∧ ∃ setting, p = .semantic setting ∧
          setting.resolver = w.resolver)) := by
  unfold plan at h
  obtain ⟨_, -, h⟩ := except_bind_eq_ok.mp h
  cases method with
  | syntactic =>
    obtain ⟨source, located, h⟩ := except_bind_eq_ok.mp h
    cases h
    exact ⟨path_of_locate located, .inl ⟨rfl, source, rfl⟩⟩
  | semantic =>
    obtain ⟨e, -, h⟩ := except_bind_eq_ok.mp h
    obtain ⟨source, located, h⟩ := except_bind_eq_ok.mp h
    cases h
    exact ⟨path_of_locate located, .inr ⟨rfl, _, rfl, rfl⟩⟩

/-- No module has to be recorded without a name if the resolver knows the names of all modules. -/
theorem namesModules_of_plan (h : subject.plan w method environment = .ok p)
    (named : ∀ d ∈ w.resolver.known, d.kind = .ok (some "module") → d.name ≠ .ok none) :
    p.NamesModules False := by
  obtain ⟨-, ⟨-, source, rfl⟩ | ⟨-, setting, rfl, resolver⟩⟩ := plan_cases h
  · exact trivial
  · exact Semantic.Setting.namesModules_of_known (resolver ▸ named)

end Subject

end Session

end CodeIndex
