import CodeIndex.Proofs.EnvironmentCheck
import CodeIndex.Proofs.Lockstep
import CodeIndex.Session

/-!
# Planning

Before an indexer is run, a session reads the file, chooses the environment and locates the source.
None of this concerns the recorder. So a session is a plan, which may end in a fault, and then the
run of the indexer that was planned: `Subject.index_of_plan`.
-/

namespace CodeIndex

/-- The environment to use when `p` may specify one. -/
def World.environment (w : World) (p : Option String) : Except Fault Environment :=
  match (w.environments.choose p).2 with
  | .ok e => .ok e
  | .error failure => .error (.reported failure)

namespace Session

variable {ρ α β : Type}

/-- What a session indexes. -/
inductive Subject where
  /-- The file at a path. -/
  | file (path : String)
  /-- A piece of text that comes from no file. A search path may be given. -/
  | snippet (text : String) (searchPath : Option (List String))

/-- The indexer that a session comes to run. -/
inductive Plan where
  /-- The syntactic indexer. -/
  | syntactic (source : Source)
  /-- The semantic indexer. -/
  | semantic (setting : Semantic.Setting)

/-- The run that is planned. -/
def Plan.index [Recorder ρ] (p : Plan) (verbose : Bool) (t : Tree) : Indexing ρ Unit :=
  match p with
  | .syntactic source => Syntactic.index ⟨source, verbose⟩ t
  | .semantic setting => ({ setting with verbose } : Semantic.Setting).index t

namespace Subject

/-- The text of the subject. -/
def content (w : World) : Subject → Except Fault String
  | .file path => w.files.text path
  | .snippet text _ => .ok text

/-- The path at which the subject is located. -/
def path : Subject → String
  | .file path => path
  | .snippet _ _ => virtualFile

/-- The search path that is given. -/
def searchPath? : Subject → Option (List String)
  | .file _ => none
  | .snippet _ searchPath => searchPath

/-- The plan for the indexing of a subject. -/
def plan (w : World) (method : Method) (environment : Option String) (subject : Subject) :
    Except Fault Plan := do
  let _ ← subject.content w
  match method with
  | .syntactic =>
    return .syntactic (← Source.locate w.files subject.path (subject.searchPath?.getD []))
  | .semantic =>
    let e ← w.environment environment
    let source ← Source.locate w.files subject.path (subject.searchPath?.getD e.orderedSearchPath)
    return .semantic ⟨source, e.major, e.minor, w.stubs, w.resolver, false⟩

/-- Indexes a subject. -/
def index [Recorder ρ] (w : World) (method : Method) (environment : Option String)
    (verbose : Bool) : Subject → SessionM ρ Unit
  | .file path => indexFile w method path environment verbose
  | .snippet text searchPath => indexText w method text environment searchPath verbose

end Subject

/-! ### Preparations -/

theorem isTreeLine_indexing (path : String) :
    isTreeLine ("INFO: Indexing source file \"" ++ path ++ "\".") = false := by
  have first : BeginsOtherwise "INFO: Indexing source file \"" := ⟨'I', by simp, by decide⟩
  exact ((first.append path).append _).isTreeLine

theorem isTreeLine_using (path : String) :
    isTreeLine ("INFO: Using Python environment at \"" ++ path ++ "\" for indexing.") = false := by
  have first : BeginsOtherwise "INFO: Using Python environment at \"" := ⟨'I', by simp, by decide⟩
  exact ((first.append path).append _).isTreeLine

theorem isTreeLine_warning (p : String) (failure : Failure) :
    isTreeLine (Environments.warning p failure) = false := by
  have first : BeginsOtherwise "WARNING: The provided environment path \"" :=
    ⟨'W', by simp, by decide⟩
  exact ((((first.append p).append _).append failure.text).append _).isTreeLine

theorem isTreeLine_choose {es : Environments} {p : Option String} {line : String}
    (h : line ∈ (es.choose p).1) : isTreeLine line = false := by
  cases p with
  | none => exact absurd h List.not_mem_nil
  | some p =>
    rw [Environments.choose_eq_find] at h
    cases hfind : es.find p with
    | ok e =>
      simp only [hfind, List.not_mem_nil] at h
    | error failure =>
      simp only [hfind, List.mem_singleton] at h
      rw [h]
      exact isTreeLine_warning p failure

/-- Between the two states nothing happened to the recorder, and what was printed is no part of the
tree listing. -/
structure Prepared (s t : Session ρ) : Prop where
  recorder : t.recorder = s.recorder
  lines : ∃ more, t.lines = s.lines ++ more ∧ ∀ line ∈ more, isTreeLine line = false

namespace Prepared

variable {s t u : Session ρ}

theorem refl (s : Session ρ) : Prepared s s := ⟨rfl, [], (List.append_nil _).symm, by simp⟩

theorem trans (hst : Prepared s t) (htu : Prepared t u) : Prepared s u := by
  obtain ⟨more, hmore, plain⟩ := hst.lines
  obtain ⟨more', hmore', plain'⟩ := htu.lines
  refine ⟨htu.recorder.trans hst.recorder, more ++ more', ?_, fun line hline => ?_⟩
  · rw [hmore', hmore, List.append_assoc]
  · rcases List.mem_append.mp hline with hline | hline
    · exact plain line hline
    · exact plain' line hline

end Prepared

/-- The computation `m` does what `k` does, after preparations. -/
def ComesTo (m k : SessionM ρ α) : Prop := ∀ s, ∃ t, Prepared s t ∧ m s = k t

namespace ComesTo

theorem refl (m : SessionM ρ α) : ComesTo m m := fun s => ⟨s, .refl s, rfl⟩

/-- Preparations give a value or end in a fault, and then something else is done. -/
theorem bind {m : SessionM ρ α} {x : Except Fault α} {f g : α → SessionM ρ β}
    (hm : ComesTo m (liftM x)) (hf : ∀ a, ComesTo (f a) (g a)) :
    ComesTo (m >>= f) (liftM x >>= g) := by
  intro s
  obtain ⟨t, prepared, run⟩ := hm s
  cases x with
  | ok a =>
    obtain ⟨u, prepared', rest⟩ := hf a t
    exact ⟨u, prepared.trans prepared', (bind_of_ok run).trans rest⟩
  | error e => exact ⟨t, prepared, bind_of_error run⟩

/-- Preparations that give nothing. -/
theorem andThen {m : SessionM ρ Unit} {f g : SessionM ρ β} (hm : ComesTo m (pure ()))
    (hf : ComesTo f g) : ComesTo (do m; f) g :=
  bind (x := .ok ()) hm fun _ => hf

theorem print {lines : List String} (plain : ∀ line ∈ lines, isTreeLine line = false) :
    ComesTo (Session.print lines : SessionM ρ Unit) (pure ()) :=
  fun s => ⟨{ s with lines := s.lines ++ lines }, ⟨rfl, lines, rfl, plain⟩, rfl⟩

theorem printIf (b : Bool) {line : String} (plain : isTreeLine line = false) :
    ComesTo (Session.printIf b line : SessionM ρ Unit) (pure ()) := by
  cases b with
  | false => exact refl _
  | true => exact print (by simpa using plain)

theorem parse (text : String) : ComesTo (Session.parse text : SessionM ρ Unit) (pure ()) :=
  fun s => ⟨{ s with parsed := some text }, ⟨rfl, [], (List.append_nil _).symm, by simp⟩, rfl⟩

theorem chooseEnvironment (w : World) (p : Option String) :
    ComesTo (Session.chooseEnvironment w p : SessionM ρ Environment) (liftM (w.environment p)) := by
  have offered : ComesTo (match (w.environments.choose p).2 with
      | .ok e => pure e
      | .error failure => throw (.reported failure) : SessionM ρ Environment)
      (liftM (w.environment p)) := by
    unfold World.environment
    cases (w.environments.choose p).2 with
    | ok e => exact refl _
    | error failure => exact refl _
  exact andThen (print fun line => isTreeLine_choose) offered

end ComesTo

/-! ### Sessions as planned -/

/-- The last part of every plan is the source. -/
theorem ComesTo.located [Recorder ρ] (x : Except Fault Source) (planned : Source → Plan)
    (verbose : Bool) (t : Tree) :
    ComesTo (do carryOut ((planned (← x)).index verbose t) : SessionM ρ Unit)
      (do carryOut ((← (do return planned (← x) : Except Fault Plan)).index verbose t)) := by
  cases x with
  | ok source => exact refl _
  | error e => exact refl _

theorem runSyntactic_eq [Recorder ρ] (w : World) (path : String) (searchPath : List String)
    (verbose : Bool) :
    (runSyntactic w path searchPath verbose : SessionM ρ Unit) = (do
      let source ← Source.locate w.files path searchPath
      carryOut ((Plan.syntactic source).index verbose w.tree)) := rfl

theorem runSemantic_eq [Recorder ρ] (w : World) (e : Environment) (path : String)
    (searchPath : List String) (verbose : Bool) :
    (runSemantic w e path searchPath verbose : SessionM ρ Unit) = (do
      let source ← Source.locate w.files path searchPath
      carryOut ((Plan.semantic ⟨source, e.major, e.minor, w.stubs, w.resolver, false⟩).index verbose
        w.tree)) := rfl

/-- A session makes a plan without touching the recorder, and then carries it out. -/
theorem Subject.index_of_plan [Recorder ρ] (w : World) (method : Method)
    (environment : Option String) (verbose : Bool) (subject : Subject) :
    ComesTo (subject.index w method environment verbose : SessionM ρ Unit)
      (do carryOut ((← subject.plan w method environment).index verbose w.tree)) := by
  unfold plan
  rw [lift_bind, bind_assoc]
  cases subject with
  | file path =>
    change ComesTo (indexFile w method path environment verbose) _
    unfold indexFile
    dsimp only [Subject.path, searchPath?, Option.getD_none]
    refine .andThen (.printIf _ (isTreeLine_indexing path)) ?_
    refine .bind (.refl _) fun text => ?_
    cases method with
    | syntactic =>
      dsimp only [runSyntactic_eq]
      exact .andThen (.parse _) (.located _ _ _ _)
    | semantic =>
      dsimp only [runSemantic_eq]
      rw [lift_bind, bind_assoc]
      refine .bind (.chooseEnvironment w environment) fun e => ?_
      refine .andThen (.printIf _ (isTreeLine_using e.path)) (.andThen (.parse _) ?_)
      exact .located _ _ _ _
  | snippet text searchPath =>
    change ComesTo (indexText w method text environment searchPath verbose) (pure text >>= _)
    unfold indexText
    dsimp only [Subject.path, searchPath?]
    rw [pure_bind]
    cases method with
    | syntactic =>
      dsimp only [runSyntactic_eq]
      exact .andThen (.parse _) (.located _ _ _ _)
    | semantic =>
      dsimp only [runSemantic_eq]
      rw [lift_bind, bind_assoc]
      refine .bind (.chooseEnvironment w environment) fun e => .andThen (.parse _) ?_
      exact .located _ _ _ _

end Session

end CodeIndex
