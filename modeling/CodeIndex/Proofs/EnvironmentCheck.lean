import CodeIndex.Environment

/-!
# The check of environments

A path may be checked for a Python environment before it is used for one. The check says what is
wrong with the path, and says nothing if all is well. So a failure without any words passes for no
failure: the check accepts the path, and yet the path is not used when the time comes. With all
other failures the check and the use of a path agree.

## What is proved

* `leadsTo_or_refuses` — a path leads to an environment, or it is refused with a failure.
* `diagnosis_eq_find` and `choose_eq_find` — the check and the choice go through the same attempts.
* `check_agrees_unless_wordless` — the check agrees with the use of the path just if a path that
  does not lead to an environment fails with some words.
-/

namespace CodeIndex

/-! ### Failures -/

/-- The failure says nothing. A missing key is at least shown between quotes. -/
def Failure.IsWordless (f : Failure) : Prop := f.kind ≠ "KeyError" ∧ f.message = ""

theorem Text.quote_ne_empty (text : String) : Text.quote text ≠ "" := by
  intro empty
  have quoted := congrArg String.toList empty
  simp [Text.quote, Text.quoteChars] at quoted

theorem Failure.text_eq_empty {f : Failure} : f.text = "" ↔ f.IsWordless := by
  unfold Failure.text Failure.IsWordless
  split
  · next missingKey => simp [missingKey, Text.quote_ne_empty]
  · next other => simp [other]

/-- The offer comes to nothing: there is no environment, or its interpreter does not start. -/
inductive Offer.FailsWith : Offer → Failure → Prop
  | setUp (failure : Failure) : FailsWith (.error failure) failure
  | start {e : Environment} {failure : Failure} (defect : e.defect = some failure) :
      FailsWith (.ok e) failure

/-- The offer is an environment whose interpreter starts. -/
structure Offer.Provides (o : Offer) (e : Environment) : Prop where
  created : o = .ok e
  starts : e.defect = none

theorem Offer.Provides.working_eq {o : Offer} {e : Environment} (provides : o.Provides e) :
    o.working = .ok e := by
  obtain ⟨rfl, starts⟩ := provides
  simp [Offer.working, bind, Except.bind, starts, pure, Except.pure]

theorem Offer.FailsWith.working_eq {o : Offer} {failure : Failure} (fails : o.FailsWith failure) :
    o.working = .error failure := by
  cases fails with
  | setUp => rfl
  | start defect =>
    simp [Offer.working, bind, Except.bind, defect, throw, throwThe, MonadExceptOf.throw]

theorem Offer.provides_or_fails (o : Offer) :
    (∃ e, o.Provides e) ∨ ∃ failure, o.FailsWith failure := by
  cases o with
  | error failure => exact .inr ⟨failure, .setUp failure⟩
  | ok e =>
    cases defect : e.defect with
    | none => exact .inl ⟨e, rfl, defect⟩
    | some failure => exact .inr ⟨failure, .start defect⟩

namespace Environments

/-! ### What a path leads to -/

/-- The path leads to the environment `e`: as the path of the environment or, where interpreters
have an extension, as the directory of the interpreter. The latter is tried only if the former
fails. -/
inductive LeadsTo (es : Environments) (p : String) (e : Environment) : Prop
  | itself (provides : (es.create p).Provides e)
  | directory {failure : Failure} (fails : (es.create p).FailsWith failure)
      (windows : es.windows = true) (isDirectory : p ∈ es.directories)
      (provides : (es.create (Path.join p "python.exe")).Provides e)

/-- The path fails to lead to an environment. What is reported is the failure of the path itself,
not that of an interpreter in it. -/
structure Refuses (es : Environments) (p : String) (failure : Failure) : Prop where
  fails : (es.create p).FailsWith failure
  noInterpreter : es.windows = true → p ∈ es.directories →
    ∃ other, (es.create (Path.join p "python.exe")).FailsWith other

theorem leadsTo_or_refuses (es : Environments) (p : String) :
    (∃ e, es.LeadsTo p e) ∨ ∃ failure, es.Refuses p failure := by
  rcases (es.create p).provides_or_fails with ⟨e, provides⟩ | ⟨failure, fails⟩
  · exact .inl ⟨e, .itself provides⟩
  · by_cases here : es.windows = true ∧ p ∈ es.directories
    · rcases (es.create (Path.join p "python.exe")).provides_or_fails with
        ⟨e, provides⟩ | ⟨other, fails'⟩
      · exact .inl ⟨e, .directory fails here.1 here.2 provides⟩
      · exact .inr ⟨failure, fails, fun _ _ => ⟨other, fails'⟩⟩
    · exact .inr ⟨failure, fails, fun windows inside => absurd ⟨windows, inside⟩ here⟩

variable {es : Environments} {p : String}

/-- The working environment that a path specifies, either itself or as the directory of an
interpreter. If there is none, the failure of the path itself is given. -/
def find (es : Environments) (p : String) : Offer :=
  match (es.create p).working with
  | .ok e => .ok e
  | .error failure =>
    if es.windows && es.directories.contains p then
      match (es.create (Path.join p "python.exe")).working with
      | .ok e => .ok e
      | .error _ => .error failure
    else .error failure

theorem LeadsTo.find_eq {e : Environment} (leads : es.LeadsTo p e) : es.find p = .ok e := by
  unfold find
  cases leads with
  | itself provides => rw [provides.working_eq]
  | directory fails windows isDirectory provides =>
    simp [fails.working_eq, windows, isDirectory, provides.working_eq]

theorem Refuses.find_eq {failure : Failure} (refuses : es.Refuses p failure) :
    es.find p = .error failure := by
  unfold find
  rw [refuses.fails.working_eq]
  by_cases here : es.windows = true ∧ p ∈ es.directories
  · obtain ⟨other, fails⟩ := refuses.noInterpreter here.1 here.2
    simp [here, fails.working_eq]
  · simp [here]

theorem LeadsTo.not_refuses {e : Environment} {failure : Failure} (leads : es.LeadsTo p e) :
    ¬ es.Refuses p failure := by
  intro refuses
  cases leads.find_eq.symm.trans refuses.find_eq

/-! ### The check and the use of a path -/

/-- The check goes through the attempts of `find`. -/
theorem diagnosis_eq_find (es : Environments) (p : String) :
    es.diagnosis (some p) =
      match es.find p with
      | .ok _ => ""
      | .error failure => failure.text := by
  dsimp only [diagnosis, find]
  cases (es.create p).working with
  | ok e => rfl
  | error failure =>
    cases es.windows && es.directories.contains p with
    | false => rfl
    | true => cases (es.create (Path.join p "python.exe")).working <;> rfl

/-- So does the choice of the environment. -/
theorem choose_eq_find (es : Environments) (p : String) :
    es.choose (some p) =
      match es.find p with
      | .ok e => ([], .ok e)
      | .error failure => ([warning p failure], es.fallback) := by
  dsimp only [choose, find]
  cases (es.create p).working with
  | ok e => rfl
  | error failure =>
    cases es.windows && es.directories.contains p with
    | false => rfl
    | true => cases (es.create (Path.join p "python.exe")).working <;> rfl

theorem LeadsTo.diagnosis_eq {e : Environment} (leads : es.LeadsTo p e) :
    es.diagnosis (some p) = "" := by
  rw [diagnosis_eq_find, leads.find_eq]

theorem LeadsTo.choose_eq {e : Environment} (leads : es.LeadsTo p e) :
    es.choose (some p) = ([], .ok e) := by
  rw [choose_eq_find, leads.find_eq]

theorem Refuses.diagnosis_eq {failure : Failure} (refuses : es.Refuses p failure) :
    es.diagnosis (some p) = failure.text := by
  rw [diagnosis_eq_find, refuses.find_eq]

theorem Refuses.choose_eq {failure : Failure} (refuses : es.Refuses p failure) :
    es.choose (some p) = ([warning p failure], es.fallback) := by
  rw [choose_eq_find, refuses.find_eq]

/-- **The check agrees with the use of a path, unless a failure is wordless.** The check says
nothing just if the path leads to an environment that is then used without a warning, for all paths
but those that are refused with a wordless failure. For a path that is refused, the check gives the
details of the warning, and the environment that is used is another one. -/
theorem check_agrees_unless_wordless (es : Environments) (p : String) :
    ((es.diagnosis (some p) = "" ↔ ∃ e, es.LeadsTo p e ∧ es.choose (some p) = ([], .ok e)) ↔
      ∀ failure, es.Refuses p failure → ¬ failure.IsWordless) ∧
    ((∃ failure, es.Refuses p failure) → es.choose (some p) =
      (["WARNING: The provided environment path \"" ++ p ++
        "\" does not specify a functional Python environment (details: \"" ++
        es.diagnosis (some p) ++ "\"). Using fallback environment instead."], es.fallback)) := by
  rcases leadsTo_or_refuses es p with ⟨e, leads⟩ | ⟨failure, refuses⟩
  · refine ⟨iff_of_true ?_ fun _ refuses => absurd refuses leads.not_refuses, ?_⟩
    · exact iff_of_true leads.diagnosis_eq ⟨e, leads, leads.choose_eq⟩
    · rintro ⟨failure, refuses⟩
      exact absurd refuses leads.not_refuses
  · have unused : ¬ ∃ e, es.LeadsTo p e ∧ es.choose (some p) = ([], .ok e) :=
      fun ⟨_, leads, _⟩ => leads.not_refuses refuses
    have only : (∀ other, es.Refuses p other → ¬ other.IsWordless) ↔ ¬ failure.IsWordless := by
      constructor
      · exact fun worded => worded failure refuses
      · intro worded other refuses'
        obtain rfl := Except.error.inj (refuses.find_eq.symm.trans refuses'.find_eq)
        exact worded
    rw [iff_false_right unused, refuses.diagnosis_eq, only]
    exact ⟨not_congr Failure.text_eq_empty, fun _ => refuses.choose_eq⟩

/-- An environment whose interpreter does not start, for no stated reason. -/
def silentEnvironment : Environments where
  preferred := .ok ⟨"/env/bin/python", 3, 7, [], none⟩
  atPath := [("/venv", .ok ⟨"/venv/bin/python", 3, 7, [], some ⟨"OSError", ""⟩⟩)]

/-- The check has nothing to say about it, but another environment is used. -/
theorem silent_environment_accepted :
    silentEnvironment.diagnosis (some "/venv") = "" ∧
      (silentEnvironment.choose (some "/venv")).1 ≠ [] ∧
      (silentEnvironment.choose (some "/venv")).2.toOption.map Environment.path =
        some "/env/bin/python" := by
  decide +kernel

end Environments

end CodeIndex
