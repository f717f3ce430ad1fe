import CodeIndex.Proofs.ContextAttribution
import CodeIndex.Proofs.LogEntries
import CodeIndex.Proofs.Reached
import Mathlib.Data.List.Forall2

/-!
# What runs log

The calculus of log entries says what is logged for one place. In a run that returns, the log is
made up of one group of calls for each place for which something is done, in the order of the steps.

## What is proved

* `Writes.event` — from a computation to the event at which it runs.
* `Walk.contexts_ne_nil` — there is a context at every step of every run.
* `Walk.exists_stands` — where references start when a place inside a definition is looked at.
* `Walk.exists_groups` — the log of a run that returns, as groups of calls by place.
-/

namespace CodeIndex

open Indexing

variable {α β : Type}

/-! ### Kinds of calls -/

/-- The range at which a call locates a name: as the name of a symbol, as a qualifier, as a local
variable or as a reference. -/
@[simp] def Call.located? : Call → Option Extent
  | .symbolLocation _ _ r | .qualifierLocation _ _ r | .localLocation _ _ r
  | .referenceLocation _ _ r | .unsolvedReference _ _ _ r => some r
  | _ => none

/-- The call locates a name. -/
def Call.isLocation (call : Call) : Bool := call.located?.isSome

/-- The call says that a name refers to something unknown. -/
@[simp] def Call.isUnsolved : Call → Bool
  | .unsolvedReference _ _ _ _ => true
  | _ => false

/-- The call locates a name as something that is known. -/
def Call.isKnown (call : Call) : Bool := call.isLocation && !call.isUnsolved

/-- The call says something about the source apart from its names: the extent of a definition, a
stretch of text that is not to be folded, or an error. -/
@[simp] def Call.isStructural : Call → Bool
  | .scopeLocation _ _ _ | .atomicRange _ _ | .error _ _ _ _ => true
  | _ => false

/-- The call is one with which a run begins. -/
def Call.isPreliminary : Call → Bool
  | .file _ | .fileLanguage _ _ | .lastError | .symbol _ | .definitionKind _ _
  | .symbolKind _ _ => true
  | _ => false

/-! ### Events -/

/-- The calls that were made at an event. -/
def Event.made (e : Event Client) : List Call := e.calls.map LogEntry.call

theorem Made.event {e : Event Client} {xs : List Call} (h : Made e.before e.after xs) :
    e.made = xs := by
  obtain ⟨-, more, hmore, rfl⟩ := h
  rw [Event.made, Event.calls_eq hmore]

section Events

variable {A : Actions Client} {e : Event Client} {held₁ held₂ : Held} {d : Cursor} {x file : Value}
  {m : Indexing Client Unit} {Q : Unit → List LogEntry → Prop} {E : List LogEntry → Prop}

theorem Writes.adds (h : Writes x file m Q E) {s t : Trace Client} (stands : s.Stands x file)
    (done : (do m; return held₁ : Indexing Client Held) s = .ok held₂ t) :
    ∃ entries, Adds s t entries ∧ Q () entries := by
  obtain ⟨_, u, ran, done⟩ := bind_eq_ok.mp done
  obtain ⟨-, rfl⟩ := pure_eq_ok.mp done
  exact (h s stands).of_ok ran

/-- What is logged at an event at which the computation ends with a result. -/
theorem Writes.event (h : Writes x file m Q E) (stands : e.before.Stands x file)
    (done : (do m; return held₁ : Indexing Client Held) e.before = .ok held₂ e.after) :
    Q () e.calls := by
  obtain ⟨entries, adds, holds⟩ := h.adds stands done
  rwa [Event.calls_eq adds.calls]

/-- What is logged for a place that is looked at in a run, if in the state there it comes to a
computation that cannot end in a fault. -/
theorem Writes.look {w : Walk Client} {c : Client} (h : Writes x file m Q fun _ => False)
    (he : e ∈ w.events c.fresh) (looks : e.step = .look d) (stands : e.before.Stands x file)
    (same : w.actions.look d e.before = m e.before) : Q () e.calls := by
  obtain ⟨_, τ, entries, ran, adds, holds⟩ := h.returns stands
  obtain ⟨held, after⟩ := Walk.after_eq he
  have done : w.actions.perform (.look d) held e.before = .ok held τ :=
    bind_of_ok (f := fun _ => Pure.pure held) (same.trans ran)
  rw [looks, done] at after
  rwa [Event.calls_eq (by rw [after]; exact adds.calls)]

/-- What is logged for a definition. -/
theorem Actions.made_enter (context : e.before.contexts ≠ [])
    (done : A.perform (.enter d) held₁ e.before = .ok held₂ e.after) :
    ∃ contexts o, A.opening contexts d = .ok o ∧ DefinitionCalls o.nameAt d e.made := by
  obtain ⟨x, stands⟩ := Trace.exists_stands context
  have entered : Outcome (fun _ t => ∃ xs, Made e.before t xs ∧ ∃ contexts o,
      A.opening contexts d = .ok o ∧ DefinitionCalls o.nameAt d xs) (fun _ => True)
      (A.perform (.enter d) held₁ e.before) := by
    refine Outcome.bind (Outcome.bind (Outcome.liftBind trivial fun o ho => ?_))
    refine Outcome.bind ((writes_define o.name o.kind o.nameAt d e.before stands).mono ?_
      fun _ _ => trivial)
    rintro symbol t ⟨xs, adds, r, whole, _, _, _, _, hr, hwhole, entries⟩
    exact ⟨xs.map LogEntry.call, ⟨List.cons_ne_nil _ _, xs, adds.calls, rfl⟩, e.before.contexts, o,
      ho, r, whole, o.name.stored, o.kind, symbol, _, _, hr, hwhole, by rw [entries]; rfl⟩
  obtain ⟨xs, made, opened⟩ := entered.of_ok done
  rwa [made.event]

/-- Nothing is logged at a step without a subject. -/
theorem Actions.made_quiet (h : e.step.subject? = none)
    (done : A.perform e.step held₁ e.before = .ok held₂ e.after) : e.made = [] := by
  have keeps : e.step.subject? = none → A.Keeps (attribution True) e.step := by
    cases e.step with
    | look | parameter => exact fun none => absurd none (by simp [Step.subject?])
    | _ => exact fun _ => trivial
  have effect := (Actions.outcome_perform (keeps h) held₁ trivial).of_ok done
  have same : e.after.calls = e.before.calls := by
    cases hstep : e.step with
    | look | enter | parameter => simp [hstep, Step.subject?] at h
    | list c =>
      rw [hstep] at done
      obtain ⟨_, t, listed, done⟩ := bind_eq_ok.mp done
      obtain ⟨-, rfl⟩ := pure_eq_ok.mp done
      exact ((adds_beginListing _ c e.before).of_ok listed).calls.trans (List.append_nil _)
    | unlist =>
      rw [hstep] at done
      obtain ⟨_, t, listed, done⟩ := bind_eq_ok.mp done
      obtain ⟨-, rfl⟩ := pure_eq_ok.mp done
      exact ((adds_endListing _ e.before).of_ok listed).calls.trans (List.append_nil _)
    | aliasWord =>
      rw [hstep] at effect
      rcases held₁ with _ | ⟨_ | _, _⟩
      all_goals exact (congrArg Trace.calls effect.2).trans rfl
    | fail fault =>
      rw [hstep] at effect
      exact effect.elim
    | _ =>
      rw [hstep] at effect
      exact (congrArg Trace.calls effect.2).trans rfl
  rw [Event.made, Event.calls_eq (by rw [same, List.append_nil])]
  rfl

end Events

/-! ### Whole runs -/

namespace Walk

variable {w : Walk Client} {c : Client} {e : Event Client}

/-- There is a context at every step. -/
theorem contexts_ne_nil (disciplined : w.actions.Disciplined) {R : List Cursor → Cursor → Prop}
    {ds : List Cursor} (way : Way R [] w.steps ds) (he : e ∈ w.events c.fresh) :
    e.before.contexts ≠ [] := by
  cases h : start w.source w.moduleName c.fresh with
  | error fault t =>
    rw [events, h] at he
    cases he
  | ok _ t =>
    have begins := begins_of_start h
    rw [events_of_start h] at he
    obtain ⟨earlier, later, split⟩ := List.append_of_mem he
    -- the contexts stand for definitions above those of the file and the module
    refine way.history (I := fun _ ds s => Follows (fun _ _ _ => True) t.contexts ds s.contexts)
      (P := fun _ e => e.before.contexts ≠ []) (fun past ds ds' x held s shifts follows => ?_) []
      begins.fixed split
    have here := follows.ne_nil begins.ne_nil
    have keeps : w.actions.Keeps (attribution True) x :=
      disciplined.keeps shifts fun _ _ _ _ isTop => ⟨trivial, isTop⟩
    exact (Actions.outcome_perform keeps held trivial).mono
      (fun held' u effect => ⟨here, follows.step Attributes.settled effect shifts begins.unplaced
        (fun _ _ _ _ h => h) fun _ _ _ _ _ => trivial⟩) fun _ _ => here

end Walk

/-- When a place inside a definition is looked at, references start from the identifier under which
the definition was recorded. -/
theorem Walk.exists_stands {w : Walk Client} {c : Client} (disciplined : w.actions.Disciplined)
    {ds : List Cursor} (way : Way Around [] w.steps ds) {earlier later : List (Event Client)}
    {e : Event Client} (split : w.events c.fresh = earlier ++ e :: later) {d around : Cursor}
    (looks : e.step = .look d) (inside : d.definitionAround? = some around) :
    ∃ x, RecordedAs earlier around x ∧ e.before.Stands x e.before.recorder.file := by
  obtain ⟨σ, -, attributed⟩ := Walk.attributed disciplined way split
  obtain ⟨ds, ds', shifts, follows⟩ := attributed.follows
  rw [looks] at shifts
  rw [Cursor.definitionAround?_eq, shifts.1] at inside
  cases ds with
  | nil => cases inside
  | cons k ds =>
    obtain rfl := Option.some.inj inside
    obtain ⟨top, rest, contexts, -, -, recorded, -⟩ := follows
    exact ⟨top.id, recorded, ⟨top, rest, contexts, rfl⟩, rfl⟩

/-- The calls that a run adds to the log of the client. -/
def Client.callsOf (c : Client) (run : Indexing Client Unit) : List Call :=
  ((finalState (run c.fresh)).calls.drop c.fresh.calls.length).map LogEntry.call

/-- The calls of events, grouped by the places for which something is done. -/
theorem exists_groups_of_events {Q : Cursor → List Call → Prop} (es : List (Event Client))
    (each : ∀ e ∈ es, ∀ d, e.step.subject? = some d → Q d e.made)
    (quiet : ∀ e ∈ es, e.step.subject? = none → e.made = []) :
    ∃ groups : List (List Call), (es.flatMap Event.calls).map LogEntry.call = groups.flatten ∧
      List.Forall₂ Q (subjects (es.map Event.step)) groups := by
  induction es with
  | nil => exact ⟨[], rfl, .nil⟩
  | cons e es ih =>
    obtain ⟨groups, calls, related⟩ := ih (fun e he => each e (List.mem_cons_of_mem _ he))
      fun e he => quiet e (List.mem_cons_of_mem _ he)
    rw [List.flatMap_cons, List.map_append, calls, List.map_cons, subjects, placesIn_cons]
    cases subject : e.step.subject? with
    | none =>
      refine ⟨groups, ?_, related⟩
      change e.made ++ _ = _
      rw [quiet e List.mem_cons_self subject, List.nil_append]
    | some d => exact ⟨e.made :: groups, rfl, .cons (each e List.mem_cons_self d subject) related⟩

/-- Groups for some of the elements of a list, with empty ones for the others. -/
theorem exists_groups_of_filter {Q : α → List β → Prop} {p : α → Bool} {xs : List α}
    {groups : List (List β)} (h : List.Forall₂ Q (xs.filter p) groups)
    (others : ∀ x ∈ xs, p x = false → Q x []) :
    ∃ all, all.flatten = groups.flatten ∧ List.Forall₂ Q xs all := by
  induction xs generalizing groups with
  | nil => exact ⟨groups, rfl, h⟩
  | cons x xs ih =>
    have rest := fun y hy => others y (List.mem_cons_of_mem _ hy)
    cases hx : p x with
    | true =>
      rw [List.filter_cons_of_pos hx] at h
      cases h with
      | @cons _ group _ groups here h =>
        obtain ⟨all, same, related⟩ := ih h rest
        exact ⟨group :: all, by rw [List.flatten_cons, same, List.flatten_cons],
          .cons here related⟩
    | false =>
      rw [List.filter_cons_of_neg (by simp [hx])] at h
      obtain ⟨all, same, related⟩ := ih h rest
      exact ⟨[] :: all, same, .cons (others x List.mem_cons_self hx) related⟩

theorem Actions.faultless_of_run {ρ : Type} [Recorder ρ] {A : Actions ρ} {xs : List Step}
    {held held' : Held} {s t : Trace ρ} (h : A.run xs held s = .ok held' t) : Faultless xs := by
  intro fault failing
  rw [← step_events _ _ _ h] at failing
  obtain ⟨e, he, hstep⟩ := List.mem_map.mp failing
  obtain ⟨held₁, held₂, done⟩ := performed _ _ _ h he
  rw [hstep] at done
  cases done

namespace Walk

variable {w : Walk Client} {c : Client}

/-- What is known of a run that returns. -/
structure Completed (w : Walk Client) (c : Client) : Prop where
  preliminary : ∀ call ∈ (w.begun c).map LogEntry.call, call.isPreliminary = true
  taken : (w.events c.fresh).map Event.step = w.steps
  performed : ∀ e ∈ w.events c.fresh, ∃ held₁ held₂,
    w.actions.perform e.step held₁ e.before = .ok held₂ e.after
  faultless : Faultless w.steps

theorem isPreliminary_of_begun {t : Trace Client}
    (h : start w.source w.moduleName c.fresh = .ok () t) :
    ∀ call ∈ (w.begun c).map LogEntry.call, call.isPreliminary = true := by
  have ofFile : ∀ {path file} {s t : Trace Client}, FileLogged path file s t →
      ∃ more, t.calls = s.calls ++ more ∧ ∀ e ∈ more, e.call.isPreliminary = true := by
    intro path file s t logged
    obtain ⟨more, calls, about⟩ := logged.calls
    refine ⟨_, calls, fun e he => ?_⟩
    rcases List.mem_cons.mp he with rfl | he
    · rfl
    · rcases about e he with call | call <;> rw [call] <;> rfl
  intro call hcall
  obtain ⟨e, he, rfl⟩ := List.mem_map.mp hcall
  obtain ⟨name, -, begun⟩ := (outcome_start w.source w.moduleName c).of_ok h
  cases name with
  | none =>
    obtain ⟨file, logged, -⟩ := begun
    obtain ⟨more, calls, about⟩ := ofFile logged
    rw [begun_of_start h calls] at he
    exact about e he
  | some name =>
    obtain ⟨file, symbol, u, described, logged, -, calls, aboutSymbol, -⟩ := begun
    obtain ⟨more, before, about⟩ := ofFile logged
    rw [before, List.append_assoc] at calls
    rw [begun_of_start h calls] at he
    rcases List.mem_append.mp he with he | he
    · exact about e he
    · rcases List.mem_cons.mp he with rfl | he
      · rfl
      · rcases aboutSymbol e he with call | call <;> rw [call] <;> rfl

theorem completed_of_returned (ends : returned (w.carryOut c.fresh) = true) : w.Completed c := by
  obtain ⟨_, υ, run⟩ := eq_ok_of_returned ends
  obtain ⟨_, σ, started, run⟩ := bind_eq_ok.mp run
  obtain ⟨held, τ, run, -⟩ := bind_eq_ok.mp run
  have events := events_of_start started
  have taken : (w.events c.fresh).map Event.step = w.steps := by
    rw [events]
    exact Actions.step_events _ _ _ run
  have performed : ∀ e ∈ w.events c.fresh, ∃ held₁ held₂,
      w.actions.perform e.step held₁ e.before = .ok held₂ e.after := by
    intro e he
    rw [events] at he
    exact Actions.performed _ _ _ run he
  exact ⟨isPreliminary_of_begun started, taken, performed, Actions.faultless_of_run run⟩

/-- The log of a run that returns: what was logged at the beginning, and one group of calls for each
place for which something is done. -/
theorem exists_groups (disciplined : w.actions.Disciplined) {R : List Cursor → Cursor → Prop}
    {ds : List Cursor} (way : Way R [] w.steps ds) (completed : w.Completed c)
    {Q : Cursor → List Call → Prop}
    (each : ∀ e ∈ w.events c.fresh, ∀ d, e.step.subject? = some d → Q d e.made) :
    ∃ groups, c.callsOf w.carryOut = (w.begun c).map LogEntry.call ++ groups.flatten ∧
      List.Forall₂ Q (subjects w.steps) groups := by
  have quiet : ∀ e ∈ w.events c.fresh, e.step.subject? = none → e.made = [] := by
    intro e he none
    obtain ⟨held₁, held₂, done⟩ := completed.performed e he
    exact Actions.made_quiet none done
  obtain ⟨groups, calls, related⟩ := exists_groups_of_events _ each quiet
  rw [completed.taken] at related
  refine ⟨groups, ?_, related⟩
  rw [Client.callsOf, calls_carryOut disciplined way, List.append_assoc, List.drop_left,
    List.map_append, calls]

end Walk

/-- A step of a run that returns, and the event at which it is taken. -/
theorem Walk.Completed.exists_event {w : Walk Client} {c : Client} (completed : w.Completed c)
    {n : Nat} {x : Step} (taken : w.steps[n]? = some x) {p : Event Client → Bool}
    (holds : (w.events c.fresh)[n]?.all p = true) :
    ∃ earlier e later, w.events c.fresh = earlier ++ e :: later ∧ e.step = x ∧ p e = true := by
  rw [← completed.taken, List.getElem?_map, Option.map_eq_some_iff] at taken
  obtain ⟨e, he, hx⟩ := taken
  rw [he] at holds
  obtain ⟨bound, rfl⟩ := List.getElem?_eq_some_iff.mp he
  refine ⟨(w.events c.fresh).take n, _, (w.events c.fresh).drop (n + 1), ?_, hx, holds⟩
  rw [← List.drop_eq_getElem_cons bound, List.take_append_drop]

end CodeIndex
