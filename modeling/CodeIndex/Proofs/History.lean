import CodeIndex.Proofs.Walk

/-!
# Histories

The history of a run is the list of its events: each step that was taken, with the state before it
and the state at its end. A step that ends in a fault is the last event. So whatever a run did
before a fault is part of its history, and a statement about every event is a statement about every
run, however it ended.

`Way.history` is the one induction over runs. Something holds of the past and of the present state;
from there it is shown, step by step, what is true of the next event.
-/

namespace CodeIndex

variable {ρ : Type} [Recorder ρ]

/-- A step that was taken. -/
structure Event (ρ : Type) where
  /-- The step. -/
  step : Step
  /-- The state before it. -/
  before : Trace ρ
  /-- The state at its end, be it a fault or not. -/
  after : Trace ρ

/-- The events of a run. -/
def Actions.events (A : Actions ρ) : List Step → Held → Trace ρ → List (Event ρ)
  | [], _, _ => []
  | x :: xs, held, s =>
    match A.perform x held s with
    | .ok held' t => ⟨x, s, t⟩ :: events A xs held' t
    | .error _ t => [⟨x, s, t⟩]

/-- The events of a whole run after the file and the module have been recorded. -/
def Walk.events (w : Walk ρ) (s : Trace ρ) : List (Event ρ) :=
  match Indexing.start w.source w.moduleName s with
  | .ok _ t => w.actions.events w.steps [] t
  | .error _ _ => []

namespace Actions

variable {A : Actions ρ} {x : Step} {xs : List Step} {held held' : Held} {s t : Trace ρ}

theorem events_ok (h : A.perform x held s = .ok held' t) :
    A.events (x :: xs) held s = ⟨x, s, t⟩ :: A.events xs held' t := by
  rw [events, h]

theorem events_error {e : Fault} (h : A.perform x held s = .error e t) :
    A.events (x :: xs) held s = [⟨x, s, t⟩] := by
  rw [events, h]

theorem run_ok (h : A.perform x held s = .ok held' t) :
    A.run (x :: xs) held s = A.run xs held' t := by
  rw [run_cons, bind_of_ok h]

theorem run_error {e : Fault} (h : A.perform x held s = .error e t) :
    A.run (x :: xs) held s = .error e t := by
  rw [run_cons, bind_of_error h]

/-- A run that ends without a fault has taken all its steps. -/
theorem step_events (xs : List Step) (held : Held) (s : Trace ρ)
    (h : A.run xs held s = .ok held' t) : (A.events xs held s).map Event.step = xs := by
  induction xs generalizing held s with
  | nil => rfl
  | cons x xs ih =>
    cases hx : A.perform x held s with
    | ok held₁ s₁ =>
      rw [run_ok hx] at h
      rw [events_ok hx, List.map_cons, ih held₁ s₁ h]
    | error e s₁ =>
      rw [run_error hx] at h
      cases h

/-- No step of such a run has ended in a fault. -/
theorem performed (xs : List Step) (held : Held) (s : Trace ρ) (h : A.run xs held s = .ok held' t)
    {e : Event ρ} (he : e ∈ A.events xs held s) :
    ∃ held₁ held₂, A.perform e.step held₁ e.before = .ok held₂ e.after := by
  induction xs generalizing held s with
  | nil => cases he
  | cons x xs ih =>
    cases hx : A.perform x held s with
    | ok held₁ s₁ =>
      rw [run_ok hx] at h
      rw [events_ok hx] at he
      rcases List.mem_cons.mp he with rfl | he
      · exact ⟨held, held₁, hx⟩
      · exact ih held₁ s₁ h he
    | error fault s₁ =>
      rw [run_error hx] at h
      cases h

/-- The state at the end of an event is the one in which its step ends. -/
theorem after_eq (xs : List Step) (held : Held) (s : Trace ρ) {e : Event ρ}
    (he : e ∈ A.events xs held s) :
    ∃ held₁, e.after = finalState (A.perform e.step held₁ e.before) := by
  induction xs generalizing held s with
  | nil => cases he
  | cons x xs ih =>
    cases hx : A.perform x held s with
    | ok held₁ s₁ =>
      rw [events_ok hx] at he
      rcases List.mem_cons.mp he with rfl | he
      · exact ⟨held, (congrArg finalState hx).symm⟩
      · exact ih held₁ s₁ he
    | error fault s₁ =>
      rw [events_error hx] at he
      obtain rfl := List.mem_singleton.mp he
      exact ⟨held, (congrArg finalState hx).symm⟩

end Actions

/-- So is that of an event of a whole run. -/
theorem Walk.after_eq {w : Walk ρ} {s : Trace ρ} {e : Event ρ} (he : e ∈ w.events s) :
    ∃ held, e.after = finalState (w.actions.perform e.step held e.before) := by
  unfold Walk.events at he
  split at he
  · exact Actions.after_eq _ _ _ he
  · cases he

/-- What is true of every event of a run. `I` holds of the past, the definitions around the next
step and the present state; `P` is shown of each event and its past. -/
theorem Way.history {A : Actions ρ} {R : List Cursor → Cursor → Prop}
    {I : List (Event ρ) → List Cursor → Trace ρ → Prop} {P : List (Event ρ) → Event ρ → Prop}
    (step : ∀ past ds ds' x held s, Shifts R ds ds' x → I past ds s →
      Outcome (fun _ t => P past ⟨x, s, t⟩ ∧ I (past ++ [⟨x, s, t⟩]) ds' t)
        (fun t => P past ⟨x, s, t⟩) (A.perform x held s))
    {ds ds' : List Cursor} {xs : List Step} (way : Way R ds xs ds') (past : List (Event ρ))
    {held : Held} {s : Trace ρ} (start : I past ds s) {earlier later : List (Event ρ)} {e : Event ρ}
    (split : A.events xs held s = earlier ++ e :: later) : P (past ++ earlier) e := by
  induction way generalizing past held s earlier with
  | nil => simp [Actions.events] at split
  | @cons _ _ _ x xs shifts _ ih =>
    have outcome := step past _ _ x held s shifts start
    cases hx : A.perform x held s with
    | error fault t =>
      rw [hx] at outcome
      rw [Actions.events_error hx] at split
      obtain ⟨rfl, hsplit⟩ | ⟨_, -, hsplit⟩ := List.cons_eq_append_iff.mp split
      · obtain ⟨rfl, -⟩ := List.cons.inj hsplit
        rw [List.append_nil]
        exact outcome
      · simp at hsplit
    | ok held' t =>
      rw [hx] at outcome
      obtain ⟨here, next⟩ := outcome
      rw [Actions.events_ok hx] at split
      obtain ⟨rfl, hsplit⟩ | ⟨others, rfl, hsplit⟩ := List.cons_eq_append_iff.mp split
      · obtain ⟨rfl, -⟩ := List.cons.inj hsplit
        rw [List.append_nil]
        exact here
      · have there := ih _ next hsplit
        rwa [List.append_assoc] at there

end CodeIndex
