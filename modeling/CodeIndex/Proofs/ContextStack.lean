import CodeIndex.Proofs.StackDiscipline

/-!
# Contexts stand for definitions

An indexer does not compute its contexts from the tree; definitions are entered and left on the way.
This module says what it means that the contexts follow the definitions the indexer is inside of,
and that every step keeps it so. What else is known about the context of a definition is left open:
it is a parameter, and has to be shown only when a definition is entered.
-/

namespace CodeIndex

open Indexing

/-- The context apart from its local variables. -/
def Context.fixed (k : Context) : Context := { k with locals := [] }

/-- The contexts stand for the definitions `ds`, the innermost first: each was entered at its
definition, and `Q` is true of the definition, those around it, and the context apart from its local
variables. Below them are the contexts `outer`. -/
def Follows (Q : Cursor → List Cursor → Context → Prop) (outer : List Context) :
    List Cursor → List Context → Prop
  | [], contexts => contexts.map Context.fixed = outer
  | d :: ds, contexts => ∃ k rest, contexts = k :: rest ∧ k.place = some d ∧
      d.tree.kind.isDefinition = true ∧ Q d ds k.fixed ∧ Follows Q outer ds rest

namespace Follows

variable {Q Q' : Cursor → List Cursor → Context → Prop} {outer : List Context} {ds : List Cursor}
  {contexts : List Context}

theorem grown (h : Follows Q outer ds contexts) {contexts' : List Context}
    (grown : Grown contexts contexts') : Follows Q outer ds contexts' := by
  cases ds with
  | nil => exact (grown.map_eq fun _ _ => rfl).trans h
  | cons d ds =>
    obtain ⟨k, rest, rfl, place, definition, about, below⟩ := h
    obtain ⟨more, rfl⟩ := grown
    exact ⟨_, rest, rfl, place, definition, about, below⟩

theorem ne_nil (h : Follows Q outer ds contexts) (nonempty : outer ≠ []) : contexts ≠ [] := by
  rintro rfl
  cases ds with
  | nil => exact nonempty (Eq.symm h)
  | cons d ds =>
    obtain ⟨k, rest, none, -⟩ := h
    cases none

theorem mono (h : Follows Q outer ds contexts)
    (kept : ∀ d ∈ ds, ∀ around k, Q d around k → Q' d around k) : Follows Q' outer ds contexts := by
  induction ds generalizing contexts with
  | nil => exact h
  | cons d ds ih =>
    obtain ⟨k, rest, rfl, place, definition, about, below⟩ := h
    exact ⟨k, rest, rfl, place, definition, kept d (by simp) ds _ about,
      ih below fun d' hd' => kept d' (by simp [hd'])⟩

/-- The contexts above the outer ones are at the places of the definitions. -/
theorem split (h : Follows Q outer ds contexts) :
    ∃ inner below, contexts = inner ++ below ∧ inner.map Context.place = ds.map some ∧
      below.map Context.fixed = outer := by
  induction ds generalizing contexts with
  | nil => exact ⟨[], contexts, rfl, rfl, h⟩
  | cons d ds ih =>
    obtain ⟨k, rest, rfl, place, -, -, follows⟩ := h
    obtain ⟨inner, below, rfl, places, outermost⟩ := ih follows
    exact ⟨k :: inner, below, rfl, by rw [List.map_cons, List.map_cons, place, places], outermost⟩

/-- All contexts that have a place are definitions, if the outer ones have none. -/
theorem placed (h : Follows Q outer ds contexts) (unplaced : ∀ k ∈ outer, k.place = none) :
    Placed contexts := by
  induction ds generalizing contexts with
  | nil =>
    intro k hk d hd
    have mem : k.fixed ∈ outer := h ▸ List.mem_map_of_mem hk
    have none : k.fixed.place = Option.none := unplaced k.fixed mem
    rw [show k.fixed.place = k.place from rfl, hd] at none
    cases none
  | cons d ds ih =>
    obtain ⟨k, rest, rfl, place, definition, -, below⟩ := h
    intro k' hk' d' hd'
    rcases List.mem_cons.mp hk' with rfl | hk'
    · obtain rfl : d = d' := Option.some.inj (place ▸ hd')
      exact definition
    · exact ih below k' hk' d' hd'

/-- The effect of a step keeps the contexts in line with the definitions that the indexer is inside
of. `Q` may turn into `Q'` with the step. -/
theorem step {ρ : Type} [Recorder ρ] {A : Actions ρ} {D : Discipline ρ}
    (settled : ∀ {s t}, D.goes s t → Settled s t) {held held' : Held} {s t : Trace ρ} {x : Step}
    (effect : A.Effect D held s held' t x) {R : List Cursor → Cursor → Prop} {ds' : List Cursor}
    (shifts : Shifts R ds ds' x) (unplaced : ∀ k ∈ outer, k.place = none)
    (kept : ∀ d ∈ ds, ∀ around k, Q d around k → Q' d around k)
    (entered : ∀ c k rest, x = .enter c → t.contexts = k :: rest → Q' c ds k.fixed)
    (follows : Follows Q outer ds s.contexts) : Follows Q' outer ds' t.contexts := by
  have quiet : (∀ c, x ≠ .enter c) → (∀ c, x ≠ .leave c) → ds' = ds →
      Follows Q' outer ds' t.contexts := by
    rintro enters leaves rfl
    exact (follows.grown (effect.grown settled enters leaves)).mono kept
  cases x with
  | enter c =>
    obtain ⟨-, definition, rfl⟩ := shifts
    obtain ⟨-, o, symbol, s₁, u, -, -, goes, -, -, rfl⟩ := effect
    exact ⟨_, u.contexts, rfl, rfl, definition, entered c _ _ rfl rfl,
      (follows.grown (settled goes).contexts).mono kept⟩
  | leave c =>
    obtain ⟨-, rfl⟩ := effect
    rcases shifts with ⟨-, rfl⟩ | ⟨plain, rfl⟩
    · obtain ⟨k, rest, contexts, place, -, -, below⟩ := follows
      have left : leaveFrom c s.contexts = rest := by
        simp [contexts, leaveFrom, place, Cursor.sameAs_self]
      rw [left]
      exact below.mono fun d hd => kept d (by simp [hd])
    · rw [(follows.placed unplaced).leaveFrom_eq plain]
      exact follows.mono kept
  | look c => exact quiet (by simp) (by simp) shifts.2.2
  | parameter c => exact quiet (by simp) (by simp) shifts.2
  | _ => exact quiet (by simp) (by simp) shifts

end Follows

end CodeIndex
