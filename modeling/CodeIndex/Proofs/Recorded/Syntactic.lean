import CodeIndex.Proofs.DefinitionNames

/-!
# What the syntactic indexer records for each place

The calls that the syntactic indexer makes for a place, all of them and in order. `NameCalls` lists
what can become of a name; `Records` says it for every kind of place. Both hold of every event of a
run that returns, so what is said about the log of a run can be read off from them.
-/

namespace CodeIndex.Syntactic

open Indexing

/-! ### Names -/

/-- The calls for a name that has the range `r`. -/
inductive NameCalls (c : Cursor) (r : SourceRange) : List Call → Prop where
  /-- It stands in front of a dot. -/
  | qualifier (stored : String) (i f : Value) :
      NameCalls c r [.symbol stored, .qualifierLocation i f r]
  /-- It refers to something unknown. -/
  | unsolved (context : Value) (kind : ReferenceKind) (f : Value) :
      NameCalls c r [.unsolvedReference context kind f r]
  /-- It is a local variable. -/
  | localVariable (name : String) (i f : Value) :
      NameCalls c r [.localSymbol name, .localLocation i f r]
  /-- It defines a variable outside of all functions. -/
  | lasting (stored : String) (kind : SymbolKind) (i f : Value)
      (outside : c.definitionAround?.any (Cursor.isKind .funcdef) = false) :
      NameCalls c r [.symbol stored, .symbolKind i kind, .definitionKind i .explicit,
        .symbolLocation i f r]
  /-- It defines a field, of which it is also a use. -/
  | field (stored : String) (context : Value) (kind : ReferenceKind) (i j f g : Value)
      (ofObject : isAttribute c = .ok true)
      (inside : c.definitionAround?.any (Cursor.isKind .funcdef) = true) :
      NameCalls c r [.symbol stored, .symbolKind i .field, .definitionKind i .explicit,
        .symbolLocation i f r, .reference context i kind, .referenceLocation j g r]

/-- What is logged for a name that is no constant. -/
theorem nameCalls_of_occurs {s : Setting} {σ : Trace Client} {top : Context} {c : Cursor}
    {x : String} {r : SourceRange} {o : Occurrence} {entries : List LogEntry}
    (occurs : OccursAs s σ top c x o) (noConstant : x ∉ constantNames)
    (logged : o.Entries top σ.recorder.file x r entries) :
    NameCalls c r (entries.map LogEntry.call) := by
  cases occurs with
  | constant mem => exact absurd mem noConstant
  | qualifier =>
    cases logged with
    | qualifier i => exact .qualifier _ i _
  | bare _ _ taken =>
    cases taken with
    | imposed => cases logged; exact .unsolved _ _ _
    | defined _ _ as =>
      cases as with
      | unknown => cases logged; exact .unsolved _ _ _
      | declared =>
        cases logged with
        | declared i => exact .localVariable _ i _
      | lasting outside =>
        cases logged with
        | lasting _ _ i => exact .lasting _ _ i _ outside
      | member inside ofObject =>
        cases logged with
        | member _ _ i j => exact .field _ _ _ i j _ _ ofObject inside
    | used _ _ as =>
      cases as with
      | unknown => cases logged; exact .unsolved _ _ _
      | known =>
        cases logged with
        | known i => exact .localVariable _ i _

/-! ### All places -/

/-- The calls for a place. -/
def Records (c : Cursor) (xs : List Call) : Prop :=
  match c.tree.kind with
  | .classdef | .funcdef =>
    ∃ name, c.definedName = .ok name ∧ DefinitionCalls (some name) c xs
  | .param =>
    ∃ name r own i f, c.parameterName = .ok name ∧ name.range = .ok r ∧
      xs = [.localSymbol own, .localLocation i f r]
  | .name =>
    ∃ text r, c.tree.text = .ok text ∧ c.range = .ok r ∧
      if constantNames.contains text then xs = [] else NameCalls c r xs
  | .string => StringCalls c xs
  | .errorLeaf => ErrorCalls c xs
  | _ => xs = []

/-- What is logged for a place that is neither a definition nor a parameter. -/
theorem records_of_visited {s : Setting} {e : Event Client} {c : Cursor}
    (visited : Visited s c e.before e.after) (plain : c.tree.kind.isDefinition = false)
    (other : c.tree.kind ≠ .param) : Records c e.made := by
  unfold Records
  cases visited with
  | @name x r _ _ _ isName text range contexts occurs logged =>
    obtain ⟨entries, logged, calls⟩ := logged.entries
    rw [isName, Event.made, Event.calls_eq calls]
    refine ⟨x, r, text, range, ?_⟩
    by_cases constant : x ∈ constantNames
    · cases occurs with
      | constant =>
        cases logged
        rw [if_pos (by simpa using constant)]
        rfl
      | qualifier noConstant | bare noConstant => exact absurd constant noConstant
    · rw [if_neg (by simpa using constant)]
      exact nameCalls_of_occurs occurs constant logged
  | string isString adds calls =>
    rwa [isString, Event.made, Event.calls_eq adds.calls]
  | errorLeaf isError adds calls =>
    rwa [isError, Event.made, Event.calls_eq adds.calls]
  | other noName noString noError same =>
    rw [Event.made, Event.calls_eq (by rw [same, List.append_nil])]
    cases kind : c.tree.kind with
    | classdef | funcdef => simp [kind, NodeKind.isDefinition] at plain
    | param => exact absurd kind other
    | name => exact absurd kind noName
    | string => exact absurd kind noString
    | errorLeaf => exact absurd kind noError
    | _ => rfl

/-- The step is the one for a place of that kind. -/
def Fits : Step → Prop
  | .look c => c.tree.kind ≠ .param
  | .parameter c => c.tree.kind = .param
  | _ => True

theorem fits_attempt {α : Type} {x : Except Fault α} {f : α → List Step}
    (h : ∀ a, x = .ok a → ∀ step ∈ f a, Fits step) : ∀ step ∈ attempt x f, Fits step := by
  cases x with
  | ok a => exact h a rfl
  | error e => simp [attempt, Fits]

section Parts

variable {ts : List Tree} (ih : ∀ t ∈ ts, ∀ above, ∀ step ∈ steps above t, Fits step)
include ih

theorem fits_partSteps (place : Nat → List Ancestor) (selected : Nat → Bool) (i : Nat) :
    ∀ step ∈ partSteps place selected i ts, Fits step := by
  intro step hstep
  rw [partSteps_eq] at hstep
  obtain ⟨p, hp, hstep⟩ := List.mem_flatMap.mp hstep
  split at hstep
  · exact ih p.1 (List.fst_mem_of_mem_zipIdx hp) _ step hstep
  · cases hstep

theorem fits_importSteps (place : Nat → List Ancestor) (c : Cursor) (imposed : Bool) (i : Nat) :
    ∀ step ∈ importSteps place c imposed i ts, Fits step := by
  induction ts generalizing i imposed with
  | nil => cases imposed <;> simp [importSteps, Fits]
  | cons t ts ih' =>
    unfold importSteps
    rw [List.forall_mem_append, List.forall_mem_append]
    refine ⟨⟨ih t (by simp) _, fits_attempt fun begins _ => ?_⟩,
      ih' (fun t ht => ih t (by simp [ht])) _ _⟩
    split <;> simp [Fits]

theorem fits_aliasSteps (place : Nat → List Ancestor) (i : Nat) :
    ∀ step ∈ aliasSteps place i ts, Fits step := by
  induction ts generalizing i with
  | nil => simp [aliasSteps]
  | cons t ts ih' =>
    unfold aliasSteps
    rw [List.forall_mem_append, List.forall_mem_append]
    refine ⟨⟨ih t (by simp) _, fits_attempt fun begins _ => ?_⟩,
      ih' (fun t ht => ih t (by simp [ht])) _⟩
    split <;> simp [Fits]

end Parts

theorem fits_closing (c : Cursor) : ∀ step ∈ closing c, Fits step := by
  unfold closing
  split <;> simp [Fits]

/-- The steps are the ones for places of their kinds, and likewise those for the parts of a tree
that are parameters. -/
theorem fits_steps (t : Tree) : (∀ above, ∀ step ∈ steps above t, Fits step) ∧
    ∀ above, ∀ step ∈ parameterStepsOf above t, Fits step := by
  induction t using Tree.parts_induction with
  | leaf token =>
    refine ⟨fun above => ?_, fun above => by simp [parameterStepsOf]⟩
    unfold steps tokenSteps
    rw [List.forall_mem_cons, List.forall_mem_append]
    refine ⟨trivial, ?_, by simp [Fits]⟩
    split
    iterate 7 simp [Fits]
    rename_i isParameter _ _ _ _
    exact List.forall_mem_cons.mpr ⟨isParameter, fits_closing _⟩
  | node kind parts ih =>
    have visits := fun t ht => (ih t ht).1
    refine ⟨fun above => ?_, fun above => ?_⟩
    · unfold steps
      rw [List.forall_mem_cons, List.forall_mem_append]
      refine ⟨trivial, ?_, by simp [Fits]⟩
      split
      · -- a class
        rw [List.forall_mem_cons, List.forall_mem_append, List.forall_mem_append]
        refine ⟨trivial, ⟨fits_attempt fun bases _ => ?_, fits_attempt fun body _ => ?_⟩,
          by simp [Fits]⟩
        · cases bases with
          | none => simp
          | some i =>
            refine fits_attempt fun b _ => ?_
            rw [List.forall_mem_cons, List.forall_mem_append]
            exact ⟨trivial, fits_partSteps visits _ _ _, by simp [Fits]⟩
        · exact fits_partSteps visits _ _ _
      · -- a function
        rw [List.forall_mem_cons, List.forall_mem_append, List.forall_mem_append]
        refine ⟨trivial, ⟨fits_attempt fun _ _ step hstep => ?_, fits_attempt fun body _ => ?_⟩,
          by simp [Fits]⟩
        · rw [parameterSteps_eq] at hstep
          obtain ⟨p, hp, hstep⟩ := List.mem_flatMap.mp hstep
          split at hstep
          · exact (ih p.1 (List.fst_mem_of_mem_zipIdx hp)).2 _ step hstep
          · cases hstep
        · exact fits_partSteps visits _ _ _
      · -- a parameter
        rw [List.forall_mem_cons, List.forall_mem_append]
        refine ⟨rfl, fits_attempt fun default _ => ?_, by simp [Fits]⟩
        cases default with
        | none => simp
        | some i => exact fits_partSteps visits _ _ _
      · exact fits_attempt fun first _ => fits_partSteps visits _ _ _
      · exact fits_importSteps visits _ _ _ _
      · rw [List.forall_mem_cons, List.forall_mem_append]
        exact ⟨trivial, fits_aliasSteps visits _ _, by simp [Fits]⟩
      · rw [List.forall_mem_cons, List.forall_mem_append]
        exact ⟨trivial, fits_aliasSteps visits _ _, by simp [Fits]⟩
      · rw [List.forall_mem_cons, List.forall_mem_append]
        exact ⟨trivial, fits_partSteps visits _ _ _, by simp [Fits]⟩
      · rename_i isParameter _ _ _ _ _
        rw [List.forall_mem_cons, List.forall_mem_append]
        exact ⟨isParameter, fits_partSteps visits _ _ _, fits_closing _⟩
    · unfold parameterStepsOf
      exact fits_partSteps visits _ _ _

/-! ### Events -/

theorem nameAt_of_opening {s : Setting} {contexts : List Context} {c : Cursor} {o : Opening}
    (h : (actions s : Actions Client).opening contexts c = .ok o) :
    ∃ name, c.definedName = .ok name ∧ o.nameAt = some name := by
  change (if c.isKind .classdef = true then _ else _) = _ at h
  split at h
  · obtain ⟨name, hname, h⟩ := except_bind_eq_ok.mp h
    obtain ⟨full, -, h⟩ := except_bind_eq_ok.mp h
    obtain rfl := Except.ok.inj h
    exact ⟨name, hname, rfl⟩
  · obtain ⟨name, hname, h⟩ := except_bind_eq_ok.mp h
    obtain ⟨full, -, h⟩ := except_bind_eq_ok.mp h
    cases contexts with
    | nil => cases h
    | cons top rest =>
      obtain ⟨ps, -, h⟩ := except_bind_eq_ok.mp h
      obtain ⟨parameters, -, h⟩ := except_bind_eq_ok.mp h
      obtain rfl := Except.ok.inj h
      exact ⟨name, hname, rfl⟩

section Events

variable {s : Setting} {t : Tree} {c : Client} {e : Event Client}

theorem fits_of_event (completed : (walk s t).Completed c) (he : e ∈ (walk s t).events c.fresh) :
    Fits e.step := by
  refine (fits_steps t).1 [] e.step ?_
  rw [← show _ = steps [] t from completed.taken]
  exact List.mem_map_of_mem he

/-- What is logged at the events of a run that returns. -/
theorem records_of_event (completed : (walk s t).Completed c)
    (he : e ∈ (walk s t).events c.fresh) {d : Cursor} (hd : e.step.subject? = some d) :
    Records d e.made := by
  obtain ⟨held₁, held₂, done⟩ := completed.performed e he
  have context := Walk.contexts_ne_nil (disciplined_actions s) (way_inside t) he
  obtain ⟨-, ds, ds', -, shifts, -⟩ := follows_events he
  have fits := fits_of_event completed he
  cases hstep : e.step with
  | look d' =>
    rw [hstep] at done hd fits shifts
    obtain rfl := Option.some.inj hd
    exact records_of_visited (visited_of_done context done) shifts.2.1 fits
  | enter d' =>
    rw [hstep] at done hd shifts
    obtain rfl := Option.some.inj hd
    obtain ⟨contexts, o, opened, calls⟩ := Actions.made_enter context done
    obtain ⟨name, hname, nameAt⟩ := nameAt_of_opening opened
    rw [nameAt] at calls
    unfold Records
    rcases NodeKind.eq_of_isDefinition shifts.2.1 with kind | kind <;> rw [kind] <;>
      exact ⟨name, hname, calls⟩
  | parameter d' =>
    rw [hstep] at done hd fits
    obtain rfl := Option.some.inj hd
    obtain ⟨x, stands⟩ := Trace.exists_stands context
    obtain ⟨name, r, own, i, v, hname, hr, entries⟩ := (writes_visitParameter d').event stands done
    unfold Records
    rw [show d'.tree.kind = .param from fits]
    exact ⟨name, r, own, i, _, hname, hr, by rw [Event.made, entries]; rfl⟩
  | _ =>
    rw [hstep] at hd
    cases hd

end Events

end CodeIndex.Syntactic
