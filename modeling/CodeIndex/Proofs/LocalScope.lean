import CodeIndex.Proofs.DefinitionNames
import Mathlib.Data.List.Basic

/-!
# The scope of local variables

The syntactic indexer keeps a list of local variables in the context of each function. The list is
written where a name is defined and read where one is used, which may be far apart and with other
functions in between. This module says what the list holds at every step of every run: the
parameters of the function, and the names that were defined since it was entered in places of which
it is the innermost definition.

## What is proved

* `look_cases` — what is done for a place makes a local variable known just if it records the place
  as the definition of one.
* `knows_step`, `knows_events` — one step keeps the lists in line with the history, and so they are
  in line with it in every run.
* `locals_known_in_their_function` — so a name that is used is recorded as a local variable of the
  innermost definition around it if it is known there, and as a reference to something unknown
  otherwise.
* `not_scoped_by_whole_past` — not all trees allow to say this without conditions.
-/

namespace CodeIndex

open Indexing

/-! ### Histories of local variables -/

/-- At the event the local variable `x` of the function `f` is defined: a defining name is looked at
whose innermost definition is the function, and it is recorded as a local variable. -/
def Event.DefinesLocal (e : Event Client) (f : Cursor) (x : String) : Prop :=
  ∃ d, e.step = .look d ∧ d.isName = true ∧ d.isDefining = .ok true ∧
    d.definitionAround? = some f ∧ d.tree.text = .ok x ∧ e.made.any Call.isLocal = true

/-- The function `f` was entered under `name` when it was entered last, and since then the events
`recent` have happened. -/
def EnteredLast (past : List (Event Client)) (f : Cursor) (name : QualifiedName)
    (recent : List (Event Client)) : Prop :=
  ∃ earlier e symbol, past = earlier ++ e :: recent ∧ e.step = .enter f ∧
    (∀ e' ∈ recent, e'.step ≠ .enter f) ∧ e.calls.head? = some ⟨.symbol name.stored, symbol⟩

/-- The names of the parameters of a function. -/
def Cursor.parameterNames (f : Cursor) : Except Fault (List String) := do
  (← f.parameterList).mapM fun p => do (← p.parameterName).tree.text

/-- The local variable `x` of the function `f` is known after the events `recent` inside of it. -/
def KnownAfter (recent : List (Event Client)) (f : Cursor) (x : String) : Prop :=
  f.isKind .funcdef = true ∧
    ((∃ names, f.parameterNames = .ok names ∧ x ∈ names) ∨ ∃ e ∈ recent, e.DefinesLocal f x)

/-- The context of the definition `d` has its name, and the local variables that are known in it. -/
def HoldsLocals (past : List (Event Client)) (d : Cursor) (k : Context) : Prop :=
  ∃ name recent, EnteredLast past d name recent ∧ k.name = name.display ∧
    ∀ x, x ∈ k.locals ↔ KnownAfter recent d x

/-- The contexts of the definitions `ds` hold their local variables. Below them there are none. -/
def Knows (past : List (Event Client)) : List Cursor → List Context → Prop
  | [], contexts => ∀ k ∈ contexts, k.locals = []
  | d :: ds, contexts => ∃ k rest, contexts = k :: rest ∧ HoldsLocals past d k ∧ Knows past ds rest

section Histories

variable {past : List (Event Client)} {e : Event Client} {d : Cursor} {k : Context}
  {ds : List Cursor} {contexts : List Context}

/-- What happened since a definition was entered last is determined. -/
theorem EnteredLast.unique {f : Cursor} {name name' : QualifiedName}
    {recent recent' : List (Event Client)} (h : EnteredLast past f name recent)
    (h' : EnteredLast past f name' recent') : recent = recent' := by
  obtain ⟨earlier, e, symbol, rfl, enters, last, -⟩ := h
  obtain ⟨earlier', e', symbol', split, enters', last', -⟩ := h'
  rcases List.append_eq_append_iff.mp split with ⟨between, -, tails⟩ | ⟨between, -, tails⟩
  · cases between with
    | nil => exact (List.cons.inj tails).2
    | cons b between =>
      obtain ⟨-, rfl⟩ := List.cons.inj tails
      exact absurd enters' (last e' (by simp))
  · cases between with
    | nil => exact (List.cons.inj tails).2.symm
    | cons b between =>
      obtain ⟨-, rfl⟩ := List.cons.inj tails
      exact absurd enters (last' e (by simp))

theorem EnteredLast.later {f : Cursor} {name : QualifiedName} {recent : List (Event Client)}
    (h : EnteredLast past f name recent) (other : e.step ≠ .enter f) :
    EnteredLast (past ++ [e]) f name (recent ++ [e]) := by
  obtain ⟨earlier, e₀, symbol, rfl, enters, last, calls⟩ := h
  refine ⟨earlier, e₀, symbol, by simp, enters, fun e' he' => ?_, calls⟩
  rcases List.mem_append.mp he' with he' | he'
  · exact last e' he'
  · obtain rfl := List.mem_singleton.mp he'
    exact other

/-- The local variables after one more event are those before and the one that it defines. -/
theorem HoldsLocals.later (h : HoldsLocals past d k) (other : e.step ≠ .enter d)
    {locals : List String}
    (new : ∀ x, x ∈ locals ↔ x ∈ k.locals ∨ d.isKind .funcdef = true ∧ e.DefinesLocal d x) :
    HoldsLocals (past ++ [e]) d { k with locals } := by
  obtain ⟨name, recent, entered, named, known⟩ := h
  refine ⟨name, recent ++ [e], entered.later other, named, fun x => ?_⟩
  rw [new, known, KnownAfter, KnownAfter]
  simp only [List.mem_append, List.mem_singleton, or_and_right, exists_or, exists_eq_left]
  rw [← and_or_left, or_assoc]

/-- An event that neither enters a definition nor defines a local variable changes nothing. -/
theorem Knows.later (h : Knows past ds contexts) (others : ∀ d ∈ ds, e.step ≠ .enter d)
    (nothing : ∀ d ∈ ds, ∀ x, ¬ e.DefinesLocal d x) : Knows (past ++ [e]) ds contexts := by
  induction ds generalizing contexts with
  | nil => exact h
  | cons d ds ih =>
    obtain ⟨k, rest, rfl, holds, below⟩ := h
    refine ⟨k, rest, rfl, holds.later (others d (by simp)) fun x => ?_, ?_⟩
    · simp [nothing d (by simp) x]
    · exact ih below (fun d' hd' => others d' (by simp [hd'])) fun d' hd' =>
        nothing d' (by simp [hd'])

/-- A local variable is defined in the innermost definition. -/
theorem Knows.declared (h : Knows past (d :: ds) contexts) {c : Cursor} {x : String}
    (looks : e.step = .look c) (isFunction : d.isKind .funcdef = true)
    (defines : ∀ f y, e.DefinesLocal f y ↔ f = d ∧ y = x) (apart : d ∉ ds) :
    Knows (past ++ [e]) (d :: ds) (withLocal x contexts) := by
  obtain ⟨k, rest, rfl, holds, below⟩ := h
  have others : ∀ f, e.step ≠ .enter f := by simp [looks]
  refine ⟨_, rest, rfl, holds.later (others d) fun y => ?_, below.later (fun f _ => others f) ?_⟩
  · simp [defines, isFunction]
  · intro f hf y defined
    obtain ⟨rfl, -⟩ := (defines f y).mp defined
    exact apart hf

end Histories

/-! ### One step -/

section Steps

variable {past : List (Event Client)} {ds ds' : List Cursor} {σ τ : Trace Client} {c : Cursor}
  {held held' : Held}

/-- A definition is not among those around it. -/
theorem Around.not_mem (around : Around ds c) : c ∉ ds := fun inside =>
  absurd (Cursor.length_lt_of_mem (around ▸ inside)) (Nat.lt_irrefl _)

/-- A definition that is entered is put on top of the contexts, which are as they were. -/
theorem Actions.contexts_enter {A : Actions Client} (context : σ.contexts ≠ [])
    (done : A.perform (.enter c) held σ = .ok held' τ) : τ.contexts.tail = σ.contexts := by
  obtain ⟨x, stands⟩ := Trace.exists_stands context
  have entered : Outcome (fun _ τ => τ.contexts.tail = σ.contexts) (fun _ => True)
      (A.perform (.enter c) held σ) := by
    refine Outcome.bind (Outcome.bind (Outcome.liftBind trivial fun o _ => ?_))
    refine Outcome.bind ((writes_define o.name o.kind o.nameAt c σ stands).mono ?_
      fun _ _ => trivial)
    rintro symbol τ ⟨xs, adds, -⟩
    exact adds.contexts
  exact entered.of_ok done

namespace Syntactic

variable {s : Setting}

/-- What a step that does not end in a fault has done. -/
theorem effect_of_done {x : Step} (shifts : Shifts Around ds ds' x)
    (done : (actions s).perform x held σ = .ok held' τ) :
    (actions s).Effect (attribution True) held σ held' τ x := by
  have keeps : (actions s).Keeps (attribution True) x :=
    (disciplined_actions s).keeps shifts fun _ _ _ _ isTop => ⟨trivial, isTop⟩
  exact (Actions.outcome_perform keeps held trivial).of_ok done

/-- At first the local variables of a definition are the parameters, if it is a function. -/
theorem mem_locals_of_opening {contexts : List Context} {o : Opening}
    (definition : c.tree.kind.isDefinition = true)
    (h : (actions s : Actions Client).opening contexts c = .ok o) (x : String) :
    x ∈ o.locals ↔ KnownAfter [] c x := by
  change (if c.isKind .classdef = true then _ else _) = _ at h
  rcases NodeKind.eq_of_isDefinition definition with kind | kind
  · rw [if_pos (show c.isKind .classdef = true from decide_eq_true kind)] at h
    obtain ⟨name, -, h⟩ := except_bind_eq_ok.mp h
    obtain ⟨full, -, h⟩ := except_bind_eq_ok.mp h
    obtain rfl := Except.ok.inj h
    simp [KnownAfter, Cursor.isKind, Tree.isKind, kind]
  · rw [if_neg (by simp [Cursor.isKind, Tree.isKind, kind])] at h
    obtain ⟨name, -, h⟩ := except_bind_eq_ok.mp h
    obtain ⟨full, -, h⟩ := except_bind_eq_ok.mp h
    cases contexts with
    | nil => cases h
    | cons top rest =>
      obtain ⟨ps, hps, h⟩ := except_bind_eq_ok.mp h
      obtain ⟨parameters, hparameters, h⟩ := except_bind_eq_ok.mp h
      obtain rfl := Except.ok.inj h
      have names : c.parameterNames = .ok parameters := except_bind_eq_ok.mpr ⟨ps, hps, hparameters⟩
      simp [KnownAfter, Cursor.isKind, Tree.isKind, kind, names]

/-- A look at a place defines no local variable and makes none known, or it does both. -/
theorem look_cases (context : σ.contexts ≠ [])
    (done : (actions s).perform (.look c) held σ = .ok held' τ) :
    τ.contexts = σ.contexts ∧ (∀ f x, ¬ Event.DefinesLocal ⟨.look c, σ, τ⟩ f x) ∨
      ∃ f x, c.definitionAround? = some f ∧ f.isKind .funcdef = true ∧
        τ.contexts = withLocal x σ.contexts ∧
        ∀ f' y, Event.DefinesLocal ⟨.look c, σ, τ⟩ f' y ↔ f' = f ∧ y = x := by
  have quiet : τ.contexts = σ.contexts → (Event.made ⟨.look c, σ, τ⟩).any Call.isLocal = false →
      τ.contexts = σ.contexts ∧ ∀ f x, ¬ Event.DefinesLocal ⟨.look c, σ, τ⟩ f x := by
    refine fun same noLocal => ⟨same, ?_⟩
    rintro f x ⟨d, -, -, -, -, -, made⟩
    cases made.symm.trans noLocal
  cases visited_of_done context done with
  | @name x _ _ _ _ isName text range contexts occurs logged =>
    obtain ⟨⟨entries, logged, calls⟩, after⟩ := logged
    have made : Event.made ⟨.look c, σ, τ⟩ = entries.map LogEntry.call := by
      rw [Event.made, Event.calls_eq calls]
    rw [made] at quiet
    cases occurs with
    | constant | qualifier => cases logged; exact .inl (quiet after rfl)
    | bare _ _ taken =>
      cases taken with
      | imposed => cases logged; exact .inl (quiet after rfl)
      | used _ told as =>
        refine .inl ⟨by cases as <;> exact after, ?_⟩
        rintro f y ⟨d, looks, -, defines, -⟩
        obtain rfl := Step.look.inj looks
        cases told.symm.trans defines
      | defined _ told as =>
        cases as with
        | lasting | unknown | member => cases logged; exact .inl (quiet after rfl)
        | declared inside =>
          obtain ⟨f, around, isFunction⟩ := (Option.any_eq_true _ _).mp inside
          refine .inr ⟨f, x, around, isFunction, after, fun f' y => ⟨?_, ?_⟩⟩
          · rintro ⟨d, looks, -, -, around', text', -⟩
            obtain rfl := Step.look.inj looks
            exact ⟨Option.some.inj (around'.symm.trans around),
              Except.ok.inj (text'.symm.trans text)⟩
          · rintro ⟨rfl, rfl⟩
            refine ⟨c, rfl, decide_eq_true isName, told, around, text, ?_⟩
            rw [made]
            cases logged
            rfl
  | string _ adds strings =>
    obtain ⟨r, file, -, only⟩ := strings
    refine .inl (quiet adds.contexts ?_)
    rw [Event.made, Event.calls_eq adds.calls, only]
    split <;> rfl
  | errorLeaf _ adds errors =>
    obtain ⟨r, type, file, -, -, only⟩ := errors
    refine .inl (quiet adds.contexts ?_)
    rw [Event.made, Event.calls_eq adds.calls, only]
    rfl
  | other _ _ _ same =>
    refine .inl (quiet (by rw [same]) ?_)
    rw [Event.made, Event.calls_eq (by rw [same, List.append_nil])]
    rfl

/-- A look keeps the lists of local variables in line with the history. -/
theorem knows_look (context : σ.contexts ≠ []) (knows : Knows past ds σ.contexts)
    (around : Around ds c)
    (done : (actions s).perform (.look c) held σ = .ok held' τ) :
    Knows (past ++ [⟨.look c, σ, τ⟩]) ds τ.contexts := by
  rcases look_cases context done with ⟨contexts, nothing⟩ |
    ⟨f, x, inFunction, isFunction, contexts, defines⟩
  · rw [contexts]
    exact knows.later (by simp) fun d _ => nothing d
  · rw [Cursor.definitionAround?_eq, around] at inFunction
    cases ds with
    | nil => cases inFunction
    | cons d ds =>
      obtain rfl := Option.some.inj inFunction
      rw [contexts]
      exact knows.declared rfl isFunction defines
        (Around.not_mem (Cursor.definitionsAmong_tail around))

/-- So does the entering of a definition. -/
theorem knows_enter (context : σ.contexts ≠ []) (knows : Knows past ds σ.contexts)
    (around : Around ds c) (definition : c.tree.kind.isDefinition = true)
    (done : (actions s).perform (.enter c) held σ = .ok held' τ) :
    Knows (past ++ [⟨.enter c, σ, τ⟩]) (c :: ds) τ.contexts := by
  have effect := effect_of_done (x := .enter c) ⟨around, definition, rfl⟩ done
  obtain ⟨o, symbol, rest, more, opened, -, contexts, calls⟩ := calls_of_enter effect
  obtain rfl : rest = σ.contexts := by
    have tail := Actions.contexts_enter context done
    rwa [contexts] at tail
  refine ⟨_, _, contexts, ⟨o.name, [], ⟨past, _, symbol, rfl, rfl, by simp, ?_⟩, rfl, ?_⟩, ?_⟩
  · rw [Event.calls_eq (e := ⟨.enter c, σ, τ⟩) calls]
    rfl
  · exact mem_locals_of_opening definition opened
  · refine knows.later (fun d hd same => ?_) (by simp [Event.DefinesLocal])
    obtain rfl := Step.enter.inj same
    exact around.not_mem hd

/-- One step keeps the lists of local variables in line with the history. -/
theorem knows_step {outer : List Context} (nonempty : outer ≠ [])
    (unplaced : ∀ k ∈ outer, k.place = none) {x : Step} (shifts : Shifts Around ds ds' x)
    (follows : Follows (fun _ _ _ => True) outer ds σ.contexts) (knows : Knows past ds σ.contexts)
    (done : (actions s).perform x held σ = .ok held' τ) :
    Knows (past ++ [⟨x, σ, τ⟩]) ds' τ.contexts := by
  have others : (∀ c, x ≠ .enter c) → (∀ c, x ≠ .look c) → ∀ {ds contexts},
      Knows past ds contexts → Knows (past ++ [⟨x, σ, τ⟩]) ds contexts := by
    intro enters looks ds contexts knows
    refine knows.later (fun d _ => enters d) fun d _ y defines => ?_
    obtain ⟨c, look, -⟩ := defines
    exact looks c look
  have effect := effect_of_done shifts done
  have context := follows.ne_nil nonempty
  cases x with
  | look c =>
    obtain ⟨around, -, rfl⟩ := shifts
    exact knows_look context knows around done
  | enter c =>
    obtain ⟨around, definition, rfl⟩ := shifts
    exact knows_enter context knows around definition done
  | leave c =>
    obtain ⟨-, rfl⟩ := effect
    refine others (by simp) (by simp) ?_
    rcases shifts with ⟨-, rfl⟩ | ⟨plain, rfl⟩
    · obtain ⟨k, rest, contexts, -, below⟩ := knows
      obtain ⟨k', rest', contexts', place, -⟩ := follows
      obtain ⟨rfl, rfl⟩ := List.cons.inj (contexts.symm.trans contexts')
      simpa [contexts, leaveFrom, place, Cursor.sameAs_self] using below
    · change Knows past _ (leaveFrom c σ.contexts)
      rwa [(follows.placed unplaced).leaveFrom_eq plain]
  | list c =>
    obtain rfl := shifts
    obtain ⟨_, _, listed, done⟩ := bind_eq_ok.mp done
    obtain ⟨-, rfl⟩ := pure_eq_ok.mp done
    have same := ((adds_beginListing _ c σ).of_ok listed).contexts
    exact others (by simp) (by simp) (same ▸ knows)
  | unlist =>
    obtain rfl := shifts
    obtain ⟨_, _, listed, done⟩ := bind_eq_ok.mp done
    obtain ⟨-, rfl⟩ := pure_eq_ok.mp done
    have same := ((adds_endListing _ σ).of_ok listed).contexts
    exact others (by simp) (by simp) (same ▸ knows)
  | parameter c =>
    obtain ⟨-, rfl⟩ := shifts
    obtain ⟨x, stands⟩ := Trace.exists_stands context
    obtain ⟨entries, adds, -⟩ := (writes_visitParameter c).adds stands done
    exact others (by simp) (by simp) (adds.contexts ▸ knows)
  | aliasWord =>
    obtain rfl := shifts
    rcases held with _ | ⟨_ | _, _⟩
    all_goals
      obtain ⟨-, rfl⟩ := effect
      exact others (by simp) (by simp) knows
  | impose | lift | drop | beginAlias | endAlias =>
    obtain rfl := shifts
    obtain ⟨-, rfl⟩ := effect
    exact others (by simp) (by simp) knows
  | fail fault => exact effect.elim

end Syntactic

end Steps

/-! ### Uses -/

namespace Syntactic

/-- The place uses the variable `x`: it is a name that is not a constant, does not stand in front of
a dot, defines nothing and is not an attribute. -/
@[mk_iff]
structure UsesVariable (d : Cursor) (x : String) : Prop where
  isName : d.isName = true
  text : d.tree.text = .ok x
  noConstant : x ∉ constantNames
  noQualifier : followedBy "." d = false
  definesNothing : d.isDefining = .ok false
  noAttribute : isAttribute d ≠ .ok true

instance (d : Cursor) (x : String) : Decidable (UsesVariable d x) :=
  decidable_of_iff _ (usesVariable_iff d x).symm

/-- The event `e`, which has happened after the events `earlier`, looks at the place `d`, which uses
the variable `x`. -/
structure UseIn (events earlier : List (Event Client)) (e : Event Client) (d : Cursor)
    (x : String) : Prop where
  split : ∃ later, events = earlier ++ e :: later
  looks : e.step = .look d
  uses : UsesVariable d x
  undecided : Undecided e.before.kinds

/-- If the place is part of a trailer, then what stands before it there is a token. -/
def AfterToken (d : Cursor) : Prop :=
  d.parent?.any (Cursor.isKind .trailer) = true → ∀ b ∈ d.previousSibling?, b.tree.isLeaf = true

instance (d : Cursor) : Decidable (AfterToken d) :=
  inferInstanceAs (Decidable (_ → ∀ b ∈ d.previousSibling?, _))

section Uses

variable {s : Setting} {d : Cursor} {x : String} {σ : Trace Client} {top : Context}
  {rest : List Context} {r : SourceRange}

theorem visitSelf_of_isName (isName : d.isName = true) :
    (visitSelf s d : Indexing Client Unit) = visitName s d := by
  unfold visitSelf
  rw [show d.tree.kind = .name from of_decide_eq_true isName]

/-- A name about which no imposed kind decides defines a variable or uses one. -/
theorem visitSelf_of_undecided (isName : d.isName = true) (text : d.tree.text = .ok x)
    (noConstant : x ∉ constantNames) (noQualifier : followedBy "." d = false)
    (undecided : Undecided σ.kinds) (contexts : σ.contexts = top :: rest) {defines : Bool}
    (told : d.isDefining = .ok defines) :
    visitSelf s d σ =
      (if defines then visitDefining s d (if followedBy "(" d then .call else .usage)
        else visitUse d (if followedBy "(" d then .call else .usage) : Indexing Client Unit) σ := by
  rw [visitSelf_of_isName isName]
  change (if σ.contexts.isEmpty = true then pure () else _ : Indexing Client Unit) σ = _
  rw [contexts, if_neg (by simp), text, lift_ok, pure_bind, if_neg (by simp [noConstant]),
    if_neg (by simp [noQualifier]), bind_of_ok (imposedKind_of_undecided undecided)]
  dsimp only
  rw [told, lift_ok, pure_bind]

/-- It can be told whether a place after a token is an attribute. -/
theorem isAttribute_of_use (use : UsesVariable d x) (afterToken : AfterToken d) :
    isAttribute d = .ok false := by
  obtain ⟨answer, told⟩ : ∃ answer, isAttribute d = .ok answer := by
    unfold isAttribute
    by_cases inTrailer : d.parent?.any (Cursor.isKind .trailer) = true
    · rw [if_pos inTrailer]
      cases before : d.previousSibling? with
      | none => exact ⟨_, rfl⟩
      | some b =>
        obtain ⟨text, htext⟩ := Tree.text_of_isLeaf (afterToken inTrailer b before)
        exact ⟨_, except_bind_eq_ok.mpr ⟨text, htext, rfl⟩⟩
    · exact ⟨false, if_neg inTrailer⟩
  cases answer with
  | false => exact told
  | true => exact absurd told use.noAttribute

/-- What is done for a use depends on the local variables of the innermost context. -/
theorem visitSelf_of_use (use : UsesVariable d x) (afterToken : AfterToken d)
    (undecided : Undecided σ.kinds) (contexts : σ.contexts = top :: rest) :
    visitSelf s d σ = (if top.locals.contains x then recordLocal d
      else referToUnsolved (if followedBy "(" d then .call else .usage) d :
        Indexing Client Unit) σ := by
  rw [visitSelf_of_undecided use.isName use.text use.noConstant use.noQualifier undecided contexts
    use.definesNothing, if_neg (by simp), visitUse, isAttribute_of_use use afterToken, lift_ok,
    pure_bind, context_bind, contexts, use.text]
  rfl

end Uses

/-! ### Whole runs -/

/-- At the place `d` the variable `x` is known as a local variable of the innermost definition
around it, a function that was entered under `name`. -/
def KnownAs (past : List (Event Client)) (d : Cursor) (x : String) (name : QualifiedName) : Prop :=
  ∃ f recent, d.definitionAround? = some f ∧ EnteredLast past f name recent ∧ KnownAfter recent f x

section Runs

variable {past : List (Event Client)} {ds : List Cursor} {top : Context} {rest : List Context}
  {d : Cursor} {x : String}

/-- The local variables of the innermost context are known. -/
theorem knownAs_of_mem (knows : Knows past ds (top :: rest)) (around : Around ds d)
    (mem : x ∈ top.locals) : ∃ name, KnownAs past d x name ∧ top.name = name.display := by
  cases ds with
  | nil => simp [knows top (by simp)] at mem
  | cons f ds =>
    obtain ⟨k, below, same, ⟨name, recent, entered, named, known⟩, -⟩ := knows
    obtain ⟨rfl, rfl⟩ := List.cons.inj same
    have inFunction : d.definitionAround? = some f := by
      rw [Cursor.definitionAround?_eq, around]
      rfl
    exact ⟨name, ⟨f, recent, inFunction, entered, (known x).mp mem⟩, named⟩

/-- No others are. -/
theorem mem_of_knownAs (knows : Knows past ds (top :: rest)) (around : Around ds d)
    {name : QualifiedName} (h : KnownAs past d x name) : x ∈ top.locals := by
  obtain ⟨f, recent, inFunction, entered, known⟩ := h
  rw [Cursor.definitionAround?_eq, around] at inFunction
  cases ds with
  | nil => cases inFunction
  | cons f' ds =>
    obtain rfl := Option.some.inj inFunction
    obtain ⟨k, below, same, ⟨name', recent', entered', -, known'⟩, -⟩ := knows
    obtain ⟨rfl, rfl⟩ := List.cons.inj same
    rw [known', entered'.unique entered]
    exact known

variable {s : Setting} {t : Tree} {c : Client} {earlier later : List (Event Client)}
  {e : Event Client}

/-- In every run the lists of local variables are in line with the history. -/
theorem knows_events (inPlace : t.parametersInPlace = true)
    (split : (walk s t : Walk Client).events c.fresh = earlier ++ e :: later) :
    ∃ ds ds', Shifts Around ds ds' e.step ∧ Knows earlier ds e.before.contexts := by
  cases h : start (walk s t : Walk Client).source (walk s t : Walk Client).moduleName c.fresh with
  | error fault σ =>
    rw [Walk.events, h] at split
    simp at split
  | ok _ σ =>
    have begins := Walk.begins_of_start h
    have empty : Knows [] [] σ.contexts := by
      intro k hk
      rw [← begins.fixed] at hk
      obtain ⟨k', -, rfl⟩ := List.mem_map.mp hk
      rfl
    rw [Walk.events_of_start h] at split
    -- the contexts have to be those of the definitions for the right one to be left
    refine (way_around inPlace).history
      (I := fun past ds τ => Follows (fun _ _ _ => True) σ.contexts ds τ.contexts ∧
        Knows past ds τ.contexts)
      (P := fun past e => ∃ ds ds', Shifts Around ds ds' e.step ∧ Knows past ds e.before.contexts)
      ?_ [] ⟨begins.fixed, empty⟩ split
    rintro past ds ds' x held τ shifts ⟨follows, knows⟩
    cases done : (walk s t).actions.perform x held τ with
    | error fault τ' => exact ⟨ds, ds', shifts, knows⟩
    | ok held' τ' =>
      refine ⟨⟨ds, ds', shifts, knows⟩, ?_,
        knows_step begins.ne_nil begins.unplaced shifts follows knows done⟩
      exact follows.step Attributes.settled (effect_of_done shifts done) shifts begins.unplaced
        (fun _ _ _ _ h => h) fun _ _ _ _ _ => trivial

end Runs

/-- **Local variables are known in their function.** In every run over a tree in which parameters
are in place, a name that uses a variable is recorded as a local variable of the innermost
definition around it if that is a function and the variable is one of its parameters, or was
recorded as one of its local variables since the function was entered last. The local variable is
called by the name under which the function was recorded and the name of the variable. Any other
name is recorded as a reference to something unknown. Where the name is part of a trailer, what
stands before it there must be a token. -/
theorem locals_known_in_their_function (s : Setting) (t : Tree)
    (inPlace : t.parametersInPlace = true) (c : Client) (earlier : List (Event Client))
    (e : Event Client) (d : Cursor) (x : String)
    (use : UseIn ((walk s t).events c.fresh) earlier e d x) (afterToken : AfterToken d) :
    (index s t : Indexing Client Unit) = (walk s t).carryOut ∧ ∃ r, d.range = .ok r ∧
      ((∃ name, KnownAs earlier d x name ∧ ∃ i v, e.calls =
          [⟨.localSymbol (name.display ++ "<" ++ x ++ ">"), i⟩,
            ⟨.localLocation i e.before.recorder.file r, v⟩]) ∨
        (∀ name, ¬KnownAs earlier d x name) ∧ ∃ context v, e.before.IsTop context ∧ e.calls =
          [⟨.unsolvedReference context (if followedBy "(" d then .call else .usage)
            e.before.recorder.file r, v⟩]) := by
  obtain ⟨⟨later, split⟩, looks, use, undecided⟩ := use
  have he : e ∈ (walk s t).events c.fresh := split ▸ List.mem_append_right _ List.mem_cons_self
  obtain ⟨ds, ds', shifts, knows⟩ := knows_events inPlace split
  rw [looks] at shifts
  have nonempty := Walk.contexts_ne_nil (disciplined_actions s) (way_around inPlace) he
  obtain ⟨top, rest, contexts⟩ := List.exists_cons_of_ne_nil nonempty
  obtain ⟨r, range⟩ := range_of_text use.text
  have isTop : e.before.IsTop top.id := ⟨top, rest, contexts, rfl⟩
  have visited := visitSelf_of_use (s := s) use afterToken undecided contexts
  rw [contexts] at knows
  refine ⟨index_eq s t, r, range, ?_⟩
  by_cases mem : x ∈ top.locals
  · obtain ⟨name, known, named⟩ := knownAs_of_mem knows shifts.1 mem
    rw [if_pos (by simpa using mem), recordLocal_eq contexts use.text range] at visited
    refine .inl ⟨name, known, ?_⟩
    rw [← named]
    exact (writes_useLocal (localName top x) r).look he looks ⟨isTop, rfl⟩ visited
  · rw [if_neg (by simpa using mem)] at visited
    obtain ⟨v, calls⟩ := (writes_referToUnsolved _ range).look he looks ⟨isTop, rfl⟩ visited
    have unknown : ∀ name, ¬KnownAs earlier d x name := fun name known =>
      mem (mem_of_knownAs knows shifts.1 known)
    exact .inr ⟨unknown, top.id, v, isTop, calls⟩

/-! ### Examples -/

/-- A use of `x` that satisfies `p` is the event number `n`. -/
theorem exists_use (events : List (Event Client)) (x : String)
    (p : List (Event Client) → Event Client → Cursor → Bool) (n : Nat)
    (h : (events[n]?.any fun e => e.step.looked?.any fun d =>
      decide (UsesVariable d x ∧ Undecided e.before.kinds) && p (events.take n) e d) = true) :
    ∃ earlier e d, UseIn events earlier e d x ∧ p earlier e d = true := by
  obtain ⟨e, he, found⟩ := (Option.any_eq_true _ _).mp h
  obtain ⟨d, hd, found⟩ := (Option.any_eq_true _ _).mp found
  obtain ⟨use, holds⟩ := Bool.and_eq_true_iff.mp found
  obtain ⟨uses, undecided⟩ := of_decide_eq_true use
  obtain ⟨bound, rfl⟩ := List.getElem?_eq_some_iff.mp he
  refine ⟨events.take n, _, d, ⟨⟨events.drop (n + 1), ?_⟩, Step.eq_look hd, uses, undecided⟩, holds⟩
  rw [← List.drop_eq_getElem_cons bound, List.take_append_drop]

/-- A function that defines a variable and uses it, and a use of that name after the function. -/
def variableOfFunction : Tree :=
  .node (.other "file_input")
    [.node .funcdef
      [.tokenAt .keyword "def" 1 0, .tokenAt .name "f" 1 4,
        .node .parameters
          [.tokenAt .operator "(" 1 5, .node .param [.tokenAt .name "p" 1 6],
            .tokenAt .operator ")" 1 7],
        .tokenAt .operator ":" 1 8,
        .node .suite
          [.node .exprStmt
              [.tokenAt .name "y" 1 10, .tokenAt .operator "=" 1 12, .tokenAt .name "p" 1 14],
            .tokenAt .name "y" 1 16]],
      .tokenAt .name "y" 1 18]

/-- The variable is known inside the function and unknown after it. -/
theorem variable_known_inside_function :
    let events := (walk ⟨⟨"/w", virtualFile, []⟩, false⟩ variableOfFunction).events
      (Client.fresh { database := {} })
    variableOfFunction.parametersInPlace = true ∧
      (∃ earlier e d, UseIn events earlier e d "y" ∧ AfterToken d ∧
        ∃ name, KnownAs earlier d "y" name) ∧
      ∃ earlier e d, UseIn events earlier e d "y" ∧ AfterToken d ∧
        ∀ name, ¬KnownAs earlier d "y" name := by
  intro events
  have inPlace : variableOfFunction.parametersInPlace = true := by decide
  refine ⟨inPlace, ?_, ?_⟩
  · obtain ⟨earlier, e, d, use, found⟩ := exists_use events "y"
      (fun _ e d => decide (AfterToken d) && e.made.any Call.isLocal) 25 (by decide +kernel)
    obtain ⟨token, isLocal⟩ := Bool.and_eq_true_iff.mp found
    have afterToken := of_decide_eq_true token
    refine ⟨earlier, e, d, use, afterToken, ?_⟩
    obtain ⟨-, r, -, ⟨name, known, -⟩ | ⟨-, context, v, -, calls⟩⟩ :=
      locals_known_in_their_function _ _ inPlace _ earlier e d "y" use afterToken
    · exact ⟨name, known⟩
    · simp [Event.made, calls, Call.isLocal] at isLocal
  · obtain ⟨earlier, e, d, use, found⟩ := exists_use events "y"
      (fun _ e d => decide (AfterToken d) && !e.made.any Call.isLocal) 32 (by decide +kernel)
    obtain ⟨token, noLocal⟩ := Bool.and_eq_true_iff.mp found
    have afterToken := of_decide_eq_true token
    refine ⟨earlier, e, d, use, afterToken, ?_⟩
    obtain ⟨-, r, -, ⟨name, -, i, v, calls⟩ | ⟨unknown, -⟩⟩ :=
      locals_known_in_their_function _ _ inPlace _ earlier e d "y" use afterToken
    · simp [Event.made, calls, Call.isLocal] at noLocal
    · exact unknown

/-- What one would expect of all trees and of the whole past: a name that uses a variable is
recorded as a local variable if the innermost definition around it is a function and the variable is
one of its parameters or was ever recorded as one of its local variables, and as a reference to
something unknown otherwise. -/
def ScopedByWholePast (events : List (Event Client)) : Prop :=
  ∀ earlier e d x, UseIn events earlier e d x →
    ((∃ f, d.definitionAround? = some f ∧ KnownAfter earlier f x) →
      e.made.any Call.isLocal = true) ∧
    (¬(∃ f, d.definitionAround? = some f ∧ KnownAfter earlier f x) →
      e.made.any Call.isUnsolved = true)

/-- A use outside of functions for which no reference to something unknown is recorded. -/
theorem not_scoped_of_outside (events : List (Event Client)) (x : String) (n : Nat)
    (h : (events[n]?.any fun e => e.step.looked?.any fun d =>
      decide (UsesVariable d x ∧ Undecided e.before.kinds) &&
        !(d.definitionAround?.any (Cursor.isKind .funcdef) || e.made.any Call.isUnsolved)) = true) :
    ¬ScopedByWholePast events := by
  intro expected
  obtain ⟨earlier, e, d, use, found⟩ := exists_use events x
    (fun _ e d =>
      !(d.definitionAround?.any (Cursor.isKind .funcdef) || e.made.any Call.isUnsolved)) n h
  simp only [Bool.not_eq_true', Bool.or_eq_false_iff] at found
  obtain ⟨outside, noReference⟩ := found
  have unsolved := (expected earlier e d x use).2 (by
    rintro ⟨f, around, isFunction, -⟩
    simp [around, isFunction] at outside)
  rw [noReference] at unsolved
  cases unsolved

/-- A function with a class where its parameters belong. The default value of the parameter there
has the name of the parameter. -/
def defaultInClass : Tree :=
  .node (.other "file_input")
    [.node .funcdef
      [.tokenAt .keyword "def" 1 0, .tokenAt .name "f" 1 4,
        .node .classdef
          [.tokenAt .keyword "class" 1 6, .tokenAt .name "K" 1 12,
            .node .param
              [.tokenAt .name "p" 1 14, .tokenAt .operator "=" 1 15, .tokenAt .name "p" 1 16]],
        .tokenAt .operator ":" 1 17, .tokenAt .name "z" 1 18]]

/-- A function without a body. The default value of its parameter is a function, which uses a
variable and then defines it. -/
def enteredTwice : Tree :=
  .node (.other "file_input")
    [.node .funcdef
      [.tokenAt .keyword "def" 1 0, .tokenAt .name "f" 1 4,
        .node .parameters
          [.tokenAt .operator "(" 1 5,
            .node .param
              [.tokenAt .name "a" 1 6, .tokenAt .operator "=" 1 7,
                .node .funcdef
                  [.tokenAt .keyword "def" 1 8, .tokenAt .name "g" 1 12,
                    .node .parameters [.tokenAt .operator "(" 1 13, .tokenAt .operator ")" 1 14],
                    .tokenAt .operator ":" 1 15,
                    .node .suite
                      [.tokenAt .name "y" 1 17,
                        .node .exprStmt
                          [.tokenAt .name "y" 1 19, .tokenAt .operator "=" 1 21,
                            .tokenAt (.other "number") "1" 1 23]]]],
            .tokenAt .operator ")" 1 24]]]

/-- A trailer in which a name comes after a construct. -/
def nameAfterConstruct : Tree :=
  .node (.other "file_input")
    [.node .trailer
      [.node (.other "atom") [.tokenAt .operator "(" 1 0, .tokenAt .operator ")" 1 1],
        .tokenAt .name "x" 1 2]]

/-- A definition around a place that is looked at is a place of the tree. -/
theorem within_of_around {s : Setting} {t : Tree} {c : Client} {e : Event Client}
    (he : e ∈ (walk s t : Walk Client).events c.fresh) {d f : Cursor} (looks : e.step = .look d)
    (around : d.definitionAround? = some f) : (Cursor.root t).Within f := by
  obtain ⟨outer, ds, ds', -, shifts, -⟩ := follows_events he
  rw [looks] at shifts
  have place : d ∈ t.places := Cursor.mem_placesFrom_iff.mpr shifts.1.2
  exact Cursor.mem_placesFrom_iff.mp (Cursor.definition_around place around).1

/-- At the event the local variable `x` is defined in a function with the path of `f`. -/
def definesAtPath (f : Cursor) (x : String) (e : Event Client) : Bool :=
  e.step.looked?.any fun d => decide (d.isName = true ∧ d.isDefining = .ok true ∧
    d.definitionAround?.map Cursor.path = some f.path ∧ d.tree.text = .ok x) &&
      e.made.any Call.isLocal

theorem definesLocal_of_path {s : Setting} {t : Tree} {c : Client} {e e' : Event Client}
    (he : e ∈ (walk s t : Walk Client).events c.fresh)
    (he' : e' ∈ (walk s t : Walk Client).events c.fresh) {d f : Cursor} (looks : e.step = .look d)
    (around : d.definitionAround? = some f) {x : String}
    (h : definesAtPath f x e' = true) : e'.DefinesLocal f x := by
  obtain ⟨d', hd', found⟩ := (Option.any_eq_true _ _).mp h
  obtain ⟨defines, isLocal⟩ := Bool.and_eq_true_iff.mp found
  obtain ⟨isName, isDefining, path, text⟩ := of_decide_eq_true defines
  obtain ⟨f', around', path⟩ := Option.map_eq_some_iff.mp path
  have looks' := Step.eq_look hd'
  obtain rfl := (within_of_around he' looks' around').eq_of_path
    (within_of_around he looks around) path
  exact ⟨d', looks', isName, isDefining, around', text, isLocal⟩

/-- Each of the three conditions is needed. A place may lie in a class that was not entered; a
function that is entered anew has forgotten what was defined in it; and it may be a fault to ask
whether a name is an attribute. -/
theorem not_scoped_by_whole_past :
    let events (t : Tree) := (walk ⟨⟨"/w", virtualFile, []⟩, false⟩ t).events
      (Client.fresh { database := {} })
    ¬ScopedByWholePast (events defaultInClass) ∧ ¬ScopedByWholePast (events enteredTwice) ∧
      ¬ScopedByWholePast (events nameAfterConstruct) := by
  intro events
  refine ⟨not_scoped_of_outside _ "p" 7 (by decide +kernel), fun expected => ?_,
    not_scoped_of_outside _ "x" 14 (by decide +kernel)⟩
  obtain ⟨earlier, e, d, use, found⟩ := exists_use (events enteredTwice) "y"
    (fun earlier e d => !e.made.any Call.isLocal && d.definitionAround?.any fun f : Cursor =>
      f.isKind .funcdef && earlier.any (definesAtPath f "y")) 44 (by decide +kernel)
  obtain ⟨noLocal, found⟩ := Bool.and_eq_true_iff.mp found
  obtain ⟨f, around, found⟩ := (Option.any_eq_true _ _).mp found
  obtain ⟨isFunction, found⟩ := Bool.and_eq_true_iff.mp found
  obtain ⟨e', he', defines⟩ := List.any_eq_true.mp found
  obtain ⟨later, split⟩ := use.split
  have now : e ∈ events enteredTwice := split ▸ List.mem_append_right _ List.mem_cons_self
  have before : e' ∈ events enteredTwice := split ▸ List.mem_append_left _ he'
  have defined : e'.DefinesLocal f "y" :=
    definesLocal_of_path now before use.looks around defines
  have isLocal := (expected earlier e d "y" use).1 ⟨f, around, isFunction, .inr ⟨e', he', defined⟩⟩
  rw [isLocal] at noLocal
  cases noLocal

end Syntactic

end CodeIndex
