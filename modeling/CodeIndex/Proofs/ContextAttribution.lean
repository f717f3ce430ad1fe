import CodeIndex.Proofs.CallLog
import CodeIndex.Proofs.ContextStack
import CodeIndex.Proofs.Walk.Semantic

/-!
# Where references start

Both indexers take the innermost of their contexts as the origin of every reference. The contexts
are never computed from the tree; definitions are entered and left on the way. This module proves
that they say the same as the tree: when a name is looked at, the contexts above the file and the
module are the class and function definitions around the name, and each has the identifier that the
database gave out when the definition was recorded. So every reference in the log starts from the
innermost definition around the name, or else from the module, or from the file if that has no name.

## What is proved

* `FollowsRecorded.step` — one step keeps the contexts in line with the definitions around it.
* `Walk.attributed` — so every event of every run is as it should be, however the run ends.
* `references_start_from_definitions` — this holds of the semantic indexer on every tree, and of the
  syntactic indexer on every tree in which the parameters of a function are not parts of another
  definition.
* `parameter_of_class_not_attributed` — on other trees the syntactic indexer may fail to enter a
  definition and yet visit a part of it.
-/

namespace CodeIndex

open Indexing

/-! ### Contexts and definitions -/

/-- When the definition at `d` was entered last, the database gave out `symbol` for it. -/
def RecordedAs (past : List (Event Client)) (d : Cursor) (symbol : Value) : Prop :=
  ∃ earlier e later stored, past = earlier ++ e :: later ∧ e.step = .enter d ∧
    (∀ e' ∈ later, e'.step ≠ .enter d) ∧ e.calls.head? = some ⟨.symbol stored, symbol⟩

theorem RecordedAs.later {past : List (Event Client)} {d : Cursor} {symbol : Value}
    (h : RecordedAs past d symbol) {e : Event Client} (other : e.step ≠ .enter d) :
    RecordedAs (past ++ [e]) d symbol := by
  obtain ⟨earlier, e₀, later, stored, rfl, entered, last, recorded⟩ := h
  refine ⟨earlier, e₀, later ++ [e], stored, by simp, entered, fun e' he' => ?_, recorded⟩
  rcases List.mem_append.mp he' with he' | he'
  · exact last e' he'
  · obtain rfl := List.mem_singleton.mp he'
    exact other

/-- The contexts stand for the definitions `ds`, the innermost first, as these were recorded. -/
def FollowsRecorded (outer : List Context) (past : List (Event Client)) :
    List Cursor → List Context → Prop :=
  Follows (fun d _ k => RecordedAs past d k.id) outer

/-! ### Steps -/

/-- The place that is looked at. -/
def Step.looked? : Step → Option Cursor
  | .look c => some c
  | _ => none

theorem Step.eq_look {x : Step} {d : Cursor} (h : x.looked? = some d) : x = .look d := by
  cases x with
  | look c => exact congrArg Step.look (Option.some.inj h)
  | _ => cases h

section Steps

variable {A : Actions Client} {s : Trace Client} {x : Step}

/-- The definitions around the place are those that the indexer is inside of. -/
def Around (ds : List Cursor) (c : Cursor) : Prop := c.definitionsAround = ds

/-- What is true of every event: references start from the innermost context and are made only when
a name is looked at, and the contexts follow the definitions around it. -/
structure Attributed (outer : List Context) (past : List (Event Client)) (e : Event Client) :
    Prop where
  origins : ∀ entry ∈ e.calls, ∀ x, entry.call.origin? = some x →
    e.step.looksAtName ∧ e.before.IsTop x
  follows : ∃ ds ds', Shifts Around ds ds' e.step ∧ FollowsRecorded outer past ds e.before.contexts

/-- One step keeps the contexts in line with the definitions around it. -/
theorem FollowsRecorded.step {outer : List Context} (unplaced : ∀ k ∈ outer, k.place = none)
    (disciplined : A.Disciplined) {past : List (Event Client)} {ds ds' : List Cursor} (held : Held)
    (shifts : Shifts Around ds ds' x) (follows : FollowsRecorded outer past ds s.contexts) :
    Outcome
      (fun _ t => Attributed outer past ⟨x, s, t⟩ ∧
        FollowsRecorded outer (past ++ [⟨x, s, t⟩]) ds' t.contexts)
      (fun t => Attributed outer past ⟨x, s, t⟩) (A.perform x held s) := by
  have keeps : A.Keeps (attribution x.looksAtName) x :=
    disciplined.keeps shifts fun looks s x _ isTop => ⟨looks, isTop⟩
  have attributed : ∀ t, (∃ more, t.calls = s.calls ++ more ∧ ∀ e ∈ more, ∀ v,
      e.call.origin? = some v → x.looksAtName ∧ s.IsTop v) → Attributed outer past ⟨x, s, t⟩ := by
    rintro t ⟨more, calls, origins⟩
    refine ⟨?_, ds, ds', shifts, follows⟩
    rwa [Event.calls_eq (e := ⟨x, s, t⟩) calls]
  refine (Actions.outcome_perform keeps held trivial).mono (fun held' t effect => ?_)
    fun t h => attributed t h.calls
  refine ⟨attributed t effect.calls, ?_⟩
  refine Follows.step Attributes.settled effect shifts unplaced ?_ ?_ follows
  · refine fun d hd _ k recorded => recorded.later ?_
    rintro rfl
    -- a definition does not lie inside itself
    exact absurd (Cursor.length_lt_of_mem (shifts.1 ▸ hd)) (Nat.lt_irrefl _)
  · rintro c k rest rfl contexts
    obtain ⟨o, symbol, u, more, -, -, contexts', calls⟩ := calls_of_enter effect
    obtain ⟨rfl, -⟩ := List.cons.inj (contexts.symm.trans contexts')
    refine ⟨past, _, [], o.name.stored, rfl, rfl, by simp, ?_⟩
    rw [Event.calls_eq (e := ⟨.enter c, s, t⟩) calls]
    rfl

end Steps

/-! ### Whole runs -/

namespace Walk

/-- The value identifies the module or, if it has no name, the file. -/
def Outermost (w : Walk Client) (c : Client) (x : Value) : Prop :=
  match w.moduleName with
  | .ok (some name) => ∃ pre post, w.begun c = pre ++ ⟨.symbol name.stored, x⟩ :: post ∧
      ∀ e ∈ pre ++ post, ∀ stored, e.call ≠ .symbol stored
  | .ok none => ∃ post, w.begun c = ⟨.file (Client.slashed w.source.path), x⟩ :: post
  | .error _ => False

/-- The contexts of a run say the same as the tree, and references start from them. -/
structure FollowsDefinitions (w : Walk Client) (c : Client) : Prop where
  /-- When a name is looked at, the contexts above those of the file and the module are at the
  places of the definitions around the name, the innermost first. -/
  contexts : ∀ e ∈ w.events c.fresh, ∀ d, e.step = .look d → d.isName = true →
    d.tree.isLeaf = true → ∃ inner outer, e.before.contexts = inner ++ outer ∧
      inner.map Context.place = d.definitionsAround.map some ∧
      (outer.map Context.kind = [.moduleLevel, .file] ∧ (∃ name, w.moduleName = .ok (some name)) ∨
        outer.map Context.kind = [.file] ∧ w.moduleName = .ok none)
  /-- A call that has an origin is made when a name is looked at. Its origin is the identifier under
  which the innermost definition around the name was recorded, or else that of the module or
  file. -/
  references : ∀ earlier e later, w.events c.fresh = earlier ++ e :: later →
    ∀ entry ∈ e.calls, ∀ x, entry.call.origin? = some x →
      ∃ d, e.step = .look d ∧ d.isName = true ∧ d.tree.isLeaf = true ∧
        match d.definitionAround? with
        | some around => RecordedAs earlier around x
        | none => w.Outermost c x
  /-- There is nothing else in the log that has an origin. -/
  log : (finalState (w.carryOut c.fresh)).calls =
      c.fresh.calls ++ w.begun c ++ (w.events c.fresh).flatMap Event.calls ∧
    ∀ entry ∈ w.begun c, entry.call.origin? = none

variable {w : Walk Client} {c : Client} {t : Trace Client}

/-- The state in which the steps of a run begin. -/
structure Begins (w : Walk Client) (c : Client) (t : Trace Client) : Prop where
  fixed : t.contexts.map Context.fixed = t.contexts
  unplaced : ∀ k ∈ t.contexts, k.place = none
  unnamed : ∀ k ∈ t.contexts, k.selfName = none
  kinds : t.contexts.map Context.kind = [.moduleLevel, .file] ∧
      (∃ name, w.moduleName = .ok (some name)) ∨
    t.contexts.map Context.kind = [.file] ∧ w.moduleName = .ok none
  outermost : ∀ x, t.IsTop x → w.Outermost c x

theorem Begins.ne_nil (h : w.Begins c t) : t.contexts ≠ [] := by
  intro none
  rcases h.kinds with ⟨kinds, -⟩ | ⟨kinds, -⟩ <;> simp [none] at kinds

theorem begins_of_start (h : start w.source w.moduleName c.fresh = .ok () t) : w.Begins c t := by
  obtain ⟨name, hname, begun⟩ := (outcome_start w.source w.moduleName c).of_ok h
  cases name with
  | none =>
    obtain ⟨file, logged, contexts⟩ := begun
    obtain ⟨more, calls, -⟩ := logged.plain
    refine ⟨by rw [contexts]; rfl, by simp [contexts, fileContext], by simp [contexts, fileContext],
      .inr ⟨by rw [contexts]; rfl, hname⟩, fun x isTop => ?_⟩
    obtain ⟨top, rest, ht, rfl⟩ := isTop
    obtain ⟨rfl, -⟩ := List.cons.inj (contexts.symm.trans ht)
    rw [Outermost, hname]
    exact ⟨more, begun_of_start h calls⟩
  | some name =>
    obtain ⟨file, symbol, u, described, logged, -, calls, about, contexts⟩ := begun
    obtain ⟨more, before, plain⟩ := logged.plain
    rw [before, List.append_assoc] at calls
    refine ⟨by rw [contexts]; rfl, by simp [contexts, moduleContext, fileContext],
      by simp [contexts, moduleContext, fileContext],
      .inl ⟨by rw [contexts]; rfl, name, hname⟩, fun x isTop => ?_⟩
    obtain ⟨top, rest, ht, rfl⟩ := isTop
    obtain ⟨rfl, -⟩ := List.cons.inj (contexts.symm.trans ht)
    rw [Outermost, hname]
    refine ⟨_, described, begun_of_start h calls, fun e he stored => ?_⟩
    rcases List.mem_append.mp he with he | he
    · exact (plain e he).2 stored
    · rcases about e he with call | call <;> simp [call]

/-- Every event of a run is as it should be. -/
theorem attributed (disciplined : w.actions.Disciplined) {ds : List Cursor}
    (way : Way Around [] w.steps ds) {earlier later : List (Event Client)} {e : Event Client}
    (split : w.events c.fresh = earlier ++ e :: later) :
    ∃ t, w.Begins c t ∧ Attributed t.contexts earlier e := by
  cases h : start w.source w.moduleName c.fresh with
  | error fault t =>
    rw [events, h] at split
    simp at split
  | ok _ t =>
    have begins := begins_of_start h
    rw [events_of_start h] at split
    refine ⟨t, begins, ?_⟩
    exact way.history (I := fun past ds s => FollowsRecorded t.contexts past ds s.contexts)
      (fun past ds ds' x held s shifts follows =>
        follows.step begins.unplaced disciplined held shifts) [] begins.fixed split

/-- A run whose steps keep to the definitions of the tree follows them. -/
theorem followsDefinitions (disciplined : w.actions.Disciplined) {ds : List Cursor}
    (way : Way Around [] w.steps ds) (c : Client) : w.FollowsDefinitions c where
  contexts := by
    intro e he d hstep _ _
    obtain ⟨earlier, later, split⟩ := List.append_of_mem he
    obtain ⟨t, begins, attributed⟩ := attributed disciplined way split
    obtain ⟨ds, ds', shifts, follows⟩ := attributed.follows
    rw [hstep] at shifts
    obtain ⟨inner, outer, contexts, places, outermost⟩ := follows.split
    have kinds : outer.map Context.kind = t.contexts.map Context.kind := by
      rw [← outermost, List.map_map]
      rfl
    rw [shifts.1.symm] at places
    exact ⟨inner, outer, contexts, places, by rw [kinds]; exact begins.kinds⟩
  references := by
    intro earlier e later split entry hentry x hx
    obtain ⟨t, begins, attributed⟩ := attributed disciplined way split
    obtain ⟨looks, top, rest, htop, rfl⟩ := attributed.origins entry hentry x hx
    obtain ⟨ds, ds', shifts, follows⟩ := attributed.follows
    cases hstep : e.step with
    | look d =>
      rw [hstep] at looks shifts
      refine ⟨d, rfl, looks.1, looks.2, ?_⟩
      rw [Cursor.definitionAround?_eq, shifts.1]
      cases ds with
      | nil =>
        rw [FollowsRecorded, Follows, htop] at follows
        exact begins.outermost top.id ⟨_, _, follows.symm, rfl⟩
      | cons d' ds =>
        obtain ⟨k, below, contexts, -, -, recorded, -⟩ := follows
        obtain ⟨rfl, -⟩ := List.cons.inj (htop.symm.trans contexts)
        exact recorded
    | _ =>
      rw [hstep] at looks
      exact looks.elim
  log := ⟨calls_carryOut disciplined way c, (w.calls_begun c).2⟩

end Walk

/-! ### The two indexers -/

/-- Where the parameters of a function belong there is no class or function that has parameters
among its parts. A parser makes no other trees. -/
def Tree.parametersInPlace (t : Tree) : Bool :=
  (t.placesFrom []).all fun c =>
    match c.tree with
    | .node .funcdef (_ :: _ :: .node kind parts :: _) =>
      !(kind.isDefinition && parts.any (Tree.isKind .param))
    | _ => true

/-- In such a tree no definition is passed over. -/
theorem Syntactic.definitionsAmong_of_entered {root : Tree}
    (inPlace : root.parametersInPlace = true) {above : List Ancestor} {ds : List Cursor}
    (entered : Entered above ds) {t : Tree}
    (within : (Cursor.root root).Within ⟨t, above⟩) : Cursor.definitionsAmong above = ds := by
  induction entered generalizing t with
  | nil => rfl
  | plain plain _ ih =>
    rw [Cursor.definitionsAmong_plain plain]
    exact ih within.parent.1
  | definition definition _ ih =>
    rw [Cursor.definitionsAmong_definition definition, ih within.parent.1]
  | @parameters a f above ds function third isParameter _ ih =>
    obtain ⟨within_a, part⟩ := within.parent
    obtain ⟨within_f, part_f⟩ := within_a.parent
    cases h : a.kind.isDefinition with
    | false =>
      rw [Cursor.definitionsAmong_plain h]
      exact ih within_a
    | true =>
      have has : a.children.any (Tree.isKind .param) = true := by
        obtain ⟨p, hp, isParameter⟩ := Option.any_eq_true _ _ |>.mp isParameter
        exact List.any_eq_true.mpr ⟨p, List.mem_of_getElem? hp, isParameter⟩
      have inPlace_f := List.all_eq_true.mp inPlace _ (Cursor.mem_placesFrom_iff.mpr within_f)
      obtain ⟨kind, children, index⟩ := f
      obtain rfl : kind = .funcdef := function
      obtain rfl : index = 2 := third
      match children, part_f with
      | _ :: _ :: part :: _, part_f =>
        obtain rfl : part = a.tree := Option.some.inj part_f
        simp [Ancestor.tree, h, has] at inPlace_f

theorem Syntactic.way_around {root : Tree} (inPlace : root.parametersInPlace = true) :
    Way Around [] (steps [] root) [] :=
  (way_inside root).mono fun _ _ inside => definitionsAmong_of_entered inPlace inside.1 inside.2

theorem Semantic.Setting.way_around (root : Tree) : Way Around [] (steps [] root) [] :=
  (way_inside root).mono fun _ _ inside => inside.1

/-- **References start from the definitions around them.** On every tree and for every resolver, and
however a run ends: when a name is looked at, the contexts above those of the file and the module
are the definitions around the name. Every call in the log that has an origin is made for a name,
and its origin is the identifier under which the innermost definition around the name was recorded,
or else that of the module, or that of the file if it has no name. For the syntactic indexer the
parameters of a function must not be parts of another definition. -/
theorem references_start_from_definitions (t : Tree) (c : Client) :
    (t.parametersInPlace = true → ∀ s : Syntactic.Setting,
      (Syntactic.index s t : Indexing Client Unit) = (Syntactic.walk s t).carryOut ∧
        (Syntactic.walk s t).FollowsDefinitions c) ∧
      ∀ s : Semantic.Setting, (s.index t : Indexing Client Unit) = (s.walk t).carryOut ∧
        (s.walk t).FollowsDefinitions c := by
  refine ⟨fun inPlace s => ⟨Syntactic.index_eq s t, ?_⟩, fun s => ⟨s.index_eq t, ?_⟩⟩
  · exact Walk.followsDefinitions (Syntactic.disciplined_actions s) (Syntactic.way_around inPlace) c
  · exact Walk.followsDefinitions s.disciplined_actions (Semantic.Setting.way_around t) c

/-- A module with the sample class. -/
def sampleModule : Tree := .node (.other "file_input") [Syntactic.sampleClass]

/-- In the sample module the syntactic indexer records a reference that starts from a method. -/
theorem reference_in_sampleModule :
    let w := Syntactic.walk ⟨⟨"/w", virtualFile, []⟩, true⟩ sampleModule
    let c : Client := { database := {} }
    sampleModule.parametersInPlace = true ∧ w.FollowsDefinitions c ∧
      ∃ earlier e later, w.events c.fresh = earlier ++ e :: later ∧
        ∃ entry ∈ e.calls, ∃ x d method, entry.call.origin? = some x ∧ e.step = .look d ∧
          d.definitionAround? = some method ∧ method.isKind .funcdef = true ∧
          RecordedAs earlier method x := by
  intro w c
  have inPlace : sampleModule.parametersInPlace = true := by decide
  have follows : w.FollowsDefinitions c :=
    ((references_start_from_definitions sampleModule c).1 inPlace _).2
  refine ⟨inPlace, follows, ?_⟩
  have evaluated : ((w.events c.fresh).any fun e =>
      match e.step with
      | .look d => e.calls.any (·.call.origin?.isSome) &&
          d.definitionAround?.any (Cursor.isKind .funcdef)
      | _ => false) = true := by decide +kernel
  obtain ⟨e, he, found⟩ := List.any_eq_true.mp evaluated
  obtain ⟨earlier, later, split⟩ := List.append_of_mem he
  cases hstep : e.step with
  | look d =>
    rw [hstep] at found
    obtain ⟨refers, inMethod⟩ := Bool.and_eq_true_iff.mp found
    obtain ⟨entry, hentry, isSome⟩ := List.any_eq_true.mp refers
    obtain ⟨x, hx⟩ := Option.isSome_iff_exists.mp isSome
    obtain ⟨method, hmethod, isFunction⟩ := (Option.any_eq_true _ _).mp inMethod
    obtain ⟨d', hd', -, -, origin⟩ := follows.references earlier e later split entry hentry x hx
    obtain rfl := Step.look.inj (hstep.symm.trans hd')
    rw [hmethod] at origin
    exact ⟨earlier, e, later, split, entry, hentry, x, d, method, hx, hstep, hmethod, isFunction,
      origin⟩
  | _ =>
    rw [hstep] at found
    cases found

/-- A function with a class where its parameters belong. One part of the class is a parameter. -/
def misplacedParameter : Tree :=
  .node (.other "file_input")
    [.node .funcdef
      [.tokenAt .keyword "def" 1 0, .tokenAt .name "f" 1 4,
        .node .classdef
          [.tokenAt .keyword "class" 1 6, .tokenAt .name "K" 1 12,
            .node .param
              [.tokenAt .name "p" 1 14, .tokenAt .operator "=" 1 15, .tokenAt .name "y" 1 16]],
        .tokenAt .operator ":" 1 17, .tokenAt .name "z" 1 18]]

/-- The syntactic indexer looks at the default value of that parameter without having entered the
class. -/
theorem parameter_of_class_not_attributed :
    ¬(Syntactic.walk ⟨⟨"/w", virtualFile, []⟩, false⟩ misplacedParameter).FollowsDefinitions
      { database := {} } := by
  intro follows
  have evaluated : (((Syntactic.walk ⟨⟨"/w", virtualFile, []⟩, false⟩ misplacedParameter).events
      (Client.fresh { database := {} })).any fun e =>
        match e.step with
        | .look d => d.isName && d.tree.isLeaf && d.definitionsAround.length = 2 &&
            e.before.contexts.length = 3
        | _ => false) = true := by decide +kernel
  obtain ⟨e, he, found⟩ := List.any_eq_true.mp evaluated
  cases hstep : e.step with
  | look d =>
    rw [hstep] at found
    simp only [Bool.and_eq_true, decide_eq_true_eq] at found
    obtain ⟨⟨⟨isName, isLeaf⟩, two⟩, three⟩ := found
    obtain ⟨inner, outer, contexts, places, kinds⟩ := follows.contexts e he d hstep isName isLeaf
    have inner_length : inner.length = 2 := by
      have lengths := congrArg List.length places
      rwa [List.length_map, List.length_map, two] at lengths
    have outer_length : outer.length = 2 := by
      rcases kinds with ⟨kinds, -⟩ | ⟨-, nameless⟩
      · have lengths := congrArg List.length kinds
        rwa [List.length_map] at lengths
      · cases nameless
    rw [contexts, List.length_append, inner_length, outer_length] at three
    cases three
  | _ =>
    rw [hstep] at found
    cases found

end CodeIndex
