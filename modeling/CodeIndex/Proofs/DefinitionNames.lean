import CodeIndex.Proofs.Naming
import CodeIndex.Proofs.Occurrences

/-!
# Names of definitions and fields

In a run of the syntactic indexer the names of classes and functions follow the nesting of the tree,
and a field that is defined through the first parameter of a method belongs to the class. The one
condition is that first parameters are kept apart from other names: the first parameter of a method
must not be the first identifier of the method, of a construct around it, or of a construct between
it and a definition inside it.

## What is proved

* `EnteredAs.opening` — a function becomes the context of a method, with the name of its first
  parameter, if the innermost definition that was entered before is a class.
* `unaffected_of_apart` — then that name is never met on the way up from a definition.
* `follows_step`, `follows_events` — the contexts are such at every step of every run.
* `definitions_named_by_nesting` — so in every run that returns names follow the nesting.
-/

namespace CodeIndex

open Indexing

namespace Syntactic

variable {top : Context} {outer : List Context} {c : Cursor}

/-! ### The contexts of methods -/

/-- The context of the definition `d`, entered when the indexer was inside of `around`: a function
is a method if the innermost of these is a class, and only of a method the first parameter
matters. -/
structure EnteredAs (d : Cursor) (around : List Cursor) (k : Context) : Prop where
  kind : k.kind =
    if d.isKind .classdef then .classBody
    else if around.head?.any (Cursor.isKind .classdef) then .method else .function
  selfName : k.selfName = if k.kind = .method then d.firstParameter? else none

/-- The contexts are those of a file and perhaps its module. -/
structure AtModuleLevel (outer : List Context) : Prop where
  ne_nil : outer ≠ []
  kinds : ∀ k ∈ outer, k.kind = .moduleLevel ∨ k.kind = .file
  unnamed : ∀ k ∈ outer, k.selfName = none

section Contexts

variable {ds : List Cursor} {contexts : List Context}

theorem exists_top (atModule : AtModuleLevel outer) (h : Follows EnteredAs outer ds contexts) :
    ∃ top rest, contexts = top :: rest :=
  List.exists_cons_of_ne_nil (h.ne_nil atModule.ne_nil)

/-- Outside of all definitions the innermost context is that of the module or file. -/
theorem fixed_mem_of_nil (h : Follows EnteredAs outer [] (top :: contexts)) :
    top.fixed ∈ outer := by
  have same : (top :: contexts).map Context.fixed = outer := h
  rw [← same]
  exact List.mem_cons_self

theorem kind_of_nil (atModule : AtModuleLevel outer)
    (h : Follows EnteredAs outer [] (top :: contexts)) :
    top.kind = .moduleLevel ∨ top.kind = .file :=
  atModule.kinds top.fixed (fixed_mem_of_nil h)

/-- Only a method has the name of a first parameter. -/
theorem kind_of_selfName (atModule : AtModuleLevel outer)
    (h : Follows EnteredAs outer ds (top :: contexts)) {self : String}
    (hself : top.selfName = some self) : top.kind = .method := by
  cases ds with
  | nil =>
    have unnamed : top.selfName = none := atModule.unnamed top.fixed (fixed_mem_of_nil h)
    rw [unnamed] at hself
    cases hself
  | cons d ds =>
    obtain ⟨k, rest, same, -, -, entered, -⟩ := h
    obtain ⟨rfl, rfl⟩ := List.cons.inj same
    have selfName : top.selfName = if top.kind = .method then _ else none := entered.selfName
    by_cases isMethod : top.kind = .method
    · exact isMethod
    · rw [if_neg isMethod, hself] at selfName
      cases selfName

/-- The innermost context is a class if the innermost definition is one. -/
theorem classBody_iff (atModule : AtModuleLevel outer)
    (h : Follows EnteredAs outer ds (top :: contexts)) :
    top.kind = .classBody ↔ ds.head?.any (Cursor.isKind .classdef) = true := by
  cases ds with
  | nil => rcases kind_of_nil atModule h with kind | kind <;> simp [kind]
  | cons d ds =>
    obtain ⟨k, rest, same, -, -, entered, -⟩ := h
    obtain ⟨rfl, rfl⟩ := List.cons.inj same
    rw [show top.kind = _ from entered.kind]
    by_cases isClass : d.isKind .classdef = true
    · simp [isClass]
    · by_cases inClass : ds.head?.any (Cursor.isKind .classdef) = true <;> simp [isClass, inClass]

/-- If the innermost context is a method, then the innermost definition is a function, the next one
the class it belongs to. -/
theorem method_of_kind (atModule : AtModuleLevel outer)
    (h : Follows EnteredAs outer ds (top :: contexts)) (isMethod : top.kind = .method) :
    ∃ m K ds' below rest, ds = m :: K :: ds' ∧ contexts = below :: rest ∧
      m.tree.kind = .funcdef ∧ K.tree.kind = .classdef ∧ below.place = some K ∧
      top.selfName = m.firstParameter? := by
  cases ds with
  | nil => rcases kind_of_nil atModule h with kind | kind <;> cases isMethod.symm.trans kind
  | cons m ds =>
    obtain ⟨k, rest, same, -, definition, entered, below⟩ := h
    obtain ⟨rfl, rfl⟩ := List.cons.inj same
    have kind : top.kind = _ := entered.kind
    have selfName : top.selfName = _ := entered.selfName
    rw [if_pos (show top.fixed.kind = .method from isMethod)] at selfName
    rw [isMethod] at kind
    by_cases isClass : m.isKind .classdef = true
    · rw [if_pos isClass] at kind
      cases kind
    · rw [if_neg isClass] at kind
      have isFunction : m.tree.kind = .funcdef := by
        rcases NodeKind.eq_of_isDefinition definition with kind | kind
        · exact absurd (decide_eq_true kind) isClass
        · exact kind
      cases ds with
      | nil => simp at kind
      | cons K ds' =>
        obtain ⟨below, rest, rfl, place, -, -, -⟩ := below
        by_cases inClass : K.isKind .classdef = true
        · exact ⟨m, K, ds', below, rest, rfl, rfl, isFunction, of_decide_eq_true inClass, place,
            selfName⟩
        · simp [inClass] at kind

end Contexts

/-- The first of the names of the parameters. -/
theorem head?_parameters {ps : List Cursor} {parameters : List String}
    (hps : c.parameterList = .ok ps)
    (h : ps.mapM (fun p => do (← p.parameterName).tree.text) = .ok parameters) :
    parameters.head? = c.firstParameter? := by
  unfold Cursor.firstParameter?
  rw [hps]
  cases ps with
  | nil =>
    obtain rfl := Except.ok.inj h
    rfl
  | cons p ps =>
    rw [List.mapM_cons] at h
    obtain ⟨text, htext, h⟩ := except_bind_eq_ok.mp h
    obtain ⟨rest, -, h⟩ := except_bind_eq_ok.mp h
    obtain rfl := Except.ok.inj h
    obtain ⟨name, hname, htext⟩ := except_bind_eq_ok.mp htext
    simp only [hname]
    unfold Tree.text at htext
    cases h : name.tree.text? with
    | none => simp [h] at htext
    | some t => simpa [h] using htext.symm

/-- How a definition is entered, if that succeeds. -/
theorem opening_eq_ok {s : Setting} {contexts : List Context} {o : Opening}
    (h : (actions s : Actions Client).opening contexts c = .ok o) :
    (∃ name, c.definedName = .ok name ∧ openingName s contexts name = .ok o.name) ∧
      (c.isKind .classdef = true ∧ o.contextKind = .classBody ∧ o.selfName = none ∨
        c.isKind .classdef = false ∧ ∃ top rest, contexts = top :: rest ∧
          o.contextKind = (if top.kind = .classBody then .method else .function) ∧
          o.selfName = if top.kind = .classBody then c.firstParameter? else none) := by
  change (if c.isKind .classdef = true then _ else _) = _ at h
  by_cases isClass : c.isKind .classdef = true
  · rw [if_pos isClass] at h
    obtain ⟨name, hname, h⟩ := except_bind_eq_ok.mp h
    obtain ⟨full, hfull, h⟩ := except_bind_eq_ok.mp h
    obtain rfl := Except.ok.inj h
    exact ⟨⟨name, hname, hfull⟩, .inl ⟨isClass, rfl, rfl⟩⟩
  · rw [if_neg isClass] at h
    obtain ⟨name, hname, h⟩ := except_bind_eq_ok.mp h
    obtain ⟨full, hfull, h⟩ := except_bind_eq_ok.mp h
    cases contexts with
    | nil => cases h
    | cons top rest =>
      obtain ⟨ps, hps, h⟩ := except_bind_eq_ok.mp h
      obtain ⟨parameters, hparameters, h⟩ := except_bind_eq_ok.mp h
      obtain rfl := Except.ok.inj h
      refine ⟨⟨name, hname, hfull⟩, .inr ⟨by simpa using isClass, top, rest, rfl, ?_, ?_⟩⟩
      · simp
      · simp [head?_parameters hps hparameters]

/-- A definition that is entered becomes the context that it should. -/
theorem EnteredAs.opening {s : Setting} {ds : List Cursor} {contexts : List Context}
    (atModule : AtModuleLevel outer) (follows : Follows EnteredAs outer ds contexts) {o : Opening}
    (h : (actions s : Actions Client).opening contexts c = .ok o) (symbol : Value) :
    EnteredAs c ds (o.context c symbol).fixed := by
  obtain ⟨-, ⟨isClass, kind, self⟩ | ⟨isFunction, top, rest, rfl, kind, self⟩⟩ := opening_eq_ok h
  · refine ⟨?_, ?_⟩
    · rw [if_pos isClass]
      exact kind
    · rw [if_neg (by simp [Context.fixed, Opening.context, kind])]
      exact self
  · have inClass := classBody_iff atModule follows
    have notClass : ¬c.isKind .classdef = true := by simp [isFunction]
    by_cases h : top.kind = .classBody
    · rw [if_pos h] at kind self
      refine ⟨?_, ?_⟩
      · rw [if_neg notClass, if_pos (inClass.mp h)]
        exact kind
      · rw [if_pos (show (o.context c symbol).fixed.kind = .method from kind)]
        exact self
    · rw [if_neg h] at kind self
      refine ⟨?_, ?_⟩
      · rw [if_neg notClass, if_neg (mt inClass.mpr h)]
        exact kind
      · rw [if_neg (by simp [Context.fixed, Opening.context, kind])]
        exact self

/-! ### Contexts and the tree -/

/-- A function is a method if the innermost definition entered around it is a class. -/
theorem isMethod_of_entered {m K : Cursor} {ds : List Cursor} (entered : Entered m.above (K :: ds))
    (isFunction : m.tree.kind = .funcdef) (isClass : K.tree.kind = .classdef) :
    m.isMethod = true ∧ m.definitionAround? = some K := by
  have around : m.definitionAround? = some K := by
    rw [Cursor.definitionAround?_eq]
    exact entered.head_class isClass
  refine ⟨?_, around⟩
  simp [Cursor.isMethod, around, Cursor.isKind, Tree.isKind, isFunction, isClass]

/-- A method that is the innermost definition entered is the innermost method in the tree: what was
passed over stands directly in a function. -/
theorem methodAround?_of_entered {above : List Ancestor} {m : Cursor} {ds : List Cursor}
    (entered : Entered above (m :: ds)) (isMethod : m.isMethod = true) :
    (Cursor.definitionsAmong above).find? Cursor.isMethod = some m := by
  generalize hds : m :: ds = all at entered
  induction entered with
  | nil => cases hds
  | plain plain _ ih =>
    rw [Cursor.definitionsAmong_plain plain]
    exact ih hds
  | definition definition _ _ =>
    obtain ⟨rfl, rfl⟩ := List.cons.inj hds
    rw [Cursor.definitionsAmong_definition definition, List.find?_cons_of_pos isMethod]
  | @parameters a f above ds function _ _ _ ih =>
    cases h : a.kind.isDefinition with
    | false =>
      rw [Cursor.definitionsAmong_plain h]
      exact ih hds
    | true =>
      have inFunction : Cursor.definitionAround? ⟨a.tree, f :: above⟩ = some ⟨f.tree, above⟩ := by
        simp [Cursor.definitionAround?, Cursor.enclosing?, Cursor.nearest?, function,
          NodeKind.isDefinition]
      have notClass : Cursor.isKind .classdef ⟨f.tree, above⟩ = false := by
        simp [Cursor.isKind, Tree.isKind, Ancestor.tree, Tree.kind, function]
      have noMethod : ¬Cursor.isMethod ⟨a.tree, f :: above⟩ = true := by
        rw [Cursor.isMethod, inFunction]
        simp [notClass]
      rw [Cursor.definitionsAmong_definition h, List.find?_cons_of_neg noMethod]
      exact ih hds

section Apart

variable {root : Tree} {ds : List Cursor} {contexts : List Context}

theorem unaffected_of_beginsWithSelf {m : Cursor} (selfName : top.selfName = m.firstParameter?)
    (h : ∀ owner ∈ c.ancestors, m.beginsWithSelf owner = false) : Unaffected top c := by
  intro _ owner howner self text same
  have begins : m.beginsWithSelf owner = true := by
    simp [Cursor.beginsWithSelf, ← selfName, same, text]
  rw [h owner howner] at begins
  cases begins

/-- Where first parameters are kept apart, the naming of a definition is unaffected by the contexts
in which it is entered. -/
theorem unaffected_of_apart (apart : root.SelfNamesApart) (atModule : AtModuleLevel outer)
    (follows : Follows EnteredAs outer ds (top :: contexts)) (entered : Entered c.above ds)
    (within : (Cursor.root root).Within c) (definition : c.tree.kind.isDefinition = true) :
    Unaffected top c := by
  by_cases isMethod : top.kind = .method
  · obtain ⟨m, K, ds, _, _, rfl, -, isFunction, isClass, -, selfName⟩ :=
      method_of_kind atModule follows isMethod
    obtain ⟨method, -⟩ := isMethod_of_entered entered.outside isFunction isClass
    have around : m ∈ c.ancestors := Cursor.mem_ancestorsAmong_of_mem (entered.mem (by simp))
    have place : m ∈ root.places := Cursor.mem_placesFrom_iff.mpr (within.ancestor around)
    refine unaffected_of_beginsWithSelf selfName fun owner howner => ?_
    -- between the method and the definition, the method itself, or around it
    rcases Cursor.ancestorsAmong_chain around howner with between | rfl | outside
    · exact apart.between c (Cursor.mem_placesFrom_iff.mpr within) definition owner howner m between
        method
    · exact apart.around owner place method owner List.mem_cons_self
    · exact apart.around m place method owner (List.mem_cons_of_mem _ outside)
  · exact fun h => absurd h isMethod

/-- So is that of the class of the present method. -/
theorem unaffected_class (apart : root.SelfNamesApart) {m K : Cursor}
    (selfName : top.selfName = m.firstParameter?) (method : m.isMethod = true)
    (within : (Cursor.root root).Within m) (around : K ∈ m.ancestors) : Unaffected top K := by
  refine unaffected_of_beginsWithSelf selfName fun owner howner => ?_
  have outside : owner ∈ m.ancestors := Cursor.mem_ancestorsAmong_trans around howner
  exact apart.around m (Cursor.mem_placesFrom_iff.mpr within) method owner
    (List.mem_cons_of_mem _ outside)

end Apart

/-! ### Whole runs -/

section Runs

variable {s : Setting} {t : Tree} {M : QualifiedName} {c : Client} {e : Event Client}

/-- The contexts with which a run begins. -/
theorem atModuleLevel_of_begins {w : Walk Client} {σ : Trace Client} (begins : w.Begins c σ) :
    AtModuleLevel σ.contexts := by
  refine ⟨begins.ne_nil, fun k hk => ?_, begins.unnamed⟩
  have mem : k.kind ∈ σ.contexts.map Context.kind := List.mem_map_of_mem hk
  rcases begins.kinds with ⟨kinds, -⟩ | ⟨kinds, -⟩
  · simpa [kinds] using mem
  · exact .inr (by simpa [kinds] using mem)

/-- One step keeps the contexts in line with the definitions as they were entered. -/
theorem follows_step {outer : List Context} (atModule : AtModuleLevel outer)
    (unplaced : ∀ k ∈ outer, k.place = none) {ds ds' : List Cursor} {x : Step} {σ : Trace Client}
    (shifts : Shifts (Inside (.root t)) ds ds' x)
    (follows : Follows EnteredAs outer ds σ.contexts) (held : Held) :
    Outcome (fun _ τ => Follows EnteredAs outer ds' τ.contexts) (fun _ => True)
      ((actions s).perform x held σ) := by
  have keeps : (actions s).Keeps (attribution True) x :=
    (disciplined_actions s).keeps shifts fun _ _ _ _ isTop => ⟨trivial, isTop⟩
  refine (Actions.outcome_perform keeps held trivial).mono (fun held' τ effect => ?_)
    fun _ _ => trivial
  refine follows.step Attributes.settled effect shifts unplaced (fun _ _ _ _ h => h) ?_
  rintro d k rest rfl contexts
  obtain ⟨o, symbol, _, _, opened, -, contexts', -⟩ := calls_of_enter effect
  obtain ⟨rfl, -⟩ := List.cons.inj (contexts.symm.trans contexts')
  exact .opening atModule follows opened symbol

/-- In every run the contexts stand for the definitions as they were entered. -/
theorem follows_events (he : e ∈ (walk s t : Walk Client).events c.fresh) :
    ∃ outer ds ds', AtModuleLevel outer ∧ Shifts (Inside (.root t)) ds ds' e.step ∧
      Follows EnteredAs outer ds e.before.contexts := by
  cases h : start (walk s t : Walk Client).source (walk s t : Walk Client).moduleName c.fresh with
  | error fault σ =>
    rw [Walk.events, h] at he
    cases he
  | ok _ σ =>
    have begins := Walk.begins_of_start h
    have atModule := atModuleLevel_of_begins begins
    rw [Walk.events_of_start h] at he
    obtain ⟨earlier, later, split⟩ := List.append_of_mem he
    refine (way_inside t).history
      (I := fun _ ds τ => Follows EnteredAs σ.contexts ds τ.contexts)
      (P := fun _ e => ∃ outer ds ds', AtModuleLevel outer ∧
        Shifts (Inside (.root t)) ds ds' e.step ∧ Follows EnteredAs outer ds e.before.contexts)
      (fun past ds ds' x held τ shifts follows => ?_) [] begins.fixed split
    have here : ∃ outer ds ds', AtModuleLevel outer ∧ Shifts (Inside (.root t)) ds ds' x ∧
        Follows EnteredAs outer ds τ.contexts := ⟨_, ds, ds', atModule, shifts, follows⟩
    exact (follows_step atModule begins.unplaced shifts follows held).mono
      (fun _ _ next => ⟨here, next⟩) fun _ _ => here

/-- A definition is entered under the name that its nesting gives it. -/
theorem name_of_opening (headed : t.DefinitionsHeaded) (apart : t.SelfNamesApart)
    {outer contexts : List Context} {ds : List Cursor} {d : Cursor}
    (atModule : AtModuleLevel outer) (follows : Follows EnteredAs outer ds contexts)
    (inside : Inside (.root t) ds d) (definition : d.tree.kind.isDefinition = true) {o : Opening}
    (opened : (actions s : Actions Client).opening contexts d = .ok o) :
    o.name = (d.nameIn (moduleName s.source (some s.source.path))).getD .unsolved := by
  obtain ⟨top, rest, rfl⟩ := exists_top atModule follows
  obtain ⟨⟨name, hname, h⟩, -⟩ := opening_eq_ok opened
  obtain ⟨q, hq, h⟩ := except_bind_eq_ok.mp h
  obtain ⟨entered, within⟩ := inside
  have unaffected := unaffected_of_apart apart atModule follows entered within definition
  rw [qualifiedName_definition headed within definition unaffected hname hq] at h
  exact (Except.ok.inj h).symm

/-- The calls begin with a field that is defined at `d` through the first parameter of the method
around it. It is called by the name of the class of that method and its own name. -/
def FieldOfClass (M : QualifiedName) (d : Cursor) (calls : List LogEntry) : Prop :=
  ∃ m K object text field answer more, d.methodAround? = some m ∧ m.definitionAround? = some K ∧
    d.namedParent? = some object ∧ m.beginsWithSelf object = true ∧ d.tree.text = .ok text ∧
    calls = ⟨.symbol ((K.hierarchy M).child text).stored, field⟩ ::
      ⟨.symbolKind field .field, answer⟩ :: more

theorem name_of_field (headed : t.DefinitionsHeaded) (apart : t.SelfNamesApart)
    (inModule : moduleName s.source (some s.source.path) = some M) {outer : List Context}
    {ds : List Cursor} {d : Cursor} (atModule : AtModuleLevel outer) {σ τ : Trace Client}
    (follows : Follows EnteredAs outer ds σ.contexts) (inside : Inside (.root t) ds d)
    (recorded : RecordsField s d σ τ) :
    ∃ calls, τ.calls = σ.calls ++ calls ∧ FieldOfClass M d calls := by
  obtain ⟨⟨x, definition⟩, -, -, ⟨top, rest, contexts, self⟩, name, field, answer, more, named,
    calls⟩ := recorded
  obtain ⟨object, first, hobject, begins, selfName⟩ := isSelf_eq_true.mp self
  obtain ⟨entered, within⟩ := inside
  rw [contexts] at follows named
  have isMethod : top.kind = .method := kind_of_selfName atModule follows selfName
  obtain ⟨m, K, ds, below, rest, rfl, rfl, isFunction, isClass, place, ofMethod⟩ :=
    method_of_kind atModule follows isMethod
  obtain ⟨method, around⟩ := isMethod_of_entered entered.outside isFunction isClass
  have m_among := entered.mem (d := m) (by simp)
  have K_among := entered.mem (d := K) (by simp)
  have within_m : (Cursor.root t).Within m :=
    within.ancestor (Cursor.mem_ancestorsAmong_of_mem m_among)
  have K_around : K ∈ m.ancestors :=
    Cursor.mem_ancestorsAmong_of_mem (entered.outside.mem (by simp))
  have unaffected := unaffected_class apart ofMethod method within_m K_around
  obtain ⟨text, htext, same⟩ := qualifiedName_attribute headed inModule isMethod self
    definition.isName place (within_m.ancestor K_around)
    (by simp [isClass, NodeKind.isDefinition]) unaffected (Cursor.length_lt_of_mem K_among) named
  obtain rfl := Option.some.inj same
  have ofSelf : m.beginsWithSelf object = true := by
    simp [Cursor.beginsWithSelf, ← ofMethod, selfName, begins]
  exact ⟨_, calls, m, K, object, text, field, answer, more,
    methodAround?_of_entered entered method, around, hobject, ofSelf, htext, rfl⟩

/-- A definition that is entered is recorded under the name that its nesting gives it. In a module
without a name it has none either. -/
theorem calls_of_definition (headed : t.DefinitionsHeaded) (apart : t.SelfNamesApart)
    (he : e ∈ (walk s t : Walk Client).events c.fresh) {held₁ held₂ : Held} {d : Cursor}
    (hstep : e.step = .enter d)
    (done : (actions s).perform (.enter d) held₁ e.before = .ok held₂ e.after) :
    ∃ symbol more, e.calls = ⟨.symbol ((d.nameIn (moduleName s.source
      (some s.source.path))).getD .unsolved).stored, symbol⟩ :: more := by
  obtain ⟨outer, ds, ds', atModule, shifts, follows⟩ := follows_events he
  rw [hstep] at shifts
  obtain ⟨inside, definition, -⟩ := shifts
  have keeps : (actions s).Keeps (attribution True) (.enter d) := trivial
  have effect := (Actions.outcome_perform keeps held₁ trivial).of_ok done
  obtain ⟨o, symbol, _, more, opened, -, -, calls⟩ := calls_of_enter effect
  rw [name_of_opening headed apart atModule follows inside definition opened] at calls
  exact ⟨symbol, more, Event.calls_eq calls⟩

theorem calls_of_entered (headed : t.DefinitionsHeaded) (apart : t.SelfNamesApart)
    (inModule : moduleName s.source (some s.source.path) = some M)
    (he : e ∈ (walk s t : Walk Client).events c.fresh) {held₁ held₂ : Held} {d : Cursor}
    (hstep : e.step = .enter d)
    (done : (actions s).perform (.enter d) held₁ e.before = .ok held₂ e.after) :
    ∃ symbol more, e.calls = ⟨.symbol (d.hierarchy M).stored, symbol⟩ :: more := by
  have calls := calls_of_definition headed apart he hstep done
  rw [inModule] at calls
  exact calls

/-- A field that is recorded inside a function is defined through the first parameter of the method
around it, and gets the name of the class and its own name. -/
theorem calls_of_field (headed : t.DefinitionsHeaded) (apart : t.SelfNamesApart)
    (inModule : moduleName s.source (some s.source.path) = some M)
    (he : e ∈ (walk s t : Walk Client).events c.fresh) {d : Cursor} (hstep : e.step = .look d)
    (inFunction : d.definitionAround?.any (Cursor.isKind .funcdef) = true)
    (makesField : e.calls.any (·.call.makesField) = true) : FieldOfClass M d e.calls := by
  obtain ⟨outer, ds, ds', atModule, shifts, follows⟩ := follows_events he
  rw [hstep] at shifts
  have made : e.made.any Call.makesField = true := by rwa [Event.made, List.any_map]
  obtain ⟨calls, added, ofClass⟩ := name_of_field headed apart inModule atModule follows shifts.1
    (recordsField_of_look he hstep inFunction made)
  rwa [Event.calls_eq added]

/-- The names in the log of a run follow the nesting of the tree, below the module `M`. -/
structure NamedByNesting (w : Walk Client) (c : Client) (M : QualifiedName) : Prop where
  /-- Every step is taken. -/
  taken : (w.events c.fresh).map Event.step = w.steps
  /-- The log is made up of the beginning of the run and the calls at its steps. -/
  log : (finalState (w.carryOut c.fresh)).calls =
    c.fresh.calls ++ w.begun c ++ (w.events c.fresh).flatMap Event.calls
  /-- A class or function is recorded first of all when it is entered, under the elements of the
  module, the names of the definitions around it, the outermost first, and its own name. -/
  definitions : ∀ e ∈ w.events c.fresh, ∀ d, e.step = .enter d →
    ∃ symbol more, e.calls = ⟨.symbol (d.hierarchy M).stored, symbol⟩ :: more
  /-- A field that is recorded inside a function is defined through the first parameter of the
  method around it, and recorded under the name of the class of that method and its own name. -/
  fields : ∀ e ∈ w.events c.fresh, ∀ d, e.step = .look d →
    d.definitionAround?.any (Cursor.isKind .funcdef) = true →
    e.calls.any (·.call.makesField) = true → FieldOfClass M d e.calls

/-- **Names follow the nesting.** Let all classes and functions begin with a reserved word and their
name, and let the first parameters of methods be kept apart from other names. In a run that returns,
on a file whose module is called `M`, every class and function that is visited is recorded under its
place in the nesting of definitions, and every field that is defined through the first parameter of
a method is recorded as a member of the class. -/
theorem definitions_named_by_nesting (s : Setting) (t : Tree) (c : Client) (M : QualifiedName)
    (headed : t.DefinitionsHeaded) (apart : t.SelfNamesApart)
    (inModule : moduleName s.source (some s.source.path) = some M)
    (ends : returned (index s t c.fresh) = true) :
    (index s t : Indexing Client Unit) = (walk s t).carryOut ∧ NamedByNesting (walk s t) c M := by
  refine ⟨index_eq s t, ?_⟩
  rw [index_eq] at ends
  have completed := Walk.completed_of_returned ends
  refine ⟨completed.taken, Walk.calls_carryOut (disciplined_actions s) (way_inside t) c, ?_, ?_⟩
  · intro e he d hstep
    obtain ⟨held₁, held₂, done⟩ := completed.performed e he
    rw [hstep] at done
    exact calls_of_entered headed apart inModule he hstep done
  · exact fun e he d hstep => calls_of_field headed apart inModule he hstep

/-- A class with a method that defines a field and a class with a method that defines a field. -/
def nestedMethods : Tree :=
  let method (name self : String) (line : Nat) (body : List Tree) : Tree :=
    .node .funcdef
      [.tokenAt .keyword "def" line 0, .tokenAt .name name line 4,
        .node .parameters
          [.tokenAt .operator "(" line 5, .node .param [.tokenAt .name self line 6],
            .tokenAt .operator ")" line 10],
        .tokenAt .operator ":" line 11, .node .suite body]
  let inClass (name : String) (line : Nat) (body : Tree) : Tree :=
    .node .classdef
      [.tokenAt .keyword "class" line 0, .tokenAt .name name line 6, .tokenAt .operator ":" line 7,
        .node .suite [body]]
  let field (object name : String) (line : Nat) : Tree :=
    .node .exprStmt
      [.node .atomExpr
        [.tokenAt .name object line 0,
          .node .trailer [.tokenAt .operator "." line 4, .tokenAt .name name line 5]],
        .tokenAt .operator "=" line 7, .tokenAt (.other "number") "1" line 9]
  .node (.other "file_input")
    [inClass "K" 1 (method "m" "self" 2
      [field "self" "f" 3, inClass "L" 4 (method "n" "this" 5 [field "this" "g" 6])])]

/-- The inner method and its field. -/
theorem nestedMethods_named :
    let s : Setting := ⟨⟨"/w", virtualFile, []⟩, false⟩
    let c : Client := { database := {} }
    let L := ((virtualModule.child "K").child "m").child "L"
    nestedMethods.DefinitionsHeaded ∧ nestedMethods.SelfNamesApart ∧
      returned (index s nestedMethods c.fresh) = true ∧
      (∃ e ∈ (walk s nestedMethods).events c.fresh, ∃ symbol more,
        e.calls = ⟨.symbol (L.child "n").stored, symbol⟩ :: more) ∧
      ∃ e ∈ (walk s nestedMethods).events c.fresh, ∃ field answer more,
        e.calls = ⟨.symbol (L.child "g").stored, field⟩ ::
          ⟨.symbolKind field .field, answer⟩ :: more := by
  intro s c L
  have headed : nestedMethods.DefinitionsHeaded := by unfold Tree.DefinitionsHeaded; decide
  have apart : nestedMethods.SelfNamesApart := ⟨by decide, by decide⟩
  have ends : returned (index s nestedMethods c.fresh) = true := by decide +kernel
  have named :=
    (definitions_named_by_nesting s nestedMethods c virtualModule headed apart rfl ends).2
  refine ⟨headed, apart, ends, ?_, ?_⟩
  · have evaluated : (((walk s nestedMethods).events c.fresh).any fun e =>
        match e.step with
        | .enter d => d.hierarchy virtualModule = L.child "n"
        | _ => false) = true := by decide +kernel
    obtain ⟨e, he, found⟩ := List.any_eq_true.mp evaluated
    cases hstep : e.step with
    | enter d =>
      rw [hstep] at found
      obtain ⟨symbol, more, calls⟩ := named.definitions e he d hstep
      rw [of_decide_eq_true found] at calls
      exact ⟨e, he, symbol, more, calls⟩
    | _ =>
      rw [hstep] at found
      cases found
  · have evaluated : (((walk s nestedMethods).events c.fresh).any fun e =>
        e.step.looked?.any fun d => d.definitionAround?.any (Cursor.isKind .funcdef) &&
          e.calls.any (·.call.makesField) && d.tree.text? = some "g" &&
          (d.methodAround?.bind Cursor.definitionAround?).map (Cursor.hierarchy virtualModule) =
            some L) = true := by decide +kernel
    obtain ⟨e, he, found⟩ := List.any_eq_true.mp evaluated
    obtain ⟨d, looked, found⟩ := (Option.any_eq_true _ _).mp found
    simp only [Bool.and_eq_true, decide_eq_true_eq] at found
    obtain ⟨⟨⟨inFunction, makesField⟩, isG⟩, ofL⟩ := found
    obtain ⟨m, K, _, text, field, answer, more, method, around, -, -, htext, calls⟩ :=
      named.fields e he d (Step.eq_look looked) inFunction makesField
    rw [method, Option.bind_some, around, Option.map_some] at ofL
    rw [Tree.text, isG] at htext
    obtain rfl := Except.ok.inj htext
    rw [Option.some.inj ofL] at calls
    exact ⟨e, he, field, answer, more, calls⟩

end Runs

end Syntactic

end CodeIndex
