import CodeIndex.Proofs.DefinitionNames
import CodeIndex.Proofs.Recorded.Semantic

/-!
# Both indexers give definitions the same names

The semantic indexer finds the name of a class or function through the resolver: it asks where the
name is defined, looks for a definition around that place, and goes on from there, perhaps in
another file. This search need not come to an end. But if the resolver is right about the
definitions of a tree, then each question leads one definition outwards, and the search ends at the
module after as many steps as the nesting is deep. The name is then the one that the syntactic
indexer reads off from the tree.

## What is proved

* `nameUpTo_definition` — the search ends, with the name that the nesting gives.
* `Semantic.Setting.calls_of_definition` — under this name a definition is recorded.
* `definition_names_agree` — so the two indexers record the definitions under the same names.
-/

namespace CodeIndex

open Indexing

/-- The kind of the definition can be read, and it is not that of a parameter. -/
def Definition.isNoParameter (d : Definition) : Bool :=
  match d.kind with
  | .ok kind => kind ≠ some "param"
  | .error _ => false

namespace Semantic

theorem classOfSelf_eq_none {d : Definition} (h : d.isNoParameter = true) :
    classOfSelf d = .ok none := by
  unfold Definition.isNoParameter at h
  cases hkind : d.kind with
  | error e =>
    rw [hkind] at h
    cases h
  | ok kind =>
    rw [hkind] at h
    simp only [classOfSelf, hkind]
    exact if_pos (of_decide_eq_true h)

theorem lastClassOfSelf_eq_none {ds : List (Option Definition)}
    (h : ∀ d, some d ∈ ds → d.isNoParameter = true) : lastClassOfSelf ds = .ok none := by
  induction ds with
  | nil => rfl
  | cons d ds ih =>
    have rest := ih fun d hd => h d (List.mem_cons_of_mem _ hd)
    cases d with
    | none => exact rest
    | some d =>
      unfold lastClassOfSelf
      rw [classOfSelf_eq_none (h d List.mem_cons_self), rest]
      rfl

namespace Setting

/-- The resolver is right about the definitions of the tree. -/
structure Resolves (s : Setting) (t : Tree) : Prop where
  /-- The first definition that is known for the name of a class or function stands at this very
  name, and in the file that is indexed. -/
  own : ∀ d ∈ t.places, d.tree.kind.isDefinition = true → ∀ name, d.definedName = .ok name →
    ∃ x, (s.definitionsAt name s.source.path).findSome? id = some x ∧ x.site = .place name ∧
      x.modulePath = .ok (if s.source.isVirtual then none else some s.source.path)
  /-- No construct around a class or function begins with the name of a parameter. -/
  noParameter : ∀ d ∈ t.places, d.tree.kind.isDefinition = true → ∀ c ∈ d.ancestors,
    ∀ name, c.firstName? = .ok (some name) →
      ∀ x, some x ∈ s.definitionsAt name s.source.path → x.isNoParameter = true

section Naming

variable {s : Setting} {t : Tree} {M : Option QualifiedName} {d : Cursor}

theorem ok_bind {α β : Type} (a : α) (f : α → Except Fault β) : (Except.ok a >>= f) = f a := rfl

theorem fileOf_eq {x : Definition}
    (h : x.modulePath = .ok (if s.source.isVirtual then none else some s.source.path)) :
    s.fileOf x = .ok (some s.source.path) := by
  unfold fileOf
  rw [h]
  cases s.source.isVirtual <;> rfl

/-- Entries that are missing are passed over. -/
theorem nameByDefinition_of_findSome (s : Setting)
    (outer : Cursor → String → Except Fault (Option QualifiedName)) (file : String)
    {ds : List (Option Definition)} {x : Definition} (h : ds.findSome? id = some x) :
    ∃ rest, s.nameByDefinition outer file ds = s.nameByDefinition outer file (some x :: rest) := by
  induction ds with
  | nil => cases h
  | cons d ds ih =>
    cases d with
    | none => exact ih h
    | some d =>
      obtain rfl : d = x := Option.some.inj h
      exact ⟨ds, rfl⟩

/-- No definition is taken for an attribute of the first parameter of a method. -/
theorem classOfAttribute_eq_none (resolves : s.Resolves t) (place : d ∈ t.places)
    (definition : d.tree.kind.isDefinition = true) {site : Cursor}
    (around : site.namedParent? = Cursor.nearestNamed? d.above) :
    s.classOfAttribute site s.source.path = .ok none := by
  unfold classOfAttribute
  rw [around]
  cases found : Cursor.nearestNamed? d.above with
  | none => rfl
  | some c =>
    have isAncestor : c ∈ d.ancestors := Cursor.mem_ancestorsAmong_of_nearestNamed found
    obtain ⟨first, hfirst⟩ := Cursor.firstName?_of_mem_ancestorsAmong isAncestor
    simp only [hfirst]
    cases first with
    | none => rfl
    | some name =>
      exact lastClassOfSelf_eq_none
        (resolves.noParameter d place definition c isAncestor name hfirst)

/-- One step of the search leads from a definition to the one around it, or to the module. -/
theorem nameByDefinition_own (headed : t.DefinitionsHeaded) (resolves : s.Resolves t)
    (place : d ∈ t.places) (definition : d.tree.kind.isDefinition = true) {name : Cursor}
    (defined : d.definedName = .ok name)
    (outer : Cursor → String → Except Fault (Option QualifiedName)) :
    s.nameByDefinition outer s.source.path (s.definitionsAt name s.source.path) =
      d.definitionAround?.elim
        (do return (← s.moduleName (some s.source.path)).map (QualifiedName.child · d.definedText))
        fun around => do
          return (← outer around s.source.path).map (QualifiedName.child · d.definedText) := by
  obtain ⟨name', -, defined', isName, text, above, parent, -⟩ :=
    Cursor.firstName?_of_isHeaded (headed d place definition)
  obtain rfl := Except.ok.inj (defined.symm.trans defined')
  have around : name.namedParent? = Cursor.nearestNamed? d.above := by
    simp [Cursor.namedParent?, isName, ← above]
  have noSelf := classOfAttribute_eq_none resolves place definition around
  obtain ⟨x, found, site, path⟩ := resolves.own d place definition name defined
  obtain ⟨rest, first⟩ := nameByDefinition_of_findSome s outer s.source.path found
  have atName : x.site.cursor = .ok (some name) := by rw [site]; rfl
  simp only [first, nameByDefinition, fileOf_eq path, atName, noSelf, text, parent, ok_bind,
    Option.none_or, Option.bind_some]
  cases d.definitionAround? <;> rfl

/-- The search for the name of a definition ends, and it finds the name that the nesting gives. The
induction is on the number of steps, one for each definition around it and one more. -/
theorem nameUpTo_definition (headed : t.DefinitionsHeaded) (resolves : s.Resolves t)
    (inModule : s.moduleName (some s.source.path) = .ok M) {fuel : Nat} (place : d ∈ t.places)
    (definition : d.tree.kind.isDefinition = true) (bound : d.definitionsAround.length < fuel)
    {c name : Cursor} (defined : d.definedName = .ok name) (leaf : c.nameLeaf? = .ok (some name)) :
    s.nameUpTo fuel c s.source.path = .ok (d.nameIn M) := by
  induction fuel generalizing d c name with
  | zero => omega
  | succ fuel ih =>
    unfold nameUpTo
    rw [leaf]
    change s.nameByDefinition _ _ _ = _
    rw [nameByDefinition_own headed resolves place definition defined, Cursor.nameIn_eq]
    cases nearest : d.definitionAround? with
    | none =>
      rw [Option.elim_none, inModule]
      rfl
    | some d' =>
      obtain ⟨place', definition', fewer⟩ := Cursor.definition_around place nearest
      obtain ⟨name', first, defined', -⟩ :=
        Cursor.firstName?_of_isHeaded (headed d' place' definition')
      have leaf' : d'.nameLeaf? = .ok (some name') := by
        simp [Cursor.nameLeaf?, d'.isName_of_isDefinition definition', first]
      rw [Option.elim_some, ih place' definition' (by omega) defined' leaf']
      rfl

theorem qualifiedName_definition (headed : t.DefinitionsHeaded) (resolves : s.Resolves t)
    (inModule : s.moduleName (some s.source.path) = .ok M) (place : d ∈ t.places)
    (definition : d.tree.kind.isDefinition = true) {name : Cursor}
    (first : d.firstName? = .ok (some name)) :
    s.qualifiedName name s.source.path = .ok (d.nameIn M) := by
  obtain ⟨name', first', defined, isName, -, -, -, length⟩ :=
    Cursor.firstName?_of_isHeaded (headed d place definition)
  obtain rfl := Option.some.inj (Except.ok.inj (first.symm.trans first'))
  have leaf : name.nameLeaf? = .ok (some name) := by simp [Cursor.nameLeaf?, isName]
  have bound : d.definitionsAround.length < s.resolver.reach + name.above.length + 1 := by
    have := Cursor.length_definitionsAmong_le d.above
    unfold Cursor.definitionsAround
    omega
  unfold qualifiedName
  rw [nameUpTo_definition headed resolves inModule place definition bound defined leaf]

end Naming

/-! ### Runs -/

section Runs

variable {s : Setting} {t : Tree} {M : Option QualifiedName} {c : Client} {e : Event Client}
  {d : Cursor}

/-- A definition is entered under the name that its nesting gives it. -/
theorem name_of_opening (headed : t.DefinitionsHeaded) (resolves : s.Resolves t)
    (inModule : s.moduleName (some s.source.path) = .ok M) (place : d ∈ t.places)
    (definition : d.tree.kind.isDefinition = true) {contexts : List Context} {o : Opening}
    (opened : (s.actions : Actions Client).opening contexts d = .ok o) :
    o.name = (d.nameIn M).getD .unsolved := by
  obtain ⟨name, first, -⟩ := Cursor.firstName?_of_isHeaded (headed d place definition)
  have named := qualifiedName_definition headed resolves inModule place definition first
  have ofKind : ∀ {kind contextKind}, s.openingAs kind contextKind d = .ok o →
      o.name = (d.nameIn M).getD .unsolved := by
    intro kind contextKind h
    simp only [openingAs, first, named, ok_bind] at h
    obtain rfl := Except.ok.inj h
    rfl
  change (if d.isKind .classdef = true then _ else _) = _ at opened
  split at opened <;> exact ofKind opened

/-- A definition that is entered is recorded under the name that its nesting gives it. -/
theorem calls_of_definition (headed : t.DefinitionsHeaded) (resolves : s.Resolves t)
    (inModule : s.moduleName (some s.source.path) = .ok M) (place : d ∈ t.places)
    (definition : d.tree.kind.isDefinition = true) {held₁ held₂ : Held}
    (done : s.actions.perform (.enter d) held₁ e.before = .ok held₂ e.after) :
    ∃ symbol more,
      e.calls = ⟨.symbol ((d.nameIn M).getD .unsolved).stored, symbol⟩ :: more := by
  have keeps : s.actions.Keeps (attribution True) (.enter d) := trivial
  have effect := (Actions.outcome_perform keeps held₁ trivial).of_ok done
  obtain ⟨o, symbol, _, more, opened, -, -, calls⟩ := calls_of_enter effect
  rw [name_of_opening headed resolves inModule place definition opened] at calls
  exact ⟨symbol, more, Event.calls_eq calls⟩

/-- Every definition is entered. -/
theorem enter_mem_steps (faultless : Faultless (steps [] t)) (place : d ∈ t.places)
    (definition : d.tree.kind.isDefinition = true) : .enter d ∈ steps [] t := by
  rw [Tree.places, ← subjects_steps t [] faultless] at place
  obtain ⟨x, hx, subject⟩ := List.mem_filterMap.mp place
  obtain ⟨ds, ds', shifts⟩ := (way_inside t).shifts_of_mem hx
  cases x with
  | enter d' =>
    obtain rfl := Option.some.inj subject
    exact hx
  | look d' =>
    obtain rfl := Option.some.inj subject
    rw [shifts.2.1] at definition
    cases definition
  | parameter d' => exact absurd hx (parameter_notMem_steps t [] d')
  | _ => cases subject

end Runs

end Setting

end Semantic

/-- In the log of the run every definition that is entered is recorded, first of all, under the name
that `nameOf` gives it. -/
structure Walk.NamesDefinitions (w : Walk Client) (c : Client) (nameOf : Cursor → QualifiedName) :
    Prop where
  /-- Every step is taken. -/
  taken : (w.events c.fresh).map Event.step = w.steps
  /-- The log is made up of the beginning of the run and the calls at its steps. -/
  log : (finalState (w.carryOut c.fresh)).calls =
    c.fresh.calls ++ w.begun c ++ (w.events c.fresh).flatMap Event.calls
  /-- A definition is recorded when it is entered. -/
  definitions : ∀ e ∈ w.events c.fresh, ∀ d, e.step = .enter d →
    ∃ symbol more, e.calls = ⟨.symbol (nameOf d).stored, symbol⟩ :: more

theorem Walk.NamesDefinitions.exists_calls {w : Walk Client} {c : Client}
    {nameOf : Cursor → QualifiedName} (h : w.NamesDefinitions c nameOf) {q : QualifiedName}
    (entered : ((w.events c.fresh).any fun e =>
      match e.step with
      | .enter d => nameOf d = q
      | _ => false) = true) :
    ∃ e ∈ w.events c.fresh, ∃ symbol more, e.calls = ⟨.symbol q.stored, symbol⟩ :: more := by
  obtain ⟨e, he, found⟩ := List.any_eq_true.mp entered
  cases hstep : e.step with
  | enter d =>
    rw [hstep] at found
    obtain ⟨symbol, more, calls⟩ := h.definitions e he d hstep
    rw [of_decide_eq_true found] at calls
    exact ⟨e, he, symbol, more, calls⟩
  | _ =>
    rw [hstep] at found
    cases found

theorem Syntactic.namesDefinitions {s : Setting} {t : Tree} {c : Client}
    (headed : t.DefinitionsHeaded) (apart : t.SelfNamesApart)
    (completed : (walk s t).Completed c) :
    (walk s t).NamesDefinitions c fun d =>
      (d.nameIn (moduleName s.source (some s.source.path))).getD .unsolved := by
  refine ⟨completed.taken, Walk.calls_carryOut (disciplined_actions s) (way_inside t) c, ?_⟩
  intro e he d hstep
  obtain ⟨held₁, held₂, done⟩ := completed.performed e he
  rw [hstep] at done
  exact calls_of_definition headed apart he hstep done

theorem Semantic.Setting.namesDefinitions {s : Setting} {t : Tree} {c : Client}
    {M : Option QualifiedName} (headed : t.DefinitionsHeaded) (resolves : s.Resolves t)
    (inModule : s.moduleName (some s.source.path) = .ok M) (completed : (s.walk t).Completed c) :
    (s.walk t).NamesDefinitions c fun d => (d.nameIn M).getD .unsolved := by
  refine ⟨completed.taken, Walk.calls_carryOut (disciplined_actions s) (way_inside t) c, ?_⟩
  intro e he d hstep
  obtain ⟨held₁, held₂, done⟩ := completed.performed e he
  have mem : e.step ∈ (s.walk t : Walk Client).steps := by
    rw [← completed.taken]
    exact List.mem_map_of_mem he
  obtain ⟨ds, ds', shifts⟩ := (way_inside t).shifts_of_mem mem
  rw [hstep] at done shifts
  have place : d ∈ t.places := Cursor.mem_placesFrom_iff.mpr shifts.1.2
  exact calls_of_definition headed resolves inModule place shifts.2.1 done

/-- **Both indexers give definitions the same names.** Let all definitions of a tree begin with a
reserved word and their name, and let the first parameters of methods be kept apart from other
names. If the resolver is right about the definitions of the tree, and both indexers know the file
by the same module, then the search of the semantic indexer for the name of a definition ends after
at most one step more than there are definitions around it. It finds the name that the nesting
gives, and in runs that return both indexers record each definition under this name. Every
definition that the syntactic indexer enters is entered by the semantic indexer too. -/
theorem definition_names_agree (s₁ : Syntactic.Setting) (s₂ : Semantic.Setting) (t : Tree)
    (c₁ c₂ : Client) (headed : t.DefinitionsHeaded) (apart : t.SelfNamesApart)
    (resolves : s₂.Resolves t)
    (sameModule : s₂.moduleName (some s₂.source.path) =
      .ok (Syntactic.moduleName s₁.source (some s₁.source.path))) :
    let nameOf (d : Cursor) := d.nameIn (Syntactic.moduleName s₁.source (some s₁.source.path))
    (∀ d ∈ t.places, d.tree.kind.isDefinition = true → ∃ name, d.definedName = .ok name ∧
      ∀ fuel, d.definitionsAround.length < fuel →
        s₂.nameUpTo fuel name s₂.source.path = .ok (nameOf d)) ∧
    (returned (Syntactic.index s₁ t c₁.fresh) = true → returned (s₂.index t c₂.fresh) = true →
      (Syntactic.index s₁ t = (Syntactic.walk s₁ t : Walk Client).carryOut ∧
        (Syntactic.walk s₁ t).NamesDefinitions c₁ fun d => (nameOf d).getD .unsolved) ∧
      (s₂.index t = (s₂.walk t : Walk Client).carryOut ∧
        (s₂.walk t).NamesDefinitions c₂ fun d => (nameOf d).getD .unsolved) ∧
      ∀ d, .enter d ∈ Syntactic.steps [] t → .enter d ∈ Semantic.Setting.steps [] t) := by
  intro nameOf
  refine ⟨fun d place definition => ?_, fun ends₁ ends₂ => ?_⟩
  · obtain ⟨name, -, defined, isName, -⟩ :=
      Cursor.firstName?_of_isHeaded (headed d place definition)
    have leaf : name.nameLeaf? = .ok (some name) := by simp [Cursor.nameLeaf?, isName]
    exact ⟨name, defined, fun fuel bound => Semantic.Setting.nameUpTo_definition headed resolves
      sameModule place definition bound defined leaf⟩
  · rw [Syntactic.index_eq] at ends₁
    rw [Semantic.Setting.index_eq] at ends₂
    have completed₁ := Walk.completed_of_returned ends₁
    have completed₂ := Walk.completed_of_returned ends₂
    refine ⟨⟨Syntactic.index_eq s₁ t, Syntactic.namesDefinitions headed apart completed₁⟩,
      ⟨s₂.index_eq t, Semantic.Setting.namesDefinitions headed resolves sameModule completed₂⟩,
      fun d entered => ?_⟩
    obtain ⟨ds, ds', inside, definition, -⟩ := (Syntactic.way_inside t).shifts_of_mem entered
    exact Semantic.Setting.enter_mem_steps completed₂.faultless
      (Cursor.mem_placesFrom_iff.mpr inside.2) definition

/-- A resolver that knows the classes and functions of a tree, each by its own name, and nothing
else. -/
def resolverOf (t : Tree) : Resolver where
  answers := (t.places.filter (·.tree.kind.isDefinition)).filterMap fun d =>
    match d.definedName with
    | .error _ => none
    | .ok name => name.tree.start?.map fun p =>
      (⟨none, p⟩, .ok [none, some { kind := .ok (some "class"), site := .place name }])

/-- What a resolver answers is known to it. -/
theorem Resolver.mem_known {r : Resolver} {q : Question} {x : Definition}
    (h : some x ∈ r.definitions q) : x ∈ r.known := by
  unfold definitions at h
  split at h
  · rename_i ds found
    obtain ⟨before, after, split, -⟩ := List.lookup_eq_some_iff.mp found
    refine List.mem_flatMap.mpr ⟨(q, .ok ds), by simp [split], ?_⟩
    exact List.mem_filterMap.mpr ⟨some x, h, rfl⟩
  · cases h

/-- The inner method of a class in a method of a class. Its name is found in four steps. -/
theorem names_of_nestedMethods_agree :
    let t := Syntactic.nestedMethods
    let s₁ : Syntactic.Setting := ⟨⟨"/w", virtualFile, []⟩, false⟩
    let s₂ : Semantic.Setting := ⟨⟨"/w", virtualFile, []⟩, 3, 7, "/stubs", resolverOf t, false⟩
    let c : Client := { database := {} }
    let q := (((virtualModule.child "K").child "m").child "L").child "n"
    t.DefinitionsHeaded ∧ t.SelfNamesApart ∧ s₂.Resolves t ∧
      returned (Syntactic.index s₁ t c.fresh) = true ∧ returned (s₂.index t c.fresh) = true ∧
      (∃ d ∈ t.places, ∃ name, d.definedName = .ok name ∧
        s₂.nameUpTo 4 name s₂.source.path = .ok (some q)) ∧
      (∃ e ∈ (Syntactic.walk s₁ t).events c.fresh, ∃ symbol more,
        e.calls = ⟨.symbol q.stored, symbol⟩ :: more) ∧
      ∃ e ∈ (s₂.walk t).events c.fresh, ∃ symbol more,
        e.calls = ⟨.symbol q.stored, symbol⟩ :: more := by
  intro t s₁ s₂ c q
  have headed : t.DefinitionsHeaded := by unfold Tree.DefinitionsHeaded; decide
  have apart : t.SelfNamesApart := ⟨by decide, by decide⟩
  have own : ∀ d ∈ t.places.filter (·.tree.kind.isDefinition), ∀ name, d.definedName = .ok name →
      ∃ x, (s₂.definitionsAt name s₂.source.path).findSome? id = some x ∧ x.site = .place name ∧
        x.modulePath = .ok (if s₂.source.isVirtual then none else some s₂.source.path) := by
    refine List.forall_mem_cons.mpr ⟨?_, List.forall_mem_cons.mpr ⟨?_, List.forall_mem_cons.mpr
      ⟨?_, List.forall_mem_cons.mpr ⟨?_, List.forall_mem_nil _⟩⟩⟩⟩
    all_goals
      intro name defined
      obtain rfl := Except.ok.inj defined
      exact ⟨_, rfl, rfl, rfl⟩
  have noParameter : ∀ x ∈ (resolverOf t).known, x.isNoParameter = true := by decide
  have resolves : s₂.Resolves t := by
    refine ⟨fun d place definition => own d (List.mem_filter.mpr ⟨place, definition⟩), ?_⟩
    intro _ _ _ _ _ name _ x hx
    refine noParameter x ?_
    unfold Semantic.Setting.definitionsAt at hx
    split at hx
    · cases hx
    · exact Resolver.mem_known hx
  have ends₁ : returned (Syntactic.index s₁ t c.fresh) = true := by decide +kernel
  have ends₂ : returned (s₂.index t c.fresh) = true := by decide +kernel
  obtain ⟨found, recorded⟩ := definition_names_agree s₁ s₂ t c c headed apart resolves rfl
  obtain ⟨⟨-, syntactic⟩, ⟨-, semantic⟩, -⟩ := recorded ends₁ ends₂
  refine ⟨headed, apart, resolves, ends₁, ends₂, ?_, ?_, ?_⟩
  · have evaluated : (t.places.any fun d => d.tree.kind.isDefinition &&
        d.definitionsAround.length = 3 && d.nameIn (some virtualModule) = some q) = true := by
      decide +kernel
    obtain ⟨d, place, isInner⟩ := List.any_eq_true.mp evaluated
    simp only [Bool.and_eq_true, decide_eq_true_eq] at isInner
    obtain ⟨⟨definition, depth⟩, named⟩ := isInner
    obtain ⟨name, defined, steps⟩ := found d place definition
    exact ⟨d, place, name, defined, (steps 4 (by omega)).trans (congrArg Except.ok named)⟩
  · exact syntactic.exists_calls (by decide +kernel)
  · exact semantic.exists_calls (by decide +kernel)

end CodeIndex
