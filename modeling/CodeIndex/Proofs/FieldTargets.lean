import CodeIndex.Proofs.LocalScope
import CodeIndex.Proofs.Logging
import CodeIndex.Proofs.NamingEnds

/-!
# Which names become fields

The syntactic indexer records two kinds of defining names as fields of a class: the variables of a
class body, and the attributes of the first parameter of a method. In both cases it goes up from the
name, past the construct to which the name belongs, to the nearest construct that has an identifier
among its parts.

In a class body that construct has to be the class. So a variable is no field if it stands in a
statement with a name among its parts, such as `if flag:`, or if the value that is assigned to
several variables is a name. In a method the first identifier of that construct has to be the name
of the first parameter. This is so for `self.x`, but also for `self.a.x` and `self[i].x`, which are
attributes of other objects.

## What is proved

* `namedParent?_eq_some` — the construct that is asked about.
* `visitSelf_of_definition` — what is done for a defining name.
* `qualifiedName_of_owner` — when there is a name for it, and which.
* `class_variables_told_by_names_between` — which variables of a class body become fields.
* `isThroughSelf_iff` — in a chain of attributes, subscripts and calls only the first name counts.
* `RecordsField.through` — what is made a field in a function belongs to the first parameter.
* `attributes_told_by_first_name` — which attributes in a method become fields.
-/

namespace CodeIndex

open Indexing

/-! ### The nearest construct with an identifier -/

namespace Cursor

/-- The place belongs to some construct; going up from there, the next construct that has an
identifier among its parts is `o`. -/
def IsNamedAround (c o : Cursor) : Prop :=
  ∃ own between a above, c.above = own :: (between ++ a :: above) ∧ o = ⟨a.tree, above⟩ ∧
    (∀ b ∈ between, b.children.any Tree.isName = false) ∧ a.children.any Tree.isName = true

theorem nearestNamed?_eq_some {above : List Ancestor} {o : Cursor} :
    nearestNamed? above = some o ↔
      ∃ between a rest, above = between ++ a :: rest ∧ o = ⟨a.tree, rest⟩ ∧
        (∀ b ∈ between, b.children.any Tree.isName = false) ∧
        a.children.any Tree.isName = true := by
  induction above with
  | nil => simp [nearestNamed?]
  | cons b above ih =>
    unfold nearestNamed?
    by_cases named : b.children.any Tree.isName = true
    · rw [if_pos named]
      constructor
      · rintro ⟨⟩
        exact ⟨[], b, above, rfl, rfl, by simp, named⟩
      · rintro ⟨between, a, rest, split, rfl, nameless, -⟩
        cases between with
        | nil =>
          obtain ⟨rfl, rfl⟩ := List.cons.inj split
          rfl
        | cons b' between =>
          obtain ⟨rfl, -⟩ := List.cons.inj split
          rw [nameless b List.mem_cons_self] at named
          cases named
    · rw [if_neg named, ih]
      constructor
      · rintro ⟨between, a, rest, rfl, rfl, nameless, hasName⟩
        refine ⟨b :: between, a, rest, rfl, rfl, ?_, hasName⟩
        exact List.forall_mem_cons.mpr ⟨Bool.eq_false_iff.mpr named, nameless⟩
      · rintro ⟨between, a, rest, split, rfl, nameless, hasName⟩
        cases between with
        | nil =>
          obtain ⟨rfl, -⟩ := List.cons.inj split
          exact absurd hasName named
        | cons b' between =>
          obtain ⟨-, rfl⟩ := List.cons.inj split
          exact ⟨between, a, rest, rfl, rfl, (List.forall_mem_cons.mp nameless).2, hasName⟩

variable {c o K : Cursor}

/-- The construct that is asked about for an identifier. -/
theorem namedParent?_eq_some (isName : c.isName = true) :
    c.namedParent? = some o ↔ c.IsNamedAround o := by
  unfold namedParent? IsNamedAround
  rw [if_pos isName, nearestNamed?_eq_some]
  cases c.above with
  | nil => simp
  | cons own above => simp

theorem namedParent?_mem_ancestors (h : c.namedParent? = some o) : o ∈ c.ancestors := by
  unfold namedParent? at h
  split at h
  · exact mem_ancestorsAmong_of_drop (mem_ancestorsAmong_of_nearestNamed h)
  · exact mem_ancestorsAmong_of_nearestNamed h

/-- Of the constructs around one place, those with the same path are the same. -/
theorem eq_of_sameAs (ho : o ∈ c.ancestors) (hK : K ∈ c.ancestors) (same : K.sameAs o = true) :
    o = K := by
  have lengths : K.above.length = o.above.length := by
    have paths : K.path = o.path := of_decide_eq_true (Bool.and_eq_true_iff.mp same).1
    simpa [path] using congrArg List.length paths
  rcases ancestorsAmong_chain ho hK with inside | rfl | inside
  · have shorter := length_lt_of_mem_ancestorsAmong inside
    omega
  · rfl
  · have shorter := length_lt_of_mem_ancestorsAmong inside
    omega

/-- The test of the indexer: the construct that is asked about is the definition around the
place. -/
theorem any_sameAs_iff (isName : c.isName = true) (around : c.definitionAround? = some K) :
    c.namedParent?.any K.sameAs = true ↔ c.IsNamedAround K := by
  rw [← namedParent?_eq_some isName]
  constructor
  · intro found
    obtain ⟨o, ho, same⟩ := (Option.any_eq_true _ _).mp found
    rwa [eq_of_sameAs (namedParent?_mem_ancestors ho) (definitionAround?_mem_ancestors around) same]
      at ho
  · intro named
    rw [named]
    exact K.sameAs_self

/-- The place belongs to a construct of the method `m` in the way in which attributes of its first
parameter do: the next construct with an identifier begins with the name of that parameter. -/
def IsThroughSelf (c m : Cursor) : Prop :=
  m.isMethod = true ∧ ∃ object, c.IsNamedAround object ∧ m.beginsWithSelf object = true

/-- If the next construct begins with a name, then all that matters is this name, whatever else the
construct is made of and wherever in it the place is. -/
theorem isThroughSelf_iff {m : Cursor} (isName : c.isName = true) {own : Ancestor}
    {kind : NodeKind} {first : Token} {parts : List Tree} {i : Nat} {above : List Ancestor}
    (split : c.above = own :: ⟨kind, .leaf first :: parts, i⟩ :: above)
    (begins : first.kind = .name) :
    c.IsThroughSelf m ↔ m.isMethod = true ∧ m.firstParameter? = some first.text := by
  let object : Cursor := ⟨.node kind (.leaf first :: parts), above⟩
  have firstIsName : Tree.isName (.leaf first) = true := decide_eq_true begins
  have next : c.namedParent? = some object := by
    simp only [namedParent?, isName, if_true, split, List.drop_one, List.tail_cons]
    rw [nearestNamed?, if_pos (by simp [firstIsName])]
    rfl
  have text : object.firstNameText? = some first.text := by
    have found : object.firstName? =
        .ok (some ⟨.leaf first, ⟨kind, .leaf first :: parts, 0⟩ :: above⟩) := by
      change Except.ok (List.find? _ (childrenOf kind (.leaf first :: parts) above)) = _
      simp [childrenOf, firstIsName]
    exact firstNameText?_eq_some.mpr ⟨_, found, rfl⟩
  have self : m.beginsWithSelf object = true ↔ m.firstParameter? = some first.text := by
    unfold beginsWithSelf
    cases m.firstParameter? with
    | none => simp
    | some self => simp [text, eq_comm]
  unfold IsThroughSelf
  refine and_congr_right fun _ => ?_
  constructor
  · rintro ⟨object', named, selfBegins⟩
    have same := (namedParent?_eq_some isName).mpr named
    obtain rfl := Option.some.inj (next.symm.trans same)
    exact self.mp selfBegins
  · intro parameter
    exact ⟨object, (namedParent?_eq_some isName).mp next, self.mpr parameter⟩

end Cursor

/-! ### Defining names -/

namespace Syntactic

/-- The entries record a variable called `name` as a field with the identifier `i`, and the range
`r` as its definition. -/
def FieldEntries (file : Value) (name : QualifiedName) (r : Extent) (i : Value)
    (xs : List LogEntry) : Prop :=
  ∃ u v w, xs = [⟨.symbol name.stored, i⟩, ⟨.symbolKind i .field, u⟩,
    ⟨.definitionKind i .explicit, v⟩, ⟨.symbolLocation i file r, w⟩]

section Names

variable {s : Setting} {d K : Cursor} {x : String} {σ : Trace Client} {top : Context}
  {rest : List Context} {r : SourceRange} {context file : Value}

theorem visitSelf_of_definition (definition : DefinesVariable d x) (undecided : Undecided σ.kinds)
    (contexts : σ.contexts = top :: rest) :
    visitSelf s d σ = (visitDefining s d (nameReference d) : Indexing Client Unit) σ := by
  rw [visitSelf_of_undecided definition.isName definition.text definition.noConstant
    definition.noQualifier undecided contexts definition.defines, if_pos rfl]
  rfl

end Names

/-! ### Names that can be told -/

section Owners

variable {source : Source} {root : Tree} {top : Context} {outer : List Context} {c d K : Cursor}

/-- Only in a method it matters what a construct begins with. -/
theorem owner?_of_not_method (other : top.kind ≠ .method) (name : Cursor) :
    owner? (top :: outer) c name = .ok (name.parent?.bind Cursor.definitionAround?) := by
  simp only [owner?, if_neg other]
  rfl

/-- With nothing around it that begins with the first parameter, a definition belongs to the nearest
one around it. -/
theorem owner?_of_unaffected (tokens : top.kind = .method → root.NamesAreTokens)
    (within : (Cursor.root root).Within d) (definition : d.tree.kind.isDefinition = true)
    (unaffected : Unaffected top d) (name : Cursor) :
    owner? (top :: outer) d name = .ok (name.parent?.bind Cursor.definitionAround?) := by
  by_cases isMethod : top.kind = .method
  · obtain ⟨ofSelf, self⟩ := isSelf_eq_ok top (tokens isMethod) within
    cases ofSelf with
    | true =>
      have notName : d.isName = false := d.isName_of_isDefinition definition
      exact absurd self (unaffected.notSelf (by simp [Cursor.namedParent?, notName]) isMethod)
    | false => simp [owner?, isMethod, self, bind, Except.bind, pure, Except.pure]
  · exact owner?_of_not_method isMethod name

/-- Such a definition has a name, if its module has one. The induction is on the number of elements
that are allowed, one for each definition around it. -/
theorem nameUpTo_of_unaffected (headed : root.DefinitionsHeaded)
    (tokens : top.kind = .method → root.NamesAreTokens) {fuel : Nat}
    (within : (Cursor.root root).Within d) (definition : d.tree.kind.isDefinition = true)
    (unaffected : Unaffected top d) (bound : d.above.length < fuel) :
    nameUpTo source (top :: outer) fuel d =
      .ok (d.nameIn (moduleName source (some source.path))) := by
  induction fuel generalizing d with
  | zero => omega
  | succ fuel ih =>
    have isHeaded := headed d (Cursor.mem_placesFrom_iff.mpr within) definition
    obtain ⟨name, first, -, -, text, -, parent, -⟩ := Cursor.firstName?_of_isHeaded isHeaded
    have leaf : d.nameLeaf? = .ok (some name) := by
      simp [Cursor.nameLeaf?, d.isName_of_isDefinition definition, first]
    have owner : owner? (top :: outer) d name = .ok d.definitionAround? := by
      rw [owner?_of_unaffected tokens within definition unaffected, parent]
      rfl
    rw [Cursor.nameIn_eq]
    cases around : d.definitionAround? with
    | none =>
      simp only [nameUpTo, leaf, owner, text, around, bind, Except.bind]
      rfl
    | some d' =>
      have isAncestor := Cursor.definitionAround?_mem_ancestors around
      have shorter := Cursor.length_lt_of_mem_ancestorsAmong isAncestor
      have outside := ih (within.ancestor isAncestor)
        (Cursor.isDefinition_of_mem (Cursor.definitionAround?_mem around))
        (fun isMethod o ho => unaffected isMethod o (Cursor.mem_ancestorsAmong_trans isAncestor ho))
        (by omega)
      simp only [nameUpTo, leaf, owner, text, around, outside, bind, Except.bind]
      rfl

/-- So an identifier that belongs to a definition is named after it. -/
theorem qualifiedName_of_owner (headed : root.DefinitionsHeaded)
    (tokens : top.kind = .method → root.NamesAreTokens) (within : (Cursor.root root).Within c)
    (isName : c.isName = true) {x : String} (text : c.tree.text = .ok x)
    (owner : owner? (top :: outer) c c = .ok (some K)) (around : K ∈ c.ancestors)
    (definition : K.tree.kind.isDefinition = true) (unaffected : Unaffected top K) :
    qualifiedName source (top :: outer) c =
      .ok ((K.nameIn (moduleName source (some source.path))).map (·.child x)) := by
  have leaf : c.nameLeaf? = .ok (some c) := by simp [Cursor.nameLeaf?, isName]
  have ofOwner : nameUpTo source (top :: outer) c.above.length K =
      .ok (K.nameIn (moduleName source (some source.path))) :=
    nameUpTo_of_unaffected headed tokens (within.ancestor around) definition unaffected
      (Cursor.length_lt_of_mem_ancestorsAmong around)
  simp only [qualifiedName, nameUpTo, leaf, owner, text, ofOwner, bind, Except.bind]
  rfl

end Owners

/-! ### Variables of a class body -/

section ClassBody

variable {source : Source} {root : Tree} {top : Context} {outer : List Context} {c K : Cursor}

/-- The construct to which a name belongs lies in the definition as well, if that is the next one
with an identifier. -/
theorem definitionAround?_parent (around : c.definitionAround? = some K)
    (named : c.IsNamedAround K) : c.parent?.bind Cursor.definitionAround? = some K := by
  obtain ⟨own, between, a, above, split, rfl, -⟩ := named
  unfold Cursor.definitionAround? Cursor.enclosing? at around ⊢
  unfold Cursor.parent?
  rw [split] at around ⊢
  unfold Cursor.nearest? at around
  by_cases isDefinition : own.kind.isDefinition = true
  · rw [if_pos isDefinition] at around
    have lengths := congrArg (fun o : Cursor => o.above.length) (Option.some.inj around)
    simp only [List.length_append, List.length_cons] at lengths
    omega
  · rwa [if_neg isDefinition] at around

/-- A variable of a class body is named after the class. -/
theorem qualifiedName_of_class (headed : root.DefinitionsHeaded) (other : top.kind ≠ .method)
    (within : (Cursor.root root).Within c) (isName : c.isName = true) {x : String}
    (text : c.tree.text = .ok x) (around : c.definitionAround? = some K)
    (named : c.IsNamedAround K) :
    qualifiedName source (top :: outer) c =
      .ok ((K.nameIn (moduleName source (some source.path))).map (·.child x)) := by
  refine qualifiedName_of_owner headed (fun isMethod => absurd isMethod other) within isName text ?_
    (Cursor.definitionAround?_mem_ancestors around)
    (Cursor.isDefinition_of_mem (Cursor.definitionAround?_mem around))
    fun isMethod => absurd isMethod other
  rw [owner?_of_not_method other, definitionAround?_parent around named]

variable {s : Setting} {d : Cursor} {x : String} {σ : Trace Client}

/-- Under its name, a variable of a class body is recorded as a field. -/
theorem visitDefining_of_field (isName : d.isName = true) (inClass : d.definitionAround? = some K)
    (isClass : K.isKind .classdef = true) (named : d.IsNamedAround K) {name : QualifiedName}
    (called : qualifiedName s.source σ.contexts d = .ok (some name)) {r : SourceRange}
    (range : d.range = .ok r) (reference : ReferenceKind) :
    visitDefining s d reference σ =
      (do let _ ← defineVariable name .field r : Indexing Client Unit) σ := by
  unfold visitDefining
  simp only [inClass, if_pos isClass, if_pos ((Cursor.any_sameAs_iff isName inClass).mpr named)]
  rw [visitLasting, bind_of_ok (nameAt_eq called), range]
  rfl

/-- A defining name below some other construct with an identifier is taken for something unknown. -/
theorem visitDefining_of_other (isName : d.isName = true) (inClass : d.definitionAround? = some K)
    (isClass : K.isKind .classdef = true) (other : ¬ d.IsNamedAround K)
    (reference : ReferenceKind) :
    visitDefining s d reference = (referToUnsolved reference d : Indexing Client Unit) := by
  have notSame : ¬ d.namedParent?.any K.sameAs = true :=
    fun same => other ((Cursor.any_sameAs_iff isName inClass).mp same)
  unfold visitDefining
  simp only [inClass, if_pos isClass, if_neg notSame]

end ClassBody

/-- An event at which the definition of `x` is looked at, with the answer `p` on it. -/
theorem exists_definition (events : List (Event Client)) (x : String)
    (p : Event Client → Cursor → Bool)
    (h : (events.any fun e => e.step.looked?.any fun d =>
      decide (DefinesVariable d x ∧ Undecided e.before.kinds) && p e d) = true) :
    ∃ e ∈ events, ∃ d, e.step = .look d ∧ DefinesVariable d x ∧ Undecided e.before.kinds ∧
      p e d = true := by
  obtain ⟨e, he, found⟩ := List.any_eq_true.mp h
  obtain ⟨d, hd, found⟩ := (Option.any_eq_true _ _).mp found
  obtain ⟨defines, holds⟩ := Bool.and_eq_true_iff.mp found
  obtain ⟨definition, undecided⟩ := of_decide_eq_true defines
  exact ⟨e, he, d, Step.eq_look hd, definition, undecided, holds⟩

/-- **Class variables are told by the names between.** In every run over a module that has a name, a
defining name in a class body is recorded as an explicitly defined field if the class is the next
construct with an identifier, going up from the construct to which the name belongs. If definitions
have names and parameters are in place, then the field is called by the name of the class and its
own. If there is another construct with an identifier before the class, then there is no field, only
a reference to something unknown. -/
theorem class_variables_told_by_names_between (s : Setting) (t : Tree) (client : Client)
    (M : QualifiedName) (inModule : moduleName s.source (some s.source.path) = some M)
    (e : Event Client) (he : e ∈ (walk s t).events client.fresh) (d K : Cursor) (x : String)
    (looks : e.step = .look d) (definition : DefinesVariable d x)
    (undecided : Undecided e.before.kinds) (inClass : d.definitionAround? = some K)
    (isClass : K.isKind .classdef = true) :
    (index s t : Indexing Client Unit) = (walk s t).carryOut ∧
      ∃ r context, d.range = .ok r ∧ e.before.IsTop context ∧
        (d.IsNamedAround K →
          (∀ name, qualifiedName s.source e.before.contexts d = .ok (some name) →
            ∃ i, FieldEntries e.before.recorder.file name r i e.calls) ∧
          (t.DefinitionsHeaded → t.parametersInPlace = true →
            ∃ i, FieldEntries e.before.recorder.file ((K.hierarchy M).child x) r i e.calls)) ∧
        (¬ d.IsNamedAround K → ∃ v, e.calls =
          [⟨.unsolvedReference context (nameReference d) e.before.recorder.file r, v⟩]) := by
  obtain ⟨outer, ds, ds', atModule, shifts, follows⟩ := follows_events he
  rw [looks] at shifts
  obtain ⟨⟨entered, within⟩, -⟩ := shifts
  obtain ⟨top, rest, contexts⟩ := exists_top atModule follows
  obtain ⟨r, range⟩ := range_of_text definition.text
  have isTop : e.before.IsTop top.id := ⟨top, rest, contexts, rfl⟩
  have stands : e.before.Stands top.id e.before.recorder.file := ⟨isTop, rfl⟩
  have visited := visitSelf_of_definition (s := s) definition undecided contexts
  have recorded : d.IsNamedAround K → ∀ name,
      qualifiedName s.source e.before.contexts d = .ok (some name) →
      ∃ i, FieldEntries e.before.recorder.file name r i e.calls := by
    intro named name called
    rw [visitDefining_of_field definition.isName inClass isClass named called range] at visited
    have writes : Writes top.id e.before.recorder.file
        (do let _ ← defineVariable name .field r : Indexing Client Unit)
        (fun _ xs => ∃ i, FieldEntries e.before.recorder.file name r i xs) (fun _ => False) := by
      refine .bind ((writes_defineVariable name .field r).mono (fun i entries field => .pure ?_)
        fun _ h => h)
      rw [List.append_nil]
      exact ⟨i, field⟩
    exact writes.look he looks stands visited
  refine ⟨index_eq s t, r, top.id, range, isTop, fun named => ⟨recorded named, ?_⟩, fun other => ?_⟩
  · intro headed inPlace
    -- the class was entered, so the innermost context is its own
    have around : d.definitionsAround = ds := definitionsAmong_of_entered inPlace entered within
    rw [contexts] at follows
    have body : top.kind = .classBody := by
      rw [classBody_iff atModule follows, ← around, ← Cursor.definitionAround?_eq, inClass]
      exact isClass
    refine recorded named _ ?_
    rw [contexts, qualifiedName_of_class headed (by simp [body]) within definition.isName
      definition.text inClass named, inModule]
    rfl
  · rw [visitDefining_of_other definition.isName inClass isClass other] at visited
    exact (writes_referToUnsolved (nameReference d) range).look he looks stands visited

/-- A class whose body is a statement with a condition, under which a variable is defined. -/
def classWithCondition (keyword : String) (condition : Tree) : Tree :=
  .node (.other "file_input")
    [.node .classdef
      [.tokenAt .keyword "class" 1 0, .tokenAt .name "A" 1 6, .tokenAt .operator ":" 1 7,
        .node .suite
          [.node (.other (keyword ++ "_stmt"))
            [.tokenAt .keyword keyword 1 9, condition, .tokenAt .operator ":" 1 19,
              .node .suite
                [.node .exprStmt
                  [.tokenAt .name "x" 1 21, .tokenAt .operator "=" 1 23,
                    .tokenAt (.other "number") "1" 1 25]]]]]]

/-- Below a condition without names the variable is a field of the class. -/
theorem class_variable_below_constant :
    let s : Setting := ⟨⟨"/w", virtualFile, []⟩, false⟩
    let t := classWithCondition "while" (.tokenAt .keyword "True" 1 15)
    let client : Client := { database := {} }
    moduleName s.source (some s.source.path) = some virtualModule ∧ t.DefinitionsHeaded ∧
      t.parametersInPlace = true ∧
      ∃ e ∈ (walk s t).events client.fresh, ∃ d K, e.step = .look d ∧ DefinesVariable d "x" ∧
        Undecided e.before.kinds ∧ d.definitionAround? = some K ∧ K.isKind .classdef = true ∧
        d.IsNamedAround K ∧ ∃ r i, FieldEntries e.before.recorder.file
          ((K.hierarchy virtualModule).child "x") r i e.calls := by
  intro s t client
  have headed : t.DefinitionsHeaded := by unfold Tree.DefinitionsHeaded; decide
  have inPlace : t.parametersInPlace = true := by decide
  obtain ⟨e, he, d, looks, definition, undecided, found⟩ := exists_definition
    ((walk s t).events client.fresh) "x"
    (fun _ d => d.definitionAround?.any fun K =>
      K.isKind .classdef && d.namedParent?.any K.sameAs) (by decide +kernel)
  obtain ⟨K, inClass, found⟩ := (Option.any_eq_true _ _).mp found
  obtain ⟨isClass, same⟩ := Bool.and_eq_true_iff.mp found
  have named := (Cursor.any_sameAs_iff definition.isName inClass).mp same
  obtain ⟨-, r, -, -, -, field, -⟩ := class_variables_told_by_names_between s t client virtualModule
    rfl e he d K "x" looks definition undecided inClass isClass
  obtain ⟨i, entries⟩ := (field named).2 headed inPlace
  exact ⟨rfl, headed, inPlace, e, he, d, K, looks, definition, undecided, inClass, isClass, named,
    r, i, entries⟩

/-- Below a condition with a name it is not, although only statements stand between it and the
class. -/
theorem class_variable_below_name :
    let s : Setting := ⟨⟨"/w", virtualFile, []⟩, false⟩
    let t := classWithCondition "if" (.tokenAt .name "flag" 1 12)
    ∃ e ∈ (walk s t).events (Client.fresh { database := {} }), ∃ d, e.step = .look d ∧
      DefinesVariable d "x" ∧ Undecided e.before.kinds ∧ isAttribute d = .ok false ∧
      d.above.map Ancestor.kind =
        [.exprStmt, .suite, .other "if_stmt", .suite, .classdef, .other "file_input"] ∧
      e.made.any Call.makesField = false ∧ e.made.any Call.isUnsolved = true := by
  intro s t
  obtain ⟨e, he, d, looks, definition, undecided, found⟩ := exists_definition
    ((walk s t).events (Client.fresh { database := {} })) "x"
    (fun e d => decide (isAttribute d = .ok false ∧ d.above.map Ancestor.kind =
        [.exprStmt, .suite, .other "if_stmt", .suite, .classdef, .other "file_input"] ∧
      e.made.any Call.makesField = false ∧ e.made.any Call.isUnsolved = true)) (by decide +kernel)
  exact ⟨e, he, d, looks, definition, undecided, of_decide_eq_true found⟩

/-! ### Attributes in a method -/

section Attributes

variable {s : Setting} {d f : Cursor} {σ : Trace Client} {top : Context} {rest : List Context}

theorem notClass_of_function (isFunction : f.isKind .funcdef = true) :
    ¬ f.isKind .classdef = true := by
  have kind : f.tree.kind = .funcdef := of_decide_eq_true isFunction
  simp [Cursor.isKind, Tree.isKind, kind]

/-- In a function a defining attribute may be a member of the object. -/
theorem visitDefining_of_attribute (inFunction : d.definitionAround? = some f)
    (isFunction : f.isKind .funcdef = true) (reference : ReferenceKind) :
    visitDefining s d reference =
      (do if ← isAttribute d then visitMember s d reference else defineLocal d :
        Indexing Client Unit) := by
  unfold visitDefining
  simp only [inFunction, if_neg (notClass_of_function isFunction)]

/-- When a name in a method is taken for an attribute of the first parameter. -/
theorem isSelf_iff_isThroughSelf (isName : d.isName = true)
    (selfName : top.selfName = if f.isMethod = true then f.firstParameter? else none) :
    isSelf top d = .ok true ↔ d.IsThroughSelf f := by
  rw [isSelf_eq_true, selfName]
  unfold Cursor.IsThroughSelf Cursor.beginsWithSelf
  simp only [Cursor.namedParent?_eq_some isName]
  by_cases isMethod : f.isMethod = true
  · simp only [isMethod, if_true, true_and]
    constructor
    · rintro ⟨object, self, named, begins, parameter⟩
      exact ⟨object, named, by simp [parameter, begins]⟩
    · rintro ⟨object, named, selfBegins⟩
      obtain ⟨self, parameter, begins⟩ := (Option.any_eq_true _ _).mp selfBegins
      exact ⟨object, self, named, of_decide_eq_true begins, parameter⟩
  · simp [isMethod]

/-- The context of a function has the name of the first parameter if the function is a method. -/
theorem selfName_of_function {outer contexts : List Context} {ds : List Cursor}
    (follows : Follows EnteredAs outer (f :: ds) (top :: contexts)) (around : Around ds f)
    (isFunction : f.isKind .funcdef = true) :
    top.selfName = if f.isMethod = true then f.firstParameter? else none := by
  obtain ⟨k, below, same, -, -, entered, -⟩ := follows
  obtain ⟨rfl, rfl⟩ := List.cons.inj same
  have kind : top.kind = _ := entered.kind
  have selfName : top.selfName = _ := entered.selfName
  have isMethod : f.isMethod = ds.head?.any (Cursor.isKind .classdef) := by
    rw [Cursor.isMethod, isFunction, Cursor.definitionAround?_eq, around, Bool.true_and]
  rw [if_neg (notClass_of_function isFunction), ← isMethod] at kind
  rw [selfName, show top.fixed.kind = _ from kind]
  by_cases method : f.isMethod = true <;> simp [method]

/-- The entries record an attribute called `name` as a field, the range `r` as its definition, and a
reference to it from there. -/
def MemberEntries (context file : Value) (name : QualifiedName) (r : Extent) (kind : ReferenceKind)
    (xs : List LogEntry) : Prop :=
  ∃ i fields j v, FieldEntries file name r i fields ∧
    xs = fields ++ [⟨.reference context i kind, j⟩, ⟨.referenceLocation j file r, v⟩]

theorem visitMember_of_self (contexts : σ.contexts = top :: rest) (self : isSelf top d = .ok true)
    {name : QualifiedName} (called : qualifiedName s.source σ.contexts d = .ok (some name))
    {r : SourceRange} (range : d.range = .ok r) (reference : ReferenceKind) :
    visitMember s d reference σ =
      (do refer (← defineVariable name .field r) reference r : Indexing Client Unit) σ := by
  rw [visitMember, context_bind, contexts]
  dsimp only
  rw [self, lift_ok, pure_bind, if_pos rfl, bind_of_ok (nameAt_eq called), range]
  rfl

theorem visitMember_of_other (contexts : σ.contexts = top :: rest)
    (other : isSelf top d = .ok false) (reference : ReferenceKind) :
    visitMember s d reference σ = (referToUnsolved reference d : Indexing Client Unit) σ := by
  rw [visitMember, context_bind, contexts]
  dsimp only
  rw [other, lift_ok, pure_bind, if_neg (by simp)]

theorem writes_member (context file : Value) (name : QualifiedName) (range : SourceRange)
    (reference : ReferenceKind) :
    Writes context file (do refer (← defineVariable name .field range) reference range)
      (fun _ => MemberEntries context file name range reference) fun _ => False :=
  .bind ((writes_defineVariable name .field range).mono (fun i fields field =>
    .refer fun j v => ⟨i, fields, j, v, field, rfl⟩) fun _ h => h)

variable {t : Tree} {c : Client} {e : Event Client}

/-- A name that is taken for the definition of a field belongs to the first parameter of the
innermost method around it. -/
theorem RecordsField.through (taken : RecordsField s d e.before e.after)
    (he : e ∈ (walk s t : Walk Client).events c.fresh) (looks : e.step = .look d) :
    ∃ m, d.methodAround? = some m ∧ d.IsThroughSelf m := by
  obtain ⟨x, definition⟩ := taken.definition
  obtain ⟨top, rest, contexts, self⟩ := taken.self
  obtain ⟨outer, ds, ds', atModule, shifts, follows⟩ := follows_events he
  rw [looks] at shifts
  obtain ⟨⟨entered, -⟩, -⟩ := shifts
  rw [contexts] at follows
  obtain ⟨object, text, -, -, selfName⟩ := isSelf_eq_true.mp self
  obtain ⟨m, K, ds, below, rest, rfl, rfl, isFunction, isClass, -, ofMethod⟩ :=
    method_of_kind atModule follows (kind_of_selfName atModule follows selfName)
  obtain ⟨method, -⟩ := isMethod_of_entered entered.outside isFunction isClass
  refine ⟨m, methodAround?_of_entered entered method, ?_⟩
  exact (isSelf_iff_isThroughSelf definition.isName (by rw [if_pos method, ofMethod])).mp self

/-- An attribute of the first parameter is named after the class of the method. -/
theorem qualifiedName_of_self {outer : List Context} {ds : List Cursor} {x : String}
    (headed : t.DefinitionsHeaded) (tokens : t.NamesAreTokens) (apart : t.SelfNamesApart)
    (atModule : AtModuleLevel outer) (follows : Follows EnteredAs outer (f :: ds) (top :: rest))
    (inside : Inside (.root t) (f :: ds) d) (isName : d.isName = true) (text : d.tree.text = .ok x)
    (self : isSelf top d = .ok true) :
    ∃ K, f.definitionAround? = some K ∧ qualifiedName s.source (top :: rest) d =
      .ok ((K.nameIn (moduleName s.source (some s.source.path))).map (·.child x)) := by
  obtain ⟨entered, within⟩ := inside
  obtain ⟨object, parameter, -, -, selfName⟩ := isSelf_eq_true.mp self
  have isMethod : top.kind = .method := kind_of_selfName atModule follows selfName
  obtain ⟨m, K, ds, below, rest, same, rfl, isFunction, isClass, place, ofMethod⟩ :=
    method_of_kind atModule follows isMethod
  obtain ⟨rfl, rfl⟩ := List.cons.inj same
  obtain ⟨method, around⟩ := isMethod_of_entered entered.outside isFunction isClass
  have within_f : (Cursor.root t).Within f :=
    within.ancestor (Cursor.mem_ancestorsAmong_of_mem (entered.mem (by simp)))
  have owner : owner? (top :: below :: rest) d d = .ok (some K) := by
    simp [owner?, isMethod, self, place, bind, Except.bind, pure, Except.pure]
  refine ⟨K, around,
    qualifiedName_of_owner headed (fun _ => tokens) within isName text owner ?_ ?_ ?_⟩
  · exact Cursor.mem_ancestorsAmong_of_mem (entered.mem (by simp))
  · simp [isClass, NodeKind.isDefinition]
  · exact unaffected_class apart ofMethod method within_f
      (Cursor.definitionAround?_mem_ancestors around)

end Attributes

/-- **Attributes are told by the first name.** In every run, a name in a function is recorded as a
field only if it is a defining attribute for which the next construct with an identifier, going up
from its trailer, begins with the name of the first parameter of the innermost method around it.
Where parameters are in place and names are tokens, each defining attribute of which this is true is
recorded as a field, under the name of the class and its own, along with a reference to it, and each
other one as a reference to something unknown. If the construct around the trailer begins with a
name, then all that matters is this name: whatever attributes, subscripts or calls stand between it
and the trailer, the attribute is taken for one of the object. -/
theorem attributes_told_by_first_name (s : Setting) (t : Tree) (client : Client)
    (e : Event Client) (he : e ∈ (walk s t).events client.fresh) (d f : Cursor)
    (looks : e.step = .look d) (isName : d.isName = true)
    (inFunction : d.definitionAround? = some f) (isFunction : f.isKind .funcdef = true) :
    (index s t : Indexing Client Unit) = (walk s t).carryOut ∧
      (e.made.any Call.makesField = true →
        (∃ x, DefinesVariable d x) ∧ Undecided e.before.kinds ∧ isAttribute d = .ok true ∧
          ∃ m, d.methodAround? = some m ∧ d.IsThroughSelf m) ∧
      (t.parametersInPlace = true → t.NamesAreTokens → ∀ x, DefinesVariable d x →
        Undecided e.before.kinds → isAttribute d = .ok true →
        ∃ r context, d.range = .ok r ∧ e.before.IsTop context ∧
          (d.IsThroughSelf f →
            (∀ name, qualifiedName s.source e.before.contexts d = .ok (some name) →
              MemberEntries context e.before.recorder.file name r (nameReference d) e.calls) ∧
            (t.DefinitionsHeaded → t.SelfNamesApart →
              ∀ M, moduleName s.source (some s.source.path) = some M →
              ∃ K, f.definitionAround? = some K ∧ MemberEntries context e.before.recorder.file
                ((K.hierarchy M).child x) r (nameReference d) e.calls)) ∧
          (¬ d.IsThroughSelf f → ∃ v, e.calls =
            [⟨.unsolvedReference context (nameReference d) e.before.recorder.file r, v⟩])) ∧
      (∀ own kind first parts i above,
        d.above = own :: ⟨kind, .leaf first :: parts, i⟩ :: above → first.kind = .name →
        (d.IsThroughSelf f ↔ f.isMethod = true ∧ f.firstParameter? = some first.text)) := by
  obtain ⟨outer, ds, ds', atModule, shifts, follows⟩ := follows_events he
  rw [looks] at shifts
  obtain ⟨inside, -⟩ := shifts
  obtain ⟨top, rest, contexts⟩ := exists_top atModule follows
  rw [contexts] at follows
  refine ⟨index_eq s t, fun made => ?_, ?_, ?_⟩
  · have taken := recordsField_of_look he looks (by rwa [inFunction]) made
    exact ⟨taken.definition, taken.undecided, taken.ofObject, taken.through he looks⟩
  · intro inPlace tokens x definition undecided ofObject
    -- the function was entered, so the innermost context is its own
    have around : Around ds d := definitionsAmong_of_entered inPlace inside.1 inside.2
    obtain ⟨ds, rfl⟩ : ∃ rest, ds = f :: rest := by
      rw [Cursor.definitionAround?_eq, around] at inFunction
      exact List.head?_eq_some_iff.mp inFunction
    have selfName :=
      selfName_of_function follows (Cursor.definitionsAmong_tail around) isFunction
    have self := isSelf_iff_isThroughSelf isName selfName
    obtain ⟨r, range⟩ := range_of_text definition.text
    have isTop : e.before.IsTop top.id := ⟨top, rest, contexts, rfl⟩
    have stands : e.before.Stands top.id e.before.recorder.file := ⟨isTop, rfl⟩
    have visited : visitSelf s d e.before = visitMember s d (nameReference d) e.before := by
      rw [visitSelf_of_definition definition undecided contexts,
        visitDefining_of_attribute inFunction isFunction, ofObject]
      rfl
    have recorded : d.IsThroughSelf f → ∀ name,
        qualifiedName s.source e.before.contexts d = .ok (some name) →
        MemberEntries top.id e.before.recorder.file name r (nameReference d) e.calls := by
      intro through name called
      rw [visitMember_of_self contexts (self.mpr through) called range] at visited
      exact (writes_member _ _ name r _).look he looks stands visited
    refine ⟨r, top.id, range, isTop, fun through => ⟨recorded through, ?_⟩, fun other => ?_⟩
    · intro headed apart M inModule
      obtain ⟨K, inClass, called⟩ := qualifiedName_of_self (s := s) headed tokens apart atModule
        follows inside isName definition.text (self.mpr through)
      refine ⟨K, inClass, recorded through _ ?_⟩
      rw [contexts, called, inModule]
      rfl
    · have notSelf : isSelf top d = .ok false := by
        obtain ⟨ofSelf, told⟩ := isSelf_eq_ok top tokens inside.2
        cases ofSelf with
        | false => exact told
        | true => exact absurd (self.mp told) other
      rw [visitMember_of_other contexts notSelf] at visited
      exact (writes_referToUnsolved (nameReference d) range).look he looks stands visited
  · intro own kind first parts i above split begins
    exact Cursor.isThroughSelf_iff isName split begins

/-- A class with a method that assigns to attributes of attributes of its first parameter. -/
def methodWithTarget (attributes : List String) : Tree :=
  let trailer (name : String) (i : Nat) : Tree :=
    .node .trailer [.tokenAt .operator "." 1 (26 + 2 * i), .tokenAt .name name 1 (27 + 2 * i)]
  .node (.other "file_input")
    [.node .classdef
      [.tokenAt .keyword "class" 1 0, .tokenAt .name "A" 1 6, .tokenAt .operator ":" 1 7,
        .node .suite
          [.node .funcdef
            [.tokenAt .keyword "def" 1 9, .tokenAt .name "m" 1 13,
              .node .parameters
                [.tokenAt .operator "(" 1 14, .node .param [.tokenAt .name "self" 1 15],
                  .tokenAt .operator ")" 1 19],
              .tokenAt .operator ":" 1 20,
              .node .suite
                [.node .exprStmt
                  [.node .atomExpr
                      (.tokenAt .name "self" 1 22 ::
                        attributes.mapIdx fun i name => trailer name i),
                    .tokenAt .operator "=" 1 31, .tokenAt (.other "number") "1" 1 33]]]]]]

/-- An attribute of the first parameter is a field of the class. -/
theorem attribute_of_self_made_field :
    let s : Setting := ⟨⟨"/w", virtualFile, []⟩, false⟩
    let t := methodWithTarget ["x"]
    let client : Client := { database := {} }
    t.parametersInPlace = true ∧ t.NamesAreTokens ∧ t.DefinitionsHeaded ∧ t.SelfNamesApart ∧
      ∃ e ∈ (walk s t).events client.fresh, ∃ d f, e.step = .look d ∧ DefinesVariable d "x" ∧
        Undecided e.before.kinds ∧ d.definitionAround? = some f ∧ f.isKind .funcdef = true ∧
        isAttribute d = .ok true ∧ d.IsThroughSelf f ∧
        ∃ K r context, f.definitionAround? = some K ∧ MemberEntries context e.before.recorder.file
          ((K.hierarchy virtualModule).child "x") r (nameReference d) e.calls := by
  intro s t client
  have inPlace : t.parametersInPlace = true := by decide
  have tokens : t.NamesAreTokens := by unfold Tree.NamesAreTokens; decide
  have headed : t.DefinitionsHeaded := by unfold Tree.DefinitionsHeaded; decide
  have apart : t.SelfNamesApart := ⟨by decide, by decide⟩
  obtain ⟨e, he, d, looks, definition, undecided, found⟩ := exists_definition
    ((walk s t).events client.fresh) "x"
    (fun _ d => decide (isAttribute d = .ok true) && d.definitionAround?.any fun f =>
      f.isKind .funcdef && (f.isMethod && d.namedParent?.any f.beginsWithSelf)) (by decide +kernel)
  obtain ⟨ofObject, found⟩ := Bool.and_eq_true_iff.mp found
  obtain ⟨f, inFunction, found⟩ := (Option.any_eq_true _ _).mp found
  obtain ⟨isFunction, found⟩ := Bool.and_eq_true_iff.mp found
  obtain ⟨isMethod, found⟩ := Bool.and_eq_true_iff.mp found
  obtain ⟨object, named, begins⟩ := (Option.any_eq_true _ _).mp found
  have through : d.IsThroughSelf f :=
    ⟨isMethod, object, (Cursor.namedParent?_eq_some definition.isName).mp named, begins⟩
  obtain ⟨-, -, told, -⟩ := attributes_told_by_first_name s t client e he d f looks
    definition.isName inFunction isFunction
  obtain ⟨r, context, -, -, field, -⟩ :=
    told inPlace tokens "x" definition undecided (of_decide_eq_true ofObject)
  obtain ⟨K, inClass, entries⟩ := (field through).2 headed apart virtualModule rfl
  exact ⟨inPlace, tokens, headed, apart, e, he, d, f, looks, definition, undecided, inFunction,
    isFunction, of_decide_eq_true ofObject, through, K, r, context, inClass, entries⟩

/-- An attribute of an attribute of the first parameter becomes a field too, although its trailer
stands behind another trailer. -/
theorem attribute_of_attribute_made_field :
    let s : Setting := ⟨⟨"/w", virtualFile, []⟩, false⟩
    let t := methodWithTarget ["a", "x"]
    ∃ e ∈ (walk s t).events (Client.fresh { database := {} }), ∃ d, e.step = .look d ∧
      DefinesVariable d "x" ∧ Undecided e.before.kinds ∧
      d.definitionAround?.any (Cursor.isKind .funcdef) = true ∧
      (d.parent?.bind Cursor.previousSibling?).any (Cursor.isKind .trailer) = true ∧
      e.made.any Call.makesField = true ∧ e.made.any Call.isUnsolved = false := by
  intro s t
  obtain ⟨e, he, d, looks, definition, undecided, found⟩ := exists_definition
    ((walk s t).events (Client.fresh { database := {} })) "x"
    (fun e d => decide (d.definitionAround?.any (Cursor.isKind .funcdef) = true ∧
      (d.parent?.bind Cursor.previousSibling?).any (Cursor.isKind .trailer) = true ∧
      e.made.any Call.makesField = true ∧ e.made.any Call.isUnsolved = false)) (by decide +kernel)
  exact ⟨e, he, d, looks, definition, undecided, of_decide_eq_true found⟩

end Syntactic

end CodeIndex
