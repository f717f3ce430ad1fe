import CodeIndex.Proofs.Outcome
import CodeIndex.Proofs.Places
import CodeIndex.Syntactic.Naming
import CodeIndex.Tree.Parts

/-!
# Names by nesting

The syntactic indexer derives the name of a place from the tree, but on the way up it consults the
contexts as well: whatever begins with the first parameter of the present method is taken for an
attribute of the object, and then the name goes on with the class of the method. This module says
when that does no harm.

## What is proved

* `nameUpTo_definition` — with nothing around it that begins with the first parameter, a definition
  is named by its nesting.
* `qualifiedName_attribute` — an attribute of the first parameter is named inside the class.
-/

namespace CodeIndex

/-! ### Methods and names in the tree -/

namespace Cursor

/-- The text of the first identifier among the parts. -/
def firstNameText? (c : Cursor) : Option String :=
  match c.firstName? with
  | .ok (some name) => name.tree.text?
  | _ => none

/-- The name of the first parameter of a function. -/
def firstParameter? (c : Cursor) : Option String :=
  match c.parameterList with
  | .ok (p :: _) =>
    match p.parameterName with
    | .ok name => name.tree.text?
    | .error _ => none
  | _ => none

/-- The place is a function, and the nearest definition around it is a class. -/
def isMethod (c : Cursor) : Bool :=
  c.isKind .funcdef && c.definitionAround?.any (isKind .classdef)

/-- The innermost method around the place. -/
def methodAround? (c : Cursor) : Option Cursor := c.definitionsAround.find? isMethod

/-- The first identifier among the parts of `c` is the name of the first parameter of `m`. -/
def beginsWithSelf (m c : Cursor) : Bool :=
  m.firstParameter?.any fun self => c.firstNameText? = some self

/-- What a class or function is called: the text of its second part. -/
def definedText (d : Cursor) : String :=
  match d.tree with
  | .node _ (_ :: .leaf name :: _) => name.text
  | _ => ""

/-- The name of a definition by its nesting: the elements of the module `M`, what the definitions
around it are called, the outermost first, and what the definition itself is called. -/
def hierarchy (M : QualifiedName) (d : Cursor) : QualifiedName :=
  { M with
    elements := M.elements ++
      (d :: d.definitionsAround).reverse.map fun d => ⟨d.definedText, "", ""⟩ }

theorem firstNameText?_eq_some {c : Cursor} {text : String} :
    c.firstNameText? = some text ↔
      ∃ name, c.firstName? = .ok (some name) ∧ name.tree.text = .ok text := by
  unfold firstNameText? Tree.text
  cases hname : c.firstName? with
  | error e => simp
  | ok name =>
    cases name with
    | none => simp
    | some name => cases htext : name.tree.text? <;> simp [htext]

end Cursor

namespace Tree

/-- The parts begin with a reserved word and an identifier. -/
def isHeaded : Tree → Bool
  | .node _ (.leaf word :: .leaf name :: _) => word.kind = .keyword && name.kind = .name
  | _ => false

/-- All classes and functions begin with a reserved word and their name. -/
def DefinitionsHeaded (t : Tree) : Prop :=
  ∀ d ∈ t.places, d.tree.kind.isDefinition = true → d.tree.isHeaded = true

/-- The first parameter of a method is not the first identifier of the method, of a construct around
it, or of a construct between it and a definition inside it. -/
structure SelfNamesApart (t : Tree) : Prop where
  around : ∀ m ∈ t.places, m.isMethod = true → ∀ c ∈ m :: m.ancestors, m.beginsWithSelf c = false
  between : ∀ d ∈ t.places, d.tree.kind.isDefinition = true → ∀ c ∈ d.ancestors, ∀ m ∈ c.ancestors,
    m.isMethod = true → m.beginsWithSelf c = false

end Tree

/-! ### Names by nesting -/

namespace Cursor

/-- The name of a definition continues that of the nearest definition around it. -/
theorem hierarchy_eq (M : QualifiedName) (d : Cursor) :
    d.hierarchy M = ((d.definitionAround?.map (hierarchy M)).getD M).child d.definedText := by
  rw [definitionAround?_eq]
  obtain ⟨t, above⟩ := d
  unfold hierarchy definitionsAround
  cases hds : definitionsAmong above with
  | nil => rfl
  | cons d' ds =>
    have tail : definitionsAmong d'.above = ds := definitionsAmong_tail hds
    simp [QualifiedName.child, QualifiedName.append, tail]

/-- The name of a definition in a module that may itself be without a name. -/
def nameIn (M : Option QualifiedName) (d : Cursor) : Option QualifiedName := M.map (hierarchy · d)

theorem nameIn_eq (M : Option QualifiedName) (d : Cursor) :
    d.nameIn M =
      ((d.definitionAround?.map (nameIn M)).getD M).map (QualifiedName.child · d.definedText) := by
  unfold nameIn
  cases M with
  | none => cases d.definitionAround? <;> rfl
  | some M =>
    rw [Option.map_some, hierarchy_eq]
    cases d.definitionAround? <;> rfl

theorem isName_of_isDefinition (d : Cursor) (h : d.tree.kind.isDefinition = true) :
    d.isName = false := by
  rcases NodeKind.eq_of_isDefinition h with kind | kind <;>
    simp [isName, Tree.isName, Tree.isKind, kind]

/-- What stands around a place has parts. -/
theorem firstName?_of_mem_ancestorsAmong {above : List Ancestor} {c : Cursor}
    (h : c ∈ ancestorsAmong above) : ∃ first, c.firstName? = .ok first := by
  induction above with
  | nil => cases h
  | cons a rest ih =>
    rcases List.mem_cons.mp h with rfl | h
    · exact ⟨_, rfl⟩
    · exact ih h

/-- The identifier of a definition that begins with a reserved word and an identifier. -/
theorem firstName?_of_isHeaded {d : Cursor} (h : d.tree.isHeaded = true) :
    ∃ name, d.firstName? = .ok (some name) ∧ d.definedName = .ok name ∧ name.isName = true ∧
      name.tree.text = .ok d.definedText ∧ name.above.drop 1 = d.above ∧ name.parent? = some d ∧
      name.above.length = d.above.length + 1 := by
  obtain ⟨t, above⟩ := d
  match t, h with
  | .node kind (.leaf word :: .leaf name :: rest), h =>
    simp only [Tree.isHeaded, Bool.and_eq_true, decide_eq_true_eq] at h
    obtain ⟨isWord, isName⟩ := h
    have other : (Tree.leaf word).isName = false := by
      simp [Tree.isName, Tree.isKind, Tree.kind, isWord]
    have identifier : (Tree.leaf name).isName = true := by
      simp [Tree.isName, Tree.isKind, Tree.kind, isName]
    refine ⟨⟨.leaf name, ⟨kind, .leaf word :: .leaf name :: rest, 1⟩ :: above⟩, ?_, rfl, identifier,
      rfl, rfl, rfl, rfl⟩
    simp [firstName?, firstChild?, children, childrenOf, other, identifier, bind, Except.bind, pure,
      Except.pure]

end Cursor

namespace Syntactic

variable {source : Source} {top : Context} {outer : List Context} {c : Cursor}

/-- When a place is taken for an attribute of the first parameter. -/
theorem isSelf_eq_true : isSelf top c = .ok true ↔
    ∃ owner self, c.namedParent? = some owner ∧ owner.firstNameText? = some self ∧
      top.selfName = some self := by
  unfold isSelf
  cases howner : c.namedParent? with
  | none => simp
  | some owner =>
    constructor
    · intro h
      obtain ⟨name, hname, h⟩ := except_bind_eq_ok.mp h
      cases name with
      | none => cases h
      | some name =>
        obtain ⟨self, hself, h⟩ := except_bind_eq_ok.mp h
        have same : some self = top.selfName := of_decide_eq_true (Except.ok.inj h)
        exact ⟨owner, self, rfl, Cursor.firstNameText?_eq_some.mpr ⟨name, hname, hself⟩, same.symm⟩
    · rintro ⟨owner', self, howner', text, same⟩
      obtain rfl := Option.some.inj howner'
      obtain ⟨name, hname, hself⟩ := Cursor.firstNameText?_eq_some.mp text
      refine except_bind_eq_ok.mpr ⟨some name, hname, except_bind_eq_ok.mpr ⟨self, hself, ?_⟩⟩
      simp [same, pure, Except.pure]

/-- Nothing around the place begins with the first parameter of the innermost context. -/
def Unaffected (top : Context) (c : Cursor) : Prop :=
  top.kind = .method → ∀ owner ∈ c.ancestors, ∀ self, owner.firstNameText? = some self →
    top.selfName ≠ some self

theorem Unaffected.notSelf (h : Unaffected top c) {d : Cursor}
    (named : d.namedParent? = Cursor.nearestNamed? c.above) (isMethod : top.kind = .method) :
    isSelf top d ≠ .ok true := by
  intro isSelf
  obtain ⟨owner, self, howner, text, same⟩ := isSelf_eq_true.mp isSelf
  rw [named] at howner
  exact h isMethod owner (Cursor.mem_ancestorsAmong_of_nearestNamed howner) self text same

/-- What is no attribute of the first parameter has its name inside the nearest definition around
it. -/
theorem owner?_of_not_isSelf {name : Cursor} {owner : Option Cursor}
    (notSelf : top.kind = .method → isSelf top c ≠ .ok true)
    (h : owner? (top :: outer) c name = .ok owner) :
    owner = name.parent?.bind Cursor.definitionAround? := by
  unfold owner? at h
  by_cases isMethod : top.kind = .method
  · simp only [if_pos isMethod] at h
    obtain ⟨ofSelf, hself, h⟩ := except_bind_eq_ok.mp h
    cases ofSelf with
    | false => exact (Except.ok.inj h).symm
    | true => exact absurd hself (notSelf isMethod)
  · simp only [if_neg isMethod] at h
    exact (Except.ok.inj h).symm

/-- The name of a place is what it is called inside the name of its owner. -/
theorem nameUpTo_eq_ok {contexts : List Context} {fuel : Nat} {name : Cursor}
    (leaf : c.nameLeaf? = .ok (some name)) {q : Option QualifiedName}
    (h : nameUpTo source contexts (fuel + 1) c = .ok q) :
    ∃ owner text, owner? contexts c name = .ok owner ∧ name.tree.text = .ok text ∧
      match owner with
      | some owner => ∃ q', nameUpTo source contexts fuel owner = .ok q' ∧ q = q'.map (·.child text)
      | none => q = (moduleName source (some source.path)).map (·.child text) := by
  unfold nameUpTo at h
  obtain ⟨found, hfound, h⟩ := except_bind_eq_ok.mp h
  obtain rfl := Except.ok.inj (leaf.symm.trans hfound)
  obtain ⟨owner, howner, h⟩ := except_bind_eq_ok.mp h
  obtain ⟨text, htext, h⟩ := except_bind_eq_ok.mp h
  refine ⟨owner, text, howner, htext, ?_⟩
  cases owner with
  | none => exact (Except.ok.inj h).symm
  | some owner =>
    obtain ⟨q', hq', h⟩ := except_bind_eq_ok.mp h
    exact ⟨q', hq', (Except.ok.inj h).symm⟩

/-- With nothing around it that begins with the first parameter, a definition is named by its
nesting. The induction is on the number of elements that are allowed, one for each definition around
it. -/
theorem nameUpTo_definition {root : Tree} (headed : root.DefinitionsHeaded) {fuel : Nat}
    {d : Cursor} {q : Option QualifiedName} (within : (Cursor.root root).Within d)
    (definition : d.tree.kind.isDefinition = true) (unaffected : Unaffected top d)
    (bound : d.above.length < fuel) (h : nameUpTo source (top :: outer) fuel d = .ok q) :
    q = d.nameIn (moduleName source (some source.path)) := by
  induction fuel generalizing d q with
  | zero => omega
  | succ fuel ih =>
    have isHeaded := headed d (Cursor.mem_placesFrom_iff.mpr within) definition
    obtain ⟨name, first, -, -, text, -, parent, -⟩ := Cursor.firstName?_of_isHeaded isHeaded
    have notName : d.isName = false := d.isName_of_isDefinition definition
    have leaf : d.nameLeaf? = .ok (some name) := by simp [Cursor.nameLeaf?, notName, first]
    obtain ⟨owner, _, howner, same, h⟩ := nameUpTo_eq_ok leaf h
    obtain rfl := Except.ok.inj (text.symm.trans same)
    have nearest := owner?_of_not_isSelf
      (unaffected.notSelf (by simp [Cursor.namedParent?, notName])) howner
    rw [parent] at nearest
    rw [Cursor.nameIn_eq, show d.definitionAround? = owner from nearest.symm]
    cases owner with
    | none => exact h
    | some d' =>
      obtain ⟨q', hq', rfl⟩ := h
      have around : d' ∈ Cursor.definitionsAmong d.above := by
        refine List.mem_of_head? ?_
        rw [← Cursor.definitionsAround, ← Cursor.definitionAround?_eq]
        exact nearest.symm
      have isAncestor : d' ∈ d.ancestors := Cursor.mem_ancestorsAmong_of_mem around
      have shorter := Cursor.length_lt_of_mem around
      have named : q' = d'.nameIn (moduleName source (some source.path)) := by
        refine ih (within.ancestor isAncestor) (Cursor.isDefinition_of_mem around) ?_ (by omega) hq'
        exact fun isMethod c hc =>
          unaffected isMethod c (Cursor.mem_ancestorsAmong_trans isAncestor hc)
      rw [named]
      rfl

/-- A definition is named as its identifier is. -/
theorem nameUpTo_definedName {contexts : List Context} {d name : Cursor}
    (definition : d.tree.kind.isDefinition = true) (isHeaded : d.tree.isHeaded = true)
    (hname : d.definedName = .ok name) (fuel : Nat) :
    nameUpTo source contexts (fuel + 1) name = nameUpTo source contexts (fuel + 1) d := by
  obtain ⟨name', first, hname', isName, -, above, -, -⟩ := Cursor.firstName?_of_isHeaded isHeaded
  obtain rfl := Except.ok.inj (hname.symm.trans hname')
  have notName : d.isName = false := d.isName_of_isDefinition definition
  have leaf : name.nameLeaf? = .ok (some name) := by simp [Cursor.nameLeaf?, isName]
  have leaf' : d.nameLeaf? = .ok (some name) := by simp [Cursor.nameLeaf?, notName, first]
  have parent : name.namedParent? = d.namedParent? := by
    simp [Cursor.namedParent?, isName, notName, ← above]
  have self : ∀ top, isSelf top name = isSelf top d := by
    intro top
    rw [isSelf, isSelf, parent]
  have owner : ∀ n, owner? contexts name n = owner? contexts d n := by
    intro n
    cases contexts with
    | nil => rfl
    | cons top outer => simp only [owner?, self]
  simp only [nameUpTo, leaf, leaf', owner]

theorem qualifiedName_definition {root : Tree} (headed : root.DefinitionsHeaded) {d name : Cursor}
    (within : (Cursor.root root).Within d) (definition : d.tree.kind.isDefinition = true)
    (unaffected : Unaffected top d) (hname : d.definedName = .ok name) {q : Option QualifiedName}
    (h : qualifiedName source (top :: outer) name = .ok q) :
    q = d.nameIn (moduleName source (some source.path)) := by
  have isHeaded := headed d (Cursor.mem_placesFrom_iff.mpr within) definition
  obtain ⟨name', -, hname', -, -, -, -, length⟩ := Cursor.firstName?_of_isHeaded isHeaded
  obtain rfl := Except.ok.inj (hname.symm.trans hname')
  rw [qualifiedName, nameUpTo_definedName definition isHeaded hname] at h
  exact nameUpTo_definition headed within definition unaffected (by omega) h

/-- What is an attribute of the first parameter of a method is named inside the class. -/
theorem qualifiedName_attribute {root : Tree} {M : QualifiedName} (headed : root.DefinitionsHeaded)
    (inModule : moduleName source (some source.path) = some M) {below : Context} {K : Cursor}
    (isMethod : top.kind = .method) (self : isSelf top c = .ok true) (isName : c.isName = true)
    (place : below.place = some K) (within : (Cursor.root root).Within K)
    (definition : K.tree.kind.isDefinition = true)
    (unaffected : Unaffected top K) (bound : K.above.length < c.above.length)
    {q : Option QualifiedName} (h : qualifiedName source (top :: below :: outer) c = .ok q) :
    ∃ text, c.tree.text = .ok text ∧ q = some ((K.hierarchy M).child text) := by
  have leaf : c.nameLeaf? = .ok (some c) := by simp [Cursor.nameLeaf?, isName]
  obtain ⟨owner, text, howner, htext, h⟩ := nameUpTo_eq_ok leaf h
  have ofClass : owner? (top :: below :: outer) c c = .ok (some K) := by
    simp [owner?, isMethod, self, place, bind, Except.bind, pure, Except.pure]
  obtain rfl := Except.ok.inj (ofClass.symm.trans howner)
  obtain ⟨q', hq', rfl⟩ := h
  rw [nameUpTo_definition headed within definition unaffected bound hq', inModule]
  exact ⟨text, htext, rfl⟩

end Syntactic

end CodeIndex
