import CodeIndex.Proofs.FunctionReferences

/-!
# Base classes

A class may be derived from a class that is given by its name or by a dotted name. The semantic
indexer takes a name for that of a base class if it is itself a part of the class definition, or an
element of a list that is. That is so for a plain name. The last name of a dotted name is part of a
trailer, so the class that it stands for is recorded as a type that is used, not as one that is
inherited from.

## What is proved

* `classReferenceKind_of_base` — how the last name of a base refers to a class.
* `Judged.class` — the entries for a definition that is a class.
* `plain_bases_inherit` — what is logged in a run for the last name of a base that is resolved to
  classes.
-/

namespace CodeIndex

open Indexing

/-- The call records that a class is inherited from. -/
def Call.inherits : Call → Bool
  | .reference _ _ .inheritance => true
  | _ => false

namespace Semantic.Setting

/-! ### Bases -/

/-- The place is a base in the brackets after the name of the class `k`: the only one, or an element
of a list. -/
inductive IsBase (k : Cursor) : Cursor → Prop
  | alone {parts : List Tree} {i : Nat} {base : Tree} (isClass : k.tree = .node .classdef parts)
      (bases : basesIndex? parts = .ok (some i)) (part : parts[i]? = some base) :
      IsBase k ⟨base, ⟨.classdef, parts, i⟩ :: k.above⟩
  | listed {parts elements : List Tree} {i j : Nat} {kind : NodeKind} {base : Tree}
      (isClass : k.tree = .node .classdef parts) (bases : basesIndex? parts = .ok (some i))
      (isList : kind = .arglist ∨ kind = .testlist) (part : parts[i]? = some (.node kind elements))
      (element : elements[j]? = some base) :
      IsBase k ⟨base, ⟨kind, elements, j⟩ :: ⟨.classdef, parts, i⟩ :: k.above⟩

/-- The tree is an attribute: a trailer of a dot and a name. -/
def IsAttribute (t : Tree) (name : Token) : Prop :=
  name.kind = .name ∧ ∃ dot, t = .node .trailer [dot, .leaf name] ∧ dot.isOperator "." = true

/-- The place `c` is the last name of the base at `b`, which is a name or a dotted name. -/
inductive LastName (b : Cursor) (name : Token) : Cursor → Prop
  | plain (leaf : b.tree = .leaf name) (isName : name.kind = .name) : LastName b name b
  | dotted {kind : NodeKind} {first : Token} {attributes : List Tree} {dot : Tree}
      (isPrimary : kind = .atomExpr ∨ kind = .power)
      (begins : first.kind = .name) (dots : ∀ t ∈ attributes, ∃ other, IsAttribute t other)
      (ends : IsAttribute (.node .trailer [dot, .leaf name]) name)
      (isDotted : b.tree =
        .node kind (.leaf first :: (attributes ++ [.node .trailer [dot, .leaf name]]))) :
      LastName b name ⟨.leaf name, ⟨.trailer, [dot, .leaf name], 1⟩ ::
        ⟨kind, .leaf first :: (attributes ++ [.node .trailer [dot, .leaf name]]),
          attributes.length + 1⟩ :: b.above⟩

/-- What stands behind the place is a comma or a closing bracket. -/
def IsSeparated (b : Cursor) : Prop :=
  ∀ next, Cursor.after? b.above = some next →
    next.tree.isToken "," = true ∨ next.tree.isToken ")" = true

/-- How the last name `c` of the base at `b` refers to a class: as a base only if the base is a
plain name. -/
def baseReferenceKind (b c : Cursor) : ReferenceKind :=
  if b.isName then .inheritance else orImported c .typeUsage

section Bases

variable {k b c : Cursor} {name : Token}

theorem LastName.isName (last : LastName b name c) : name.kind = .name := by
  cases last with
  | plain _ isName => exact isName
  | dotted _ _ _ ends _ => exact ends.1

theorem LastName.leaf (last : LastName b name c) : c.tree = .leaf name := by
  cases last with
  | plain leaf _ => exact leaf
  | dotted => rfl

/-- The last name is followed by what follows the base. -/
theorem LastName.next? (last : LastName b name c) : c.next? = Cursor.after? b.above := by
  unfold Cursor.next?
  rw [last.leaf]
  cases last with
  | plain => rfl
  | @dotted kind first attributes dot =>
    have none : (Tree.leaf first :: (attributes ++ [Tree.node .trailer [dot, .leaf name]]))[
        attributes.length + 1 + 1]? = none := by simp
    change Cursor.after? (⟨kind, _, attributes.length + 1⟩ :: b.above) = _
    rw [Cursor.after?, none]

/-- If anything follows the last name, it is a token, and no dot. -/
theorem IsSeparated.next? (separated : IsSeparated b) (last : LastName b name c) :
    c.next? = none ∨ ∃ next token, c.next? = some next ∧ next.tree = .leaf token ∧
      token.kind ≠ .trailer ∧ token.text ≠ "." := by
  rw [last.next?]
  cases after : Cursor.after? b.above with
  | none => exact .inl rfl
  | some next =>
    have isToken := separated next after
    obtain ⟨tree, above⟩ := next
    cases tree with
    | node => simp [Tree.isToken] at isToken
    | leaf token =>
      simp only [Tree.isToken, Bool.and_eq_true, Bool.or_eq_true, decide_eq_true_eq,
        ← and_or_left] at isToken
      obtain ⟨kind, text⟩ := isToken
      refine .inr ⟨⟨.leaf token, above⟩, token, rfl, rfl, ?_, ?_⟩
      · rcases kind with kind | kind <;> simp [kind]
      · rcases text with text | text <;> simp [text]

theorem IsSeparated.isQualifier (separated : IsSeparated b) (last : LastName b name c) :
    c.isQualifier = .ok false := by
  unfold Cursor.isQualifier
  rcases separated.next? last with next | ⟨next, token, found, leaf, kind, text⟩
  · rw [next]
    rfl
  · have noTrailer : next.isKind .trailer = false := by
      simp [Cursor.isKind, Tree.isKind, Tree.kind, leaf, kind]
    simp [found, noTrailer, Tree.reads, leaf, Tree.text, Tree.text?, text]

theorem IsSeparated.isCall (separated : IsSeparated b) (last : LastName b name c) :
    c.isCall = .ok false := by
  unfold Cursor.isCall
  rcases separated.next? last with next | ⟨next, token, found, leaf, kind, -⟩
  · rw [next]
  · have noTrailer : next.isKind .trailer = false := by
      simp [Cursor.isKind, Tree.isKind, Tree.kind, leaf, kind]
    simp [found, noTrailer]

/-- A base lies directly in its class. -/
theorem definitionAround?_base (base : IsBase k b) : b.definitionAround? = some k := by
  obtain ⟨tree, above⟩ := k
  cases base with
  | alone isClass =>
    obtain rfl : tree = _ := isClass
    rfl
  | listed isClass _ isList =>
    obtain rfl : tree = _ := isClass
    rcases isList with rfl | rfl <;> rfl

/-- So does its last name. -/
theorem LastName.definitionAround? (last : LastName b name c) :
    c.definitionAround? = b.definitionAround? := by
  cases last with
  | plain => rfl
  | dotted isPrimary => rcases isPrimary with rfl | rfl <;> rfl

theorem classReferenceKind_of_base (base : IsBase k b) (last : LastName b name c) :
    classReferenceKind c = baseReferenceKind b c := by
  unfold baseReferenceKind
  cases last with
  | plain leaf isName =>
    have whole : b.isName = true := by
      simp [Cursor.isName, Tree.isName, Tree.isKind, Tree.kind, leaf, isName]
    rw [if_pos whole]
    cases base with
    | alone => rfl
    | listed _ _ isList => rcases isList with rfl | rfl <;> rfl
  | dotted isPrimary _ _ _ isDotted =>
    have apart : ¬b.isName = true := by
      rcases isPrimary with rfl | rfl <;>
        simp [Cursor.isName, Tree.isName, Tree.isKind, Tree.kind, isDotted]
    rw [if_neg apart]
    rfl

end Bases

/-! ### One class -/

section Classes

variable {s : Setting} {x file : Value} {c : Cursor} {p : Position} {r : SourceRange}
  {d : Definition} {q : QualifiedName} {verdict : Verdict} {entries : List LogEntry}

/-- What a class makes a name a mention of that is neither a qualifier nor called. -/
theorem MentionedAs.eq_class {m : Mention} {ending : Option Verdict}
    (isClass : d.kind = .ok (some "class")) (noQualifier : c.isQualifier = .ok false)
    (uncalled : c.isCall = .ok false) (h : MentionedAs s c d m ending) :
    ∃ q, s.nameOfDefinition d = .ok (some q) ∧ m = .symbol q.stored
      { symbol := some .classSymbol, reference := some (classReferenceKind c) } := by
  have same : ∀ {kind}, d.kind = .ok (some kind) → kind = "class" := fun isKind =>
    Option.some.inj (Except.ok.inj (isKind.symm.trans isClass))
  cases h with
  | classReference _ named => exact ⟨_, named, rfl⟩
  | classUnclear _ _ unclear => cases unclear.symm.trans noQualifier
  | classQualifier _ _ qualifies => cases qualifies.symm.trans noQualifier
  | classUntold _ _ _ _ untold => cases untold.symm.trans uncalled
  | classConstructed _ _ _ _ called => cases called.symm.trans uncalled
  | object isKind | moduleUnclear isKind | moduleQualifier isKind | moduleReference isKind
  | function isKind | functionUntold isKind | parameter isKind | localVariable isKind
  | lasting isKind => exact absurd (same isKind) (by decide)

/-- What is logged for a class. -/
theorem Judged.class (start : c.tree.start = .ok p) (noQualifier : c.isQualifier = .ok false)
    (uncalled : c.isCall = .ok false) (found : s.FoundElsewhere "class" p d q)
    (h : Judged s x file c p r d verdict entries) :
    ReferenceTo x file q .classSymbol (classReferenceKind c) r entries := by
  obtain ⟨m, ending, rfl, as, written⟩ := found.mentioned (.inl rfl) start h
  obtain ⟨q', named, rfl⟩ := as.eq_class found.kind noQualifier uncalled
  obtain rfl := Option.some.inj (Except.ok.inj (found.named.symm.trans named))
  exact written.referenceTo

end Classes

/-- **A plain base class is inherited from.** Let a run look at the last name of a base of a class,
with a comma or the closing bracket behind it, and let the definitions of this name all be classes
that stand elsewhere and whose names can be derived. Then a reference to each of them is logged,
from the identifier under which the class was recorded and at the range of the name. Its kind is
that of inheritance if the base is a plain name. If it is a dotted name, then it is that of a type
that is used or imported. Constants are passed over. -/
theorem plain_bases_inherit (s : Setting) (t : Tree) (client : Client)
    (earlier later : List (Event Client)) (e : Event Client)
    (split : (s.walk t).events client.fresh = earlier ++ e :: later) (k b c : Cursor) (name : Token)
    (looks : e.step = .look c) (base : IsBase k b) (last : LastName b name c)
    (separated : IsSeparated b)
    (resolved : ∀ d, some d ∈ s.definitionsAt c s.source.path →
      ∃ q, s.FoundElsewhere "class" name.start d q) :
    (s.index t : Indexing Client Unit) = (s.walk t).carryOut ∧
      ∃ r x, c.range = .ok r ∧ RecordedAs earlier k x ∧
        if constantNames.contains name.text then e.calls = [] else
          ∀ d q, some d ∈ s.definitionsAt c s.source.path →
            s.FoundElsewhere "class" name.start d q →
            ∃ block, block <:+: e.calls ∧ ReferenceTo x e.before.recorder.file q .classSymbol
              (baseReferenceKind b c) r block := by
  have he : e ∈ (s.walk t).events client.fresh := split ▸ List.mem_append_right _ List.mem_cons_self
  have inside : c.definitionAround? = some k :=
    last.definitionAround?.trans (definitionAround?_base base)
  obtain ⟨x, recorded, stands⟩ :=
    Walk.exists_stands s.disciplined_actions (way_around t) split looks inside
  have noQualifier := separated.isQualifier last
  have uncalled := separated.isCall last
  rw [← classReferenceKind_of_base base last]
  obtain ⟨leaf, isName⟩ := And.intro last.leaf last.isName
  obtain ⟨_, above⟩ := c
  subst leaf
  have written := (writes_visitName s name above).look he looks stands
    (congrFun (visitSelf_name s above isName) e.before)
  refine ⟨s.index_eq t, tokenRange name, x, rfl, recorded, ?_⟩
  unfold NameEntries at written
  by_cases constant : constantNames.contains name.text = true
  · rw [if_pos constant] at written ⊢
    exact written
  · rw [if_neg constant] at written ⊢
    intro d q hd found
    have elsewhere : ∀ d', some d' ∈ s.definitionsAt ⟨.leaf name, above⟩ s.source.path →
        ∀ block, ¬ Judged s x e.before.recorder.file ⟨.leaf name, above⟩ name.start
          (tokenRange name) d' .here block := by
      intro d' hd' block here
      obtain ⟨q', found'⟩ := resolved d' hd'
      cases found'.elsewhere.symm.trans (isAt_iff.mp (here.isAt_iff.mpr rfl)).2
    obtain ⟨verdict, block, inside, judged⟩ := written.exists_block elsewhere hd
    exact ⟨block, inside, judged.class rfl noQualifier uncalled found⟩

/-- A class with two bases, a plain name and a dotted one. -/
def classWithBases : Tree :=
  .node .classdef
    [.tokenAt .keyword "class" 1 0, .tokenAt .name "K" 1 6, .tokenAt .operator "(" 1 7,
      .node .arglist
        [.tokenAt .name "B" 1 8, .tokenAt .operator "," 1 9,
          .node .atomExpr
            [.tokenAt .name "m" 1 10,
              .node .trailer [.tokenAt .operator "." 1 11, .tokenAt .name "B" 1 12]]],
      .tokenAt .operator ")" 1 13, .tokenAt .operator ":" 1 14, .tokenAt .keyword "pass" 1 16]

/-- A resolver that knows the class by both names. -/
def baseResolver : Resolver where
  answers :=
    let base : Definition := { kind := .ok (some "class"), fullName := .ok (some "m.B") }
    [(⟨none, ⟨1, 8⟩⟩, .ok [some base]), (⟨none, ⟨1, 12⟩⟩, .ok [some base])]

/-- The name refers to one class, which stands elsewhere. -/
theorem foundElsewhere_of_answers {s : Setting} {c : Cursor} {p : Position} {d : Definition}
    {q : QualifiedName} (answers : s.definitionsAt c s.source.path = [some d])
    (found : s.FoundElsewhere "class" p d q) :
    ∀ d', some d' ∈ s.definitionsAt c s.source.path → ∃ q, s.FoundElsewhere "class" p d' q := by
  intro d' hd'
  rw [answers] at hd'
  obtain rfl := Option.some.inj (List.mem_singleton.mp hd')
  exact ⟨q, found⟩

/-- The plain base is inherited from. -/
theorem plain_base_inherited :
    let s : Setting := ⟨⟨"/w", virtualFile, []⟩, 3, 7, "/stubs", baseResolver, false⟩
    let w : Walk Client := s.walk classWithBases
    ∃ earlier e later, w.events (Client.fresh { database := {} }) = earlier ++ e :: later ∧
      ∃ k b c name, e.step = .look c ∧ IsBase k b ∧ LastName b name c ∧ IsSeparated b ∧
        ∃ d q, s.definitionsAt c s.source.path = [some d] ∧
          s.FoundElsewhere "class" name.start d q ∧
          ∃ r x, RecordedAs earlier k x ∧ ∃ block, block <:+: e.calls ∧
            ReferenceTo x e.before.recorder.file q .classSymbol .inheritance r block := by
  intro s w
  let parts := classWithBases.children?.getD []
  let elements := (parts[3]?.bind Tree.children?).getD []
  let name : Token := { kind := .name, text := "B", start := ⟨1, 8⟩ }
  let k : Cursor := .root classWithBases
  let b : Cursor := ⟨.leaf name, [⟨.arglist, elements, 0⟩, ⟨.classdef, parts, 3⟩]⟩
  have completed : w.Completed { database := {} } :=
    Walk.completed_of_returned (by decide +kernel)
  obtain ⟨earlier, e, later, split, looks, -⟩ := completed.exists_event (n := 15) (x := .look b) rfl
    (p := fun _ => true) (by decide +kernel)
  have base : IsBase k b := .listed rfl rfl (.inl rfl) rfl rfl
  have last : LastName b name b := .plain rfl rfl
  have separated : IsSeparated b := by
    rintro _ ⟨⟩
    exact .inl rfl
  let d : Definition := { kind := .ok (some "class"), fullName := .ok (some "m.B") }
  have answers : s.definitionsAt b s.source.path = [some d] := rfl
  have found : s.FoundElsewhere "class" name.start d (.dotted ["m", "B"]) :=
    ⟨rfl, rfl, by decide +kernel⟩
  obtain ⟨-, r, x, -, recorded, inherits⟩ :=
    plain_bases_inherit s classWithBases _ earlier later e split k b b name looks base last
      separated (foundElsewhere_of_answers answers found)
  rw [if_neg (by decide)] at inherits
  exact ⟨earlier, e, later, split, k, b, b, name, looks, base, last, separated, d, _, answers,
    found, r, x, recorded, inherits d _ (answers ▸ List.mem_singleton.mpr rfl) found⟩

/-- The dotted base is not, although the resolver knows that it is a class. -/
theorem dotted_base_not_inherited :
    let s : Setting := ⟨⟨"/w", virtualFile, []⟩, 3, 7, "/stubs", baseResolver, false⟩
    let w : Walk Client := s.walk classWithBases
    ∃ earlier e later, w.events (Client.fresh { database := {} }) = earlier ++ e :: later ∧
      ∃ k b c name, e.step = .look c ∧ IsBase k b ∧ LastName b name c ∧ IsSeparated b ∧
        (∃ d q, s.definitionsAt c s.source.path = [some d] ∧
          s.FoundElsewhere "class" name.start d q) ∧
        ∀ entry ∈ e.calls, entry.call.inherits = false := by
  intro s w
  let parts := classWithBases.children?.getD []
  let elements := (parts[3]?.bind Tree.children?).getD []
  let names := (elements[2]?.bind Tree.children?).getD []
  let name : Token := { kind := .name, text := "B", start := ⟨1, 12⟩ }
  let dot : Tree := .tokenAt .operator "." 1 11
  let b : Cursor := ⟨.node .atomExpr names, [⟨.arglist, elements, 2⟩, ⟨.classdef, parts, 3⟩]⟩
  let c : Cursor :=
    ⟨.leaf name, ⟨.trailer, [dot, .leaf name], 1⟩ :: ⟨.atomExpr, names, 1⟩ :: b.above⟩
  have completed : w.Completed { database := {} } :=
    Walk.completed_of_returned (by decide +kernel)
  obtain ⟨earlier, e, later, split, looks, other⟩ := completed.exists_event (n := 33) (x := .look c)
    rfl (p := fun e => e.calls.all fun entry => !entry.call.inherits) (by decide +kernel)
  have noOthers : ∀ t ∈ ([] : List Tree), ∃ other, IsAttribute t other := by simp
  have last : LastName b name c := .dotted (.inl rfl) rfl noOthers ⟨rfl, dot, rfl, rfl⟩ rfl
  refine ⟨earlier, e, later, split, .root classWithBases, b, c, name, looks,
    .listed rfl rfl (.inl rfl) rfl rfl, last, ?_, ⟨_, .dotted ["m", "B"], rfl, ?_⟩, ?_⟩
  · rintro _ ⟨⟩
    exact .inr rfl
  · exact ⟨rfl, rfl, by decide +kernel⟩
  · simpa using List.all_eq_true.mp other

end Semantic.Setting

end CodeIndex
