import CodeIndex.Proofs.Recorded.Semantic
import CodeIndex.Proofs.Recorded.Syntactic

/-!
# Both indexers see the same outline

The outline of a source: its class and function definitions, the string literals that reach over
several lines, and the tokens that fit nowhere. The two indexers go through a tree in different ways
and record different things about its names, but from the log of either the outline of the tree can
be read off, whatever the resolver answers.

The syntactic indexer does not look everywhere, so nothing that belongs to the outline may lie where
it does not look. And it looks twice at the last part of a function that has no part of its own for
the body: `default_in_bodiless_function`.

## What is proved

* `Tree.isMultiline_eq` — a string literal has a line break in it just if its range spans lines.
* `outline_of_sketches` — calls that tell of each place its part in the outline tell of the outline.
* `outlines_agree` — it is the outline of the tree, for both indexers.
-/

namespace CodeIndex

/-! ### Outlines of trees -/

/-- The outline of a source, in document order. -/
structure Outline where
  /-- The definitions: where the name stands, and the whole. -/
  definitions : List (Extent × Extent)
  /-- The string literals that reach over several lines. -/
  literals : List Extent
  /-- The tokens that fit nowhere, each with what is said about it. -/
  misplaced : List (Value × Extent)
  deriving DecidableEq

/-- The tree is a string literal that reaches over several lines: a token with a line break in its
text, or a construct that ends on another line than it begins. -/
def Tree.isMultiline : Tree → Bool
  | .leaf token => token.kind = .string && token.text.toList.contains '\n'
  | .node kind parts =>
    kind = .string &&
      match (Tree.node kind parts).range with
      | .ok r => r.spansLines
      | .error _ => false

namespace Cursor

/-- Where the place is. -/
def extent (c : Cursor) : Except Fault Extent := do return (← c.range).extent

theorem extent_eq {c : Cursor} {r : SourceRange} (h : c.range = .ok r) :
    c.extent = .ok r.extent := by
  rw [extent, h]
  rfl

/-- Where the name of a definition stands, and the whole. -/
def definitionExtents (c : Cursor) : Except Fault (Extent × Extent) := do
  return (← (← c.definedName).extent, ← c.extent)

/-- What is said about a token that fits nowhere, and where it stands. -/
def misplacedToken (c : Cursor) : Except Fault (Value × Extent) := do
  return (unexpectedMessage (← c.tree.unexpected), ← c.extent)

end Cursor

/-- The tree belongs to the outline. -/
def Tree.isOutlined (t : Tree) : Bool :=
  t.kind.isDefinition || t.isMultiline || t.isKind .errorLeaf

/-- The outline of a tree. -/
def Tree.outline (t : Tree) : Except Fault Outline := do
  return {
    definitions := ← (t.places.filter (·.tree.kind.isDefinition)).mapM Cursor.definitionExtents
    literals := ← (t.places.filter (·.tree.isMultiline)).mapM Cursor.extent
    misplaced := ← (t.places.filter (Cursor.isKind .errorLeaf)).mapM Cursor.misplacedToken }

/-! ### Outlines in logs -/

namespace Call

/-- The definitions in a log: the location of a symbol, followed by that of its scope. -/
def definitionsIn : List Call → List (Extent × Extent)
  | .symbolLocation i _ name :: .scopeLocation j _ whole :: rest =>
    if i = j then (name, whole) :: definitionsIn rest else definitionsIn rest
  | _ :: rest => definitionsIn rest
  | [] => []

/-- The literal that the call is about. -/
def literal? : Call → Option Extent
  | .atomicRange _ r => some r
  | _ => none

/-- The misplaced token that the call is about. -/
def misplaced? : Call → Option (Value × Extent)
  | .error (.text message) _ _ r =>
    if "Unexpected token".toList.isPrefixOf message.toList then some (.text message, r) else none
  | _ => none

/-- The outline that a log tells of. -/
def outline (calls : List Call) : Outline :=
  ⟨definitionsIn calls, calls.filterMap literal?, calls.filterMap misplaced?⟩

end Call

/-! ### Lines -/

theorem length_splitOn (x : Char) (xs : List Char) :
    (xs.splitOn x).length = xs.count x + 1 := by
  unfold List.splitOn
  induction xs with
  | nil => rfl
  | cons y ys ih =>
    rw [List.splitOnP_cons_eq_if_modifyHead, List.count_cons]
    split
    · rw [List.length_cons, ih]
    · rw [List.length_modifyHead, ih]

theorem Tree.leafEnd_line {t : Token} (h : t.kind.onOneLine = false) :
    (leafEnd t).line = t.start.line + t.text.toList.count '\n' := by
  have length := length_splitOn '\n' t.text.toList
  rw [← List.length_reverse] at length
  unfold leafEnd
  rw [if_neg (Bool.eq_false_iff.mp h)]
  split
  · rename_i last next rest lines
    rw [lines] at length
    simp only [List.length_cons] at length ⊢
    omega
  · rename_i short
    match lines : (t.text.toList.splitOn '\n').reverse with
    | [] => simp [lines] at length
    | [_] =>
      rw [lines] at length
      simp only [List.length_cons, List.length_nil] at length ⊢
      omega
    | last :: next :: rest => exact absurd lines (short last next rest)

/-- A string literal has a line break in it just if its range spans lines. -/
theorem Tree.isMultiline_eq {t : Tree} {r : SourceRange} (kind : t.kind = .string)
    (hr : t.range = .ok r) : t.isMultiline = r.spansLines := by
  cases t with
  | leaf token =>
    obtain rfl := Except.ok.inj hr
    have isString : token.kind = .string := kind
    have line := leafEnd_line (t := token) (by rw [isString]; rfl)
    have breaks : token.text.toList.contains '\n' = decide (token.text.toList.count '\n' ≠ 0) := by
      simp [List.count_eq_zero]
    simp only [isMultiline, isString, decide_true, Bool.true_and, breaks, SourceRange.spansLines,
      SourceRange.between, line, bne, Bool.beq_eq_decide_eq, ← decide_not]
    congr 1
    exact propext (by omega)
  | node kind' parts =>
    obtain rfl : kind' = .string := kind
    simp [isMultiline, hr]

/-! ### Logs made up of groups -/

namespace Call

/-- The call locates the whole of a definition. -/
def isScope : Call → Bool
  | .scopeLocation _ _ _ => true
  | _ => false

/-- The call says nothing about the outline. -/
def isSilent (call : Call) : Bool :=
  !call.isScope && call.literal?.isNone && call.misplaced?.isNone

/-- The calls do not begin in the middle of a definition. -/
def BeginAfresh (calls : List Call) : Prop := ∀ call ∈ calls.head?, call.isScope = false

theorem definitionsIn_append {xs ys : List Call} (afresh : BeginAfresh ys) :
    definitionsIn (xs ++ ys) = definitionsIn xs ++ definitionsIn ys := by
  fun_induction definitionsIn xs with
  | case1 f name i g whole rest ih => simp [definitionsIn, ih]
  | case2 i f name j g whole rest other ih => simp [definitionsIn, other, ih]
  | case3 x rest unpaired ih =>
    rw [List.cons_append, definitionsIn, ih]
    -- the first of the other calls could only be paired with the last one here
    intro i f name j g whole later isName isScope
    cases rest with
    | nil =>
      have := afresh (.scopeLocation j g whole) (by rw [show ys = _ from isScope]; rfl)
      cases this
    | cons y rest => exact unpaired i f name j g whole rest isName (by simp_all)
  | case4 => rfl

/-- Without the extent of a whole definition there is none. -/
theorem definitionsIn_eq_nil {xs : List Call} (h : ∀ x ∈ xs, x.isScope = false) :
    definitionsIn xs = [] := by
  fun_induction definitionsIn xs with
  | case1 f name i g whole rest ih => simp [isScope] at h
  | case2 i f name j g whole rest other ih => simp [isScope] at h
  | case3 x rest unpaired ih => exact ih fun y hy => h y (List.mem_cons_of_mem _ hy)
  | case4 => rfl

theorem beginAfresh_flatten {groups : List (List Call)} (h : ∀ xs ∈ groups, BeginAfresh xs) :
    BeginAfresh groups.flatten := by
  induction groups with
  | nil => simp [BeginAfresh]
  | cons xs groups ih =>
    cases xs with
    | nil => exact ih fun ys hys => h ys (List.mem_cons_of_mem _ hys)
    | cons x xs => exact h (x :: xs) List.mem_cons_self

theorem definitionsIn_flatten {groups : List (List Call)} (h : ∀ xs ∈ groups, BeginAfresh xs) :
    definitionsIn groups.flatten = groups.flatMap definitionsIn := by
  induction groups with
  | nil => rfl
  | cons xs groups ih =>
    have rest := fun ys hys => h ys (List.mem_cons_of_mem _ hys)
    rw [List.flatten_cons, definitionsIn_append (beginAfresh_flatten rest), ih rest,
      List.flatMap_cons]

section Silent

variable {xs : List Call} (silent : ∀ x ∈ xs, x.isSilent = true)
include silent

theorem isScope_of_silent : ∀ x ∈ xs, x.isScope = false := by
  intro x hx
  have := silent x hx
  simp_all [isSilent]

theorem outline_of_silent : outline xs = ⟨[], [], []⟩ := by
  have noLiteral : xs.filterMap literal? = [] := by
    refine List.filterMap_eq_nil_iff.mpr fun x hx => ?_
    have := silent x hx
    simp_all [isSilent]
  have noToken : xs.filterMap misplaced? = [] := by
    refine List.filterMap_eq_nil_iff.mpr fun x hx => ?_
    have := silent x hx
    simp_all [isSilent]
  rw [outline, definitionsIn_eq_nil (isScope_of_silent silent), noLiteral, noToken]

end Silent

end Call

/-! ### Places -/

/-- The calls `xs` for the place `c` tell of it, by `extract`, what `f` says of it, if it is one of
the places that `p` picks out, and otherwise nothing. -/
def Gives {β : Type} (p : Cursor → Bool) (f : Cursor → Except Fault β)
    (extract : List Call → List β) (c : Cursor) (xs : List Call) : Prop :=
  if p c then ∃ b, f c = .ok b ∧ extract xs = [b] else extract xs = []

/-- So all calls together tell it of all these places, in their order. -/
theorem mapM_of_gives {β : Type} {p : Cursor → Bool} {f : Cursor → Except Fault β}
    {extract : List Call → List β} {cs : List Cursor} {groups : List (List Call)}
    (h : List.Forall₂ (Gives p f extract) cs groups) :
    (cs.filter p).mapM f = .ok (groups.flatMap extract) := by
  induction h with
  | nil => rfl
  | @cons c xs cs groups gives _ ih =>
    unfold Gives at gives
    split at gives
    · rename_i picked
      obtain ⟨b, hb, told⟩ := gives
      rw [List.filter_cons_of_pos picked, List.mapM_cons, hb, ih, List.flatMap_cons, told]
      rfl
    · rename_i passed
      rw [List.filter_cons_of_neg passed, ih, List.flatMap_cons, gives, List.nil_append]

/-- The calls for the place tell of its part in the outline. -/
structure Sketches (c : Cursor) (xs : List Call) : Prop where
  definitions : Gives (·.tree.kind.isDefinition) Cursor.definitionExtents Call.definitionsIn c xs
  literals : Gives (·.tree.isMultiline) Cursor.extent (List.filterMap Call.literal?) c xs
  misplaced : Gives (Cursor.isKind .errorLeaf) Cursor.misplacedToken
    (List.filterMap Call.misplaced?) c xs
  afresh : Call.BeginAfresh xs

theorem afresh_of_sketches {cs : List Cursor} {groups : List (List Call)}
    (h : List.Forall₂ Sketches cs groups) : ∀ xs ∈ groups, Call.BeginAfresh xs := by
  induction h with
  | nil => simp
  | cons sketches _ ih => exact List.forall_mem_cons.mpr ⟨sketches.afresh, ih⟩

/-- Calls for all places of a tree, after some at the beginning, tell of its outline. -/
theorem outline_of_sketches {t : Tree} {begun : List Call} {groups : List (List Call)}
    (preliminary : ∀ x ∈ begun, x.isPreliminary = true)
    (h : List.Forall₂ Sketches t.places groups) :
    t.outline = .ok (Call.outline (begun ++ groups.flatten)) := by
  have silent : ∀ x ∈ begun, x.isSilent = true := by
    intro x hx
    have := preliminary x hx
    cases x with
    | scopeLocation | atomicRange | error => cases this
    | _ => rfl
  have afresh := afresh_of_sketches h
  obtain ⟨noDefinition, noLiteral, noToken⟩ := Outline.mk.inj (Call.outline_of_silent silent)
  have definitions := mapM_of_gives (h.imp fun _ _ sketches => sketches.definitions)
  have literals := mapM_of_gives (h.imp fun _ _ sketches => sketches.literals)
  have misplaced := mapM_of_gives (h.imp fun _ _ sketches => sketches.misplaced)
  rw [Call.outline, Call.definitionsIn_append (Call.beginAfresh_flatten afresh),
    Call.definitionsIn_flatten afresh, List.filterMap_append, List.filterMap_append,
    List.filterMap_flatten, List.filterMap_flatten, ← List.flatMap_def, ← List.flatMap_def,
    noDefinition, noLiteral, noToken, List.nil_append, List.nil_append, List.nil_append]
  simp only [Tree.outline, definitions, literals, misplaced]
  rfl

/-! ### What the indexers say of a place -/

section Places

variable {c : Cursor} {xs : List Call}

theorem sketches_of_silent (other : c.tree.isOutlined = false)
    (silent : ∀ x ∈ xs, x.isSilent = true) : Sketches c xs := by
  obtain ⟨noDefinition, noLiteral, noToken⟩ := Outline.mk.inj (Call.outline_of_silent silent)
  simp only [Tree.isOutlined, Bool.or_eq_false_iff] at other
  obtain ⟨⟨plain, short⟩, fits⟩ := other
  refine ⟨?_, ?_, ?_, fun x hx => Call.isScope_of_silent silent x (List.mem_of_mem_head? hx)⟩
  · rw [Gives, if_neg (by simp [plain]), noDefinition]
  · rw [Gives, if_neg (by simp [short]), noLiteral]
  · rw [Gives, if_neg (by simpa [Cursor.isKind] using fits), noToken]

theorem Tree.isMultiline_eq_false {t : Tree} (h : t.kind ≠ .string) : t.isMultiline = false := by
  cases t with
  | leaf token =>
    have other : token.kind ≠ .string := h
    simp [isMultiline, other]
  | node kind parts =>
    have other : kind ≠ .string := h
    simp [isMultiline, other]

theorem sketches_of_definition {name : Cursor} (definition : c.tree.kind.isDefinition = true)
    (hname : c.definedName = .ok name) (calls : DefinitionCalls (some name) c xs) :
    Sketches c xs := by
  obtain ⟨r, whole, stored, kind, i, f, g, hr, hwhole, rfl⟩ := calls
  have short : c.tree.isMultiline = false := by
    refine Tree.isMultiline_eq_false fun isString => ?_
    rw [isString] at definition
    cases definition
  have fits : c.isKind .errorLeaf = false := by
    rcases NodeKind.eq_of_isDefinition definition with kind | kind <;>
      simp [Cursor.isKind, Tree.isKind, kind]
  refine ⟨?_, ?_, ?_, ?_⟩
  · rw [Gives, if_pos definition]
    refine ⟨(r.extent, whole.extent), ?_, by simp [Call.definitionsIn]⟩
    rw [Cursor.definitionExtents, hname]
    change (do return (← name.extent, ← c.extent)) = _
    rw [Cursor.extent_eq hr, Cursor.extent_eq hwhole]
    rfl
  · rw [Gives, if_neg (by simp [short])]
    rfl
  · rw [Gives, if_neg (by simp [fits])]
    rfl
  · simp [Call.BeginAfresh, Call.isScope]

theorem sketches_of_string (isString : c.tree.kind = .string) (calls : StringCalls c xs) :
    Sketches c xs := by
  obtain ⟨r, file, hr, rfl⟩ := calls
  have plain : c.tree.kind.isDefinition = false := by rw [isString]; rfl
  have fits : c.isKind .errorLeaf = false := by simp [Cursor.isKind, Tree.isKind, isString]
  have isMultiline : c.tree.isMultiline = r.spansLines := Tree.isMultiline_eq isString hr
  cases spans : r.spansLines with
  | false =>
    refine sketches_of_silent ?_ (by simp)
    simpa [Tree.isOutlined, plain, isMultiline, spans, Cursor.isKind] using fits
  | true =>
    refine ⟨?_, ?_, ?_, ?_⟩
    · rw [Gives, if_neg (by simp [plain])]
      rfl
    · rw [Gives, if_pos (by simp [isMultiline, spans])]
      exact ⟨r.extent, Cursor.extent_eq hr, rfl⟩
    · rw [Gives, if_neg (by simp [fits])]
      rfl
    · simp [Call.BeginAfresh, Call.isScope]

theorem misplaced?_unexpected (type : String) (fatal file : Value) (r : Extent) :
    Call.misplaced? (.error (unexpectedMessage type) fatal file r) =
      some (unexpectedMessage type, r) := by
  have begins : "Unexpected token".toList.isPrefixOf
      ("Unexpected token of type \"" ++ type ++ "\" encountered.").toList = true := by
    simp
  simp only [Call.misplaced?, unexpectedMessage, begins, if_true]

theorem sketches_of_error (isError : c.tree.kind = .errorLeaf) (calls : ErrorCalls c xs) :
    Sketches c xs := by
  obtain ⟨r, type, file, hr, htype, rfl⟩ := calls
  have plain : c.tree.kind.isDefinition = false := by rw [isError]; rfl
  have short : c.tree.isMultiline = false :=
    Tree.isMultiline_eq_false (by simp [isError])
  have misplaced : c.isKind .errorLeaf = true := by simp [Cursor.isKind, Tree.isKind, isError]
  refine ⟨?_, ?_, ?_, ?_⟩
  · rw [Gives, if_neg (by simp [plain])]
    rfl
  · rw [Gives, if_neg (by simp [short])]
    rfl
  · rw [Gives, if_pos misplaced]
    refine ⟨(unexpectedMessage type, r.extent), ?_, by simp [misplaced?_unexpected]⟩
    rw [Cursor.misplacedToken, htype, Cursor.extent_eq hr]
    rfl
  · simp [Call.BeginAfresh, Call.isScope]

theorem isSilent_of_isStructural {x : Call} (h : x.isStructural = false) : x.isSilent = true := by
  cases x with
  | scopeLocation | atomicRange | error => cases h
  | _ => rfl

theorem isSilent_of_reportsIn {t : Tree} {x : Call} (h : Semantic.Setting.ReportsIn t x) :
    x.isSilent = true := by
  obtain ⟨u, name, file, r, -, -, rfl⟩ := h
  simp [Call.isSilent, Call.isScope, Call.literal?, Call.misplaced?]

/-- Only definitions, strings and tokens that fit nowhere belong to the outline. -/
theorem isOutlined_of_kind {t : Tree} {kind : NodeKind} (h : t.kind = kind)
    (plain : kind.isDefinition = false) (noString : kind ≠ .string) (fits : kind ≠ .errorLeaf) :
    t.isOutlined = false := by
  subst h
  simp [Tree.isOutlined, plain, Tree.isMultiline_eq_false noString, Tree.isKind, fits]

/-- A place outside of the outline, about which nothing but names is recorded. -/
theorem sketches_of_plain {kind : NodeKind} (h : c.tree.kind = kind)
    (calls : ∀ x ∈ xs, x.isStructural = false) (plain : kind.isDefinition = false := by rfl)
    (noString : kind ≠ .string := by simp) (fits : kind ≠ .errorLeaf := by simp) :
    Sketches c xs :=
  sketches_of_silent (isOutlined_of_kind h plain noString fits) fun x hx =>
    isSilent_of_isStructural (calls x hx)

theorem Syntactic.sketches_of_records (h : Syntactic.Records c xs) : Sketches c xs := by
  unfold Records at h
  cases kind : c.tree.kind with
  | classdef | funcdef =>
    rw [kind] at h
    obtain ⟨name, hname, calls⟩ := h
    exact sketches_of_definition (by rw [kind]; rfl) hname calls
  | string =>
    rw [kind] at h
    exact sketches_of_string kind h
  | errorLeaf =>
    rw [kind] at h
    exact sketches_of_error kind h
  | param =>
    rw [kind] at h
    obtain ⟨name, r, own, i, f, -, -, rfl⟩ := h
    exact sketches_of_plain kind (by simp)
  | name =>
    rw [kind] at h
    obtain ⟨text, r, -, -, calls⟩ := h
    split at calls
    · exact sketches_of_plain kind (by simp [calls])
    · cases calls with
      | _ => exact sketches_of_plain kind (by simp)
  | _ =>
    rw [kind] at h
    obtain rfl : xs = [] := h
    exact sketches_of_plain kind (by simp)

theorem Semantic.Setting.sketches_of_records
    (headed : c.tree.kind.isDefinition = true → c.tree.isHeaded = true)
    (h : Semantic.Setting.Records c xs) : Sketches c xs := by
  have ofDefinition : c.tree.kind.isDefinition = true →
      (∃ name, c.firstName? = .ok name ∧ DefinitionCalls name c xs) → Sketches c xs := by
    rintro definition ⟨first, hfirst, calls⟩
    obtain ⟨name, hname, defined, -⟩ := Cursor.firstName?_of_isHeaded (headed definition)
    obtain rfl := Except.ok.inj (hfirst.symm.trans hname)
    exact sketches_of_definition definition defined calls
  unfold Records at h
  cases kind : c.tree.kind with
  | classdef | funcdef =>
    rw [kind] at h
    exact ofDefinition (by rw [kind]; rfl) h
  | string =>
    rw [kind] at h
    exact sketches_of_string kind h
  | errorLeaf =>
    rw [kind] at h
    exact sketches_of_error kind h
  | importFrom | importName =>
    rw [kind] at h
    exact sketches_of_silent (isOutlined_of_kind kind rfl (by simp) (by simp)) fun x hx =>
      isSilent_of_reportsIn (h x hx)
  | name =>
    rw [kind] at h
    exact sketches_of_plain kind h
  | _ =>
    rw [kind] at h
    obtain rfl : xs = [] := h
    exact sketches_of_plain kind (by simp)

end Places

/-! ### Whole runs -/

/-- Everything that belongs to the outline of the tree lies where the syntactic indexer looks. -/
def OutlineReached (t : Tree) : Prop :=
  ∀ c ∈ t.places, c.tree.isOutlined = true → Syntactic.isReached c = true

instance (t : Tree) : Decidable (OutlineReached t) :=
  inferInstanceAs (Decidable (∀ c ∈ t.places, c.tree.isOutlined = true →
    Syntactic.isReached c = true))

instance (t : Tree) : Decidable t.DefinitionsHeaded :=
  inferInstanceAs (Decidable (∀ d ∈ t.places, d.tree.kind.isDefinition = true →
    d.tree.isHeaded = true))

/-- A construct that has nothing done for it does not belong to the outline. -/
theorem isOutlined_of_isTransparent {t : Tree} (h : Syntactic.isTransparent t = true) :
    t.isOutlined = false := by
  cases t with
  | leaf token => cases h
  | node kind parts =>
    simp only [Syntactic.isTransparent] at h
    split at h
    iterate 5 exact isOutlined_of_kind rfl rfl (by simp [Tree.kind]) (by simp [Tree.kind])
    cases h

theorem Syntactic.outline_of_returned {s : Setting} {t : Tree} {c : Client}
    (complete : DefinitionsComplete t) (seen : OutlineReached t)
    (ends : returned (index s t c.fresh) = true) :
    t.outline = .ok (Call.outline (c.callsOf (index s t))) := by
  rw [index_eq] at ends ⊢
  have completed := Walk.completed_of_returned ends
  obtain ⟨groups, calls, related⟩ := Walk.exists_groups (disciplined_actions s) (way_inside t)
    completed fun e he d hd => sketches_of_records (records_of_event completed he hd)
  rw [show subjects (walk s t : Walk Client).steps = _ from
    subjects_steps_root complete completed.faultless] at related
  -- what is passed over, or has nothing done for it, has no part in the outline
  obtain ⟨groups', same', related'⟩ := exists_groups_of_filter related fun d _ transparent =>
    sketches_of_silent (isOutlined_of_isTransparent (by simpa using transparent)) (by simp)
  obtain ⟨all, same, related⟩ := exists_groups_of_filter related' fun d hd passed =>
    sketches_of_silent (Bool.eq_false_iff.mpr fun outlined => by
      rw [seen d hd outlined] at passed
      cases passed) (by simp)
  rw [calls, ← same', ← same]
  exact outline_of_sketches completed.preliminary related

theorem Semantic.Setting.outline_of_returned {s : Setting} {t : Tree} {c : Client}
    (headed : t.DefinitionsHeaded) (ends : returned (s.index t c.fresh) = true) :
    t.outline = .ok (Call.outline (c.callsOf (s.index t))) := by
  rw [index_eq] at ends ⊢
  have completed := Walk.completed_of_returned ends
  have places : subjects (s.walk t : Walk Client).steps = t.places :=
    subjects_steps t [] completed.faultless
  obtain ⟨groups, calls, related⟩ := Walk.exists_groups (disciplined_actions s) (way_inside t)
    completed (Q := Sketches) fun e he d hd => by
      have place : d ∈ t.places := by
        rw [← places, ← completed.taken]
        exact List.mem_filterMap.mpr ⟨e.step, List.mem_map_of_mem he, hd⟩
      exact sketches_of_records (headed d place) (records_of_event completed he hd)
  rw [places] at related
  rw [calls]
  exact outline_of_sketches completed.preliminary related

/-- **Both indexers see the same outline.** Let all definitions of a tree begin with a reserved word
and their name and be complete, and let everything that belongs to its outline lie where the
syntactic indexer looks. If a run of the syntactic indexer on the tree and one of the semantic
indexer return, then the definitions, the string literals of several lines and the tokens that fit
nowhere that the one log tells of are those of the other log. They are those of the tree, in
document order and each of them once. -/
theorem outlines_agree (s₁ : Syntactic.Setting) (s₂ : Semantic.Setting) (t : Tree)
    (c₁ c₂ : Client) (headed : t.DefinitionsHeaded) (complete : Syntactic.DefinitionsComplete t)
    (seen : OutlineReached t) (ends₁ : returned (Syntactic.index s₁ t c₁.fresh) = true)
    (ends₂ : returned (s₂.index t c₂.fresh) = true) :
    Call.outline (c₁.callsOf (Syntactic.index s₁ t)) = Call.outline (c₂.callsOf (s₂.index t)) ∧
      t.outline = .ok (Call.outline (c₁.callsOf (Syntactic.index s₁ t))) := by
  have ofSyntactic := Syntactic.outline_of_returned complete seen ends₁
  have ofSemantic := Semantic.Setting.outline_of_returned headed ends₂
  exact ⟨Except.ok.inj (ofSyntactic.symm.trans ofSemantic), ofSyntactic⟩

/-- A class with a long string in front of a method, and a token that fits nowhere. -/
def sampleOutline : Tree :=
  .node (.other "file_input")
    [.node .classdef
      [.tokenAt .keyword "class" 1 0, .tokenAt .name "K" 1 6, .tokenAt .operator ":" 1 7,
        .node .suite
          [.tokenAt .string "\"\"\"one\ntwo\"\"\"" 2 1, .tokenAt .string "\"three\"" 4 1,
            .node .funcdef
              [.tokenAt .keyword "def" 5 1, .tokenAt .name "m" 5 5,
                .node .parameters [.tokenAt .operator "(" 5 6, .tokenAt .operator ")" 5 7],
                .tokenAt .operator ":" 5 8, .tokenAt .name "pass" 5 10]]],
      .leaf { kind := .errorLeaf, text := "?", start := ⟨6, 0⟩, unexpected := some "ERRORTOKEN" }]

/-- Its outline has two definitions, one of the two strings and the token. -/
theorem outlines_of_sampleOutline :
    let s₁ : Syntactic.Setting := ⟨⟨"/w", virtualFile, []⟩, false⟩
    let s₂ : Semantic.Setting := ⟨⟨"/w", virtualFile, []⟩, 3, 7, "/stubs", ⟨[]⟩, false⟩
    let c : Client := { database := {} }
    let outline := Call.outline (c.callsOf (Syntactic.index s₁ sampleOutline))
    sampleOutline.DefinitionsHeaded ∧ Syntactic.DefinitionsComplete sampleOutline ∧
      OutlineReached sampleOutline ∧
      returned (Syntactic.index s₁ sampleOutline c.fresh) = true ∧
      returned (s₂.index sampleOutline c.fresh) = true ∧ outline.definitions.length = 2 ∧
      outline.literals.length = 1 ∧ outline.misplaced.length = 1 ∧
      outline = Call.outline (c.callsOf (s₂.index sampleOutline)) ∧
      sampleOutline.outline = .ok outline := by
  intro s₁ s₂ c outline
  have headed : sampleOutline.DefinitionsHeaded := by decide
  have complete : Syntactic.DefinitionsComplete sampleOutline := by decide
  have seen : OutlineReached sampleOutline := by decide
  have ends₁ : returned (Syntactic.index s₁ sampleOutline c.fresh) = true := by decide +kernel
  have ends₂ : returned (s₂.index sampleOutline c.fresh) = true := by decide +kernel
  exact ⟨headed, complete, seen, ends₁, ends₂, by decide +kernel, by decide +kernel,
    by decide +kernel, outlines_agree s₁ s₂ sampleOutline c c headed complete seen ends₁ ends₂⟩

/-- A function without a body of its own. The default of its parameter is a long string. -/
def bodilessFunction : Tree :=
  .node (.other "file_input")
    [.node .funcdef
      [.tokenAt .keyword "def" 1 0, .tokenAt .name "f" 1 4,
        .node .parameters
          [.tokenAt .operator "(" 1 5,
            .node .param [.tokenAt .name "a" 1 6, .tokenAt .operator "=" 1 7,
              .tokenAt .string "\"\"\"\n\"\"\"" 1 8],
            .tokenAt .operator ")" 2 3]]]

/-- A construct in place of a string literal. It reaches over two lines, but no token does. -/
def stringOfNames : Tree :=
  .node (.other "file_input") [.node .string [.tokenAt .name "a" 1 0, .tokenAt .name "b" 2 0]]

/-- The syntactic indexer records the default of that function twice, as a default and as a part of
the body, and the semantic indexer records it once. And both record a string literal that is no
token. -/
theorem default_in_bodiless_function :
    let s₁ : Syntactic.Setting := ⟨⟨"/w", virtualFile, []⟩, false⟩
    let s₂ : Semantic.Setting := ⟨⟨"/w", virtualFile, []⟩, 3, 7, "/stubs", ⟨[]⟩, false⟩
    let c : Client := { database := {} }
    let literals (run : Indexing Client Unit) := (Call.outline (c.callsOf run)).literals
    (bodilessFunction.DefinitionsHeaded ∧ OutlineReached bodilessFunction ∧
      returned (Syntactic.index s₁ bodilessFunction c.fresh) = true ∧
      returned (s₂.index bodilessFunction c.fresh) = true ∧
      (literals (Syntactic.index s₁ bodilessFunction)).length = 2 ∧
      (literals (s₂.index bodilessFunction)).length = 1) ∧
    stringOfNames.DefinitionsHeaded ∧ OutlineReached stringOfNames ∧
      returned (Syntactic.index s₁ stringOfNames c.fresh) = true ∧
      returned (s₂.index stringOfNames c.fresh) = true ∧
      (literals (Syntactic.index s₁ stringOfNames)).length = 1 ∧
      (literals (s₂.index stringOfNames)).length = 1 ∧
      ∀ d ∈ stringOfNames.places, d.isKind .string = true → d.tree.isLeaf = false := by
  decide +kernel

end CodeIndex
