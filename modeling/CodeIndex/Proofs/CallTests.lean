import CodeIndex.Proofs.Adjacency
import CodeIndex.Proofs.Visits

/-!
# The two tests for calls

Each indexer has a test for whether a name is called. The syntactic indexer looks at the next token:
it has to be an opening bracket. The semantic indexer looks at the next construct: it has to be a
trailer in brackets. What comes after a name is found by going up from it, to the first construct
that has another part, and the two tests look at the same part (`Cursor.Junction`). In a tree that
follows the grammar, `Adjacency` says which parts these can be. A name that is followed by the
bracket of a definition is not visited by the syntactic indexer. What remains are trailers, at which
the tests agree, and decorators, whose arguments are no trailer.

## What is proved

* `Cursor.exists_junction` — what follows a place.
* `Cursor.isCall_of_reached` — the test of the semantic indexer, by that of the syntactic one.
* `call_tests_differ_at_decorators` — the tests differ at the names of decorators with arguments,
  and nowhere else.
-/

namespace CodeIndex

/-! ### What follows a place -/

namespace Cursor

theorem exists_firstLeaf {t : Tree} (full : ∀ u, t.Has u → u.tokens ≠ []) (above : List Ancestor) :
    ∃ token around, firstLeaf? above t = some ⟨.leaf token, around⟩ ∧
      t.tokens.head? = some token := by
  induction t using Tree.parts_induction generalizing above with
  | leaf token => exact ⟨token, above, rfl, rfl⟩
  | node kind parts ih =>
    cases parts with
    | nil => exact absurd rfl (full _ (.self _))
    | cons t ts =>
      have first : ∀ u, t.Has u → u.tokens ≠ [] :=
        fun u hu => full u (.part List.mem_cons_self hu)
      obtain ⟨token, around, found, begins⟩ :=
        ih t List.mem_cons_self first (⟨kind, t :: ts, 0⟩ :: above)
      refine ⟨token, around, ?_, ?_⟩
      · rw [firstLeaf?, firstLeafOf?, found]
      · change (t.tokens ++ _).head? = some token
        rw [List.head?_append_of_ne_nil _ (first t (.self t)), begins]

theorem next?_leaf (token : Token) (above : List Ancestor) :
    next? ⟨.leaf token, above⟩ = after? above := rfl

theorem nextLeaf?_leaf (token : Token) (above : List Ancestor) :
    nextLeaf? ⟨.leaf token, above⟩ = leafAfter? above := rfl

/-- A place `t` of the tree that ends with `token` is followed by the part `v` of a construct. The
part `u` before it is the place itself, or a construct that ends with the same token. -/
structure Junction (root t : Tree) (token : Token) (above : List Ancestor) (a : Ancestor)
    (rest : List Ancestor) (u v : Tree) : Prop where
  around : (Cursor.root root).Within ⟨a.tree, rest⟩
  before : a.children[a.index]? = some u
  after : a.children[a.index + 1]? = some v
  ends : u.tokens.getLast? = some token
  itself : above = a :: rest ∧ u = t ∨ u.isLeaf = false
  next : after? above = some ⟨v, { a with index := a.index + 1 } :: rest⟩
  leaf : leafAfter? above = firstLeaf? ({ a with index := a.index + 1 } :: rest) v

section Junctions

variable {root t u v : Tree} {token : Token} {above rest : List Ancestor} {a : Ancestor}

theorem Junction.has (j : Junction root t token above a rest u v) : root.Has v :=
  (Tree.Has.of_within j.around).trans (.part (List.mem_of_getElem? j.after) (.self v))

/-- A part after which there is another one. -/
theorem junction_here (full : ∀ w, root.Has w → w.tokens ≠ [])
    (within : (Cursor.root root).Within ⟨t, a :: rest⟩) (ends : t.tokens.getLast? = some token)
    (hv : a.children[a.index + 1]? = some v) : Junction root t token (a :: rest) a rest t v := by
  obtain ⟨around, ht⟩ := within.parent
  have within' : root.Has v :=
    (Tree.Has.of_within around).trans (.part (List.mem_of_getElem? hv) (.self v))
  obtain ⟨token, above, found, -⟩ := exists_firstLeaf (fun w hw => full w (within'.trans hw))
    ({ a with index := a.index + 1 } :: rest)
  refine ⟨around, ht, hv, ends, .inl ⟨rfl, rfl⟩, ?_, ?_⟩
  · rw [after?, hv]
  · cases later : a.children.drop (a.index + 1) with
    | nil =>
      rw [← List.head?_drop, later] at hv
      cases hv
    | cons w more =>
      rw [← List.head?_drop, later] at hv
      obtain rfl := Option.some.inj hv
      rw [leafAfter?, later, firstLeafOf?, found]

/-- The last part of a construct ends where the construct ends, and is followed by what follows the
construct. -/
theorem last_part (within : (Cursor.root root).Within ⟨t, a :: rest⟩)
    (ends : t.tokens.getLast? = some token) (isLast : a.children[a.index + 1]? = none) :
    a.tree.tokens.getLast? = some token ∧ after? (a :: rest) = after? rest ∧
      leafAfter? (a :: rest) = leafAfter? rest := by
  obtain ⟨-, ht⟩ := within.parent
  have long := List.getElem?_eq_none_iff.mp isLast
  have final : a.children.getLast? = some t := by
    obtain ⟨short, -⟩ := List.getElem?_eq_some_iff.mp ht
    rw [List.getLast?_eq_getElem?, show a.children.length - 1 = a.index by omega, ht]
  have nonempty : t.tokens ≠ [] := by
    rintro none
    rw [none] at ends
    cases ends
  refine ⟨?_, ?_, ?_⟩
  · obtain ⟨before, split⟩ := List.getLast?_eq_some_iff.mp final
    rw [Ancestor.tree, Tree.tokens, Tree.tokensOf_eq, split, List.flatMap_append,
      List.flatMap_singleton, List.getLast?_append_of_ne_nil _ nonempty, ends]
  · rw [after?, isLast]
  · rw [leafAfter?, List.drop_eq_nil_iff.mpr long]
    rfl

/-- What follows a place: nothing, or the part after one that ends where the place ends. -/
theorem exists_junction (full : ∀ w, root.Has w → w.tokens ≠ [])
    (within : (Cursor.root root).Within ⟨t, above⟩) (ends : t.tokens.getLast? = some token) :
    after? above = none ∧ leafAfter? above = none ∨
      ∃ a rest u v, Junction root t token above a rest u v := by
  -- up from the place, as long as it is at the end of the construct around it
  induction above generalizing t with
  | nil => exact .inl ⟨rfl, rfl⟩
  | cons a rest ih =>
    cases hv : a.children[a.index + 1]? with
    | some v => exact .inr ⟨a, rest, t, v, junction_here full within ends hv⟩
    | none =>
      obtain ⟨ends', next, leaf⟩ := last_part within ends hv
      rw [next, leaf]
      rcases ih within.parent.1 ends' with nothing | ⟨b, above, u, v, j⟩
      · exact .inl nothing
      · have inner : u.isLeaf = false := by
          rcases j.itself with ⟨-, rfl⟩ | inner
          · rfl
          · exact inner
        exact .inr ⟨b, above, u, v, j.around, j.before, j.after, j.ends, .inr inner,
          next.trans j.next, leaf.trans j.leaf⟩

end Junctions

end Cursor

/-! ### Definitions -/

namespace Syntactic

/-- A name in front of another part of a class or function is not reached. -/
theorem not_reached_of_headed {a : Ancestor} {rest : List Ancestor} {u v : Tree}
    (hu : a.children[a.index]? = some u) (hv : a.children[a.index + 1]? = some v)
    (isName : u.isName = true)
    (header : a.kind = .funcdef ∨ a.kind = .classdef ∧ a.index ≠ 3) :
    isReached ⟨u, a :: rest⟩ = false := by
  have inner : ¬ a.index + 1 = a.children.length := by
    obtain ⟨short, -⟩ := List.getElem?_eq_some_iff.mp hv
    omega
  have noParameter : isParameterBelow a rest = false := by
    have other : u.isKind .param = false := by
      rw [Tree.isKind, show u.kind = .name from of_decide_eq_true isName]
      rfl
    cases rest with
    | nil => rfl
    | cons f above => simp [isParameterBelow, isParameterOf, hu, other]
  have unselected : selects a.kind a.children a.index = false := by
    rcases header with isFunction | ⟨isClass, noBase⟩
    · rw [isFunction]
      exact decide_eq_false inner
    · rw [isClass]
      refine Bool.or_eq_false_iff.mpr ⟨?_, decide_eq_false inner⟩
      split
      · rename_i bases found
        rw [(bases_of_basesIndex found).1]
        exact decide_eq_false noBase
      · rfl
  rw [isReached, reachedBelow_cons, unselected, noParameter]
  rfl

end Syntactic

/-! ### Grammatical trees -/

section Grammatical

variable {t u : Tree} {token : Token}

theorem Tree.IsGrammatical.admitted (h : t.IsGrammatical) (has : t.Has u) : Grammar.Admitted u :=
  Grammar.Derives.of_has h has

theorem Tree.IsGrammatical.tokens_ne_nil (h : t.IsGrammatical) (u : Tree) (has : t.Has u) :
    u.tokens ≠ [] := by
  obtain ⟨l, s, derived⟩ := (h.admitted has).derives
  exact derived.tokens_ne_nil

/-- No token is of the kind of a trailer. -/
theorem Grammar.Admitted.token_kind (h : Admitted (.leaf token)) : token.kind ≠ .trailer := by
  obtain ⟨a, kind, -⟩ := h
  rw [kind]
  intro same
  cases a <;> cases same

/-- A name is a token. -/
theorem Grammar.Admitted.exists_name (h : Admitted t) (isName : t.isName = true) :
    ∃ token, t = .leaf token ∧ token.kind = .name := by
  cases t with
  | leaf token => exact ⟨token, rfl, of_decide_eq_true isName⟩
  | node kind ts =>
    obtain ⟨-, n, -, same, -⟩ := h
    rw [show kind = .name from of_decide_eq_true isName] at same
    cases n <;> cases same

end Grammatical

/-! ### Calls -/

namespace Cursor

/-- The place is followed by the opening bracket of a decorator. -/
def opensDecorator (c : Cursor) : Bool :=
  c.next?.any fun d => d.tree.isOperator "(" && d.parent?.any (isKind (.other "decorator"))

section Calls

variable {t u v : Tree} {token : Token} {above rest : List Ancestor} {a : Ancestor}

/-- In front of a trailer the two tests agree. -/
theorem isCall_of_trailer {c : Cursor} {ts : List Tree} {around : List Ancestor}
    (admitted : Grammar.Admitted (.node .trailer ts))
    (next : c.next? = some ⟨.node .trailer ts, around⟩)
    (leaf : c.nextLeaf? = firstLeaf? around (.node .trailer ts)) :
    c.isCall = .ok (Syntactic.followedBy "(" c) := by
  obtain ⟨first, rest, rfl, isOperator, brackets⟩ := admitted.trailer
  have follows : Syntactic.followedBy "(" c = (first.text = "(" : Bool) := by
    rw [Syntactic.followedBy, leaf]
    change (first.kind = .operator && first.text = "(" : Bool) = _
    rw [isOperator]
    rfl
  rw [isCall, next, follows]
  exact brackets

/-- In front of anything else, an opening bracket after a name that is reached is that of a
decorator. -/
theorem opensDecorator_of_followedBy (grammatical : t.IsGrammatical)
    (j : Junction t (.leaf token) token above a rest u v) (isName : token.kind = .name)
    (reached : Syntactic.isReached ⟨.leaf token, above⟩ = true)
    (other : v.isKind .trailer = false)
    (follows : Syntactic.followedBy "(" ⟨.leaf token, above⟩ = true) :
    opensDecorator ⟨.leaf token, above⟩ = true := by
  obtain ⟨bracket, below, first, begins⟩ := exists_firstLeaf
    (fun w hw => grammatical.tokens_ne_nil w (j.has.trans hw))
    ({ a with index := a.index + 1 } :: rest)
  have isBracket : bracket.kind = .operator ∧ bracket.text = "(" := by
    rw [Syntactic.followedBy, nextLeaf?_leaf, j.leaf, first] at follows
    simpa [Tree.isOperator] using follows
  have construct := grammatical.admitted (Tree.Has.of_within j.around)
  obtain ⟨n, s, s', l, l', kind, meets, derived, derived'⟩ :=
    construct.meets j.before j.after j.ends isName begins isBracket
  -- a definition of which the name is a part would keep it from being reached
  have unheaded : ∀ name, u = .leaf name →
      ¬(a.kind = .funcdef ∨ a.kind = .classdef ∧ a.index ≠ 3) := by
    rintro name rfl header
    rcases j.itself with ⟨rfl, same⟩ | inner
    · have before := j.before
      rw [same] at before
      rw [Syntactic.not_reached_of_headed before j.after (decide_eq_true isName) header] at reached
      cases reached
    · cases inner
  rcases meets with rfl | ⟨rfl, rfl⟩ | ⟨rfl, rfl, rfl⟩ | ⟨rfl, rfl, rfl⟩
  · rw [derived'.isTrailer] at other
    cases other
  · obtain ⟨sign, rfl, accepts⟩ := derived'.exists_token
    have inDecorator : a.kind = .other "decorator" := kind.symm
    rw [opensDecorator, next?_leaf, j.next]
    simp [Tree.isOperator, accepts.operator, parent?, isKind, Ancestor.tree, Tree.isKind, Tree.kind,
      inDecorator]
  · obtain ⟨name, rfl, -⟩ := derived.exists_token
    refine absurd (.inr ⟨kind.symm, fun fourth => ?_⟩) (unheaded name rfl)
    have after := j.after
    rw [fourth] at after
    rw [Ancestor.tree, show a.kind = .classdef from kind.symm] at construct
    exact construct.classdef_fifth after begins isBracket.2
  · obtain ⟨name, rfl, -⟩ := derived.exists_token
    exact absurd (.inl kind.symm) (unheaded name rfl)

/-- The bracket of a decorator is the next token. -/
theorem followedBy_of_opensDecorator (grammatical : t.IsGrammatical)
    (within : (Cursor.root t).Within ⟨.leaf token, above⟩)
    (opens : opensDecorator ⟨.leaf token, above⟩ = true) :
    Syntactic.followedBy "(" ⟨.leaf token, above⟩ = true := by
  rw [opensDecorator, next?_leaf] at opens
  rcases exists_junction grammatical.tokens_ne_nil within rfl with ⟨noNext, -⟩ | ⟨a, rest, u, v, j⟩
  · rw [noNext] at opens
    cases opens
  · rw [j.next] at opens
    obtain ⟨isBracket, -⟩ := Bool.and_eq_true_iff.mp opens
    cases v with
    | leaf bracket =>
      rw [Syntactic.followedBy, nextLeaf?_leaf, j.leaf]
      exact isBracket
    | node kind parts => cases isBracket

/-- The test of the semantic indexer, by that of the syntactic one. -/
theorem isCall_of_reached (grammatical : t.IsGrammatical)
    (within : (Cursor.root t).Within ⟨.leaf token, above⟩) (isName : token.kind = .name)
    (reached : Syntactic.isReached ⟨.leaf token, above⟩ = true) :
    isCall ⟨.leaf token, above⟩ =
      .ok (Syntactic.followedBy "(" ⟨.leaf token, above⟩ &&
        !opensDecorator ⟨.leaf token, above⟩) := by
  rcases exists_junction grammatical.tokens_ne_nil within rfl with
    ⟨noNext, noLeaf⟩ | ⟨a, rest, u, v, j⟩
  · rw [isCall, next?_leaf, noNext, Syntactic.followedBy, nextLeaf?_leaf, noLeaf]
    rfl
  · have next : next? ⟨.leaf token, above⟩ = _ := j.next
    cases isTrailer : v.isKind .trailer with
    | true =>
      have admitted := grammatical.admitted j.has
      cases v with
      | leaf other => exact absurd (of_decide_eq_true isTrailer) admitted.token_kind
      | node kind ts =>
        obtain rfl : kind = .trailer := of_decide_eq_true isTrailer
        have plain : opensDecorator ⟨.leaf token, above⟩ = false := by
          rw [opensDecorator, next]
          rfl
        rw [isCall_of_trailer admitted next j.leaf, plain, Bool.not_false, Bool.and_true]
    | false =>
      have uncalled : isCall ⟨.leaf token, above⟩ = .ok false := by
        rw [isCall, next]
        exact if_neg (Bool.eq_false_iff.mp isTrailer)
      rw [uncalled]
      cases follows : Syntactic.followedBy "(" ⟨.leaf token, above⟩ with
      | false => rfl
      | true =>
        rw [opensDecorator_of_followedBy grammatical j isName reached isTrailer follows]
        rfl

end Calls

end Cursor

/-- **The tests for calls differ at decorators only.** In a tree that follows the grammar, let the
syntactic indexer visit a name. Then the semantic indexer visits it too. For the semantic indexer it
is called if the next token is an opening bracket, which is the test of the syntactic indexer, and
this is not the bracket of a decorator. So the tests agree, unless the name is that of a decorator
with arguments, or the last part of it. -/
theorem call_tests_differ_at_decorators (t : Tree) (grammatical : t.IsGrammatical) (c : Cursor)
    (isName : c.isName = true)
    (visited : c ∈ (visitsFrom [] (Syntactic.steps [] t)).map Visit.place) :
    c ∈ (visitsFrom [] (Semantic.Setting.steps [] t)).map Visit.place ∧
      c.isCall = .ok (Syntactic.followedBy "(" c && !c.opensDecorator) ∧
      (c.isCall = .ok (Syntactic.followedBy "(" c) ↔ c.opensDecorator = false) := by
  obtain ⟨visit, begun, rfl⟩ := List.mem_map.mp visited
  obtain ⟨within, reached, -, -⟩ := (Syntactic.bracketed_root t).holds_of_mem visit begun
  generalize visit.place = c at isName within reached
  obtain ⟨u, above⟩ := c
  obtain ⟨token, rfl, ofName⟩ :=
    (grammatical.admitted (Tree.Has.of_within within)).exists_name isName
  have called := Cursor.isCall_of_reached grammatical within ofName reached
  refine ⟨?_, called, ?_⟩
  · rw [Semantic.Setting.visits_steps, List.map_map]
    exact List.mem_map.mpr ⟨_, Cursor.mem_placesFrom_iff.mpr within, rfl⟩
  · rw [called]
    cases opens : Cursor.opensDecorator ⟨.leaf token, above⟩ with
    | false => simp
    | true =>
      rw [Cursor.followedBy_of_opensDecorator grammatical within opens]
      simp

/-! ### A decorated function -/

namespace Grammar

variable {last : Bool} {s : Symbol} {t : Tree} {ts : List Tree}

theorem Derives.of_rmatch {n : Construct} (w : List Symbol) (form : n.form.rmatch w = true)
    (parts : Parts Derives last w ts) : Derives last (.construct n) (.node n.kind ts) :=
  .construct ((RegularExpression.rmatch_iff_matches' _ _).mp form) parts

/-- The symbol may be the only part of the first construct, and each construct that of the next. -/
def isChain : Symbol → List Construct → Bool
  | _, [] => true
  | s, n :: ns => n.form.rmatch [s] && isChain (.construct n) ns

/-- What is derived from a symbol is derived from all constructs that may have it as their only
part. -/
theorem Derives.climb (ns : List Construct) (chain : isChain s ns = true) (h : Derives last s t) :
    Derives last ((ns.map Symbol.construct).getLastD s) t := by
  induction ns generalizing s with
  | nil => exact h
  | cons n ns ih =>
    obtain ⟨form, chain⟩ := Bool.and_eq_true_iff.mp chain
    have one : Derives last (.construct n) t :=
      .single ((RegularExpression.rmatch_iff_matches' _ _).mp form) (.cons h .nil)
    rw [List.map_cons, List.getLastD_cons]
    exact ih chain one

/-- The constructs of expressions with operators, the innermost first. -/
def operations : List Construct :=
  [.power, .factor, .term, .arithExpr, .shiftExpr, .andExpr, .xorExpr, .expr, .comparison, .notTest,
    .andTest, .orTest, .test]

end Grammar

/-- A decorator with an argument. -/
def argumentedDecorator : Tree :=
  .node (.other "decorator")
    [.tokenAt .operator "@" 1 0, .tokenAt .name "foo" 1 1, .tokenAt .operator "(" 1 4,
      .tokenAt .name "x" 1 5, .tokenAt .operator ")" 1 6, .tokenAt (.other "newline") "\n" 1 7]

/-- A call without arguments. -/
def plainCall : Tree :=
  .node .atomExpr
    [.tokenAt .name "g" 2 9,
      .node .trailer [.tokenAt .operator "(" 2 10, .tokenAt .operator ")" 2 11]]

/-- A function with a call in it. -/
def callingFunction : Tree :=
  .node .funcdef
    [.tokenAt .keyword "def" 2 0, .tokenAt .name "f" 2 4,
      .node .parameters [.tokenAt .operator "(" 2 5, .tokenAt .operator ")" 2 6],
      .tokenAt .operator ":" 2 7,
      .node (.other "simple_stmt") [plainCall, .tokenAt (.other "newline") "\n" 2 12]]

/-- The function below the decorator. -/
def decoratedFunction : Tree :=
  .node (.other "file_input")
    [.node (.other "decorated") [argumentedDecorator, callingFunction],
      .tokenAt .endmarker "" 3 0]

section Sample

open Grammar

theorem derives_argumentedDecorator (last : Bool) :
    Derives last (.construct .decorators) argumentedDecorator := by
  have function (last : Bool) : Derives last (.construct .dottedName) (.tokenAt .name "foo" 1 1) :=
    .climb (s := .token .name) [.dottedName] (by decide +kernel) (.token (by decide))
  have argument (last : Bool) : Derives last (.construct .arglist) (.tokenAt .name "x" 1 5) :=
    .climb (s := .token .name) (.atom :: operations ++ [.argument, .arglist]) (by decide +kernel)
      (.token (by decide))
  have decorator : Derives last (.construct .decorator) argumentedDecorator :=
    .of_rmatch
      [.token (.operator "@"), .construct .dottedName, .token (.operator "("),
        .construct .arglist, .token (.operator ")"), .token .newline] (by decide +kernel)
      (.cons (.token (by decide)) <| .cons (function _) <| .cons (.token (by decide)) <|
        .cons (argument _) <| .cons (.token (by decide)) <| .cons (.token (by decide)) .nil)
  exact .climb (s := .construct .decorator) [.decorators] (by decide +kernel) decorator

theorem derives_plainCall (last : Bool) : Derives last (.construct .exprStmt) plainCall := by
  have name (last : Bool) : Derives last (.construct .atom) (.tokenAt .name "g" 2 9) :=
    .climb (s := .token .name) [.atom] (by decide +kernel) (.token (by decide))
  have trailer (last : Bool) : Derives last (.construct .trailer)
      (.node .trailer [.tokenAt .operator "(" 2 10, .tokenAt .operator ")" 2 11]) :=
    .of_rmatch [.token (.operator "("), .token (.operator ")")] (by decide +kernel)
      (.cons (.token (by decide)) <| .cons (.token (by decide)) .nil)
  have call : Derives last (.construct .atomExpr) plainCall :=
    .of_rmatch [.construct .atom, .construct .trailer] (by decide +kernel)
      (.cons (name _) <| .cons (trailer _) .nil)
  exact .climb (s := .construct .atomExpr) (operations ++ [.testlistStarExpr, .exprStmt])
    (by decide +kernel) call

theorem derives_callingFunction (last : Bool) :
    Derives last (.construct .funcdef) callingFunction := by
  have parameters (last : Bool) : Derives last (.construct .parameters)
      (.node .parameters [.tokenAt .operator "(" 2 5, .tokenAt .operator ")" 2 6]) :=
    .of_rmatch [.token (.operator "("), .token (.operator ")")] (by decide +kernel)
      (.cons (.token (by decide)) <| .cons (.token (by decide)) .nil)
  have line (last : Bool) : Derives last (.construct .simpleStmt)
      (.node (.other "simple_stmt") [plainCall, .tokenAt (.other "newline") "\n" 2 12]) :=
    .of_rmatch [.construct .exprStmt, .token .newline] (by decide +kernel)
      (.cons (derives_plainCall _) <| .cons (.token (by decide)) .nil)
  have body (last : Bool) : Derives last (.construct .suite)
      (.node (.other "simple_stmt") [plainCall, .tokenAt (.other "newline") "\n" 2 12]) :=
    .climb (s := .construct .simpleStmt) [.suite] (by decide +kernel) (line last)
  exact .of_rmatch
    [.token (.keyword "def"), .token .name, .construct .parameters, .token (.operator ":"),
      .construct .suite] (by decide +kernel)
    (.cons (.token (by decide)) <| .cons (.token (by decide)) <| .cons (parameters _) <|
      .cons (.token (by decide)) <| .cons (body _) .nil)

theorem decoratedFunction_isGrammatical : decoratedFunction.IsGrammatical := by
  have definition (last : Bool) : Derives last (.construct .decorated)
      (.node (.other "decorated") [argumentedDecorator, callingFunction]) :=
    .of_rmatch [.construct .decorators, .construct .funcdef] (by decide +kernel)
      (.cons (derives_argumentedDecorator _) <| .cons (derives_callingFunction _) .nil)
  exact .of_rmatch [.construct .decorated, .token .endmarker] (by decide +kernel)
    (.cons (definition _) <| .cons (.token (by decide)) .nil)

end Sample

/-- The tests agree at the call in the function. -/
theorem call_tests_agree_in_function :
    ∃ c, (Cursor.root decoratedFunction).descend? [0, 1, 4, 0, 0] = some c ∧
      decoratedFunction.IsGrammatical ∧ c.isName = true ∧
      c ∈ (visitsFrom [] (Syntactic.steps [] decoratedFunction)).map Visit.place ∧
      c ∈ (visitsFrom [] (Semantic.Setting.steps [] decoratedFunction)).map Visit.place ∧
      c.opensDecorator = false ∧ Syntactic.followedBy "(" c = true ∧ c.isCall = .ok true := by
  obtain ⟨c, found, visited⟩ :
      ∃ c, (Cursor.root decoratedFunction).descend? [0, 1, 4, 0, 0] = some c ∧
        c ∈ (visitsFrom [] (Syntactic.steps [] decoratedFunction)).map Visit.place :=
    ⟨_, rfl, List.mem_of_getElem? (i := 12) rfl⟩
  obtain rfl := Option.some.inj found
  obtain ⟨both, called, -⟩ := call_tests_differ_at_decorators decoratedFunction
    decoratedFunction_isGrammatical _ rfl visited
  exact ⟨_, rfl, decoratedFunction_isGrammatical, rfl, visited, both, rfl, rfl, called⟩

/-- They differ at the name of the decorator, which both indexers visit. -/
theorem call_tests_differ_at_decorator :
    ∃ c, (Cursor.root decoratedFunction).descend? [0, 0, 1] = some c ∧
      decoratedFunction.IsGrammatical ∧ c.isName = true ∧
      c ∈ (visitsFrom [] (Syntactic.steps [] decoratedFunction)).map Visit.place ∧
      c ∈ (visitsFrom [] (Semantic.Setting.steps [] decoratedFunction)).map Visit.place ∧
      Syntactic.followedBy "(" c = true ∧ c.isCall = .ok false := by
  exact ⟨_, rfl, decoratedFunction_isGrammatical, rfl, List.mem_of_getElem? (i := 4) rfl,
    List.mem_of_getElem? (i := 4) rfl, rfl, rfl⟩

end CodeIndex
