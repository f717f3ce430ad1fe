import CodeIndex.Proofs.CallTests
import CodeIndex.Proofs.NameCoverage
import Mathlib.Data.List.Nodup

/-!
# Moving in document order

Both indexers look at what comes after a place. A cursor moves to the next place by going down into
a construct or up to the first one that has another part, and to the next token by doing so until it
is at one. Here the places that come after a place are written down as a list (`Cursor.later`),
first those below it and then those after each construct around it. The list is known by its first
element: `Cursor.later_eq` says that it begins with the next place, and goes on with the places that
come after that one. What the moves do is read off from this.

Constructs without parts are passed on the way to the next token. In a tree that has none the next
token is the first one of whatever comes next, so that the two tests for a qualifier, one of which
looks at the next token and the other at the next construct, can be compared.

## What is proved

* `Cursor.Within.exists_split` — the list of the places that come after a place is the rest of the
  list of all places.
* `Tree.nodup_placesFrom` — in which no place comes twice.
* `Cursor.search_iff` — moving from place to place until there is a token comes to an end.
* `next_places_in_document_order` — the next place, the next token, and the tests for qualifiers.
-/

namespace CodeIndex

namespace Cursor

/-! ### The places after a place -/

/-- The places in the parts that come after the present part of the nearest construct, then those
after the construct. -/
def placesAfter : List Ancestor → List Cursor
  | [] => []
  | a :: rest =>
    Tree.placesOfParts (fun i => { a with index := i } :: rest) (a.index + 1)
      (a.children.drop (a.index + 1)) ++ placesAfter rest

/-- The places in the parts of a construct. -/
def placesBelow (c : Cursor) : List Cursor :=
  match c.tree with
  | .leaf _ => []
  | .node kind parts => Tree.placesOfParts (fun i => ⟨kind, parts, i⟩ :: c.above) 0 parts

/-- The places that come after a place, in document order. -/
def later (c : Cursor) : List Cursor := c.placesBelow ++ placesAfter c.above

theorem placesFrom_eq (c : Cursor) : c.tree.placesFrom c.above = c :: c.placesBelow := by
  obtain ⟨t, above⟩ := c
  cases t <;> rfl

theorem placesOfParts_cons_append (place : Nat → List Ancestor) (i : Nat) (t : Tree)
    (ts : List Tree) (others : List Cursor) :
    Tree.placesOfParts place i (t :: ts) ++ others =
      ⟨t, place i⟩ ::
        (placesBelow ⟨t, place i⟩ ++ (Tree.placesOfParts place (i + 1) ts ++ others)) := by
  rw [Tree.placesOfParts, placesFrom_eq ⟨t, place i⟩, List.cons_append, List.cons_append,
    List.append_assoc]

/-- What comes after all of a construct begins with the place that the cursor finds by going up. -/
theorem placesAfter_eq (above : List Ancestor) :
    placesAfter above = (after? above).elim [] fun d => d :: d.later := by
  induction above with
  | nil => rfl
  | cons a rest ih =>
    rw [placesAfter, after?]
    cases hd : a.children[a.index + 1]? with
    | none =>
      rw [List.drop_eq_nil_of_le (List.getElem?_eq_none_iff.mp hd)]
      exact ih
    | some t =>
      obtain ⟨short, rfl⟩ := List.getElem?_eq_some_iff.mp hd
      rw [List.drop_eq_getElem_cons short]
      exact placesOfParts_cons_append _ _ _ _ _

/-- What comes after a place begins with the next place. -/
theorem later_eq (c : Cursor) : c.later = c.next?.elim [] fun d => d :: d.later := by
  obtain ⟨t, above⟩ := c
  cases t with
  | leaf token => exact placesAfter_eq above
  | node kind parts =>
    cases parts with
    | nil => exact placesAfter_eq above
    | cons t ts =>
      exact placesOfParts_cons_append (fun i => ⟨kind, t :: ts, i⟩ :: above) 0 t ts _

theorem later_of_next?_eq_some {c d : Cursor} (h : c.next? = some d) : c.later = d :: d.later := by
  rw [later_eq, h]
  rfl

theorem next?_eq_head? (c : Cursor) : c.next? = c.later.head? := by
  rw [later_eq]
  cases c.next? <;> rfl

/-! ### Tokens -/

/-- The place is a token. -/
def isLeaf (c : Cursor) : Bool := c.tree.isLeaf

theorem firstLeafOf?_eq {place : Nat → List Ancestor} {ts : List Tree}
    (each : ∀ t ∈ ts, ∀ above, firstLeaf? above t = (t.placesFrom above).find? isLeaf) (i : Nat) :
    firstLeafOf? place i ts = (Tree.placesOfParts place i ts).find? isLeaf := by
  induction ts generalizing i with
  | nil => rfl
  | cons t ts ih =>
    rw [firstLeafOf?, Tree.placesOfParts, List.find?_append, each t List.mem_cons_self,
      ih fun u hu => each u (List.mem_cons_of_mem _ hu)]
    cases (t.placesFrom (place i)).find? isLeaf <;> rfl

theorem firstLeaf?_eq (t : Tree) (above : List Ancestor) :
    firstLeaf? above t = (t.placesFrom above).find? isLeaf := by
  induction t using Tree.parts_induction generalizing above with
  | leaf token => rfl
  | node kind parts ih => exact firstLeafOf?_eq ih 0

theorem leafAfter?_eq (above : List Ancestor) :
    leafAfter? above = (placesAfter above).find? isLeaf := by
  induction above with
  | nil => rfl
  | cons a rest ih =>
    rw [leafAfter?, placesAfter, List.find?_append, firstLeafOf?_eq fun t _ => firstLeaf?_eq t, ih]
    cases (Tree.placesOfParts _ (a.index + 1) (a.children.drop (a.index + 1))).find? isLeaf <;> rfl

/-- The next token is the first one among the places that come after a place. -/
theorem nextLeaf?_eq (c : Cursor) : c.nextLeaf? = c.later.find? isLeaf := by
  obtain ⟨t, above⟩ := c
  cases t with
  | leaf token => exact leafAfter?_eq above
  | node kind parts =>
    have inside : firstLeafOf? (fun i => ⟨kind, parts, i⟩ :: above) 0 parts =
        (placesBelow ⟨.node kind parts, above⟩).find? isLeaf :=
      firstLeafOf?_eq (fun t _ => firstLeaf?_eq t) 0
    rw [later, List.find?_append, ← leafAfter?_eq, ← inside, nextLeaf?]
    dsimp only
    cases firstLeafOf? (fun i => ⟨kind, parts, i⟩ :: above) 0 parts <;> rfl

/-- The search for the next token that moves from place to place: it ends where there is no next
place, or where the next place is a token, and otherwise goes on from there. -/
inductive Search : Cursor → Option Cursor → Prop where
  | missing {c : Cursor} : c.next? = none → Search c none
  | found {c d : Cursor} : c.next? = some d → d.isLeaf = true → Search c (some d)
  | onward {c d : Cursor} {result : Option Cursor} :
      c.next? = some d → d.isLeaf = false → Search d result → Search c result

theorem Search.eq_find? {c : Cursor} {result : Option Cursor} (h : c.Search result) :
    result = c.later.find? isLeaf := by
  induction h with
  | missing last => rw [later_eq, last]; rfl
  | found next leaf => rw [later_of_next?_eq_some next, List.find?_cons_of_pos leaf]
  | onward next inner _ ih =>
    rw [later_of_next?_eq_some next, List.find?_cons_of_neg (Bool.eq_false_iff.mp inner), ih]

theorem search_find? (c : Cursor) : c.Search (c.later.find? isLeaf) := by
  -- there is one place less to come after every move
  induction hl : c.later generalizing c with
  | nil =>
    refine .missing ?_
    rw [next?_eq_head?, hl]
    rfl
  | cons d ds ih =>
    have next : c.next? = some d := by
      rw [next?_eq_head?, hl]
      rfl
    have rest : d.later = ds := (List.cons.inj ((later_of_next?_eq_some next).symm.trans hl)).2
    cases leaf : d.isLeaf with
    | true =>
      rw [List.find?_cons_of_pos leaf]
      exact .found next leaf
    | false =>
      rw [List.find?_cons_of_neg (Bool.eq_false_iff.mp leaf)]
      exact .onward next leaf (ih d rest)

/-- The search ends, and what it finds is the next token. -/
theorem search_iff (c : Cursor) (result : Option Cursor) :
    c.Search result ↔ result = c.nextLeaf? := by
  rw [nextLeaf?_eq]
  constructor
  · exact Search.eq_find?
  · rintro rfl
    exact search_find? c

/-! ### The list of all places -/

theorem placesOfParts_split {ts : List Tree} {j : Nat} {t : Tree} (place : Nat → List Ancestor)
    (i : Nat) (h : ts[j]? = some t) :
    ∃ earlier, Tree.placesOfParts place i ts =
      earlier ++ (t.placesFrom (place (i + j)) ++
        Tree.placesOfParts place (i + j + 1) (ts.drop (j + 1))) := by
  induction ts generalizing i j with
  | nil => cases h
  | cons u us ih =>
    cases j with
    | zero =>
      obtain rfl := Option.some.inj h
      exact ⟨[], rfl⟩
    | succ j =>
      obtain ⟨earlier, split⟩ := ih (i + 1) h
      refine ⟨u.placesFrom (place i) ++ earlier, ?_⟩
      rw [Tree.placesOfParts, split, List.append_assoc, show i + (j + 1) = i + 1 + j by omega]
      rfl

/-- What comes after a place in the list of all places of the tree. -/
theorem Within.exists_split {t : Tree} {c : Cursor} (h : (root t).Within c) :
    ∃ before, t.places = before ++ c :: c.later := by
  induction h with
  | here =>
    refine ⟨[], ?_⟩
    change t.placesFrom [] = root t :: ((root t).placesBelow ++ [])
    rw [List.append_nil, ← placesFrom_eq]
    rfl
  | @part kind parts above i u _ hu ih =>
    obtain ⟨before, split⟩ := ih
    obtain ⟨earlier, split'⟩ := placesOfParts_split (fun i => ⟨kind, parts, i⟩ :: above) 0 hu
    rw [Nat.zero_add, placesFrom_eq ⟨u, _⟩] at split'
    refine ⟨before ++ ⟨.node kind parts, above⟩ :: earlier, ?_⟩
    change t.places =
      before ++ ⟨.node kind parts, above⟩ :: (Tree.placesOfParts _ 0 parts ++ _) at split
    rw [split, split']
    simp [later, placesAfter]

theorem Within.isSuffix {start c : Cursor} (h : start.Within c) : start.above <:+ c.above := by
  induction h with
  | here => exact List.suffix_rfl
  | part _ _ ih => exact ih.trans (List.suffix_cons _ _)

end Cursor

namespace Tree

theorem isSuffix_of_mem_placesFrom {above : List Ancestor} {t : Tree} {c : Cursor}
    (h : c ∈ t.placesFrom above) : above <:+ c.above :=
  (Cursor.mem_placesFrom_iff.mp h).isSuffix

/-- A place in a part of a construct has one more construct around it, and that one says in which
part it is. -/
theorem nodup_placesOfParts {kind : NodeKind} {parts : List Tree} {above : List Ancestor}
    {ts : List Tree} (each : ∀ t ∈ ts, ∀ above, (t.placesFrom above).Nodup) (i : Nat) :
    (placesOfParts (fun i => ⟨kind, parts, i⟩ :: above) i ts).Nodup := by
  induction ts generalizing i with
  | nil => exact List.nodup_nil
  | cons t ts ih =>
    refine List.nodup_append'.mpr ⟨each t List.mem_cons_self _,
      ih (fun u hu => each u (List.mem_cons_of_mem _ hu)) (i + 1), fun c here there => ?_⟩
    obtain ⟨j, u, -, there⟩ := mem_placesOfParts.mp there
    have same := (List.suffix_of_suffix_length_le (isSuffix_of_mem_placesFrom here)
      (isSuffix_of_mem_placesFrom there) (Nat.le_refl _)).eq_of_length rfl
    have index : i = i + 1 + j := congrArg Ancestor.index (List.cons.inj same).1
    omega

/-- In the list of all places no place comes twice. -/
theorem nodup_placesFrom (t : Tree) (above : List Ancestor) : (t.placesFrom above).Nodup := by
  induction t using Tree.parts_induction generalizing above with
  | leaf token => exact List.nodup_singleton _
  | node kind parts ih =>
    refine List.nodup_cons.mpr ⟨fun inside => ?_, nodup_placesOfParts ih 0⟩
    obtain ⟨j, u, -, inside⟩ := mem_placesOfParts.mp inside
    exact Nat.not_succ_le_self _ (isSuffix_of_mem_placesFrom inside).length_le

/-- The tokens of a tree as places, in document order. -/
def leaves (t : Tree) : List Cursor := t.places.filter Cursor.isLeaf

/-! ### Trees in which dots begin trailers -/

/-- The first token of the tree is the operator `sign`. -/
def beginsWith (sign : String) (t : Tree) : Bool :=
  t.tokens.head?.any fun token => (leaf token).isOperator sign

/-- The tree is a construct whose first part is a token. -/
def opensWithToken (t : Tree) : Bool := t.children?.any fun parts => parts.head?.any isLeaf

theorem exists_of_opensWithToken {t : Tree} (h : t.opensWithToken = true) :
    ∃ kind token rest, t = .node kind (.leaf token :: rest) := by
  cases t with
  | leaf token => cases h
  | node kind parts =>
    cases parts with
    | nil => cases h
    | cons first rest =>
      cases first with
      | leaf token => exact ⟨kind, token, rest, rfl⟩
      | node => cases h

/-- Every construct has parts, the first part of every trailer is a token, and no other construct
begins with a dot. -/
structure DotsBeginTrailers (t : Tree) : Prop where
  full : t.HasNoEmptyConstruct
  trailers : ∀ c ∈ t.places, c.isKind .trailer = true → c.tree.opensWithToken = true
  others : ∀ c ∈ t.places, c.isLeaf = false → c.isKind .trailer = false →
    c.tree.beginsWith "." = false

/-- All operators of the tree are tokens. -/
def OperatorsAreTokens (t : Tree) : Prop :=
  ∀ c ∈ t.places, c.isKind .operator = true → c.isLeaf = true

theorem HasNoEmptyConstruct.tokens_ne_nil {t u : Tree} (full : t.HasNoEmptyConstruct)
    (has : t.Has u) : u.tokens ≠ [] := by
  obtain ⟨first, _, reaches⟩ := exists_reaches fun v hv => full.of_has (has.trans hv)
  exact List.ne_nil_of_mem reaches.first_mem

theorem reads_leaf (token : Token) (sign : String) :
    (leaf token).reads .operator sign = .ok ((leaf token).isOperator sign) := by
  by_cases operator : token.kind = .operator
  · simp [reads, isKind, kind, isOperator, operator, text, text?]
  · simp [reads, isKind, kind, isOperator, operator]

end Tree

namespace Cursor

section Qualifiers

variable {t : Tree} {c d : Cursor}

/-- In a tree without empty constructs the next token is the first one of what comes next. -/
theorem followedBy_eq (full : t.HasNoEmptyConstruct) (within : (root t).Within c) (sign : String) :
    Syntactic.followedBy sign c = c.next?.any fun d => d.tree.beginsWith sign := by
  rw [Syntactic.followedBy, nextLeaf?_eq]
  cases next : c.next? with
  | none => rw [later_eq, next]; rfl
  | some d =>
    have tokens : ∀ u, d.tree.Has u → u.tokens ≠ [] := fun u hu =>
      full.tokens_ne_nil ((Tree.Has.of_within (within.next? next)).trans hu)
    obtain ⟨token, around, first, head⟩ := exists_firstLeaf tokens d.above
    rw [later_of_next?_eq_some next, later, ← List.cons_append, ← placesFrom_eq, List.find?_append,
      ← firstLeaf?_eq, first]
    simp [Tree.beginsWith, head]

theorem isQualifier_of_trailer {token : Token} {rest : List Tree} {above : List Ancestor}
    (next : c.next? = some ⟨.node .trailer (.leaf token :: rest), above⟩) :
    c.isQualifier = .ok ((Tree.leaf token).isOperator ".") := by
  rw [isQualifier, next]
  exact Tree.reads_leaf token "."

theorem isQualifier_of_other (next : c.next? = some d) (other : d.isKind .trailer = false) :
    c.isQualifier = d.tree.reads .operator "." := by
  rw [isQualifier, next]
  simp [other]

/-- The semantic indexer's test gives the answer of the syntactic one, unless it is asked for the
text of a construct. -/
theorem isQualifier_cases (dots : t.DotsBeginTrailers) (within : (root t).Within c) :
    c.isQualifier = .ok (Syntactic.followedBy "." c) ∨
      c.isQualifier = .error (.lacking "value") ∧ Syntactic.followedBy "." c = false ∧
        ∃ d ∈ t.places, d.isKind .operator = true ∧ d.isLeaf = false := by
  rw [followedBy_eq dots.full within]
  cases next : c.next? with
  | none => exact .inl (by rw [isQualifier, next]; rfl)
  | some d =>
    have place : d ∈ t.places := mem_placesFrom_iff.mpr (within.next? next)
    rw [Option.any_some]
    obtain ⟨u, above⟩ := d
    cases isTrailer : isKind .trailer ⟨u, above⟩ with
    | true =>
      have opens := dots.trailers _ place isTrailer
      obtain ⟨kind, token, rest, rfl⟩ := Tree.exists_of_opensWithToken opens
      obtain rfl : kind = .trailer := of_decide_eq_true isTrailer
      exact .inl (isQualifier_of_trailer next)
    | false =>
      rw [isQualifier_of_other next isTrailer]
      cases u with
      | leaf token => exact .inl (Tree.reads_leaf token ".")
      | node kind parts =>
        rw [dots.others _ place rfl isTrailer]
        by_cases operator : kind = .operator
        · refine .inr ⟨?_, rfl, _, place, decide_eq_true operator, rfl⟩
          simp [Tree.reads, Tree.isKind, Tree.kind, operator, Tree.text, Tree.text?]
        · refine .inl ?_
          simp [Tree.reads, Tree.isKind, Tree.kind, operator]

end Qualifiers

end Cursor

/-- **Cursors move in document order.** Every place of a tree comes once in the list of all places,
which has a construct before its parts and the parts one after the other. The next place of a cursor
is the one that comes next in the list, and there is none just at the last place. The search that
moves to the next place until it is at a token always ends; what it finds is the next token, the
first one that comes later in the list, and at a token this is the token that comes next among all
tokens. Where every construct has parts, every trailer begins with a token and no other construct
begins with a dot, the semantic indexer takes a name for a qualifier if and only if the next token
is a dot, which is the test of the syntactic indexer; and it always has an answer if no construct is
taken for an operator. -/
theorem next_places_in_document_order (t : Tree) (c : Cursor) (within : (Cursor.root t).Within c) :
    ∃ before after, t.places = before ++ c :: after ∧ c ∉ before ∧ c ∉ after ∧
      c.next? = after.head? ∧ (c.next? = none ↔ t.places.getLast? = some c) ∧
      (∀ result, c.Search result ↔ result = c.nextLeaf?) ∧
      c.nextLeaf? = after.find? Cursor.isLeaf ∧
      (c.isLeaf = true → ∃ earlier later, t.leaves = earlier ++ c :: later ∧
        c.nextLeaf? = later.head?) ∧
      (t.DotsBeginTrailers →
        (c.isQualifier = .ok true ↔ Syntactic.followedBy "." c = true) ∧
        (t.OperatorsAreTokens → c.isQualifier = .ok (Syntactic.followedBy "." c))) := by
  obtain ⟨before, split⟩ := within.exists_split
  have distinct : (before ++ c :: c.later).Nodup := split ▸ t.nodup_placesFrom []
  obtain ⟨new, -⟩ := List.nodup_cons.mp (List.nodup_middle.mp distinct)
  rw [List.mem_append, not_or] at new
  refine ⟨before, c.later, split, new.1, new.2, c.next?_eq_head?, ?_, c.search_iff,
    c.nextLeaf?_eq, fun isLeaf => ?_, fun dots => ⟨?_, fun tokens => ?_⟩⟩
  · rw [c.next?_eq_head?, List.head?_eq_none_iff, split,
      List.getLast?_append_of_ne_nil _ (List.cons_ne_nil _ _)]
    cases more : c.later with
    | nil => exact iff_of_true rfl rfl
    | cons d ds =>
      rw [List.getLast?_cons_cons]
      exact iff_of_false (List.cons_ne_nil _ _) fun last => new.2 (more ▸ List.mem_of_getLast? last)
  · refine ⟨before.filter Cursor.isLeaf, c.later.filter Cursor.isLeaf, ?_, ?_⟩
    · rw [Tree.leaves, split, List.filter_append, List.filter_cons_of_pos isLeaf]
    · rw [c.nextLeaf?_eq, List.head?_filter]
  · rcases Cursor.isQualifier_cases dots within with answer | ⟨fault, no, -⟩
    · rw [answer, Except.ok.injEq]
    · rw [fault, no]
      simp
  · rcases Cursor.isQualifier_cases dots within with answer | ⟨-, -, d, place, operator, inner⟩
    · exact answer
    · rw [tokens d place operator] at inner
      cases inner

-- on the way to the next token the search goes down into empty constructs and up out of them
example (token : Token) :
    (Cursor.root (.node .suite [.node .atom [.node .trailer []], .node .atom [],
      .leaf token])).nextLeaf?.map Cursor.path = some [2] := rfl

/-- A module with an attribute of a name. -/
def attributeOfName : Tree :=
  .node (.other "file_input")
    [.node .atomExpr
      [.tokenAt .name "a" 1 0, .node .trailer [.tokenAt .operator "." 1 1, .tokenAt .name "b" 1 2]],
      .tokenAt .endmarker "" 1 3]

/-- The name is a qualifier: its trailer comes next, and the dot is the next token. -/
theorem name_before_attribute_is_qualifier :
    ∃ c, (Cursor.root attributeOfName).descend? [0, 0] = some c ∧
      (Cursor.root attributeOfName).Within c ∧ attributeOfName.DotsBeginTrailers ∧
      attributeOfName.OperatorsAreTokens ∧ c.isLeaf = true ∧
      (∃ before after, attributeOfName.places = before ++ c :: after ∧ c.next? = after.head? ∧
        c.nextLeaf? = after.find? Cursor.isLeaf) ∧
      c.next?.any (Cursor.isKind .trailer) = true ∧ Syntactic.followedBy "." c = true ∧
      c.isQualifier = .ok true := by
  obtain ⟨c, found, within⟩ :
      ∃ c, (Cursor.root attributeOfName).descend? [0, 0] = some c ∧
        (Cursor.root attributeOfName).Within c :=
    ⟨_, rfl, .part (.part .here rfl) rfl⟩
  obtain rfl := Option.some.inj found
  have dots : attributeOfName.DotsBeginTrailers := ⟨by decide, by decide, by decide⟩
  have operators : attributeOfName.OperatorsAreTokens := by unfold Tree.OperatorsAreTokens; decide
  obtain ⟨before, after, split, -, -, next, -, -, nextLeaf, -, qualifies⟩ :=
    next_places_in_document_order attributeOfName _ within
  exact ⟨_, rfl, within, dots, operators, rfl, ⟨before, after, split, next, nextLeaf⟩, rfl, rfl,
    (qualifies dots).2 operators⟩

end CodeIndex
