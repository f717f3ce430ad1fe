import CodeIndex.Proofs.Mentions

/-!
# The semantic indexer locates every name

The semantic indexer asks the resolver for the definitions of a name and records what each of them
says, by its kind. The answers may hold anything: entries that are missing, properties that cannot
be read, definitions that stand nowhere. Whatever they hold, the visit of a name ends without a
fault, and no name is lost: unless one of the definitions stands at the name itself, which is then
recorded as a definition, there is a location of the name, and it is one of something unknown just
if there is no other.

A fault that is met on the way ends the look at one definition only. One fault would come too late,
when the name is located already: the test for a call reads the brackets of the trailer behind the
name. So the trailers must be as a parser makes them, `TrailersBracketed`.

## What is proved

* `Within.next?` — the place after a place of a tree is a place of the tree.
* `isCall_eq_ok` — so the test for a call has an answer at every place.
* `InTurn.covered` — the definitions of a name in turn locate it or say that it is unknown.
* `names_are_located` — what the visit of a name logs.
-/

namespace CodeIndex

namespace Cursor

theorem Within.after? {root t : Tree} {above : List Ancestor} {d : Cursor}
    (h : Within ⟨root, []⟩ ⟨t, above⟩) (hd : after? above = some d) : Within ⟨root, []⟩ d := by
  induction above generalizing t with
  | nil => cases hd
  | cons a rest ih =>
    unfold Cursor.after? at hd
    split at hd
    · rename_i u hu
      obtain rfl := Option.some.inj hd
      exact .part h.parent.1 hu
    · exact ih h.parent.1 hd

/-- The place after a place of a tree is a place of the tree. -/
theorem Within.next? {root : Tree} {c d : Cursor} (h : Within ⟨root, []⟩ c)
    (hd : c.next? = some d) : Within ⟨root, []⟩ d := by
  obtain ⟨t, above⟩ := c
  unfold Cursor.next? at hd
  split at hd
  · rename_i same
    obtain rfl : t = _ := same
    obtain rfl := Option.some.inj hd
    exact .part h rfl
  · exact h.after? hd

end Cursor

/-! ### Trailers -/

/-- If the tree is a trailer, it is a construct that begins and ends with a token. -/
def Tree.isBracketed : Tree → Bool
  | .leaf token => token.kind ≠ .trailer
  | .node kind parts => kind ≠ .trailer || parts.head?.all isLeaf && parts.getLast?.all isLeaf

/-- All trailers of the tree are constructs that begin and end with a token. -/
def Tree.TrailersBracketed (t : Tree) : Prop := ∀ c ∈ t.places, c.tree.isBracketed = true

instance (t : Tree) : Decidable t.TrailersBracketed :=
  inferInstanceAs (Decidable (∀ c ∈ t.places, c.tree.isBracketed = true))

namespace Cursor

theorem inBrackets_eq_ok {parts : List Tree} (first : parts.head?.all Tree.isLeaf = true)
    (last : parts.getLast?.all Tree.isLeaf = true) : ∃ b, inBrackets parts = .ok b := by
  match parts with
  | [] | [_] => exact ⟨false, rfl⟩
  | t :: u :: rest =>
    obtain ⟨opening, hopening⟩ := Tree.text_of_isLeaf (t := t) (by simpa using first)
    obtain ⟨closing, hclosing⟩ := Tree.text_of_isLeaf
      (t := (u :: rest).getLast (by simp)) (by simpa [List.getLast?_eq_some_getLast] using last)
    simp only [inBrackets, hopening, hclosing]
    by_cases opens : opening = "("
    · exact ⟨_, if_pos opens⟩
    · exact ⟨false, if_neg opens⟩

/-- It can be told of every place whether it is called. -/
theorem isCall_eq_ok {t : Tree} (bracketed : t.TrailersBracketed) {c : Cursor}
    (place : c ∈ t.places) : ∃ b, c.isCall = .ok b := by
  unfold isCall
  split
  · exact ⟨false, rfl⟩
  · rename_i d hd
    have next := (mem_placesFrom_iff.mp place).next? hd
    have closed := bracketed d (mem_placesFrom_iff.mpr next)
    split
    · rename_i trailer
      obtain ⟨u, above⟩ := d
      cases u with
      | leaf token => simp_all [isKind, Tree.isKind, Tree.kind, Tree.isBracketed]
      | node kind parts =>
        obtain rfl : kind = .trailer := of_decide_eq_true trailer
        simp only [Tree.isBracketed, ne_eq, not_true_eq_false, decide_false, Bool.false_or,
          Bool.and_eq_true] at closed
        exact inBrackets_eq_ok closed.1 closed.2
    · exact ⟨false, rfl⟩

end Cursor

/-! ### Names -/

namespace Semantic.Setting

open Indexing

/-- What the calls `xs` for a name with the range `r` say, if one of its definitions stands at the
name itself, which is `here`, or none does. -/
structure NameLogged (here : Bool) (r : SourceRange) (xs : List Call) : Prop where
  /-- The name is located, unless it is the name of a definition. -/
  located : here = true ∨ ∃ x ∈ xs, x.located? = some r.extent
  /-- It refers to something unknown if nothing else is said about it. -/
  unsolved : (∃ x ∈ xs, x.isUnsolved = true) ↔
    here = false ∧ ∀ x ∈ xs, x.isLocation = true → x.isUnsolved = true
  /-- That is said only once. -/
  once : xs.countP Call.isUnsolved ≤ 1

/-- The calls for a name with the definitions `ds`, after other definitions of which one `settled`
what it is or none did: there is one reference to something unknown if none of the definitions
stands at the name and nothing else locates it, and otherwise there is none. -/
def Covered (ds : List (Option Definition)) (p : Position) (settled : Bool) (xs : List Call) :
    Prop :=
  xs.countP Call.isUnsolved =
    if settled || ds.any (·.any (·.isAt p)) || xs.any Call.isKnown then 0 else 1

theorem isLocation_of_isUnsolved {x : Call} (h : x.isUnsolved = true) : x.isLocation = true := by
  cases x with
  | unsolvedReference => rfl
  | _ => cases h

section Turns

variable {s : Setting} {x file : Value} {c : Cursor} {p : Position} {r : SourceRange}
  {d : Definition} {verdict : Verdict} {ds : List (Option Definition)} {settled called : Bool}
  {entries : List LogEntry} {ys : List Call}

/-- A name is located as something known just by the definitions that settle what it is. -/
theorem Judged.any_isKnown (told : c.isCall = .ok called)
    (h : Judged s x file c p r d verdict entries) :
    (entries.map LogEntry.call).any Call.isKnown = decide (verdict = .solved) := by
  have known : ∀ e ∈ entries, e.call.isKnown = e.call.isLocation := fun e he => by
    rw [Call.isKnown, (h.ofName e he).2, Bool.not_false, Bool.and_true]
  rw [List.any_map]
  cases verdict with
  | here => simp [h.eq_nil]
  | solved =>
    obtain ⟨e, he, located⟩ := h.exists_located
    refine List.any_eq_true.mpr ⟨e, he, ?_⟩
    rw [Function.comp_apply, known e he, Call.isLocation, located]
    rfl
  | unsolved =>
    refine List.any_eq_false.mpr fun e he => ?_
    rw [Function.comp_apply, known e he, Call.isLocation, h.located?_eq_none told e he]
    exact Bool.false_ne_true

/-- A definition that does not stand at the name, before the others. -/
theorem Covered.cons (told : c.isCall = .ok called)
    (first : Judged s x file c p r d verdict entries) (apart : verdict ≠ .here)
    (h : Covered ds p (settled || decide (verdict = .solved)) ys) :
    Covered (some d :: ds) p settled (entries.map LogEntry.call ++ ys) := by
  have solved : (entries.map LogEntry.call).countP Call.isUnsolved = 0 := by
    rw [List.countP_eq_zero, List.forall_mem_map]
    exact fun e he => Bool.eq_false_iff.mp (first.ofName e he).2
  unfold Covered at h ⊢
  rw [List.countP_append, solved, Nat.zero_add, h, List.any_append, first.any_isKnown told,
    List.any_cons, Option.any_some, Bool.eq_false_iff.mpr (mt first.isAt_iff.mp apart)]
  congr 2
  cases settled <;> cases decide (verdict = .solved) <;> simp

theorem InTurn.covered (told : c.isCall = .ok called)
    (h : InTurn (Judged s x file c p r) (UnknownEntries x file r) ds settled entries) :
    Covered ds p settled (entries.map LogEntry.call) := by
  induction h with
  | settled => simp [Covered]
  | unsettled h =>
    obtain ⟨v, rfl⟩ := h
    simp [Covered, Call.isKnown]
  | missing _ ih => simpa [Covered] using ih
  | here first => simp [Covered, first.eq_nil, first.isAt_iff.mpr rfl]
  | solved first _ ih =>
    rw [List.map_append]
    exact .cons told first (by simp) (by simpa using ih)
  | unsolved first _ ih =>
    rw [List.map_append]
    exact .cons told first (by simp) (by simpa using ih)

end Turns

theorem nameLogged_of_covered {ds : List (Option Definition)} {p : Position} {r : SourceRange}
    {xs : List Call} (ofName : ∀ x ∈ xs, OfName r x) (covered : Covered ds p false xs) :
    NameLogged (ds.any (·.any (·.isAt p))) r xs := by
  have locates : ∀ x ∈ xs, x.isLocation = true → x.located? = some r.extent := by
    intro x hx location
    rcases (ofName x hx).2 with none | some
    · rw [Call.isLocation, none] at location
      cases location
    · exact some
  unfold Covered at covered
  rw [Bool.false_or] at covered
  cases here : ds.any (·.any (·.isAt p)) with
  | true =>
    rw [here, Bool.true_or, if_pos rfl] at covered
    have none := List.countP_eq_zero.mp covered
    refine ⟨.inl rfl, ⟨?_, by simp⟩, by omega⟩
    rintro ⟨x, hx, unsolved⟩
    exact absurd unsolved (none x hx)
  | false =>
    rw [here, Bool.false_or] at covered
    cases known : xs.any Call.isKnown with
    | true =>
      rw [known, if_pos rfl] at covered
      have none := List.countP_eq_zero.mp covered
      obtain ⟨x, hx, isKnown⟩ := List.any_eq_true.mp known
      obtain ⟨location, solved⟩ := Bool.and_eq_true_iff.mp isKnown
      refine ⟨.inr ⟨x, hx, locates x hx location⟩, ⟨?_, ?_⟩, by omega⟩
      · rintro ⟨y, hy, unsolved⟩
        exact absurd unsolved (none y hy)
      · rintro ⟨-, only⟩
        rw [only x hx location] at solved
        cases solved
    | false =>
      rw [known, if_neg Bool.false_ne_true] at covered
      have unknown := List.any_eq_false.mp known
      obtain ⟨x, hx, unsolved⟩ := List.countP_pos_iff.mp (by omega : 0 < xs.countP Call.isUnsolved)
      refine ⟨.inr ⟨x, hx, locates x hx (isLocation_of_isUnsolved unsolved)⟩,
        ⟨fun _ => ⟨rfl, fun y hy location => ?_⟩, fun _ => ⟨x, hx, unsolved⟩⟩, by omega⟩
      have notKnown := unknown y hy
      rw [Call.isKnown, location, Bool.true_and] at notKnown
      simpa using notKnown

/-- **The visit of a name never fails and never loses it.** Wherever the name stands in a tree whose
trailers are bracketed, whatever the resolver answers and whatever has been recorded before, the
visit ends without a fault. Unless one of the definitions in the answer is that of a class or
function which stands at the name itself, there is a call that locates the name, and it is said just
once, and only if nothing else locates the name, that it refers to something unknown. For that there
has to be a context, and there is one at every step of every run. -/
theorem names_are_located (s : Setting) (t : Tree) (bracketed : t.TrailersBracketed) {c : Cursor}
    (place : c ∈ t.places) {token : Token} (leaf : c.tree = .leaf token)
    (isName : token.kind = .name) (noConstant : constantNames.contains token.text = false) :
    (∀ σ : Trace Client, σ.contexts ≠ [] → ∃ r τ xs, c.range = .ok r ∧
      s.visitSelf c σ = .ok () τ ∧ Made σ τ xs ∧
      NameLogged ((s.definitionsAt c s.source.path).any (·.any (·.isAt token.start))) r xs) ∧
    ∀ client : Client, ∀ e ∈ (s.walk t).events client.fresh, e.before.contexts ≠ [] := by
  obtain ⟨_, above⟩ := c
  subst leaf
  constructor
  · intro σ context
    obtain ⟨x, stands⟩ := Trace.exists_stands context
    obtain ⟨τ, entries, ran, adds, written⟩ := exists_nameEntries s above isName stands
    obtain ⟨called, told⟩ := Cursor.isCall_eq_ok bracketed place
    have ofName : ∀ x ∈ entries.map LogEntry.call, OfName (tokenRange token) x :=
      List.forall_mem_map.mpr written.ofName
    unfold NameEntries at written
    rw [if_neg (Bool.eq_false_iff.mp noConstant)] at written
    exact ⟨_, τ, _, rfl, ran, adds.made context,
      nameLogged_of_covered ofName (written.covered told)⟩
  · intro client e he
    exact Walk.contexts_ne_nil (disciplined_actions s) (way_inside t) he

/-- A call of a function and an attribute of the result. -/
def attributeOfCall : Tree :=
  .node .atomExpr
    [.tokenAt .name "f" 1 0,
      .node .trailer [.tokenAt .operator "(" 1 1, .tokenAt .operator ")" 1 2],
      .node .trailer [.tokenAt .operator "." 1 3, .tokenAt .name "g" 1 4]]

/-- A resolver that knows four things about the name of the function: nothing at all, something that
cannot be read, a class that is defined nowhere, and at last a function. -/
def hesitantResolver : Resolver where
  answers := [(⟨none, ⟨1, 0⟩⟩, .ok
    [none, some { kind := .error (.lacking "type") },
      some { kind := .ok (some "class"), line := .ok (some 2), column := .ok (some 0) },
      some { kind := .ok (some "function"), fullName := .ok (some "m.f") }])]

/-- The name of the function is located, once, and as something that is known. -/
theorem names_in_attributeOfCall :
    let s : Setting := ⟨⟨"/w", virtualFile, []⟩, 3, 7, "/stubs", hesitantResolver, false⟩
    let σ : Trace Client := finalState (s.begin ({ database := {} } : Client).fresh)
    let f : Token := { kind := .name, text := "f", start := ⟨1, 0⟩ }
    let c : Cursor := ⟨.leaf f, [⟨.atomExpr, attributeOfCall.children?.getD [], 0⟩]⟩
    let calls := (finalState (s.visitSelf c σ)).calls.map LogEntry.call
    attributeOfCall.TrailersBracketed ∧ c ∈ attributeOfCall.places ∧ σ.contexts ≠ [] ∧
      calls.countP Call.isKnown = 1 ∧ calls.countP Call.isUnsolved = 0 ∧
      ∃ r τ xs, c.range = .ok r ∧ s.visitSelf c σ = .ok () τ ∧ Made σ τ xs ∧
        NameLogged ((s.definitionsAt c s.source.path).any (·.any (·.isAt f.start))) r xs := by
  intro s σ f c calls
  have bracketed : attributeOfCall.TrailersBracketed := by decide
  have place : c ∈ attributeOfCall.places := List.mem_of_getElem? (i := 1) rfl
  have context : σ.contexts ≠ [] := by decide +kernel
  exact ⟨bracketed, place, context, by decide +kernel, by decide +kernel,
    (names_are_located s attributeOfCall bracketed place rfl rfl (by decide)).1 σ context⟩

end Semantic.Setting

end CodeIndex
