import CodeIndex.Proofs.Recorded.Syntactic

/-!
# The syntactic indexer locates every name once

The syntactic indexer visits part of a tree, `reached`, and has many ways to record a name. However
it does so, no name that it visits is lost and none is recorded twice: the calls in the log that
locate names are one group for each place that is reached, in document order. A definition has the
location of its name, a parameter that of its name, and a name that is no constant has one. Only a
field that is defined through the first parameter of a method has two, as the definition that it is
and as a use of it.

## What is proved

* `locates_of_records` — from the calls that are made for a place, those that locate names.
* `firstParameter_of_event` — inside a function a field is recorded only for an attribute of the
  first parameter of the method around it.
* `locations_cover_reached` — the locations in the log of a run that returns.
-/

namespace CodeIndex.Syntactic

open Indexing

/-- What the place belongs to begins with the first parameter of the method around it. -/
def OfFirstParameter (c : Cursor) : Prop :=
  ∃ m object, c.methodAround? = some m ∧ c.namedParent? = some object ∧
    m.beginsWithSelf object = true

/-- The calls that locate a name with the range `r`. -/
inductive NameLocated (c : Cursor) (r : SourceRange) : List Call → Prop where
  /-- There is one. Inside a function it does not say that a symbol is defined. -/
  | once (call : Call) (here : call.located? = some r)
      (use : c.definitionAround?.any (Cursor.isKind .funcdef) = true →
        ∀ i f extent, call ≠ .symbolLocation i f extent) : NameLocated c r [call]
  /-- A field is defined through the first parameter of a method. -/
  | field (i j f g : Value) (inside : c.definitionAround?.any (Cursor.isKind .funcdef) = true)
      (ofObject : isAttribute c = .ok true) (ofSelf : OfFirstParameter c) :
      NameLocated c r [.symbolLocation i f r, .referenceLocation j g r]

/-- The calls that locate names among those for a place. -/
def Locates (c : Cursor) (calls : List Call) : Prop :=
  match c.tree.kind with
  | .classdef | .funcdef =>
    ∃ name r i f, c.definedName = .ok name ∧ name.range = .ok r ∧ calls = [.symbolLocation i f r]
  | .param =>
    ∃ name r i f, c.parameterName = .ok name ∧ name.range = .ok r ∧ calls = [.localLocation i f r]
  | .name =>
    ∃ text r, c.tree.text = .ok text ∧ c.range = .ok r ∧
      if constantNames.contains text then calls = [] else NameLocated c r calls
  | _ => calls = []

/-! ### Places -/

theorem nameLocated_of_nameCalls {c : Cursor} {r : SourceRange} {xs : List Call}
    (h : NameCalls c r xs)
    (ofSelf : c.definitionAround?.any (Cursor.isKind .funcdef) = true →
      xs.any Call.makesField = true → OfFirstParameter c) :
    NameLocated c r (xs.filter Call.isLocation) := by
  cases h with
  | qualifier stored i f => exact .once (.qualifierLocation i f r) rfl (by simp)
  | unsolved context kind f => exact .once (.unsolvedReference context kind f r) rfl (by simp)
  | localVariable name i f => exact .once (.localLocation i f r) rfl (by simp)
  | lasting stored kind i f outside =>
    exact .once (.symbolLocation i f r) rfl fun inside => by simp [outside] at inside
  | field stored context kind i j f g ofObject inside =>
    exact .field i j f g inside ofObject (ofSelf inside rfl)

theorem locates_of_records {c : Cursor} {xs : List Call} (h : Records c xs)
    (ofSelf : c.tree.kind = .name → c.definitionAround?.any (Cursor.isKind .funcdef) = true →
      xs.any Call.makesField = true → OfFirstParameter c) :
    Locates c (xs.filter Call.isLocation) := by
  unfold Records at h
  unfold Locates
  cases kind : c.tree.kind with
  | classdef | funcdef =>
    rw [kind] at h
    obtain ⟨name, hname, r, whole, stored, k, i, f, g, hr, -, rfl⟩ := h
    exact ⟨name, r, i, f, hname, hr, rfl⟩
  | param =>
    rw [kind] at h
    obtain ⟨name, r, own, i, f, hname, hr, rfl⟩ := h
    exact ⟨name, r, i, f, hname, hr, rfl⟩
  | name =>
    rw [kind] at h
    obtain ⟨text, r, htext, hr, calls⟩ := h
    refine ⟨text, r, htext, hr, ?_⟩
    cases constant : constantNames.contains text with
    | true =>
      rw [if_pos constant] at calls
      rw [if_pos rfl, calls]
      rfl
    | false =>
      rw [if_neg (Bool.eq_false_iff.mp constant)] at calls
      rw [if_neg Bool.false_ne_true]
      exact nameLocated_of_nameCalls calls (ofSelf kind)
  | string =>
    rw [kind] at h
    obtain ⟨r, file, -, rfl⟩ := h
    cases spans : r.spansLines <;> rfl
  | errorLeaf =>
    rw [kind] at h
    obtain ⟨r, type, file, -, -, rfl⟩ := h
    rfl
  | _ =>
    rw [kind] at h
    obtain rfl : xs = [] := h
    rfl

/-- For a construct that has nothing done for it, there is nothing to locate. -/
theorem locates_of_isTransparent {c : Cursor} (h : isTransparent c.tree = true) :
    Locates c [] := by
  obtain ⟨t, above⟩ := c
  cases t with
  | leaf token => cases h
  | node kind parts =>
    simp only [isTransparent] at h
    split at h
    iterate 5 exact rfl
    cases h

/-! ### Fields -/

section Runs

variable {s : Setting} {t : Tree} {c : Client} {e : Event Client} {d : Cursor}

/-- What begins with the first parameter of the innermost context begins with that of the method
around the place. -/
theorem firstParameter_of_isSelf {outer contexts : List Context} {ds : List Cursor} {top : Context}
    (atModule : AtModuleLevel outer) (follows : Follows EnteredAs outer ds (top :: contexts))
    (inside : Inside (.root t) ds d) (self : isSelf top d = .ok true) : OfFirstParameter d := by
  obtain ⟨object, first, hobject, begins, selfName⟩ := isSelf_eq_true.mp self
  have isMethod : top.kind = .method := kind_of_selfName atModule follows selfName
  obtain ⟨m, K, ds, below, rest, rfl, rfl, isFunction, isClass, -, ofMethod⟩ :=
    method_of_kind atModule follows isMethod
  obtain ⟨method, -⟩ := isMethod_of_entered inside.1.outside isFunction isClass
  refine ⟨m, object, methodAround?_of_entered inside.1 method, hobject, ?_⟩
  simp [Cursor.beginsWithSelf, ← ofMethod, selfName, begins]

/-- Inside a function only a name that belongs to the first parameter is recorded as a field. -/
theorem firstParameter_of_event (completed : (walk s t).Completed c)
    (he : e ∈ (walk s t : Walk Client).events c.fresh) (hd : e.step.subject? = some d)
    (isName : d.tree.kind = .name)
    (inFunction : d.definitionAround?.any (Cursor.isKind .funcdef) = true)
    (makesField : e.made.any Call.makesField = true) : OfFirstParameter d := by
  obtain ⟨outer, ds, ds', atModule, shifts, follows⟩ := follows_events he
  cases hstep : e.step with
  | look d' =>
    rw [hstep] at hd shifts
    obtain rfl := Option.some.inj hd
    obtain ⟨top, rest, contexts, self⟩ :=
      (recordsField_of_look he hstep inFunction makesField).self
    rw [contexts] at follows
    exact firstParameter_of_isSelf atModule follows shifts.1 self
  | enter d' =>
    rw [hstep] at hd shifts
    obtain rfl := Option.some.inj hd
    rcases NodeKind.eq_of_isDefinition shifts.2.1 with kind | kind <;>
      cases kind.symm.trans isName
  | parameter d' =>
    have fits := fits_of_event completed he
    rw [hstep] at hd fits
    obtain rfl := Option.some.inj hd
    cases isName.symm.trans fits
  | _ =>
    rw [hstep] at hd
    cases hd

/-! ### Whole runs -/

/-- **Every name that is reached is located, and none twice.** In a tree whose definitions are
complete, the calls in the log of a run that returns that locate names are, one after the other, the
groups for the places that are reached, in document order: one call for the name of each definition
and of each parameter, and one with its range for each name that is no constant; only a field that
is defined through the first parameter of a method has two. -/
theorem locations_cover_reached (s : Setting) (t : Tree) (c : Client)
    (complete : DefinitionsComplete t) (ends : returned (index s t c.fresh) = true) :
    ∃ groups, (c.callsOf (index s t)).filter Call.isLocation = groups.flatten ∧
      List.Forall₂ Locates (reached t) groups := by
  rw [index_eq] at ends ⊢
  have completed := Walk.completed_of_returned ends
  obtain ⟨groups, calls, related⟩ := Walk.exists_groups (disciplined_actions s) (way_inside t)
    completed (Q := fun d xs => Locates d (xs.filter Call.isLocation)) fun e he d hd =>
      locates_of_records (records_of_event completed he hd)
        (firstParameter_of_event completed he hd)
  rw [show subjects (walk s t : Walk Client).steps = _ from
    subjects_steps_root complete completed.faultless] at related
  obtain ⟨all, same, related⟩ := exists_groups_of_filter
    (List.forall₂_map_right_iff.mpr related)
    fun d _ transparent => locates_of_isTransparent (by simpa using transparent)
  refine ⟨all, ?_, related⟩
  have noLocation : (((walk s t).begun c).map LogEntry.call).filter Call.isLocation = [] := by
    refine List.filter_eq_nil_iff.mpr fun call hcall => ?_
    have preliminary := completed.preliminary call hcall
    cases call with
    | symbolLocation | qualifierLocation | localLocation | referenceLocation
    | unsolvedReference => cases preliminary
    | _ => exact Bool.false_ne_true
  rw [calls, List.filter_append, noLocation, List.nil_append, List.filter_flatten, same]

/-- A class with a base class and a method. The method has a parameter with a default, and defines a
field by a call with a keyword argument. -/
def classWithCall : Tree :=
  .node (.other "file_input")
    [.node .classdef
      [.tokenAt .keyword "class" 1 0, .tokenAt .name "K" 1 6, .tokenAt .operator "(" 1 7,
        .tokenAt .name "B" 1 8, .tokenAt .operator ")" 1 9, .tokenAt .operator ":" 1 10,
        .node .suite
          [.node .funcdef
            [.tokenAt .keyword "def" 2 1, .tokenAt .name "m" 2 5,
              .node .parameters
                [.tokenAt .operator "(" 2 6,
                  .node .param [.tokenAt .name "self" 2 7, .tokenAt .operator "," 2 11],
                  .node .param
                    [.tokenAt .name "a" 2 13, .tokenAt .operator "=" 2 14, .tokenAt .name "b" 2 15],
                  .tokenAt .operator ")" 2 16],
              .tokenAt .operator ":" 2 17,
              .node .exprStmt
                [.node .atomExpr
                  [.tokenAt .name "self" 2 19,
                    .node .trailer [.tokenAt .operator "." 2 23, .tokenAt .name "f" 2 24]],
                  .tokenAt .operator "=" 2 26,
                  .node .atomExpr
                    [.tokenAt .name "g" 2 28,
                      .node .trailer
                        [.tokenAt .operator "(" 2 29,
                          .node .argument
                            [.tokenAt .name "k" 2 30, .tokenAt .operator "=" 2 31,
                              .tokenAt .name "None" 2 32],
                          .tokenAt .operator ")" 2 36]]]]]]]

/-- Not all places of that tree are reached. Of the ten locations in the log two are those of the
field. -/
theorem locations_in_classWithCall :
    let s : Setting := ⟨⟨"/w", virtualFile, []⟩, false⟩
    let c : Client := { database := {} }
    let locations := (c.callsOf (index s classWithCall)).filter Call.isLocation
    DefinitionsComplete classWithCall ∧ returned (index s classWithCall c.fresh) = true ∧
      classWithCall.places.length = 39 ∧ (reached classWithCall).length = 22 ∧
      locations.length = 10 ∧
      ∃ groups, locations = groups.flatten ∧
        List.Forall₂ Locates (reached classWithCall) groups := by
  intro s c locations
  have complete : DefinitionsComplete classWithCall := by decide
  have ends : returned (index s classWithCall c.fresh) = true := by decide +kernel
  exact ⟨complete, ends, by decide, by decide, by decide +kernel,
    locations_cover_reached s classWithCall c complete ends⟩

end Runs

end CodeIndex.Syntactic
