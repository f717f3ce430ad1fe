import CodeIndex.Proofs.ImposedKinds

/-!
# Names in the header of a class

The syntactic indexer imposes the kind of inheritance on what stands in the brackets after the name
of a class. It stays imposed for all that is found there: for the bases, but also for the values of
keyword arguments, the indices of subscripts and the arguments of calls. So all these names are
recorded as if the class inherited from them.

## What is proved

* `visitSelf_of_inheriting`, `inheriting_of_made` — for which names inheritance is recorded, given
  the imposed kinds.
* `inheritance_told_by_class_header` — every inheritance that is recorded is that of a name in the
  header of a class, and all names in the header of a class are recorded so.
-/

namespace CodeIndex

open Indexing

/-- The kind of the reference that the call records. -/
@[simp] def Call.referenceKind? : Call → Option ReferenceKind
  | .reference _ _ kind | .unsolvedReference _ kind _ _ => some kind
  | _ => none

theorem Call.exists_origin {call : Call} {kind : ReferenceKind}
    (refers : call.referenceKind? = some kind) : ∃ x, call.origin? = some x := by
  cases call with
  | reference context | unsolvedReference context => exact ⟨context, rfl⟩
  | _ => cases refers

namespace Syntactic

/-! ### Names -/

/-- The place is a name that is recorded by itself: it is not a constant and does not stand in front
of a dot. -/
structure IsBareName (d : Cursor) : Prop where
  isName : d.isName = true
  text : ∃ x, d.tree.text = .ok x ∧ x ∉ constantNames
  noQualifier : followedBy "." d = false

section Visits

variable {s : Setting} {d : Cursor} {σ : Trace Client}

/-- Inheritance is the innermost imposed kind. -/
def Inheriting (kinds : List ImposedKind) : Prop :=
  (kinds.map ImposedKind.kind).head? = some .inheritance

/-- A bare name under the kind of inheritance is recorded as a base. -/
theorem visitSelf_of_inheriting (bare : IsBareName d) (inheriting : Inheriting σ.kinds)
    (context : σ.contexts ≠ []) :
    visitSelf s d σ = (referToUnsolved .inheritance d : Indexing Client Unit) σ := by
  obtain ⟨x, text, noConstant⟩ := bare.text
  rw [visitSelf_of_isName bare.isName]
  change (if σ.contexts.isEmpty = true then pure () else _ : Indexing Client Unit) σ = _
  rw [if_neg (by simpa using context), text, lift_ok, pure_bind, if_neg (by simpa using noConstant),
    if_neg (by simp [bare.noQualifier]), bind_of_ok (imposedKind_of_decided ⟨inheriting, .inl rfl⟩)]

end Visits

/-! ### Runs -/

section Events

variable {s : Setting} {t : Tree} {c : Client} {e : Event Client} {d : Cursor}

/-- References are made for names only. -/
theorem looksAtName_of_reference (he : e ∈ (walk s t : Walk Client).events c.fresh) {call : Call}
    (made : call ∈ e.made) {kind : ReferenceKind} (refers : call.referenceKind? = some kind) :
    e.step.looksAtName := by
  obtain ⟨origin, hasOrigin⟩ := Call.exists_origin refers
  obtain ⟨_, ds, ds', -, shifts, -⟩ := follows_events he
  have keeps : (actions s : Actions Client).Keeps (attribution e.step.looksAtName) e.step :=
    (disciplined_actions s).keeps shifts fun looks _ _ _ isTop => ⟨looks, isTop⟩
  obtain ⟨held, after⟩ := Walk.after_eq he
  have after : e.after = finalState ((actions s).perform e.step held e.before) := after
  have final := ((Actions.outcome_perform keeps held (s := e.before) trivial).mono
    (fun _ _ effect => effect.calls) fun _ h => h.calls).final
  rw [← after] at final
  obtain ⟨more, calls, origins⟩ := final
  rw [Event.made, Event.calls_eq calls] at made
  obtain ⟨entry, hentry, rfl⟩ := List.mem_map.mp made
  exact (origins entry hentry origin hasOrigin).1

/-- The only names that are recorded as bases are bare names under the kind of inheritance. -/
theorem inheriting_of_visited (isName : d.tree.kind = .name)
    (visited : Visited s d e.before e.after) {call : Call} (made : call ∈ e.made)
    (inherits : call.referenceKind? = some .inheritance) :
    IsBareName d ∧ Inheriting e.before.kinds := by
  have others : ∀ {entries}, e.after.calls = e.before.calls ++ entries →
      ∀ {P : Prop}, (∀ entry ∈ entries, entry.call.referenceKind? ≠ some .inheritance) → P := by
    intro entries calls P none
    rw [Event.made, Event.calls_eq calls] at made
    obtain ⟨entry, hentry, rfl⟩ := List.mem_map.mp made
    exact absurd inherits (none entry hentry)
  have noBase : nameReference d ≠ .inheritance := by
    unfold nameReference
    split <;> decide
  cases visited with
  | @name x _ _ _ _ _ text range contexts occurs logged =>
    obtain ⟨entries, logged, calls⟩ := logged.entries
    cases occurs with
    | constant | qualifier => cases logged; exact others calls (by simp)
    | bare noConstant noQualifier taken =>
      cases taken with
      | @imposed kind decided =>
        by_cases base : kind = .inheritance
        · subst base
          exact ⟨⟨decide_eq_true isName, ⟨x, text, noConstant⟩, noQualifier⟩, decided.1⟩
        · cases logged; exact others calls (by simpa using base)
      | defined _ _ as => cases as <;> cases logged <;> exact others calls (by simp [noBase])
      | used _ _ as => cases as <;> cases logged <;> exact others calls (by simp [noBase])
  | string isString => cases isName.symm.trans isString
  | errorLeaf isError => cases isName.symm.trans isError
  | other noName => exact absurd isName noName

/-- Inheritance is recorded for bare names under the kind of inheritance. -/
theorem inheriting_of_made (he : e ∈ (walk s t : Walk Client).events c.fresh) {call : Call}
    (made : call ∈ e.made) (inherits : call.referenceKind? = some .inheritance) :
    ∃ d, e.step = .look d ∧ IsBareName d ∧ Inheriting e.before.kinds := by
  have looksAtName := looksAtName_of_reference he made inherits
  cases looks : e.step with
  | look d =>
    rw [looks] at looksAtName
    rcases visited_of_look he looks with visited | nothing
    · exact ⟨d, rfl, inheriting_of_visited (of_decide_eq_true looksAtName.1) visited made inherits⟩
    · rw [Event.made, nothing] at made
      cases made
  | _ =>
    rw [looks] at looksAtName
    exact looksAtName.elim

/-- What is logged for a bare name under the kind of inheritance. -/
theorem made_of_inheriting (he : e ∈ (walk s t : Walk Client).events c.fresh)
    (looks : e.step = .look d) (bare : IsBareName d) (inheriting : Inheriting e.before.kinds) :
    ∃ context file r, d.range = .ok r ∧ e.before.IsTop context ∧
      e.made = [.unsolvedReference context .inheritance file r] := by
  obtain ⟨_, _, _, atModule, -, follows⟩ := follows_events he
  obtain ⟨top, rest, contexts⟩ := exists_top atModule follows
  obtain ⟨x, text, -⟩ := bare.text
  obtain ⟨r, range⟩ := range_of_text text
  have isTop : e.before.IsTop top.id := ⟨top, rest, contexts, rfl⟩
  have visited := visitSelf_of_inheriting (s := s) bare inheriting (by simp [contexts])
  obtain ⟨v, calls⟩ :=
    (writes_referToUnsolved .inheritance range).look he looks ⟨isTop, rfl⟩ visited
  refine ⟨top.id, e.before.recorder.file, r, range, isTop, ?_⟩
  rw [Event.made, calls]
  rfl

end Events

/-- The log of a run is made up of what is logged at the beginning and at the events. -/
theorem mem_callsOf_index {s : Setting} {t : Tree} {c : Client} {call : Call} :
    call ∈ c.callsOf (index s t) ↔ call ∈ ((walk s t).begun c).map LogEntry.call ∨
      ∃ e ∈ (walk s t).events c.fresh, call ∈ e.made := by
  rw [index_eq, Client.callsOf, Walk.calls_carryOut (disciplined_actions s) (way_inside t),
    List.append_assoc, List.drop_left, List.map_append, List.mem_append, List.map_flatMap,
    List.mem_flatMap]
  rfl

/-- **Inheritance is told by the header of a class.** In every run every reference of the kind of
inheritance is made for a name of the tree in the header of a class. The name is no constant and
stands in front of no dot. And all such names in the header that are looked at are recorded so,
whatever keyword argument, subscript or call they are in. -/
theorem inheritance_told_by_class_header (s : Setting) (t : Tree) (client : Client) :
    (index s t : Indexing Client Unit) = (walk s t).carryOut ∧
      (∀ call ∈ client.callsOf (index s t), call.referenceKind? = some .inheritance →
        ∃ d context file r, (Cursor.root t).Within d ∧ IsBareName d ∧ d.range = .ok r ∧
          call = .unsolvedReference context .inheritance file r ∧ ∃ a ∈ d.above, a.IsHeader) ∧
      ∀ e ∈ (walk s t).events client.fresh, ∀ d, e.step = .look d → IsBareName d →
        InPlainHeader d → ∃ context file r, d.range = .ok r ∧ e.before.IsTop context ∧
          e.made = [.unsolvedReference context .inheritance file r] ∧
          .unsolvedReference context .inheritance file r ∈ client.callsOf (index s t) := by
  refine ⟨index_eq s t, fun call logged inherits => ?_, fun e he d looks bare header => ?_⟩
  · rcases mem_callsOf_index.mp logged with begun | ⟨e, he, made⟩
    · -- no reference is made at the beginning
      obtain ⟨x, origin⟩ := Call.exists_origin inherits
      obtain ⟨entry, hentry, rfl⟩ := List.mem_map.mp begun
      cases origin.symm.trans (((walk s t).calls_begun client).2 entry hentry)
    · obtain ⟨d, looks, bare, inheriting⟩ := inheriting_of_made he made inherits
      obtain ⟨context, file, r, range, -, single⟩ := made_of_inheriting he looks bare inheriting
      rw [single] at made
      obtain ⟨_, _, _, -, shifts, -⟩ := follows_events he
      rw [looks] at shifts
      exact ⟨d, context, file, r, shifts.1.2, bare, range, List.mem_singleton.mp made,
        (imposedAt_of_look he looks).exists_header (List.mem_of_head? inheriting)⟩
  · have inheriting : Inheriting e.before.kinds := header.head? (imposedAt_of_look he looks)
    obtain ⟨context, file, r, range, isTop, made⟩ := made_of_inheriting he looks bare inheriting
    refine ⟨context, file, r, range, isTop, made, mem_callsOf_index.mpr (.inr ⟨e, he, ?_⟩)⟩
    rw [made]
    exact List.mem_singleton_self _

/-- A class with the given tree in the brackets after its name. -/
def classWithHeader (header : Tree) : Tree :=
  .node (.other "file_input")
    [.node .classdef
      [.tokenAt .keyword "class" 1 0, .tokenAt .name "A" 1 6, .tokenAt .operator "(" 1 7, header,
        .tokenAt .operator ")" 1 20, .tokenAt .operator ":" 1 21, .tokenAt .keyword "pass" 1 23]]

/-- A name in the brackets is recorded as a base. -/
theorem name_in_brackets_inherited :
    let s : Setting := ⟨⟨"/w", "/w/m.py", ["/w"]⟩, false⟩
    let t := classWithHeader (.tokenAt .name "B" 1 8)
    let client : Client := { database := {} }
    ∃ e ∈ (walk s t).events client.fresh, ∃ d, e.step = .look d ∧ IsBareName d ∧ InPlainHeader d ∧
      ∃ context file r, d.range = .ok r ∧
        .unsolvedReference context .inheritance file r ∈ client.callsOf (index s t) := by
  intro s t client
  have exists_base : (((walk s t).events client.fresh).any fun e => e.step.looked?.any fun d =>
      decide (d.isName = true ∧ d.tree.text = .ok "B" ∧ followedBy "." d = false) &&
        d.above.head?.any fun a => decide (a.kind = .classdef ∧
          basesIndex? a.children = .ok (some a.index) ∧ a.index + 1 < a.children.length ∧
          a.children[a.index]?.any (Tree.isKind .param) = false)) = true := by
    decide +kernel
  obtain ⟨e, he, found⟩ := List.any_eq_true.mp exists_base
  obtain ⟨d, looked, found⟩ := (Option.any_eq_true _ _).mp found
  obtain ⟨isBase, found⟩ := Bool.and_eq_true_iff.mp found
  obtain ⟨a, inClass, found⟩ := (Option.any_eq_true _ _).mp found
  obtain ⟨isName, text, noQualifier⟩ := of_decide_eq_true isBase
  obtain ⟨isClass, bases, noBody, noParameter⟩ := of_decide_eq_true found
  have looks : e.step = .look d := Step.eq_look looked
  have bare : IsBareName d := ⟨isName, ⟨"B", text, by decide⟩, noQualifier⟩
  have header : InPlainHeader d :=
    ⟨[], a, d.above.tail, List.eq_cons_of_mem_head? inClass, ⟨isClass, bases⟩, noBody,
      noParameter, by simp⟩
  obtain ⟨-, -, inherited⟩ := inheritance_told_by_class_header s t client
  obtain ⟨context, file, r, range, -, -, logged⟩ := inherited e he d looks bare header
  exact ⟨e, he, d, looks, bare, header, context, file, r, range, logged⟩

/-- The columns of the names that are recorded as bases of the class. -/
def baseColumns (header : Tree) : List Value :=
  let s : Setting := ⟨⟨"/w", "/w/m.py", ["/w"]⟩, false⟩
  let calls := ({ database := {} } : Client).callsOf (index s (classWithHeader header))
  calls.filterMap fun call =>
    if call.referenceKind? = some .inheritance then call.located?.map Extent.startColumn else none

/-- The value of a keyword argument, the index of a subscript and the argument of a call are
recorded as bases. -/
theorem arguments_recorded_as_bases :
    baseColumns (.node .argument
      [.tokenAt .name "metaclass" 1 8, .tokenAt .operator "=" 1 17,
        .tokenAt .name "M" 1 18]) = [.number 19] ∧
    baseColumns (.node .atomExpr
      [.tokenAt .name "B" 1 8, .node .trailer
        [.tokenAt .operator "[" 1 9, .tokenAt .name "T" 1 10, .tokenAt .operator "]" 1 11]]) =
      [.number 9, .number 11] ∧
    baseColumns (.node .atomExpr
      [.tokenAt .name "f" 1 8, .node .trailer
        [.tokenAt .operator "(" 1 9, .tokenAt .name "x" 1 10, .tokenAt .operator ")" 1 11]]) =
      [.number 9, .number 11] := by
  decide +kernel

end Syntactic

end CodeIndex
