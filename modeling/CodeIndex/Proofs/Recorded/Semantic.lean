import CodeIndex.Proofs.Mentions

/-!
# What the semantic indexer records for each place

The calls that the semantic indexer makes for a place, by the kind of the place: those for a name,
the reports of names in an import statement that have not been found, and what both indexers log
alike.

## What is proved

* `writesEach_checkImports` — what is reported of an import statement.
* `writes_visitSelf` — what is logged for a place that is not a definition, also before a fault.
* `records_of_event` — the calls at the events of a run that returns, by the kind of the place.
-/

namespace CodeIndex

namespace Semantic.Setting

open Indexing

/-! ### Imports -/

/-- The call reports a part of the tree, as an imported name that has not been found. -/
def ReportsIn (t : Tree) (call : Call) : Prop :=
  ∃ u name file r, t.Has u ∧ u.range = .ok r ∧ call = .error
    (.text ("Imported symbol named \"" ++ name ++ "\" has not been found.")) (.flag false) file
    r.extent

theorem ReportsIn.widen {t u : Tree} {call : Call} (h : ReportsIn u call) (has : t.Has u) :
    ReportsIn t call := by
  obtain ⟨v, name, file, r, part, hr, rfl⟩ := h
  exact ⟨v, name, file, r, has.trans part, hr, rfl⟩

theorem writesEach_checkName (s : Setting) (t : Tree) :
    WritesEach (ReportsIn t) (s.checkName t) := by
  unfold checkName
  split
  · exact .liftBind fun name _ => .liftBind fun r hr =>
      .bind (.note (fun _ => rfl) fun file => ⟨t, name, file, r, .self t, hr, rfl⟩) fun _ => .pure _
  · exact .pure _

section Imports

variable {s : Setting} {P : Call → Prop} {ts : List Tree}
  (each : ∀ t ∈ ts, WritesEach P (s.checkImports t))
include each

theorem writesEach_checkImportsInTurn : WritesEach P (s.checkImportsInTurn ts) := by
  induction ts with
  | nil => exact .pure _
  | cons t ts ih =>
    refine .bind (each t List.mem_cons_self) fun found => ?_
    split
    · exact ih fun u hu => each u (List.mem_cons_of_mem _ hu)
    · exact .pure _

theorem writesEach_checkAllImports : WritesEach P (s.checkAllImports ts) := by
  induction ts with
  | nil => exact .pure _
  | cons t ts ih =>
    exact .bind (each t List.mem_cons_self) fun _ =>
      ih fun u hu => each u (List.mem_cons_of_mem _ hu)

theorem writesEach_checkImportsToKeyword : WritesEach P (s.checkImportsToKeyword ts) := by
  induction ts with
  | nil => exact .pure _
  | cons t ts ih =>
    unfold checkImportsToKeyword
    split
    · exact .pure _
    · exact .bind (each t List.mem_cons_self) fun _ =>
        ih fun u hu => each u (List.mem_cons_of_mem _ hu)

end Imports

/-- Only parts of an import statement are reported. -/
theorem writesEach_checkImports (s : Setting) (t : Tree) :
    WritesEach (ReportsIn t) (s.checkImports t) := by
  induction t using Tree.parts_induction with
  | leaf token =>
    unfold checkImports
    split
    · exact writesEach_checkName s _
    iterate 7 exact .throw _
    · exact .pure _
  | node kind parts ih =>
    have each : ∀ t ∈ parts, WritesEach (ReportsIn (.node kind parts)) (s.checkImports t) :=
      fun t ht => (ih t ht).mono fun _ reports => reports.widen (.part ht (.self _))
    unfold checkImports
    split
    · exact writesEach_checkName s _
    · exact writesEach_checkImportsInTurn each
    · exact writesEach_checkImportsInTurn each
    iterate 3 exact .bind (writesEach_checkAllImports each) fun _ => .pure _
    iterate 2 exact .bind (writesEach_checkImportsToKeyword each) fun _ => .pure _
    · exact .pure _

/-! ### Places -/

/-- The entries for a place that is not a definition, by what it is. -/
inductive PlaceEntries (s : Setting) (x file : Value) (c : Cursor) (entries : List LogEntry) : Prop
  | name {token : Token} {above : List Ancestor} (leaf : c = ⟨.leaf token, above⟩)
      (isKind : c.tree.kind = .name) (written : NameEntries s x file token above entries)
  | imports (isKind : c.tree.kind = .importFrom ∨ c.tree.kind = .importName)
      (reports : ∀ e ∈ entries, ReportsIn c.tree e.call)
  | string (isKind : c.tree.kind = .string) (calls : StringCalls c (entries.map LogEntry.call))
  | errorLeaf (isKind : c.tree.kind = .errorLeaf)
      (calls : ErrorCalls c (entries.map LogEntry.call))
  | other (apart : c.tree.kind ∉ [.classdef, .funcdef, .importFrom, .importName, .name, .string,
      .errorLeaf]) (nothing : entries = [])

/-- What is logged for a place that is not a definition. Before a fault there are only reports of
names that have not been found. -/
theorem writes_visitSelf {x file : Value} (s : Setting) {c : Cursor}
    (plain : c.tree.kind.isDefinition = false) :
    Writes x file (s.visitSelf c) (fun _ => PlaceEntries s x file c)
      fun entries => ∀ e ∈ entries, ReportsIn c.tree e.call := by
  have none : ∀ entries : List LogEntry, entries = [] → ∀ e ∈ entries, ReportsIn c.tree e.call := by
    rintro _ rfl
    simp
  unfold visitSelf
  cases kind : c.tree.kind with
  | classdef | funcdef =>
    rw [kind] at plain
    cases plain
  | importFrom | importName =>
    refine .bind ((writesEach_checkImports s c.tree x file).mono (fun _ entries reports => ?_)
      fun _ reports => reports)
    exact .pure (.imports (by simp [kind]) (by rwa [List.append_nil]))
  | name =>
    obtain ⟨t, above⟩ := c
    cases t with
    | leaf token =>
      exact (writes_visitName s token above).mono (fun _ _ written => .name rfl kind written)
        fun _ h => h.elim
    | node =>
      refine .getBind fun σ stands => ?_
      rw [if_neg (by simpa using stands.ne_nil)]
      exact .liftBind (fun _ _ => by simp) fun text isText => by cases isText
  | string => exact (writes_visitString c).mono (fun _ _ calls => .string kind calls) none
  | errorLeaf => exact (writes_visitErrorToken c).mono (fun _ _ calls => .errorLeaf kind calls) none
  | _ => exact .pure (.other (by simp [kind]) rfl)

/-- The calls for a place, by what it is. -/
def Records (c : Cursor) (xs : List Call) : Prop :=
  match c.tree.kind with
  | .classdef | .funcdef => ∃ name, c.firstName? = .ok name ∧ DefinitionCalls name c xs
  | .importFrom | .importName => ∀ x ∈ xs, ReportsIn c.tree x
  | .name => ∀ x ∈ xs, x.isStructural = false
  | .string => StringCalls c xs
  | .errorLeaf => ErrorCalls c xs
  | _ => xs = []

theorem PlaceEntries.records {s : Setting} {x file : Value} {c : Cursor} {entries : List LogEntry}
    (h : PlaceEntries s x file c entries) : Records c (entries.map LogEntry.call) := by
  unfold Records
  cases h with
  | name _ isKind written =>
    rw [isKind]
    exact List.forall_mem_map.mpr fun e he => (written.ofName e he).1
  | imports isKind reports =>
    rcases isKind with isKind | isKind <;> rw [isKind] <;> exact List.forall_mem_map.mpr reports
  | string isKind calls => rwa [isKind]
  | errorLeaf isKind calls => rwa [isKind]
  | other apart nothing =>
    subst nothing
    split <;> simp_all

/-! ### Events -/

theorem nameAt_of_opening {s : Setting} {contexts : List Context} {c : Cursor} {o : Opening}
    (h : (s.actions : Actions Client).opening contexts c = .ok o) :
    c.firstName? = .ok o.nameAt := by
  have ofKind : ∀ {kind contextKind}, s.openingAs kind contextKind c = .ok o →
      c.firstName? = .ok o.nameAt := by
    intro kind contextKind h
    obtain ⟨name, hname, h⟩ := except_bind_eq_ok.mp h
    cases name with
    | none =>
      obtain rfl := Except.ok.inj h
      exact hname
    | some name =>
      obtain ⟨full, -, h⟩ := except_bind_eq_ok.mp h
      obtain rfl := Except.ok.inj h
      exact hname
  change (if c.isKind .classdef = true then _ else _) = _ at h
  split at h <;> exact ofKind h

theorem notMem_closing (c d : Cursor) : .parameter d ∉ closing c := by
  unfold closing
  split <;> simp

/-- No place is visited as a parameter. -/
theorem parameter_notMem_steps (t : Tree) (above : List Ancestor) (d : Cursor) :
    .parameter d ∉ steps above t := by
  induction t using Tree.parts_induction generalizing above with
  | leaf token =>
    unfold steps
    split <;> simp [notMem_closing]
  | node kind parts ih =>
    have inside : ∀ place i, .parameter d ∉ partSteps place i parts := by
      intro place i h
      rw [partSteps_eq] at h
      obtain ⟨part, hpart, h⟩ := List.mem_flatMap.mp h
      exact ih part.1 (List.fst_mem_of_mem_zipIdx hpart) _ h
    unfold steps
    split <;> simp [notMem_closing, inside]

/-- What is logged at the events of a run that returns. -/
theorem records_of_event {s : Setting} {t : Tree} {c : Client} {e : Event Client}
    (completed : (s.walk t).Completed c) (he : e ∈ (s.walk t).events c.fresh) {d : Cursor}
    (hd : e.step.subject? = some d) : Records d e.made := by
  obtain ⟨held₁, held₂, done⟩ := completed.performed e he
  have context := Walk.contexts_ne_nil (disciplined_actions s) (way_inside t) he
  have taken : e.step ∈ steps [] t := by
    rw [← show _ = steps [] t from completed.taken]
    exact List.mem_map_of_mem he
  obtain ⟨ds, ds', shifts⟩ := (way_inside t).shifts_of_mem taken
  cases hstep : e.step with
  | look d' =>
    rw [hstep] at done hd shifts
    obtain rfl := Option.some.inj hd
    obtain ⟨x, stands⟩ := Trace.exists_stands context
    exact ((writes_visitSelf s shifts.2.1).event stands done).records
  | enter d' =>
    rw [hstep] at done hd shifts
    obtain rfl := Option.some.inj hd
    obtain ⟨contexts, o, opened, calls⟩ := Actions.made_enter context done
    unfold Records
    rcases NodeKind.eq_of_isDefinition shifts.2.1 with kind | kind <;> rw [kind] <;>
      exact ⟨o.nameAt, nameAt_of_opening opened, calls⟩
  | parameter d' =>
    rw [hstep] at taken
    exact absurd taken (parameter_notMem_steps t [] d')
  | _ =>
    rw [hstep] at hd
    cases hd

end Semantic.Setting

end CodeIndex
