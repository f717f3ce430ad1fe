import CodeIndex.Proofs.NamingEnds
import CodeIndex.Proofs.Outline
import CodeIndex.Proofs.SourceOrder

/-!
# Recorded scopes are nested

For a class or function the indexers record where its name stands and how far its definition
reaches. Everything else that is recorded with a range is recorded for a place that is visited, and
the place is inside of the definitions that are entered at that time. So if the tokens of a tree are
in order, the recorded ranges are nested as the tree is: the range of a name lies within that of its
definition, the ranges of two definitions are nested if one definition is inside the other and have
nothing in common otherwise, and whatever is recorded inside of a definition lies within its range.

## What is proved

* `Syntactic.locating_visitSelf`, `Semantic.Setting.locating_visitSelf` — all ranges that are
  recorded for a place are those of the place or of parts of it.
* `Actions.outcome_located` — what is recorded at a step, by the kind of the step.
* `Walk.scoped_contexts` — the contexts at every step stand for definitions whose ranges have been
  recorded and that the step takes place in.
* `nested_iff_and_disjoint_iff` — how the ranges of two places are related.
* `recorded_scopes_nest` — so the recorded ranges are nested in every run of both indexers.
-/

namespace CodeIndex

open Indexing

/-! ### Places and their ancestors -/

namespace Cursor

theorem Within.eq_or_mem_ancestors {c d : Cursor} (h : d.Within c) : c = d ∨ d ∈ c.ancestors := by
  induction h with
  | here => exact .inl rfl
  | part _ _ ih =>
    rcases ih with rfl | around
    · exact .inr List.mem_cons_self
    · exact .inr (List.mem_cons_of_mem _ around)

theorem within_of_mem_ancestors {root : Tree} {c d : Cursor} (hc : (Cursor.root root).Within c)
    (hd : d ∈ c.ancestors) : d.Within c := by
  obtain ⟨t, above⟩ := c
  change d ∈ ancestorsAmong above at hd
  induction above generalizing t with
  | nil => simp [ancestorsAmong] at hd
  | cons a rest ih =>
    obtain ⟨outer, part⟩ := hc.parent
    rcases List.mem_cons.mp hd with rfl | hd
    · exact .part .here part
    · exact .part (ih a.tree outer hd) part

theorem has_child {c d : Cursor} {i : Int} (h : c.child i = .ok d) : c.tree.Has d.tree := by
  obtain ⟨children, hchildren, h⟩ := except_bind_eq_ok.mp h
  obtain ⟨t, above⟩ := c
  cases t with
  | leaf token => cases hchildren
  | node kind parts =>
    obtain rfl := Except.ok.inj hchildren
    obtain ⟨t, i, rfl, part⟩ := mem_childrenOf (mem_of_pick h)
    exact .part (List.mem_of_getElem? part) (.self _)

end Cursor

/-! ### Ranges in calls -/

/-- The range that a call records. -/
@[simp] def Call.extent? : Call → Option Extent
  | .symbolLocation _ _ x | .scopeLocation _ _ x | .signatureLocation _ _ x
  | .referenceLocation _ _ x | .unsolvedReference _ _ _ x | .qualifierLocation _ _ x
  | .localLocation _ _ x | .atomicRange _ x | .error _ _ _ x => some x
  | _ => none

/-- The call records where a signature stands. -/
@[simp] def Call.isSignature : Call → Bool
  | .signatureLocation _ _ _ => true
  | _ => false

/-- Unless the call is about a signature, a range in it is that of the tree or of a part of it, and
not recorded as the range of a definition. -/
def LocatesIn (t : Tree) (call : Call) : Prop :=
  call.isSignature = false → ∀ x, call.extent? = some x →
    call.isScope = false ∧ ∃ u r, t.Has u ∧ u.range = .ok r ∧ x = r.extent

namespace LocatesIn

variable {t u : Tree} {r : SourceRange} {call : Call}

theorem quiet (h : call.extent? = none) : LocatesIn t call := by
  intro _ x hx
  rw [h] at hx
  cases hx

theorem ofPart (has : t.Has u) (hr : u.range = .ok r) (h : call.extent? = some r.extent)
    (plain : call.isScope = false) : LocatesIn t call := by
  intro _ x hx
  rw [h] at hx
  exact ⟨plain, u, r, has, hr, (Option.some.inj hx).symm⟩

end LocatesIn

/-- A call for a place that has the range `r` locates nothing else. -/
theorem LocatesIn.atRange {d : Cursor} {r : SourceRange} {call : Call} (hr : d.range = .ok r)
    (h : call.isScope = false ∧ (call.extent? = none ∨ call.extent? = some r.extent)) :
    LocatesIn d.tree call := by
  obtain ⟨plain, located⟩ := h
  rcases located with located | located
  · exact .quiet located
  · exact .ofPart (.self _) hr located plain

theorem locates_of_stringCalls {d : Cursor} {xs : List Call} (h : StringCalls d xs) :
    ∀ x ∈ xs, LocatesIn d.tree x := by
  obtain ⟨r, file, hr, rfl⟩ := h
  split
  · exact List.forall_mem_singleton.mpr (.ofPart (.self _) hr rfl rfl)
  · simp

theorem locates_of_errorCalls {d : Cursor} {xs : List Call} (h : ErrorCalls d xs) :
    ∀ x ∈ xs, LocatesIn d.tree x := by
  obtain ⟨r, type, file, hr, -, rfl⟩ := h
  exact List.forall_mem_singleton.mpr (.ofPart (.self _) hr rfl rfl)

/-- Whatever way the computation ends, all ranges that it records are those of the tree or of parts
of it. -/
def Locating (t : Tree) (m : Indexing Client Unit) : Prop :=
  ∀ s, s.contexts ≠ [] →
    Outcome (fun _ u => ∃ entries, u.calls = s.calls ++ entries ∧ ∀ e ∈ entries, LocatesIn t e.call)
      (fun u => ∃ entries, u.calls = s.calls ++ entries ∧ ∀ e ∈ entries, LocatesIn t e.call) (m s)

/-- So it is if the entries are located. -/
theorem locating_of_writes {t : Tree} {m : Indexing Client Unit}
    (h : ∀ x file, Writes x file m (fun _ entries => ∀ e ∈ entries, LocatesIn t e.call)
      fun entries => ∀ e ∈ entries, LocatesIn t e.call) : Locating t m := by
  intro s context
  obtain ⟨x, stands⟩ := Trace.exists_stands context
  refine (h x s.recorder.file s stands).mono ?_ ?_
  · rintro _ u ⟨entries, adds, each⟩
    exact ⟨entries, adds.calls, each⟩
  · rintro u ⟨entries, adds, each⟩
    exact ⟨entries, adds.calls, each⟩

/-! ### The syntactic indexer -/

namespace Syntactic

/-- What is recorded for a name is located at the name. -/
theorem Occurrence.Entries.locates {top : Context} {file : Value} {x : String} {d : Cursor}
    {r : SourceRange} {o : Occurrence} {entries : List LogEntry} (hr : d.range = .ok r)
    (h : o.Entries top file x r entries) : ∀ e ∈ entries, LocatesIn d.tree e.call := by
  have each : ∀ e ∈ entries, e.call.isScope = false ∧
      (e.call.extent? = none ∨ e.call.extent? = some r.extent) := by
    cases h <;> simp [Call.isScope]
  exact fun e he => .atRange hr (each e he)

/-- All ranges that are recorded for a place are those of the place. -/
theorem locating_visitSelf (s : Setting) (d : Cursor) : Locating d.tree (visitSelf s d) := by
  intro σ context
  refine (outcome_visitSelf s d context).mono (fun _ τ visited => ?_)
    fun τ nothing => ⟨[], nothing.calls, by simp⟩
  cases visited with
  | name _ _ range _ _ logged =>
    obtain ⟨entries, logged, calls⟩ := logged.entries
    exact ⟨entries, calls, logged.locates range⟩
  | string _ adds calls =>
    have each := locates_of_stringCalls calls
    exact ⟨_, adds.calls, fun e he => each _ (List.mem_map_of_mem he)⟩
  | errorLeaf _ adds calls =>
    have each := locates_of_errorCalls calls
    exact ⟨_, adds.calls, fun e he => each _ (List.mem_map_of_mem he)⟩
  | other _ _ _ same => exact ⟨[], by rw [same, List.append_nil], by simp⟩

/-- The name of a parameter is a part of it, or of a part of it. -/
theorem has_parameterName {c name : Cursor} (h : c.parameterName = .ok name) :
    c.tree.Has name.tree := by
  have named : ∀ {target : Cursor}, c.tree.Has target.tree →
      (if target.isKind .tfpdef then target.child 0 else pure target) = .ok name →
      c.tree.Has name.tree := by
    intro target inside h
    split at h
    · exact inside.trans (Cursor.has_child h)
    · obtain rfl := Except.ok.inj h
      exact inside
  obtain ⟨first, hfirst, h⟩ := except_bind_eq_ok.mp h
  extract_lets pickName at h
  split at h
  · obtain ⟨target, htarget, h⟩ := except_bind_eq_ok.mp h
    exact named (Cursor.has_child htarget) h
  · obtain ⟨target, htarget, h⟩ := except_bind_eq_ok.mp h
    obtain rfl := Except.ok.inj htarget
    exact named (Cursor.has_child hfirst) h

theorem locating_visitParameter (d : Cursor) : Locating d.tree (visitParameter d) := by
  refine locating_of_writes fun x file => (writes_visitParameter d).mono ?_ (by simp)
  rintro _ _ ⟨name, r, own, i, v, hname, hr, rfl⟩
  have located : LocatesIn d.tree (.localLocation i file r) :=
    .ofPart (has_parameterName hname) hr rfl rfl
  simpa using ⟨LocatesIn.quiet rfl, located⟩

end Syntactic

/-! ### The semantic indexer -/

namespace Semantic.Setting

theorem ReportsIn.locates {t : Tree} {call : Call} (h : ReportsIn t call) : LocatesIn t call := by
  obtain ⟨u, name, file, r, has, hr, rfl⟩ := h
  exact .ofPart has hr rfl rfl

/-- A call for a name locates it at the name. -/
theorem locates_of_ofName {c : Cursor} {r : SourceRange} {call : Call} (hr : c.range = .ok r)
    (h : OfName r call) : LocatesIn c.tree call := by
  obtain ⟨plain, located⟩ := h
  cases call with
  | scopeLocation | atomicRange | error => cases plain
  | symbolLocation | referenceLocation | unsolvedReference | qualifierLocation | localLocation =>
    exact .atRange hr ⟨rfl, located⟩
  | signatureLocation => exact fun unsigned => absurd unsigned (by simp)
  | _ => exact .quiet rfl

theorem PlaceEntries.locates {s : Setting} {x file : Value} {c : Cursor} {entries : List LogEntry}
    (h : PlaceEntries s x file c entries) : ∀ e ∈ entries, LocatesIn c.tree e.call := by
  cases h with
  | name leaf _ written =>
    subst leaf
    exact fun e he => locates_of_ofName rfl (written.ofName e he)
  | imports _ reports => exact fun e he => (reports e he).locates
  | string _ calls =>
    exact fun e he => locates_of_stringCalls calls _ (List.mem_map_of_mem he)
  | errorLeaf _ calls =>
    exact fun e he => locates_of_errorCalls calls _ (List.mem_map_of_mem he)
  | other _ nothing => simp [nothing]

theorem locating_visitSelf (s : Setting) {c : Cursor} (plain : c.tree.kind.isDefinition = false) :
    Locating c.tree (s.visitSelf c) :=
  locating_of_writes fun _ _ => (writes_visitSelf s plain).mono (fun _ _ written => written.locates)
    fun _ reports e he => (reports e he).locates

end Semantic.Setting

/-! ### Signatures -/

/-- Calls are added to the log, and none of them is about a signature. -/
def Unsigned (s t : Trace Client) : Prop :=
  ∃ more, t.calls = s.calls ++ more ∧ ∀ e ∈ more, e.call.isSignature = false

theorem Unsigned.quiet {s t : Trace Client} (same : t.calls = s.calls) : Unsigned s t :=
  ⟨[], by rw [same, List.append_nil], by simp⟩

theorem Unsigned.trans {s t u : Trace Client} (hst : Unsigned s t) (htu : Unsigned t u) :
    Unsigned s u := by
  obtain ⟨more, hmore, unsigned⟩ := hst
  obtain ⟨more', hmore', unsigned'⟩ := htu
  refine ⟨more ++ more', by rw [hmore', hmore, List.append_assoc], ?_⟩
  exact List.forall_mem_append.mpr ⟨unsigned, unsigned'⟩

/-- On the way through a tree no signature is ever located. -/
def unsignedDiscipline : Discipline Client where
  holds _ := True
  goes := Unsigned
  standing _ := ⟨fun _ => True, fun _ => True, fun _ => True, fun _ => True⟩
  refl _ := .quiet rfl
  trans := .trans
  holds_of_goes _ := trivial
  symbol_mono _ _ := trivial
  print _ _ _ := .quiet rfl
  declare _ _ := .quiet rfl
  record {s r} _ admitted := by
    obtain ⟨call, v, hcall, emitted, -⟩ := emit_eq_logged admitted s
    have unsigned : call.isSignature = false := by
      cases r with
      | file | fileLanguage | namelessSymbol | signatureLocation | ambiguousReference => cases hcall
      | _ =>
        obtain rfl := Option.some.inj hcall
        rfl
    rw [emitted]
    exact ⟨⟨_, s.calls_logged call, by simpa using unsigned⟩, by cases r <;> trivial⟩

/-! ### Steps -/

section Steps

variable {A : Actions Client} {x : Step} {held : Held} {s t : Trace Client} {d : Cursor}
  {root : Tree}

theorem Actions.Effect.unsigned {held' : Held}
    (effect : A.Effect unsignedDiscipline held s held' t x) : Unsigned s t := by
  cases x with
  | list | unlist | look | parameter => exact effect.2
  | enter c =>
    obtain ⟨-, o, symbol, s₁, u, -, -, unsigned, -, -, rfl⟩ := effect
    exact unsigned
  | leave | impose | lift | drop | beginAlias | endAlias =>
    obtain ⟨-, rfl⟩ := effect
    exact .quiet rfl
  | aliasWord =>
    rcases held with _ | ⟨_ | _, _⟩
    all_goals
      obtain ⟨-, rfl⟩ := effect
      exact .quiet rfl
  | fail e => exact effect.elim

/-- Nothing is logged at a step without a subject, whatever way it ends. -/
theorem Actions.calls_of_subjectless (A : Actions Client) (h : x.subject? = none) (held : Held)
    (s : Trace Client) : (finalState (A.perform x held s)).calls = s.calls := by
  cases x with
  | look | enter | parameter => cases h
  | list c =>
    change (finalState ((beginListing A.verbose c >>= fun _ => pure held) s)).calls = _
    rw [finalState_discard]
    exact (adds_beginListing A.verbose c s).final.calls.trans (List.append_nil _)
  | unlist =>
    change (finalState ((endListing A.verbose >>= fun _ => pure held) s)).calls = _
    rw [finalState_discard]
    exact (adds_endListing A.verbose s).final.calls.trans (List.append_nil _)
  | aliasWord => rcases held with _ | ⟨_ | _, _⟩ <;> rfl
  | endAlias => rcases held with _ | ⟨_ | _, _⟩ <;> rfl
  | _ => rfl

/-- The calls for the definition at `d`, which is recorded as `symbol`. -/
def RecordsScope (d : Cursor) (symbol : Value) (xs : List Call) : Prop :=
  ∃ name r whole stored kind f g, d.Within name ∧ name.range = .ok r ∧ d.range = .ok whole ∧
    xs = [.symbol stored, .definitionKind symbol .explicit, .symbolKind symbol kind,
      .symbolLocation symbol f r, .scopeLocation symbol g whole]

/-- All ranges that are recorded for a place of the tree come from the place, and the name of a
definition is known. -/
structure Actions.Locates (A : Actions Client) (root : Tree) : Prop where
  look : ∀ d, d.tree.kind.isDefinition = false → Locating d.tree (A.look d)
  parameter : ∀ d, Locating d.tree (A.parameter d)
  name : ∀ contexts d o, d ∈ root.places → d.tree.kind.isDefinition = true →
    A.opening contexts d = .ok o → ∃ name, o.nameAt = some name ∧ d.Within name

/-- What is recorded at an event, by the kind of its step. -/
def Event.Located (e : Event Client) : Prop :=
  match e.step with
  | .look d | .parameter d => ∀ call ∈ e.made, LocatesIn d.tree call
  | .enter d => e.made = [] ∨ ∃ symbol, RecordsScope d symbol e.made
  | _ => e.made = []

/-- A definition all of whose ranges are known is recorded and entered, or nothing is. -/
theorem Actions.outcome_enter_scope (context : s.contexts ≠ []) {whole : SourceRange}
    (hwhole : d.range = .ok whole)
    (named : ∀ o, A.opening s.contexts d = .ok o →
      ∃ name r, o.nameAt = some name ∧ d.Within name ∧ name.range = .ok r) :
    Outcome (fun _ t => ∃ k rest, t.contexts = k :: rest ∧
        RecordsScope d k.id (Event.made ⟨.enter d, s, t⟩))
      (fun t => Event.made ⟨.enter d, s, t⟩ = []) (A.perform (.enter d) held s) := by
  refine Outcome.bind (Outcome.bind (Outcome.liftBind ?_ fun o ho => ?_))
  · exact ((Adds.refl s).made context).event
  obtain ⟨name, r, nameAt, within, hr⟩ := named o ho
  have hr' : rangeOf o.nameAt = .ok r := by rw [nameAt]; exact hr
  obtain ⟨x, stands⟩ := Trace.exists_stands context
  refine Outcome.bind ((writes_define o.name o.kind o.nameAt d s stands).mono ?_ ?_)
  · rintro symbol u ⟨_, adds, r', whole', _, _, _, _, hname, hwhole', rfl⟩
    obtain rfl := Except.ok.inj (hr'.symm.trans hname)
    obtain rfl := Except.ok.inj (hwhole.symm.trans hwhole')
    have made : (⟨.enter d, s, { u with contexts := o.context d symbol :: u.contexts }⟩ :
        Event Client).made = _ := Made.event ⟨List.cons_ne_nil _ _, _, adds.calls, rfl⟩
    refine ⟨o.context d symbol, u.contexts, rfl, ?_⟩
    rw [made]
    exact ⟨name, r, whole, o.name.stored, o.kind, _, _, within, hr, hwhole, rfl⟩
  · rintro u ⟨_, -, missing⟩
    exact absurd hwhole (missing r whole hr')

/-- Where all ranges of a computation are located, so are those of the event. -/
theorem Locating.event {m : Indexing Client Unit} {t : Tree} (h : Locating t m)
    (context : s.contexts ≠ []) (x : Step) (held : Held) :
    Outcome (fun _ u => ∀ call ∈ Event.made ⟨x, s, u⟩, LocatesIn t call)
      (fun u => ∀ call ∈ Event.made ⟨x, s, u⟩, LocatesIn t call)
      ((do m; return held : Indexing Client Held) s) := by
  have located : ∀ u, (∃ entries, u.calls = s.calls ++ entries ∧
      ∀ e ∈ entries, LocatesIn t e.call) → ∀ call ∈ Event.made ⟨x, s, u⟩, LocatesIn t call := by
    rintro u ⟨entries, calls, each⟩ call hcall
    rw [Event.made, Event.calls_eq (e := ⟨x, s, u⟩) calls] at hcall
    obtain ⟨entry, hentry, rfl⟩ := List.mem_map.mp hcall
    exact each entry hentry
  exact Outcome.bind ((h s context).mono (fun _ => located) located)

/-- What is recorded at a step that is taken inside the definitions `ds`. -/
theorem Actions.outcome_located {R : List Cursor → Cursor → Prop} {ds ds' : List Cursor}
    (whole : root.HasNoEmptyConstruct) (locates : A.Locates root)
    (inside : ∀ ds c, R ds c → (Cursor.root root).Within c) (shifts : Shifts R ds ds' x)
    (context : s.contexts ≠ []) (held : Held) :
    Outcome (fun _ t => Event.Located ⟨x, s, t⟩ ∧ ∀ d, x = .enter d → ∃ k rest,
        t.contexts = k :: rest ∧ RecordsScope d k.id (Event.made ⟨x, s, t⟩))
      (fun t => Event.Located ⟨x, s, t⟩) (A.perform x held s) := by
  have range : ∀ c, (Cursor.root root).Within c → ∃ r, c.range = .ok r :=
    fun c hc => whole.range (Cursor.mem_placesFrom_iff.mpr hc)
  have same : x.subject? = none → (finalState (A.perform x held s)).calls = s.calls :=
    fun h => A.calls_of_subjectless h held s
  have quiet : ∀ t : Trace Client, t.calls = s.calls → Event.made ⟨x, s, t⟩ = [] := by
    intro t h
    rw [Event.made, Event.calls_eq (h.trans (List.append_nil _).symm)]
    rfl
  cases x with
  | look d =>
    exact ((locates.look d shifts.2.1).event context (.look d) held).mono
      (fun _ _ each => ⟨each, by simp⟩) fun _ each => each
  | parameter d =>
    exact ((locates.parameter d).event context (.parameter d) held).mono
      (fun _ _ each => ⟨each, by simp⟩) fun _ each => each
  | enter d =>
    have within := inside _ _ shifts.1
    obtain ⟨r, hr⟩ := range d within
    refine (Actions.outcome_enter_scope context hr fun o ho => ?_).mono ?_ fun _ none => .inl none
    · obtain ⟨name, nameAt, part⟩ :=
        locates.name _ _ _ (Cursor.mem_placesFrom_iff.mpr within) shifts.2.1 ho
      obtain ⟨r', hr'⟩ := range name
        (Cursor.within_of_mem_placesFrom within (Cursor.mem_placesFrom_iff.mpr part))
      exact ⟨name, r', nameAt, part, hr'⟩
    · rintro _ t ⟨k, rest, contexts, scope⟩
      refine ⟨.inr ⟨k.id, scope⟩, ?_⟩
      rintro _ ⟨⟩
      exact ⟨k, rest, contexts, scope⟩
  | _ =>
    have same := same rfl
    revert same
    cases A.perform _ held s with
    | ok held' t => exact fun same => ⟨quiet t same, by simp⟩
    | error e t => exact fun same => quiet t same

end Steps

/-! ### Contexts with recorded ranges -/

/-- When the definition at `d` was entered, it was recorded as `symbol`, along with its range. -/
def ScopedAs (past : List (Event Client)) (d : Cursor) (symbol : Value) : Prop :=
  ∃ e ∈ past, e.step = .enter d ∧ RecordsScope d symbol e.made

theorem ScopedAs.later {past : List (Event Client)} {d : Cursor} {symbol : Value}
    (h : ScopedAs past d symbol) (e : Event Client) : ScopedAs (past ++ [e]) d symbol := by
  obtain ⟨e₀, he₀, entered, scope⟩ := h
  exact ⟨e₀, List.mem_append_left _ he₀, entered, scope⟩

/-- What is true of every event: what is recorded comes from the place, and the contexts stand for
definitions around it whose ranges have been recorded. -/
structure Scoped (R : List Cursor → Cursor → Prop) (outer : List Context)
    (past : List (Event Client)) (e : Event Client) : Prop where
  located : e.Located
  unsigned : ∀ call ∈ e.made, call.isSignature = false
  follows : ∃ ds ds', Shifts R ds ds' e.step ∧
    Follows (fun d _ k => ScopedAs past d k.id) outer ds e.before.contexts

section Scopes

variable {R : List Cursor → Cursor → Prop} {root : Tree} {outer : List Context}
  {past : List (Event Client)} {ds ds' : List Cursor}

theorem scoped_step {A : Actions Client} {x : Step} {held : Held} {s : Trace Client}
    (unplaced : ∀ k ∈ outer, k.place = none) (nonempty : outer ≠ [])
    (whole : root.HasNoEmptyConstruct) (disciplined : A.Disciplined) (locates : A.Locates root)
    (inside : ∀ ds c, R ds c → (Cursor.root root).Within c) (shifts : Shifts R ds ds' x)
    (follows : Follows (fun d _ k => ScopedAs past d k.id) outer ds s.contexts) :
    Outcome
      (fun _ t => Scoped R outer past ⟨x, s, t⟩ ∧
        Follows (fun d _ k => ScopedAs (past ++ [⟨x, s, t⟩]) d k.id) outer ds' t.contexts)
      (fun t => Scoped R outer past ⟨x, s, t⟩) (A.perform x held s) := by
  have located := Actions.outcome_located whole locates inside shifts
    (follows.ne_nil nonempty) held
  have unsigned := Actions.outcome_perform (D := unsignedDiscipline)
    (disciplined.keeps shifts fun _ _ _ _ _ => trivial) held (s := s) trivial
  have effect := Actions.outcome_perform (D := attribution True)
    (disciplined.keeps shifts fun _ _ _ _ isTop => ⟨trivial, isTop⟩) held (s := s) trivial
  have ofEnds : ∀ t, Event.Located ⟨x, s, t⟩ → Unsigned s t → Scoped R outer past ⟨x, s, t⟩ := by
    rintro t located ⟨more, calls, unsigned⟩
    refine ⟨located, fun call hcall => ?_, ds, ds', shifts, follows⟩
    rw [Event.made, Event.calls_eq (e := ⟨x, s, t⟩) calls] at hcall
    obtain ⟨entry, hentry, rfl⟩ := List.mem_map.mp hcall
    exact unsigned entry hentry
  cases run : A.perform x held s with
  | error fault t =>
    rw [run] at located unsigned
    exact ofEnds t located unsigned
  | ok held' t =>
    rw [run] at located unsigned effect
    obtain ⟨located, entered⟩ := located
    refine ⟨ofEnds t located unsigned.unsigned, ?_⟩
    refine follows.step Attributes.settled effect shifts unplaced (fun _ _ _ _ h => h.later _) ?_
    rintro d k rest rfl contexts
    obtain ⟨k', rest', contexts', scope⟩ := entered d rfl
    obtain ⟨rfl, -⟩ := List.cons.inj (contexts.symm.trans contexts')
    exact ⟨_, List.mem_append_right _ (List.mem_singleton.mpr rfl), rfl, scope⟩

/-- In every run the contexts stand for definitions whose ranges have been recorded. -/
theorem Walk.scoped_contexts {w : Walk Client} (whole : root.HasNoEmptyConstruct)
    (disciplined : w.actions.Disciplined) (locates : w.actions.Locates root)
    (inside : ∀ ds c, R ds c → (Cursor.root root).Within c) (way : Way R [] w.steps ds) (c : Client)
    {earlier later : List (Event Client)} {e : Event Client}
    (split : w.events c.fresh = earlier ++ e :: later) :
    ∃ outer, (∀ k ∈ outer, k.place = none) ∧ Scoped R outer earlier e := by
  cases h : start w.source w.moduleName c.fresh with
  | error fault t =>
    rw [events, h] at split
    simp at split
  | ok _ t =>
    have begins := begins_of_start h
    have nonempty : t.contexts ≠ [] := by
      intro none
      rcases begins.kinds with ⟨kinds, -⟩ | ⟨kinds, -⟩ <;> simp [none] at kinds
    rw [events_of_start h] at split
    refine ⟨t.contexts, begins.unplaced, ?_⟩
    exact way.history
      (I := fun past ds s => Follows (fun d _ k => ScopedAs past d k.id) t.contexts ds s.contexts)
      (fun past ds ds' x held s shifts follows =>
        scoped_step begins.unplaced nonempty whole disciplined locates inside shifts follows) []
      begins.fixed split

end Scopes

/-! ### Ranges in a tree whose tokens are in order -/

namespace Tree

/-- One of the parts is an identifier, and not empty. -/
def hasName : Tree → Bool
  | .leaf _ => false
  | .node _ parts => parts.any fun part => part.isName && part.text?.any (· ≠ "")

/-- Every class and function has a name. -/
def DefinitionsNamed (t : Tree) : Prop :=
  ∀ c ∈ t.places, c.tree.kind.isDefinition = true → c.tree.hasName = true

instance (t : Tree) : Decidable t.DefinitionsNamed :=
  inferInstanceAs (Decidable (∀ c ∈ t.places, c.tree.kind.isDefinition = true → _))

theorem exists_name {t : Tree} (h : t.hasName = true) :
    ∃ kind parts token, t = .node kind parts ∧ .leaf token ∈ parts ∧
      (leaf token).isName = true ∧ token.text ≠ "" := by
  cases t with
  | leaf => cases h
  | node kind parts =>
    obtain ⟨part, mem, isName⟩ := List.any_eq_true.mp h
    obtain ⟨isName, text⟩ := Bool.and_eq_true_iff.mp isName
    cases part with
    | leaf token => exact ⟨kind, parts, token, rfl, mem, isName, by simpa [text?] using text⟩
    | node => cases text

end Tree

/-- A name that is not empty ends after it begins. -/
theorem Token.start_lt_end {token : Token} (isName : (Tree.leaf token).isName = true)
    (text : token.text ≠ "") : token.start.key < (Tree.leafEnd token).key := by
  have onOneLine : token.kind.onOneLine = true := by
    rw [show token.kind = .name from of_decide_eq_true isName]
    rfl
  have positive : 0 < token.text.length := by
    rw [Nat.pos_iff_ne_zero]
    exact fun h => text (String.length_eq_zero_iff.mp h)
  rw [Tree.leafEnd, if_pos onOneLine, Position.key, Position.key, Prod.Lex.toLex_lt_toLex]
  exact .inr ⟨rfl, Int.lt_add_of_pos_right _ (Int.natCast_pos.mpr positive)⟩

section Ranges

variable {root : Tree} (whole : root.HasNoEmptyConstruct) (ordered : root.InOrder)
include whole ordered

/-- The range of a part lies within that of the construct. -/
theorem covers_of_has {t u : Tree} {r r' : SourceRange} (ht : root.Has t) (hu : t.Has u)
    (hr : t.range = .ok r) (hr' : u.range = .ok r') : r.Covers r' := by
  obtain ⟨first, last, reaches⟩ :=
    Tree.exists_reaches fun v (hv : t.Has v) => whole.of_has (ht.trans hv)
  obtain ⟨first', last', reaches'⟩ :=
    Tree.exists_reaches fun v (hv : u.Has v) => whole.of_has ((ht.trans hu).trans hv)
  obtain rfl := Except.ok.inj (hr.symm.trans reaches.range)
  obtain rfl := Except.ok.inj (hr'.symm.trans reaches'.range)
  exact reaches.covers reaches' (ordered.pairwise.sublist ht.sublist) hu

/-- The range of a definition is not empty. -/
theorem first_le_last {t : Tree} {r : SourceRange} (ht : root.Has t) (named : t.hasName = true)
    (hr : t.range = .ok r) : r.first ≤ r.last := by
  obtain ⟨first, last, reaches⟩ :=
    Tree.exists_reaches fun v (hv : t.Has v) => whole.of_has (ht.trans hv)
  obtain rfl := Except.ok.inj (hr.symm.trans reaches.range)
  obtain ⟨kind, parts, token, rfl, mem, isName, text⟩ := Tree.exists_name named
  have mem_tokens : token ∈ (Tree.node kind parts).tokens :=
    (Tree.Has.part mem (.self _)).sublist.subset (by simp [Tree.tokens])
  exact reaches.full (ordered.pairwise.sublist ht.sublist) mem_tokens
    (Token.start_lt_end isName text)

/-- The ranges of two places with a name are nested if one place is the other or around it, and have
nothing in common otherwise. -/
theorem nested_iff_and_disjoint_iff {c d : Cursor} {r r' : SourceRange} (hc : c ∈ root.places)
    (hd : d ∈ root.places) (named : c.tree.hasName = true) (named' : d.tree.hasName = true)
    (hr : c.range = .ok r) (hr' : d.range = .ok r') :
    (r.Nested r' ↔ c = d ∨ c ∈ d.ancestors ∨ d ∈ c.ancestors) ∧
      (r.Disjoint r' ↔ ¬(c = d ∨ c ∈ d.ancestors ∨ d ∈ c.ancestors)) := by
  have within_c := Cursor.mem_placesFrom_iff.mp hc
  have within_d := Cursor.mem_placesFrom_iff.mp hd
  have has_c : root.Has c.tree := .of_within within_c
  have has_d : root.Has d.tree := .of_within within_d
  have exclusive : r.Nested r' → ¬r.Disjoint r' := SourceRange.Nested.not_disjoint
    (first_le_last whole ordered has_c named hr) (first_le_last whole ordered has_d named' hr')
  have nested : c = d ∨ c ∈ d.ancestors ∨ d ∈ c.ancestors → r.Nested r' := by
    rintro (rfl | around | around)
    · exact .inl (covers_of_has whole ordered has_c (.self _) hr hr')
    · exact .inl (covers_of_has whole ordered has_c
        (.of_within (Cursor.within_of_mem_ancestors within_d around)) hr hr')
    · exact .inr (covers_of_has whole ordered has_d
        (.of_within (Cursor.within_of_mem_ancestors within_c around)) hr' hr)
  have total : (c = d ∨ c ∈ d.ancestors ∨ d ∈ c.ancestors) ∨ r.Disjoint r' := by
    obtain ⟨first, last, reaches⟩ :=
      Tree.exists_reaches fun v (hv : c.tree.Has v) => whole.of_has (has_c.trans hv)
    obtain ⟨first', last', reaches'⟩ :=
      Tree.exists_reaches fun v (hv : d.tree.Has v) => whole.of_has (has_d.trans hv)
    obtain rfl := Except.ok.inj (hr.symm.trans reaches.range)
    obtain rfl := Except.ok.inj (hr'.symm.trans reaches'.range)
    rcases Tree.inside_or_apart ordered.pairwise hc hd with inside | inside | before | after
    · rcases inside.eq_or_mem_ancestors with same | around
      · exact .inl (.inl same.symm)
      · exact .inl (.inr (.inl around))
    · rcases inside.eq_or_mem_ancestors with same | around
      · exact .inl (.inl same)
      · exact .inl (.inr (.inr around))
    · exact .inr (.inl (reaches.precedes reaches' before))
    · exact .inr (.inr (reaches'.precedes reaches after))
  constructor
  · exact ⟨fun h => total.resolve_right (exclusive h), nested⟩
  · exact ⟨fun h related => exclusive (nested related) h, total.resolve_left⟩

end Ranges

/-! ### Whole runs -/

/-- No range is recorded at the beginning of a run. -/
theorem Walk.extent?_of_begun (w : Walk Client) (c : Client) :
    ∀ entry ∈ w.begun c, entry.call.extent? = none := by
  have ofPreliminary : ∀ call : Call, call.isPreliminary = true → call.extent? = none := by
    intro call h
    cases call <;> first | rfl | cases h
  cases h : start w.source w.moduleName c.fresh with
  | ok _ t =>
    intro entry hentry
    exact ofPreliminary _ (isPreliminary_of_begun h _ (List.mem_map_of_mem hentry))
  | error fault t =>
    have outcome := outcome_start w.source w.moduleName c
    rw [h] at outcome
    obtain ⟨file, logged⟩ := outcome
    obtain ⟨more, calls, about⟩ := logged.calls
    rw [begun_of_start h calls]
    intro entry hentry
    rcases List.mem_cons.mp hentry with rfl | hentry
    · rfl
    · rcases about entry hentry with call | call <;> rw [call] <;> rfl

/-- The ranges that a run records are nested as the definitions are. -/
structure Walk.NestsScopes (w : Walk Client) (c : Client) : Prop where
  /-- The log of the run is what was logged at the beginning, where no range is recorded, and then
  the calls of its events. -/
  log : (finalState (w.carryOut c.fresh)).calls =
      c.fresh.calls ++ w.begun c ++ (w.events c.fresh).flatMap Event.calls ∧
    ∀ entry ∈ w.begun c, entry.call.extent? = none
  /-- Where a definition is entered, nothing is recorded or all of it is. The range of its name lies
  within its own. -/
  definitions : ∀ e ∈ w.events c.fresh, ∀ d, e.step = .enter d → e.made = [] ∨
    ∃ symbol name whole stored kind f g, d.range = .ok whole ∧ whole.Covers name ∧
      e.made = [.symbol stored, .definitionKind symbol .explicit, .symbolKind symbol kind,
        .symbolLocation symbol f name, .scopeLocation symbol g whole]
  /-- Ranges of definitions are recorded only there. -/
  scopes : ∀ e ∈ w.events c.fresh, ∀ call ∈ e.made, call.isScope = true → ∃ d, e.step = .enter d
  /-- The ranges of two definitions are nested if the definitions are the same or one is around the
  other, and have nothing in common otherwise. -/
  laminar : ∀ e ∈ w.events c.fresh, ∀ e' ∈ w.events c.fresh, ∀ d d' r r', e.step = .enter d →
    e'.step = .enter d' → d.range = .ok r → d'.range = .ok r' →
      (r.Nested r' ↔ d = d' ∨ d ∈ d'.ancestors ∨ d' ∈ d.ancestors) ∧
        (r.Disjoint r' ↔ ¬(d = d' ∨ d ∈ d'.ancestors ∨ d' ∈ d.ancestors)) ∧
        (d ∈ d'.ancestors → r.Covers r')
  /-- The range of a definition whose context is entered has been recorded under the identifier of
  the context, and everything that is recorded lies within it. -/
  inside : ∀ earlier e later, w.events c.fresh = earlier ++ e :: later →
    ∀ k ∈ e.before.contexts, ∀ d, k.place = some d → ∃ e₀ ∈ earlier, e₀.step = .enter d ∧
      ∃ whole f, d.range = .ok whole ∧ .scopeLocation k.id f whole ∈ e₀.made ∧
        ∀ call ∈ e.made, ∀ x, call.extent? = some x → ∃ r, x = SourceRange.extent r ∧ whole.Covers r

/-- What is known of the context of a definition. -/
theorem Follows.of_mem {Q : Cursor → List Cursor → Context → Prop} {outer contexts : List Context}
    {ds : List Cursor} (h : Follows Q outer ds contexts) (unplaced : ∀ k ∈ outer, k.place = none)
    {k : Context} (hk : k ∈ contexts) {d : Cursor} (place : k.place = some d) :
    d ∈ ds ∧ ∃ around, Q d around k.fixed := by
  induction ds generalizing contexts with
  | nil =>
    have none : k.fixed.place = Option.none := unplaced _ (h ▸ List.mem_map_of_mem hk)
    rw [show k.fixed.place = k.place from rfl, place] at none
    cases none
  | cons d' ds ih =>
    obtain ⟨k', rest, rfl, place', -, about, below⟩ := h
    rcases List.mem_cons.mp hk with rfl | hk
    · obtain rfl := Option.some.inj (place.symm.trans place')
      exact ⟨List.mem_cons_self, ds, about⟩
    · obtain ⟨hd, about⟩ := ih below hk
      exact ⟨List.mem_cons_of_mem _ hd, about⟩

/-- Ranges that are recorded at an event are those of parts of its subject. -/
theorem Scoped.part {R : List Cursor → Cursor → Prop} {outer : List Context}
    {past : List (Event Client)} {e : Event Client} (h : Scoped R outer past e) {call : Call}
    (hcall : call ∈ e.made) {x : Extent} (hx : call.extent? = some x) :
    ∃ ds d u, ∃ r : SourceRange, R ds d ∧ d.tree.Has u ∧ u.range = .ok r ∧ x = r ∧
      Follows (fun d _ k => ScopedAs past d k.id) outer ds e.before.contexts := by
  obtain ⟨located, unsigned, ds, ds', shifts, follows⟩ := h
  unfold Event.Located at located
  cases hstep : e.step with
  | look d =>
    rw [hstep] at located shifts
    obtain ⟨-, u, r, has, hr, rfl⟩ := located call hcall (unsigned call hcall) x hx
    exact ⟨ds, d, u, r, shifts.1, has, hr, rfl, follows⟩
  | parameter d =>
    rw [hstep] at located shifts
    obtain ⟨-, u, r, has, hr, rfl⟩ := located call hcall (unsigned call hcall) x hx
    exact ⟨ds, d, u, r, shifts.1, has, hr, rfl, follows⟩
  | enter d =>
    rw [hstep] at located shifts
    rcases located with none | ⟨symbol, scope⟩
    · rw [none] at hcall
      cases hcall
    · obtain ⟨name, r, whole, stored, kind, f, g, within, hr, hwhole, made⟩ := scope
      rw [made] at hcall
      simp only [List.mem_cons, List.not_mem_nil, or_false] at hcall
      rcases hcall with rfl | rfl | rfl | rfl | rfl
      · cases hx
      · cases hx
      · cases hx
      · obtain rfl := Option.some.inj hx
        exact ⟨ds, d, name.tree, r, shifts.1, .of_within within, hr, rfl, follows⟩
      · obtain rfl := Option.some.inj hx
        exact ⟨ds, d, d.tree, whole, shifts.1, .self _, hwhole, rfl, follows⟩
  | _ =>
    rw [hstep] at located
    rw [located] at hcall
    cases hcall

theorem Walk.nestsScopes {w : Walk Client} {root : Tree} {R : List Cursor → Cursor → Prop}
    {ds : List Cursor} (whole : root.HasNoEmptyConstruct) (ordered : root.InOrder)
    (named : root.DefinitionsNamed) (disciplined : w.actions.Disciplined)
    (locates : w.actions.Locates root) (way : Way R [] w.steps ds)
    (inside : ∀ ds c, R ds c → (Cursor.root root).Within c ∧ ∀ d ∈ ds, d ∈ c.ancestors)
    (c : Client) : w.NestsScopes c := by
  have scoped_events : ∀ {earlier e later}, w.events c.fresh = earlier ++ e :: later →
      ∃ outer, (∀ k ∈ outer, k.place = none) ∧ Scoped R outer earlier e := fun split =>
    w.scoped_contexts whole disciplined locates (fun ds c h => (inside ds c h).1) way c split
  have of_mem : ∀ e ∈ w.events c.fresh, ∃ past outer, Scoped R outer past e := by
    intro e he
    obtain ⟨earlier, later, split⟩ := List.append_of_mem he
    obtain ⟨outer, -, h⟩ := scoped_events split
    exact ⟨earlier, outer, h⟩
  have entered : ∀ e ∈ w.events c.fresh, ∀ d, e.step = .enter d →
      (Cursor.root root).Within d ∧ d.tree.kind.isDefinition = true := by
    intro e he d hstep
    obtain ⟨past, outer, -, -, ds, ds', shifts, -⟩ := of_mem e he
    rw [hstep] at shifts
    exact ⟨(inside _ _ shifts.1).1, shifts.2.1⟩
  refine ⟨⟨calls_carryOut disciplined way c, w.extent?_of_begun c⟩, ?_, ?_, ?_, ?_⟩
  · intro e he d hstep
    obtain ⟨past, outer, located, -⟩ := of_mem e he
    unfold Event.Located at located
    rw [hstep] at located
    rcases located with none | ⟨symbol, scope⟩
    · exact .inl none
    · obtain ⟨name, r, scope, stored, kind, f, g, within, hr, hscope, made⟩ := scope
      have has : root.Has d.tree := .of_within (entered e he d hstep).1
      exact .inr ⟨symbol, r, scope, stored, kind, f, g, hscope,
        covers_of_has whole ordered has (.of_within within) hscope hr, made⟩
  · intro e he call hcall isScope
    obtain ⟨past, outer, located, unsigned, -⟩ := of_mem e he
    have extent : ∃ x, call.extent? = some x := by
      cases call <;> first | exact ⟨_, rfl⟩ | cases isScope
    obtain ⟨x, hx⟩ := extent
    unfold Event.Located at located
    cases hstep : e.step with
    | enter d => exact ⟨d, rfl⟩
    | look d | parameter d =>
      rw [hstep] at located
      have plain := (located call hcall (unsigned call hcall) x hx).1
      rw [isScope] at plain
      cases plain
    | _ =>
      rw [hstep] at located
      rw [located] at hcall
      cases hcall
  · intro e he e' he' d d' r r' hstep hstep' hr hr'
    obtain ⟨within, definition⟩ := entered e he d hstep
    obtain ⟨within', definition'⟩ := entered e' he' d' hstep'
    have hd := Cursor.mem_placesFrom_iff.mpr within
    have hd' := Cursor.mem_placesFrom_iff.mpr within'
    obtain ⟨nested, disjoint⟩ := nested_iff_and_disjoint_iff whole ordered hd hd'
      (named d hd definition) (named d' hd' definition') hr hr'
    refine ⟨nested, disjoint, fun around => ?_⟩
    exact covers_of_has whole ordered (.of_within within)
      (.of_within (Cursor.within_of_mem_ancestors within' around)) hr hr'
  · intro earlier e later split k hk d place
    obtain ⟨outer, unplaced, h⟩ := scoped_events split
    obtain ⟨-, -, ds, -, -, follows⟩ := id h
    obtain ⟨-, around, e₀, he₀, hstep, scope⟩ := follows.of_mem unplaced hk place
    obtain ⟨name, r, scope, stored, kind, f, g, within, hr, hscope, made⟩ := scope
    refine ⟨e₀, he₀, hstep, scope, g, hscope, by simp [made, Context.fixed], ?_⟩
    intro call hcall x hx
    obtain ⟨ds, c', u, r', around', has, hr', rfl, follows⟩ := h.part hcall hx
    obtain ⟨hd, -⟩ := follows.of_mem unplaced hk place
    obtain ⟨within_c, among⟩ := inside _ _ around'
    have within_d := Cursor.within_of_mem_ancestors within_c (among d hd)
    refine ⟨r', rfl, covers_of_has whole ordered ?_ (.trans (.of_within within_d) has) hscope hr'⟩
    exact .of_within (within_c.ancestor (among d hd))

/-! ### The two indexers -/

theorem Syntactic.locates_actions (s : Setting) (root : Tree) :
    (actions s : Actions Client).Locates root where
  look d _ := locating_visitSelf s d
  parameter d := locating_visitParameter d
  name _ d o _ _ opened := by
    obtain ⟨name, hname, nameAt⟩ := nameAt_of_opening opened
    exact ⟨name, nameAt, (Cursor.above_of_definedName hname).2 d .here⟩

/-- A construct with a name has a first identifier. -/
theorem Cursor.firstName?_of_hasName {c : Cursor} (h : c.tree.hasName = true) :
    ∃ name, c.firstName? = .ok (some name) ∧ c.Within name := by
  obtain ⟨t, above⟩ := c
  obtain ⟨kind, parts, token, rfl, mem, isName, -⟩ := Tree.exists_name h
  obtain ⟨i, hi⟩ := List.getElem?_of_mem mem
  have part : (⟨.leaf token, ⟨kind, parts, i⟩ :: above⟩ : Cursor) ∈ childrenOf kind parts above :=
    List.mem_map.mpr ⟨(.leaf token, i), by simpa using List.mem_zipIdx_iff_getElem?.mpr hi, rfl⟩
  cases found : (childrenOf kind parts above).find? (Tree.isName ·.tree) with
  | none => exact absurd isName (List.find?_eq_none.mp found _ part)
  | some name =>
    have first : (⟨.node kind parts, above⟩ : Cursor).firstName? = .ok (some name) :=
      congrArg Except.ok found
    exact ⟨name, first, (Cursor.parent?_of_firstName? first).2.2 _ .here⟩

theorem Semantic.Setting.locates_actions (s : Setting) {root : Tree}
    (named : root.DefinitionsNamed) : (s.actions : Actions Client).Locates root where
  look _ plain := s.locating_visitSelf plain
  parameter _ := locating_of_writes fun _ _ => .pure (by simp)
  name _ d o hd definition opened := by
    obtain ⟨name, first, within⟩ := Cursor.firstName?_of_hasName (named d hd definition)
    rw [nameAt_of_opening opened] at first
    exact ⟨name, Except.ok.inj first, within⟩

/-- In a tree without empty constructs, whose tokens are in order and whose classes and functions
have names, the ranges that either indexer records are nested in every run: the range of a name lies
within that of its definition, those of two definitions are nested just if one is around the other
and have nothing in common otherwise, and what is recorded in the context of a definition lies
within its range. -/
theorem recorded_scopes_nest (t : Tree) (whole : t.HasNoEmptyConstruct) (ordered : t.InOrder)
    (named : t.DefinitionsNamed) (c : Client) :
    (∀ s : Syntactic.Setting,
      (Syntactic.index s t : Indexing Client Unit) = (Syntactic.walk s t).carryOut ∧
        (Syntactic.walk s t).NestsScopes c) ∧
      ∀ s : Semantic.Setting, (s.index t : Indexing Client Unit) = (s.walk t).carryOut ∧
        (s.walk t).NestsScopes c := by
  refine ⟨fun s => ⟨Syntactic.index_eq s t, ?_⟩, fun s => ⟨s.index_eq t, ?_⟩⟩
  · refine Walk.nestsScopes whole ordered named (Syntactic.disciplined_actions s)
      (Syntactic.locates_actions s t) (Syntactic.way_inside t) ?_ c
    rintro ds d ⟨entered, within⟩
    exact ⟨within, fun d' hd' => Cursor.mem_ancestorsAmong_of_mem (entered.mem hd')⟩
  · refine Walk.nestsScopes whole ordered named s.disciplined_actions (s.locates_actions named)
      (Semantic.Setting.way_inside t) ?_ c
    rintro ds d ⟨rfl, within⟩
    exact ⟨within, fun d' hd' => Cursor.mem_ancestorsAmong_of_mem hd'⟩

/-- In the sample module a range is recorded in the context of a method, which is inside of a
class. -/
theorem sampleModule_scopes_nest :
    let w := Syntactic.walk ⟨⟨"/w", virtualFile, []⟩, true⟩ sampleModule
    let c : Client := { database := {} }
    sampleModule.HasNoEmptyConstruct ∧ sampleModule.InOrder ∧ sampleModule.DefinitionsNamed ∧
      w.NestsScopes c ∧ ((w.events c.fresh).any fun e =>
        (e.before.contexts.filter (·.place.isSome)).length == 2 &&
          e.made.any (·.extent?.isSome)) = true := by
  intro w c
  have whole : sampleModule.HasNoEmptyConstruct := by decide
  have ordered : sampleModule.InOrder := by decide +kernel
  have named : sampleModule.DefinitionsNamed := by decide
  have nests := ((recorded_scopes_nest sampleModule whole ordered named c).1
    ⟨⟨"/w", virtualFile, []⟩, true⟩).2
  exact ⟨whole, ordered, named, nests, by decide +kernel⟩

end CodeIndex
