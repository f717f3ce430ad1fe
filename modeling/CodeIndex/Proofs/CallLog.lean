import CodeIndex.Database.Client
import CodeIndex.Proofs.History
import CodeIndex.Proofs.StackDiscipline

/-!
# The log of a run

An indexer that reports to the database leaves a log of calls. Every recording that it makes on its
way through a tree is one call, at the end of the log. Nothing is ever taken back, so the log of a
run is what the beginning of the run logged, followed by the calls of its events one after the
other.

Only names are origins of references: a call that has an origin is made when a name is looked at,
and the origin is the innermost context at that time.
-/

namespace CodeIndex

open Indexing

/-! ### Calls -/

/-- The calls of the database so far. -/
def Trace.calls (s : Trace Client) : List LogEntry := s.recorder.database.log.toList

/-- The state in which an indexer begins that reports to the client. -/
def Client.fresh (c : Client) : Trace Client := { recorder := c }

/-- The state after a call of the database. -/
def Trace.logged (s : Trace Client) (call : Call) : Trace Client :=
  { s with recorder := { s.recorder with database := s.recorder.database.after call } }

@[simp] theorem Trace.calls_logged (s : Trace Client) (call : Call) :
    (s.logged call).calls = s.calls ++ [⟨call, s.recorder.database.answer call⟩] := by
  simp [Trace.calls, Trace.logged, Database.after]

/-- The calls of an event. -/
def Event.calls (e : Event Client) : List LogEntry := e.after.calls.drop e.before.calls.length

/-- The value from which a call records a reference. -/
def Call.origin? : Call → Option Value
  | .reference context _ _ | .unsolvedReference context _ _ _ => some context
  | _ => none

/-- The call records a local variable. -/
def Call.isLocal : Call → Bool
  | .localSymbol _ => true
  | _ => false

/-- The call for a recording about the file `file`. The recordings at the beginning of a run and
that of a missing name are more or less than one call. -/
def Recording.call? (file : Value) : Recording → Option Call
  | .symbol name => some (.symbol name.stored)
  | .namelessMember owner => some (.symbol owner.storedNameless)
  | .definitionKind i kind => some (.definitionKind i kind)
  | .symbolKind i kind => some (.symbolKind i kind)
  | .symbolLocation i range => some (.symbolLocation i file range)
  | .scopeLocation i range => some (.scopeLocation i file range)
  | .reference context target kind => some (.reference context target kind)
  | .referenceLocation i range => some (.referenceLocation i file range)
  | .unsolvedReference context kind range => some (.unsolvedReference context kind file range)
  | .qualifierLocation i range => some (.qualifierLocation i file range)
  | .localSymbol name => some (.localSymbol name)
  | .localLocation i range => some (.localLocation i file range)
  | .atomicRange range => some (.atomicRange file range)
  | .error message fatal range => some (.error message fatal file range)
  | _ => none

/-- A recording on the way through a tree is one call. If an identifier is given back, it is the
answer to that call. -/
theorem emit_eq_logged {k : Standing} {r : Recording} (h : k.Admits r) (s : Trace Client) :
    ∃ call v, r.call? s.recorder.file = some call ∧ emit r s = .ok v (s.logged call) ∧
      (v = s.recorder.database.answer call ∨ ∀ k : Standing, k.Gains v r) := by
  cases r with
  | symbol | namelessMember | reference | localSymbol | unsolvedReference | qualifierLocation =>
    exact ⟨_, _, rfl, rfl, .inl rfl⟩
  | definitionKind | symbolKind | symbolLocation | scopeLocation | referenceLocation
  | localLocation | atomicRange | error => exact ⟨_, _, rfl, rfl, .inr fun _ => trivial⟩
  | _ => exact h.elim

/-- Only references have origins, and these are the origins of the recordings. -/
theorem Standing.Admits.origin {k : Standing} {r : Recording} {file x : Value} {call : Call}
    (h : k.Admits r) (hcall : r.call? file = some call) (hx : call.origin? = some x) :
    k.origin x := by
  cases r with
  | reference context target kind =>
    obtain rfl := Option.some.inj hcall
    obtain rfl := Option.some.inj hx
    exact h.1
  | unsolvedReference context kind range =>
    obtain rfl := Option.some.inj hcall
    obtain rfl := Option.some.inj hx
    exact h
  | file | fileLanguage | namelessSymbol | signatureLocation | ambiguousReference => cases hcall
  | _ =>
    obtain rfl := Option.some.inj hcall
    cases hx

/-! ### The log of a run is made up of its events -/

theorem Event.calls_eq {e : Event Client} {more : List LogEntry}
    (h : e.after.calls = e.before.calls ++ more) : e.calls = more := by
  rw [Event.calls, h, List.drop_left]

theorem Actions.calls_run {A : Actions Client} (xs : List Step) (held : Held) (s : Trace Client)
    (grows : ∀ e ∈ A.events xs held s, e.before.calls <+: e.after.calls) :
    (finalState (A.run xs held s)).calls = s.calls ++ (A.events xs held s).flatMap Event.calls := by
  induction xs generalizing held s with
  | nil => exact (List.append_nil _).symm
  | cons x xs ih =>
    cases hx : A.perform x held s with
    | error e t =>
      rw [Actions.events_error hx] at grows ⊢
      obtain ⟨more, hmore⟩ := grows _ (List.mem_singleton.mpr rfl)
      rw [Actions.run_error hx, List.flatMap_singleton, Event.calls_eq hmore.symm]
      exact hmore.symm
    | ok held' t =>
      rw [Actions.events_ok hx] at grows ⊢
      obtain ⟨more, hmore⟩ := grows _ (List.mem_cons_self)
      have rest := ih held' t fun e he => grows e (List.mem_cons_of_mem _ he)
      rw [Actions.run_ok hx, rest, List.flatMap_cons, Event.calls_eq hmore.symm,
        ← List.append_assoc]
      exact congrArg (· ++ _) hmore.symm

/-! ### Origins of references -/

/-- The stacks are as they were, and the calls since then whose origin is given have the innermost
context as their origin. There are such calls only if `p` holds. -/
structure Attributes (p : Prop) (s t : Trace Client) : Prop where
  settled : Settled s t
  calls : ∃ more, t.calls = s.calls ++ more ∧
    ∀ e ∈ more, ∀ x, e.call.origin? = some x → p ∧ s.IsTop x

theorem Settled.isTop {s t : Trace Client} (h : Settled s t) {x : Value} (hx : t.IsTop x) :
    s.IsTop x := by
  obtain ⟨top, rest, ht, hid⟩ := hx
  have grown := h.contexts
  rw [ht] at grown
  cases hs : s.contexts with
  | nil =>
    rw [hs] at grown
    cases (grown : top :: rest = [])
  | cons top' rest' =>
    rw [hs] at grown
    obtain ⟨more, same⟩ := grown
    obtain ⟨rfl, -⟩ := List.cons.inj same
    exact ⟨top', rest', hs, hid⟩

namespace Attributes

variable {p : Prop} {s t u : Trace Client}

/-- Nothing is logged. -/
theorem quiet (settled : Settled s t) (same : t.calls = s.calls) : Attributes p s t :=
  ⟨settled, [], by rw [same, List.append_nil], by simp⟩

theorem trans (hst : Attributes p s t) (htu : Attributes p t u) : Attributes p s u := by
  obtain ⟨more, hmore, origins⟩ := hst.calls
  obtain ⟨more', hmore', origins'⟩ := htu.calls
  refine ⟨hst.settled.trans htu.settled, more ++ more', ?_, fun e he x hx => ?_⟩
  · rw [hmore', hmore, List.append_assoc]
  · rcases List.mem_append.mp he with he | he
    · exact origins e he x hx
    · obtain ⟨hp, isTop⟩ := origins' e he x hx
      exact ⟨hp, hst.settled.isTop isTop⟩

theorem logged {call : Call} (h : ∀ x, call.origin? = some x → p ∧ s.IsTop x) :
    Attributes p s (s.logged call) := by
  refine ⟨⟨rfl, .refl s.contexts⟩, _, s.calls_logged call, fun e he => ?_⟩
  obtain rfl := List.mem_singleton.mp he
  exact h

end Attributes

/-- The discipline of references: they start from the innermost context, and only if `p` holds. -/
def attribution (p : Prop) : Discipline Client where
  holds _ := True
  goes := Attributes p
  standing s := ⟨fun _ => True, fun _ => True, fun _ => True, fun x => p ∧ s.IsTop x⟩
  refl {s} _ := .quiet (.refl s) rfl
  trans := .trans
  holds_of_goes _ := trivial
  symbol_mono _ _ := trivial
  print {s} _ _ _ := .quiet ⟨rfl, .refl s.contexts⟩ rfl
  declare {s} name _ := .quiet ⟨rfl, .withLocal name s.contexts⟩ rfl
  record {s r} _ admitted := by
    obtain ⟨call, v, hcall, emitted, -⟩ := emit_eq_logged admitted s
    rw [emitted]
    exact ⟨.logged fun _ hx => admitted.origin hcall hx, by cases r <;> trivial⟩

/-! ### What steps add to the log -/

section Steps

variable {A : Actions Client} {p : Prop} {held held' : Held} {s t : Trace Client} {x : Step}

/-- What a step adds to the log. -/
theorem Actions.Effect.calls (effect : A.Effect (attribution p) held s held' t x) :
    ∃ more, t.calls = s.calls ++ more ∧
      ∀ e ∈ more, ∀ x, e.call.origin? = some x → p ∧ s.IsTop x := by
  have nothing : t.calls = s.calls → ∃ more, t.calls = s.calls ++ more ∧
      ∀ e ∈ more, ∀ x, e.call.origin? = some x → p ∧ s.IsTop x :=
    fun same => ⟨[], by rw [same, List.append_nil], by simp⟩
  cases x with
  | list | unlist | look | parameter => exact effect.2.calls
  | enter c =>
    obtain ⟨-, o, symbol, s₁, u, -, -, recorded, -, -, rfl⟩ := effect
    exact recorded.calls
  | leave | impose | lift | drop | beginAlias | endAlias =>
    obtain ⟨-, rfl⟩ := effect
    exact nothing rfl
  | aliasWord =>
    match held with
    | [] | some _ :: _ | none :: _ =>
      obtain ⟨-, rfl⟩ := effect
      exact nothing rfl
  | fail e => exact effect.elim

/-- A definition that is entered is recorded first of all. -/
theorem calls_of_enter {c : Cursor} (effect : A.Effect (attribution p) held s held' t (.enter c)) :
    ∃ o symbol u more, A.opening s.contexts c = .ok o ∧ Grown s.contexts u ∧
      t.contexts = o.context c symbol :: u ∧
      t.calls = s.calls ++ ⟨.symbol o.name.stored, symbol⟩ :: more := by
  obtain ⟨-, o, symbol, s₁, u, opened, emitted, recorded, described, -, rfl⟩ := effect
  obtain ⟨more, calls, -⟩ := described.calls
  obtain ⟨rfl, rfl⟩ : s.recorder.database.answer (.symbol o.name.stored) = symbol ∧
      s.logged (.symbol o.name.stored) = s₁ := by
    cases emitted
    exact ⟨rfl, rfl⟩
  refine ⟨o, _, u.contexts, more, opened, recorded.settled.contexts, rfl, ?_⟩
  change u.calls = _
  rw [calls, Trace.calls_logged, List.append_assoc]
  rfl

/-- Nothing is ever taken back. -/
theorem Way.grows {R : List Cursor → Cursor → Prop} {ds ds' : List Cursor} {xs : List Step}
    (way : Way R ds xs ds') (disciplined : A.Disciplined) :
    ∀ e ∈ A.events xs held s, e.before.calls <+: e.after.calls := by
  intro e he
  obtain ⟨earlier, later, split⟩ := List.append_of_mem he
  refine way.history (I := fun _ _ _ => True)
    (P := fun _ (e : Event Client) => e.before.calls <+: e.after.calls) ?_ [] trivial split
  intro past ds ds' x held s shifts _
  have keeps : A.Keeps (attribution True) x :=
    disciplined.keeps shifts fun _ s x _ isTop => ⟨trivial, isTop⟩
  have added : ∀ t : Trace Client, (∃ more, t.calls = s.calls ++ more ∧ ∀ e ∈ more, ∀ x,
      e.call.origin? = some x → True ∧ s.IsTop x) → s.calls <+: t.calls := by
    rintro t ⟨more, calls, -⟩
    exact ⟨more, calls.symm⟩
  exact (Actions.outcome_perform keeps held trivial).mono
    (fun held' t effect => ⟨added t effect.calls, trivial⟩) fun t h => added t h.calls

end Steps

/-! ### The beginning of a run -/

section Start

variable {ρ : Type} [Recorder ρ]

/-- The first part of the beginning of a run: the file. -/
def startFile (source : Source) : Indexing ρ Unit := do
  let file ← emit (.file source.path)
  if file.number? = some 0 then
    say ("ERROR: " ++ (← recording Recorder.explain))
  note (.fileLanguage file language)
  enter { id := file, kind := .file, name := source.path }

/-- The second part of the beginning of a run: the module. -/
def startModule : Option QualifiedName → Indexing ρ Unit
  | none => pure ()
  | some name => do
    let symbol ← emit (.symbol name)
    note (.definitionKind symbol .explicit)
    note (.symbolKind symbol .moduleSymbol)
    enter { id := symbol, kind := .moduleLevel, name := name.display }

theorem start_eq (source : Source) (name : Except Fault (Option QualifiedName)) :
    (start source name : Indexing ρ Unit) = (do startFile source; startModule (← name)) := by
  unfold start startFile
  simp only [bind_assoc]
  refine bind_congr fun file => ?_
  split
  · simp only [bind_assoc]
    refine bind_congr fun _ => bind_congr fun _ => bind_congr fun _ => bind_congr fun _ => ?_
    refine bind_congr fun name => ?_
    cases name <;> rfl
  · simp only [bind_assoc]
    refine bind_congr fun _ => bind_congr fun _ => bind_congr fun name => ?_
    cases name <;> rfl

end Start

variable {s t : Trace Client} {path : String} {file : Value}

/-- The context of the file at a path. -/
def fileContext (path : String) (file : Value) : Context :=
  { id := file, kind := .file, name := path }

/-- The context of a module. -/
def moduleContext (name : QualifiedName) (symbol : Value) : Context :=
  { id := symbol, kind := .moduleLevel, name := name.display }

/-- The file has been recorded, and nothing more than its language and the reason why it was
refused. -/
structure FileLogged (path : String) (file : Value) (s t : Trace Client) : Prop where
  indexed : t.recorder.file = file
  calls : ∃ more, t.calls = s.calls ++ ⟨.file (Client.slashed path), file⟩ :: more ∧
    ∀ e ∈ more, e.call = .lastError ∨ e.call = .fileLanguage file language

theorem FileLogged.logged (h : FileLogged path file s t) {call : Call}
    (hcall : call = .lastError ∨ call = .fileLanguage file language) :
    FileLogged path file s (t.logged call) := by
  obtain ⟨more, hmore, ofFile⟩ := h.calls
  refine ⟨h.indexed, more ++ [⟨call, t.recorder.database.answer call⟩], ?_, fun e he => ?_⟩
  · rw [Trace.calls_logged, hmore, List.append_assoc, List.cons_append]
  · rcases List.mem_append.mp he with he | he
    · exact ofFile e he
    · obtain rfl := List.mem_singleton.mp he
      exact hcall

/-- Neither references nor symbols are recorded along with the file. -/
theorem FileLogged.plain (h : FileLogged path file s t) :
    ∃ more, t.calls = s.calls ++ ⟨.file (Client.slashed path), file⟩ :: more ∧
      ∀ e ∈ (⟨.file (Client.slashed path), file⟩ :: more : List LogEntry),
        e.call.origin? = none ∧ ∀ stored, e.call ≠ .symbol stored := by
  obtain ⟨more, calls, ofFile⟩ := h.calls
  refine ⟨more, calls, fun e he => ?_⟩
  rcases List.mem_cons.mp he with rfl | he
  · exact ⟨rfl, by simp⟩
  · rcases ofFile e he with call | call
    · exact ⟨by rw [call]; rfl, by simp [call]⟩
    · exact ⟨by rw [call]; rfl, by simp [call]⟩

theorem emit_file (path : String) (s : Trace Client) :
    ∃ file s₁, emit (.file path) s = .ok file s₁ ∧ FileLogged path file s s₁ ∧
      s₁.contexts = s.contexts := by
  have first : FileLogged path (s.recorder.database.answer (.file (Client.slashed path))) s
      { s with recorder :=
          { database := s.recorder.database.after (.file (Client.slashed path))
            file := s.recorder.database.answer (.file (Client.slashed path)) } } :=
    ⟨rfl, [], s.calls_logged (.file (Client.slashed path)), by simp⟩
  exact ⟨_, _, rfl, first.logged (.inr rfl), rfl⟩

theorem outcome_explain (s : Trace Client) :
    Outcome (fun _ t => t = s.logged .lastError) (fun t => t = s.logged .lastError)
      (recording Recorder.explain s) := by
  refine Outcome.focus ?_
  simp only [Recorder.explain, Client.lastError]
  cases (s.recorder.ask .lastError).1.asText with
  | ok reason => exact rfl
  | error e => exact rfl

/-- What the first part of the beginning does. -/
theorem outcome_startFile (source : Source) (s : Trace Client) :
    Outcome
      (fun _ t => ∃ file, FileLogged source.path file s t ∧
        t.contexts = fileContext source.path file :: s.contexts)
      (fun t => ∃ file, FileLogged source.path file s t ∧ t.contexts = s.contexts)
      (startFile source s) := by
  obtain ⟨file, s₁, emitted, recorded, contexts⟩ := emit_file source.path s
  have rest : ∀ t, FileLogged source.path file s t → t.contexts = s.contexts →
      Outcome
        (fun _ t => ∃ file, FileLogged source.path file s t ∧
          t.contexts = fileContext source.path file :: s.contexts)
        (fun t => ∃ file, FileLogged source.path file s t ∧ t.contexts = s.contexts)
        ((do
          note (.fileLanguage file language)
          enter { id := file, kind := .file, name := source.path } : Indexing Client Unit) t) := by
    intro t recorded contexts
    obtain ⟨indexed, calls⟩ := recorded.logged (.inr rfl)
    exact ⟨file, ⟨indexed, calls⟩, by rw [← contexts]; rfl⟩
  unfold startFile
  refine Outcome.bind ?_
  rw [emitted]
  change Outcome _ _ ((if _ then _ else _ : Indexing Client Unit) s₁)
  split
  · refine Outcome.bind ((outcome_explain s₁).mono ?_ ?_)
    · rintro reason _ rfl
      obtain ⟨indexed, calls⟩ := recorded.logged (.inl rfl)
      exact rest _ ⟨indexed, calls⟩ contexts
    · rintro _ rfl
      exact ⟨file, recorded.logged (.inl rfl), contexts⟩
  · exact rest s₁ recorded contexts

/-- What the second part of the beginning does for a file that has a name. -/
theorem startModule_some (name : QualifiedName) (s : Trace Client) :
    ∃ symbol described t, startModule (some name) s = .ok () t ∧
      t.recorder.file = s.recorder.file ∧
      t.calls = s.calls ++ ⟨.symbol name.stored, symbol⟩ :: described ∧
      (∀ e ∈ described, e.call = .definitionKind symbol .explicit ∨
        e.call = .symbolKind symbol .moduleSymbol) ∧
      t.contexts = moduleContext name symbol :: s.contexts := by
  let symbol := s.recorder.database.answer (.symbol name.stored)
  let s₁ := s.logged (.symbol name.stored)
  let s₂ := s₁.logged (.definitionKind symbol .explicit)
  let s₃ := s₂.logged (.symbolKind symbol .moduleSymbol)
  have calls : ∃ v w, s₃.calls = s.calls ++ [⟨.symbol name.stored, symbol⟩,
      ⟨.definitionKind symbol .explicit, v⟩, ⟨.symbolKind symbol .moduleSymbol, w⟩] := by
    refine ⟨s₁.recorder.database.answer (.definitionKind symbol .explicit),
      s₂.recorder.database.answer (.symbolKind symbol .moduleSymbol), ?_⟩
    rw [Trace.calls_logged, Trace.calls_logged, Trace.calls_logged, List.append_assoc,
      List.append_assoc]
    rfl
  obtain ⟨v, w, calls⟩ := calls
  refine ⟨symbol, _, { s₃ with contexts := moduleContext name symbol :: s.contexts }, rfl, rfl,
    calls, ?_, rfl⟩
  intro e he
  rcases List.mem_cons.mp he with rfl | he
  · exact .inl rfl
  · obtain rfl := List.mem_singleton.mp he
    exact .inr rfl

/-- A run has begun: the file is recorded and, if it has a name, its module. -/
def Begun (path : String) (s t : Trace Client) : Option QualifiedName → Prop
  | none => ∃ file, FileLogged path file s t ∧ t.contexts = [fileContext path file]
  | some name => ∃ file symbol u described, FileLogged path file s u ∧ t.recorder.file = file ∧
      t.calls = u.calls ++ ⟨.symbol name.stored, symbol⟩ :: described ∧
      (∀ e ∈ described, e.call = .definitionKind symbol .explicit ∨
        e.call = .symbolKind symbol .moduleSymbol) ∧
      t.contexts = [moduleContext name symbol, fileContext path file]

/-- What the beginning of a run does. -/
theorem outcome_start (source : Source) (name : Except Fault (Option QualifiedName)) (c : Client) :
    Outcome (fun _ t => ∃ n, name = .ok n ∧ Begun source.path c.fresh t n)
      (fun t => ∃ file, FileLogged source.path file c.fresh t) (start source name c.fresh) := by
  rw [start_eq]
  refine Outcome.bind ((outcome_startFile source _).mono ?_ ?_)
  · rintro _ t ⟨file, recorded, contexts⟩
    refine Outcome.liftBind ⟨file, recorded⟩ fun n hn => ?_
    cases n with
    | none => exact ⟨none, hn, file, recorded, contexts⟩
    | some n =>
      obtain ⟨symbol, described, u, run, indexed, calls, about, entered⟩ := startModule_some n t
      rw [run]
      rw [contexts] at entered
      exact ⟨some n, hn, file, symbol, t, described, recorded, indexed.trans recorded.indexed,
        calls, about, entered⟩
  · rintro t ⟨file, recorded, -⟩
    exact ⟨file, recorded⟩

/-! ### Whole runs -/

namespace Walk

variable {w : Walk Client} {c : Client} {t : Trace Client}

/-- The calls with which a run begins. -/
def begun (w : Walk Client) (c : Client) : List LogEntry :=
  (finalState (start w.source w.moduleName c.fresh)).calls.drop c.fresh.calls.length

theorem events_of_start (h : start w.source w.moduleName c.fresh = .ok () t) :
    w.events c.fresh = w.actions.events w.steps [] t := by
  rw [events, h]

theorem begun_of_start {r : EStateM.Result Fault (Trace Client) Unit} {more : List LogEntry}
    (h : start w.source w.moduleName c.fresh = r)
    (calls : (finalState r).calls = c.fresh.calls ++ more) : w.begun c = more := by
  rw [begun, h, calls, List.drop_left]

/-- No reference is recorded at the beginning, and nothing is taken back. -/
theorem calls_begun (w : Walk Client) (c : Client) :
    (finalState (start w.source w.moduleName c.fresh)).calls = c.fresh.calls ++ w.begun c ∧
      ∀ entry ∈ w.begun c, entry.call.origin? = none := by
  have logged : ∃ more, (finalState (start w.source w.moduleName c.fresh)).calls =
      c.fresh.calls ++ more ∧ ∀ entry ∈ more, entry.call.origin? = none := by
    have outcome := outcome_start w.source w.moduleName c
    cases h : start w.source w.moduleName c.fresh with
    | error e t =>
      rw [h] at outcome
      obtain ⟨file, logged⟩ := outcome
      obtain ⟨more, calls, plain⟩ := logged.plain
      exact ⟨_, calls, fun entry he => (plain entry he).1⟩
    | ok _ t =>
      rw [h] at outcome
      obtain ⟨name, -, begun⟩ := outcome
      cases name with
      | none =>
        obtain ⟨file, logged, -⟩ := begun
        obtain ⟨more, calls, plain⟩ := logged.plain
        exact ⟨_, calls, fun entry he => (plain entry he).1⟩
      | some name =>
        obtain ⟨file, symbol, u, described, logged, -, calls, about, -⟩ := begun
        obtain ⟨more, before, plain⟩ := logged.plain
        rw [before, List.append_assoc] at calls
        refine ⟨_, calls, fun entry he => ?_⟩
        rcases List.mem_append.mp he with he | he
        · exact (plain entry he).1
        · rcases List.mem_cons.mp he with rfl | he
          · rfl
          · rcases about entry he with call | call <;> rw [call] <;> rfl
  obtain ⟨more, calls, origins⟩ := logged
  rw [begun_of_start rfl calls]
  exact ⟨calls, origins⟩

/-- The log of a run is what was logged at the beginning and then the calls of its events. -/
theorem calls_carryOut {R : List Cursor → Cursor → Prop} {ds : List Cursor}
    (disciplined : w.actions.Disciplined) (way : Way R [] w.steps ds) (c : Client) :
    (finalState (w.carryOut c.fresh)).calls =
      c.fresh.calls ++ w.begun c ++ (w.events c.fresh).flatMap Event.calls := by
  rw [← (w.calls_begun c).1]
  cases h : start w.source w.moduleName c.fresh with
  | error fault t =>
    rw [events, h, carryOut, bind_of_error h]
    exact (List.append_nil _).symm
  | ok _ t =>
    rw [carryOut, bind_of_ok h, finalState_discard, events_of_start h]
    exact Actions.calls_run w.steps [] t (way.grows disciplined)

end Walk

end CodeIndex
