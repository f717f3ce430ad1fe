import CodeIndex.Proofs.CallLog
import CodeIndex.Proofs.Walk.Semantic
import CodeIndex.Session

/-!
# No dangling identifiers

The calls in the log of a session speak about symbols, references, local variables and the file by
identifiers. Here it is proved that every identifier that an indexer passes to the database was
given out by the database itself, earlier in the same session and for something of the right kind,
whatever the database answers and however the session ends. Locations and errors are in the one file
that was recorded.

## What is proved

* `soundness` — the discipline: a recording whose identifiers were given out before adds a call
  whose identifiers were given out before.
* `Sound.run` — so every run keeps the log free of dangling identifiers, step by step.
* `sessions_have_no_dangling_ids` — so does every session, for a file as well as for a piece of
  text.
-/

namespace CodeIndex

open Indexing

/-! ### Identifiers that were given out -/

namespace Call

/-- The call records a symbol. -/
def isSymbol : Call → Bool
  | .symbol _ => true
  | _ => false

/-- The call records the file. -/
def isFile : Call → Bool
  | .file _ => true
  | _ => false

/-- The call records a reference to a symbol. -/
def isReference : Call → Bool
  | .reference _ _ _ => true
  | _ => false

end Call

/-- One of the calls that satisfy `p` was answered with the value. -/
def Answered (log : List LogEntry) (p : Call → Bool) (v : Value) : Prop :=
  ∃ e ∈ log, p e.call = true ∧ e.answer = v

/-- The value was given out for a symbol or for the file. -/
def IsOrigin (log : List LogEntry) (v : Value) : Prop :=
  Answered log Call.isSymbol v ∨ Answered log Call.isFile v

/-- The identifiers in a call were given out by the earlier calls for what the call takes them for.
A file is recorded only once. -/
def Backed (earlier : List LogEntry) : Call → Prop
  | .definitionKind i _ | .symbolKind i _ => Answered earlier Call.isSymbol i
  | .symbolLocation i file _ | .scopeLocation i file _ | .signatureLocation i file _
  | .qualifierLocation i file _ =>
    Answered earlier Call.isSymbol i ∧ Answered earlier Call.isFile file
  | .reference context target _ => IsOrigin earlier context ∧ Answered earlier Call.isSymbol target
  | .unsolvedReference context _ file _ =>
    IsOrigin earlier context ∧ Answered earlier Call.isFile file
  | .referenceLocation i file _ =>
    Answered earlier Call.isReference i ∧ Answered earlier Call.isFile file
  | .ambiguousReference i => Answered earlier Call.isReference i
  | .localLocation i file _ => Answered earlier Call.isLocal i ∧ Answered earlier Call.isFile file
  | .fileLanguage file _ | .atomicRange file _ | .error _ _ file _ =>
    Answered earlier Call.isFile file
  | .file _ => ∀ e ∈ earlier, e.call.isFile = false
  | _ => True

/-- Every call in the log is backed by the calls before it. -/
def NoDangling (log : List LogEntry) : Prop :=
  ∀ pre e post, log = pre ++ e :: post → Backed pre e.call

theorem Answered.append {log : List LogEntry} {p : Call → Bool} {v : Value} (h : Answered log p v)
    (more : List LogEntry) : Answered (log ++ more) p v := by
  obtain ⟨e, he, call, answer⟩ := h
  exact ⟨e, List.mem_append_left more he, call, answer⟩

theorem IsOrigin.append {log : List LogEntry} {v : Value} (h : IsOrigin log v)
    (more : List LogEntry) : IsOrigin (log ++ more) v :=
  h.imp (·.append more) (·.append more)

namespace NoDangling

theorem nil : NoDangling [] := by
  intro pre e post split
  simp at split

/-- Further calls that are backed by all calls before them. -/
theorem append {log more : List LogEntry} (h : NoDangling log)
    (backed : ∀ pre e post, more = pre ++ e :: post → Backed (log ++ pre) e.call) :
    NoDangling (log ++ more) := by
  intro pre e post split
  rcases List.append_eq_append_iff.mp split with ⟨mid, rfl, rfl⟩ | ⟨mid, rfl, hmid⟩
  · exact backed mid e post rfl
  · cases mid with
    | nil =>
      have here := backed [] e post hmid.symm
      rwa [List.append_nil, List.append_nil] at here
    | cons e' mid =>
      obtain ⟨rfl, -⟩ := List.cons.inj hmid
      exact h pre e mid rfl

theorem concat {log : List LogEntry} (h : NoDangling log) {e : LogEntry}
    (backed : Backed log e.call) :
    NoDangling (log ++ [e]) := by
  refine h.append fun pre e' post split => ?_
  obtain ⟨rfl, hsplit⟩ | ⟨_, -, hsplit⟩ := List.cons_eq_append_iff.mp split
  · obtain ⟨rfl, -⟩ := List.cons.inj hsplit
    rwa [List.append_nil]
  · simp at hsplit

end NoDangling

/-! ### The discipline -/

/-- What has been recorded since the log was `base`. -/
def Trace.since (base : List LogEntry) (s : Trace Client) : List LogEntry :=
  s.calls.drop base.length

/-- Since the log was `base`, no call has dangled; the file was recorded, and the contexts are what
was recorded. -/
structure Sound (base : List LogEntry) (s : Trace Client) : Prop where
  grows : base <+: s.calls
  log : NoDangling (s.since base)
  file : Answered (s.since base) Call.isFile s.recorder.file
  contexts : ∀ k ∈ s.contexts, IsOrigin (s.since base) k.id

/-- What values stand for, as the log has it. -/
def standingIn (log : List LogEntry) : Standing where
  symbol := Answered log Call.isSymbol
  reference := Answered log Call.isReference
  localSymbol := Answered log Call.isLocal
  origin := IsOrigin log

/-- A recording whose identifiers were given out is a call that is backed. -/
theorem Standing.Admits.backed {log : List LogEntry} {r : Recording} {file : Value} {call : Call}
    (h : (standingIn log).Admits r) (indexed : Answered log Call.isFile file)
    (hcall : r.call? file = some call) : Backed log call := by
  cases r with
  | file | fileLanguage | namelessSymbol | signatureLocation | ambiguousReference => cases hcall
  | symbol | namelessMember | localSymbol =>
    obtain rfl := Option.some.inj hcall
    exact trivial
  | definitionKind | symbolKind | reference =>
    obtain rfl := Option.some.inj hcall
    exact h
  | symbolLocation | scopeLocation | referenceLocation | unsolvedReference | qualifierLocation
  | localLocation =>
    obtain rfl := Option.some.inj hcall
    exact ⟨h, indexed⟩
  | atomicRange | error =>
    obtain rfl := Option.some.inj hcall
    exact indexed

/-- The answer to the call of a recording identifies what was recorded. -/
theorem gains_answer {log : List LogEntry} {r : Recording} {file : Value} {e : LogEntry}
    (mem : e ∈ log) (hcall : r.call? file = some e.call) : (standingIn log).Gains e.answer r := by
  cases r with
  | symbol | namelessMember | reference | localSymbol =>
    exact ⟨e, mem, by rw [← Option.some.inj hcall]; rfl, rfl⟩
  | _ => exact trivial

theorem Trace.since_eq {base run : List LogEntry} {s : Trace Client} (h : s.calls = base ++ run) :
    s.since base = run := by
  rw [Trace.since, h, List.drop_left]

theorem Trace.since_append {base more : List LogEntry} {s t : Trace Client} (h : base <+: s.calls)
    (calls : t.calls = s.calls ++ more) : t.since base = s.since base ++ more := by
  rw [Trace.since, calls, List.drop_append_of_le_length h.length_le, Trace.since]

namespace Sound

variable {base : List LogEntry} {s t : Trace Client}

theorem since_logged (h : Sound base s) (call : Call) :
    (s.logged call).since base = s.since base ++ [⟨call, s.recorder.database.answer call⟩] :=
  Trace.since_append h.grows (s.calls_logged call)

theorem logged (h : Sound base s) {call : Call} (backed : Backed (s.since base) call) :
    Sound base (s.logged call) where
  grows := by
    rw [Trace.calls_logged]
    exact h.grows.trans (List.prefix_append s.calls _)
  log := by
    rw [h.since_logged]
    exact h.log.concat backed
  file := by
    rw [h.since_logged]
    exact h.file.append _
  contexts := by
    rw [h.since_logged]
    exact fun k hk => (h.contexts k hk).append _

/-- Only the log, the file and the identifiers of the contexts matter. -/
theorem congr (h : Sound base s) (recorder : t.recorder = s.recorder)
    (contexts : ∀ k ∈ t.contexts, ∃ k' ∈ s.contexts, k'.id = k.id) : Sound base t := by
  have calls : t.calls = s.calls := by rw [Trace.calls, recorder, Trace.calls]
  have since : t.since base = s.since base := by rw [Trace.since, calls, Trace.since]
  refine ⟨by rw [calls]; exact h.grows, by rw [since]; exact h.log, ?_, fun k hk => ?_⟩
  · rw [since, recorder]
    exact h.file
  · obtain ⟨k', hk', same⟩ := contexts k hk
    rw [since, ← same]
    exact h.contexts k' hk'

theorem origin_of_isTop (h : Sound base s) {x : Value} (isTop : s.IsTop x) :
    IsOrigin (s.since base) x := by
  obtain ⟨top, rest, contexts, rfl⟩ := isTop
  exact h.contexts top (by simp [contexts])

end Sound

/-- The discipline of identifiers: they are passed on only as what they were given out for. -/
def soundness (base : List LogEntry) : Discipline Client where
  holds := Sound base
  goes s t := Sound base s ∧ Sound base t ∧ s.calls <+: t.calls
  standing s := standingIn (s.since base)
  refl h := ⟨h, h, List.prefix_rfl⟩
  trans hst htu := ⟨hst.1, htu.2.1, hst.2.2.trans htu.2.2⟩
  holds_of_goes h := h.2.1
  symbol_mono := by
    rintro s t v ⟨hs, -, more, calls⟩ isSymbol
    change Answered (t.since base) Call.isSymbol v
    rw [Trace.since_append hs.grows calls.symm]
    exact isSymbol.append more
  print _ _ h := ⟨h, h.congr rfl fun k hk => ⟨k, hk, rfl⟩, List.prefix_rfl⟩
  declare {s} name h := by
    refine ⟨h, h.congr rfl fun k hk => ?_, List.prefix_rfl⟩
    have same : k.id ∈ s.contexts.map Context.id := by
      rw [← (Grown.withLocal name s.contexts).map_eq fun _ _ => rfl]
      exact List.mem_map_of_mem hk
    exact List.mem_map.mp same
  record {s r} h admitted := by
    obtain ⟨call, v, hcall, emitted, given⟩ := emit_eq_logged admitted s
    rw [emitted]
    have sound := h.logged (admitted.backed h.file hcall)
    refine ⟨⟨h, sound, ?_⟩, ?_⟩
    · rw [Trace.calls_logged]
      exact List.prefix_append s.calls _
    · rcases given with rfl | given
      · refine gains_answer (e := ⟨call, s.recorder.database.answer call⟩) ?_ hcall
        rw [h.since_logged]
        exact List.mem_append_right _ (List.mem_singleton.mpr rfl)
      · exact given _

/-! ### Runs -/

section Runs

variable {A : Actions Client} {base : List LogEntry}

/-- A step keeps the log free of dangling identifiers, also if it ends in a fault. -/
theorem Sound.step {R : List Cursor → Cursor → Prop} {ds ds' : List Cursor} {x : Step}
    (disciplined : A.Disciplined) (shifts : Shifts R ds ds' x) (held : Held) {s : Trace Client}
    (h : Sound base s) : Outcome (fun _ => Sound base) (Sound base) (A.perform x held s) := by
  have keeps : A.Keeps (soundness base) x :=
    disciplined.keeps shifts fun _ s x hs isTop => hs.origin_of_isTop isTop
  refine (Actions.outcome_perform keeps held h).mono (fun held' t effect => ?_) fun t ht => ht.2.1
  have fewer : t.recorder = s.recorder → (∀ k ∈ t.contexts, k ∈ s.contexts) → Sound base t :=
    fun recorder contexts => h.congr recorder fun k hk => ⟨k, contexts k hk, rfl⟩
  cases x with
  | list | unlist | look | parameter => exact effect.2.2.1
  | enter c =>
    obtain ⟨-, o, symbol, s₁, u, -, -, ⟨-, hu, -⟩, -, isSymbol, rfl⟩ := effect
    refine ⟨hu.grows, hu.log, hu.file, fun k hk => ?_⟩
    rcases List.mem_cons.mp hk with rfl | hk
    · exact .inl isSymbol
    · exact hu.contexts k hk
  | leave c =>
    obtain ⟨-, rfl⟩ := effect
    exact fewer rfl fun k hk => mem_of_mem_leaveFrom hk
  | impose | lift | drop | beginAlias | endAlias =>
    obtain ⟨-, rfl⟩ := effect
    exact fewer rfl fun _ hk => hk
  | aliasWord =>
    match held with
    | [] | some _ :: _ | none :: _ =>
      obtain ⟨-, rfl⟩ := effect
      exact fewer rfl fun _ hk => hk
  | fail e => exact effect.elim

theorem Sound.run {R : List Cursor → Cursor → Prop} {ds ds' : List Cursor} {xs : List Step}
    (disciplined : A.Disciplined) (way : Way R ds xs ds') (held : Held) {s : Trace Client}
    (h : Sound base s) : Outcome (fun _ => Sound base) (Sound base) (A.run xs held s) := by
  induction way generalizing held s with
  | nil => exact h
  | cons shifts _ ih =>
    rw [Actions.run_cons]
    exact Outcome.bind ((Sound.step disciplined shifts held h).mono (fun held' t ht => ih held' ht)
      fun _ ht => ht)

end Runs

/-! ### The beginning of a run -/

/-- What is recorded along with the file does not dangle. -/
theorem FileLogged.noDangling {path : String} {file : Value} {s t : Trace Client}
    (h : FileLogged path file s t) :
    ∃ more, t.calls = s.calls ++ more ∧ NoDangling more ∧ Answered more Call.isFile file := by
  obtain ⟨more, calls, ofFile⟩ := h.calls
  have first : ∀ pre : List LogEntry,
      Answered (⟨.file (Client.slashed path), file⟩ :: pre) Call.isFile file :=
    fun pre => ⟨_, List.mem_cons_self, rfl, rfl⟩
  refine ⟨_, calls, fun pre e post split => ?_, first more⟩
  obtain ⟨rfl, hsplit⟩ | ⟨pre', rfl, rfl⟩ := List.cons_eq_append_iff.mp split
  · obtain ⟨rfl, -⟩ := List.cons.inj hsplit
    simp [Backed]
  · rcases ofFile e (by simp) with call | call
    · rw [call]
      exact trivial
    · rw [call]
      exact first pre'

/-- A run that has begun is sound. -/
theorem Begun.sound {path : String} {s t : Trace Client} {name : Option QualifiedName}
    (h : Begun path s t name) : Sound s.calls t := by
  cases name with
  | none =>
    obtain ⟨file, logged, contexts⟩ := h
    obtain ⟨more, calls, noDangling, recorded⟩ := logged.noDangling
    rw [← Trace.since_eq calls] at noDangling recorded
    refine ⟨⟨more, calls.symm⟩, noDangling, ?_, fun k hk => ?_⟩
    · rwa [logged.indexed]
    · rw [contexts] at hk
      obtain rfl := List.mem_singleton.mp hk
      exact .inr recorded
  | some name =>
    obtain ⟨file, symbol, u, described, logged, indexed, calls, about, contexts⟩ := h
    obtain ⟨more, before, noDangling, recorded⟩ := logged.noDangling
    rw [before, List.append_assoc] at calls
    have isSymbol : ∀ later : List LogEntry,
        Answered (more ++ ⟨.symbol name.stored, symbol⟩ :: later) Call.isSymbol symbol :=
      fun later => ⟨⟨.symbol name.stored, symbol⟩, by simp, rfl, rfl⟩
    have log : NoDangling (more ++ ⟨.symbol name.stored, symbol⟩ :: described) := by
      refine noDangling.append fun pre e post split => ?_
      obtain ⟨rfl, hsplit⟩ | ⟨pre', rfl, rfl⟩ := List.cons_eq_append_iff.mp split
      · obtain ⟨rfl, -⟩ := List.cons.inj hsplit
        exact trivial
      · rcases about e (by simp) with call | call
        · rw [call]
          exact isSymbol pre'
        · rw [call]
          exact isSymbol pre'
    have since := Trace.since_eq calls
    refine ⟨⟨_, calls.symm⟩, by rwa [since], ?_, fun k hk => ?_⟩
    · rw [since, indexed]
      exact recorded.append _
    · rw [contexts] at hk
      rw [since]
      rcases List.mem_cons.mp hk with rfl | hk
      · exact .inl (isSymbol described)
      · obtain rfl := List.mem_singleton.mp hk
        exact .inr (recorded.append _)

/-! ### Whole runs and sessions -/

/-- The log has only grown, and nothing dangles in what was added. -/
def AddsNoDangling (before after : List LogEntry) : Prop :=
  ∃ run, after = before ++ run ∧ NoDangling run

theorem Sound.adds {base : List LogEntry} {t : Trace Client} (h : Sound base t) :
    AddsNoDangling base t.calls := by
  obtain ⟨run, calls⟩ := h.grows
  refine ⟨run, calls.symm, ?_⟩
  rw [← Trace.since_eq calls.symm]
  exact h.log

/-- A run whose steps have a way through the tree. -/
theorem Walk.adds_noDangling {R : List Cursor → Cursor → Prop} {ds : List Cursor} {w : Walk Client}
    (disciplined : w.actions.Disciplined) (way : Way R [] w.steps ds) (c : Client) :
    AddsNoDangling c.fresh.calls (finalState (w.carryOut c.fresh)).calls := by
  refine Outcome.final (E := fun t : Trace Client => AddsNoDangling c.fresh.calls t.calls)
    (Outcome.bind ?_)
  refine (outcome_start w.source w.moduleName c).mono ?_ ?_
  · rintro _ t ⟨name, -, begun⟩
    refine Outcome.bind ((Sound.run disciplined way [] begun.sound).mono ?_ ?_)
    · exact fun _ u hu => hu.adds
    · exact fun u hu => hu.adds
  · rintro t ⟨file, logged⟩
    obtain ⟨more, calls, noDangling, -⟩ := logged.noDangling
    exact ⟨more, calls, noDangling⟩

theorem Syntactic.index_adds_noDangling (s : Setting) (t : Tree) (c : Client) :
    AddsNoDangling c.fresh.calls (finalState (index s t c.fresh)).calls := by
  rw [index_eq]
  exact Walk.adds_noDangling (disciplined_actions s) (way_inside t) c

theorem Semantic.Setting.index_adds_noDangling (s : Setting) (t : Tree) (c : Client) :
    AddsNoDangling c.fresh.calls (finalState (s.index t c.fresh)).calls := by
  rw [index_eq]
  exact Walk.adds_noDangling (disciplined_actions s) (way_inside t) c

namespace Session

variable {α β : Type}

/-- The calls of the database so far. -/
def log (s : Session Client) : List LogEntry := s.recorder.database.log.toList

/-- The computation leaves the recorder alone. -/
def KeepsRecorder (m : SessionM Client α) : Prop :=
  ∀ s, Outcome (fun _ t => t.recorder = s.recorder) (fun t => t.recorder = s.recorder) (m s)

/-- The computation adds to the log, and nothing dangles in what it adds. -/
def AddsSoundly (m : SessionM Client α) : Prop :=
  ∀ s, AddsNoDangling s.log (finalState (m s)).log

theorem keepsRecorder_lift (x : Except Fault α) :
    KeepsRecorder (liftM x : SessionM Client α) := by
  intro s
  cases x <;> rfl

theorem keepsRecorder_printIf (b : Bool) (line : String) : KeepsRecorder (printIf b line) := by
  intro s
  cases b <;> rfl

theorem keepsRecorder_chooseEnvironment (w : World) (p : Option String) :
    KeepsRecorder (chooseEnvironment w p) := by
  intro s
  unfold chooseEnvironment
  cases hoffer : (w.environments.choose p).2 with
  | ok e =>
    simp only [hoffer]
    rfl
  | error failure =>
    simp only [hoffer]
    rfl

/-- What comes before the run of an indexer does not matter. -/
theorem KeepsRecorder.bind {m : SessionM Client α} {f : α → SessionM Client β}
    (hm : KeepsRecorder m) (hf : ∀ a, AddsSoundly (f a)) : AddsSoundly (m >>= f) := by
  intro s
  have same : ∀ t : Session Client, t.recorder = s.recorder → t.log = s.log := by
    intro t h
    rw [log, h, log]
  refine Outcome.final (E := fun t : Session Client => AddsNoDangling s.log t.log) (Outcome.bind ?_)
  refine (hm s).mono (fun a t ht => ?_) fun t ht => ?_
  · have here := hf a t
    rw [same t ht] at here
    cases hr : f a t <;> (rw [hr] at here; exact here)
  · exact ⟨[], by rw [same t ht, List.append_nil], .nil⟩

theorem addsSoundly_carryOut {m : Indexing Client Unit}
    (h : ∀ c : Client, AddsNoDangling c.fresh.calls (finalState (m c.fresh)).calls) :
    AddsSoundly (carryOut m) := by
  intro s
  have here := h s.recorder
  unfold Client.fresh at here
  unfold carryOut
  cases hm : m { recorder := s.recorder } <;> (rw [hm] at here; exact here)

theorem addsSoundly_runSyntactic (w : World) (path : String) (searchPath : List String)
    (verbose : Bool) : AddsSoundly (runSyntactic w path searchPath verbose) :=
  (keepsRecorder_lift _).bind fun source =>
    addsSoundly_carryOut (Syntactic.index_adds_noDangling ⟨source, verbose⟩ w.tree)

theorem addsSoundly_runSemantic (w : World) (e : Environment) (path : String)
    (searchPath : List String) (verbose : Bool) :
    AddsSoundly (runSemantic w e path searchPath verbose) :=
  (keepsRecorder_lift _).bind fun _ =>
    addsSoundly_carryOut (Semantic.Setting.index_adds_noDangling _ w.tree)

theorem addsSoundly_parse {m : SessionM Client α} (hm : AddsSoundly m) (text : String) :
    AddsSoundly (do parse text; m) :=
  KeepsRecorder.bind (fun _ => rfl) fun _ => hm

/-- Indexing adds to the log of the session, whatever the database has answered and answers, whether
or not it ends in a fault, and none of the identifiers in what it adds dangles. -/
theorem sessions_have_no_dangling_ids (w : World) (method : Method) (environment : Option String)
    (verbose : Bool) (s : Session Client) :
    (∀ path, ∃ run,
      (finalState (indexFile w method path environment verbose s)).log = s.log ++ run ∧
        NoDangling run) ∧
    (∀ text searchPath, ∃ run,
      (finalState (indexText w method text environment searchPath verbose s)).log = s.log ++ run ∧
        NoDangling run) := by
  constructor
  · intro path
    suffices AddsSoundly (indexFile w method path environment verbose) from this s
    refine (keepsRecorder_printIf _ _).bind fun _ => (keepsRecorder_lift _).bind fun text => ?_
    cases method with
    | syntactic => exact addsSoundly_parse (addsSoundly_runSyntactic _ _ _ _) _
    | semantic =>
      refine (keepsRecorder_chooseEnvironment w environment).bind fun e => ?_
      refine (keepsRecorder_printIf _ _).bind fun _ => ?_
      exact addsSoundly_parse (addsSoundly_runSemantic _ _ _ _ _) _
  · intro text searchPath
    suffices AddsSoundly (indexText w method text environment searchPath verbose) from this s
    cases method with
    | syntactic => exact addsSoundly_parse (addsSoundly_runSyntactic _ _ _ _) _
    | semantic =>
      refine (keepsRecorder_chooseEnvironment w environment).bind fun e => ?_
      exact addsSoundly_parse (addsSoundly_runSemantic _ _ _ _ _) _

end Session

end CodeIndex
