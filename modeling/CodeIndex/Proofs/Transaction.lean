import CodeIndex.CommandLine.Run
import CodeIndex.Proofs.NoDanglingIds
import CodeIndex.Proofs.Planning

/-!
# One transaction for each file

The command that indexes a file records everything inside of one transaction. The transaction is
begun after the database was opened, and committed only if the indexing came to its end; a file that
cannot be read, or an environment that is missing, is noticed before anything is recorded.

The one way for the command to end before the transaction is that the database refuses to be opened
or cleared and then gives no text as the reason: the reason is to be printed, and only a text can
be.

## What is proved

* `Plan.index_records_only` — a run of an indexer does nothing but record, and ask for the reason
  when the file is refused.
* `prepare_of_obstructed` and `prepare_of_not_obstructed` — when the command gets as far as the
  indexing.
* `index_command_is_atomic` — the log of the command.
-/

namespace CodeIndex

open Indexing

/-- The call records something. -/
def Call.isRecord (call : Call) : Bool := "record".toList.isPrefixOf call.function.toList

/-! ### Runs do nothing but record -/

/-- Since then something was recorded, or a reason was asked for, and nothing else. -/
def RecordsOnly (before after : List LogEntry) : Prop :=
  ∃ more, after = before ++ more ∧ ∀ e ∈ more, e.call.isRecord = true ∨ e.call = .lastError

namespace RecordsOnly

variable {xs ys zs : List LogEntry}

theorem refl (xs : List LogEntry) : RecordsOnly xs xs := ⟨[], (List.append_nil xs).symm, by simp⟩

theorem trans (h : RecordsOnly xs ys) (h' : RecordsOnly ys zs) : RecordsOnly xs zs := by
  obtain ⟨more, rfl, records⟩ := h
  obtain ⟨more', rfl, records'⟩ := h'
  refine ⟨more ++ more', List.append_assoc _ _ _, fun e he => ?_⟩
  rcases List.mem_append.mp he with he | he
  · exact records e he
  · exact records' e he

/-- What is recorded on the way through a tree. -/
theorem logged {k : Standing} {r : Recording} (h : k.Admits r) {s : Trace Client} {call : Call}
    (hcall : r.call? s.recorder.file = some call) : RecordsOnly s.calls (s.logged call).calls := by
  refine ⟨_, s.calls_logged call, fun e he => .inl ?_⟩
  obtain rfl := List.mem_singleton.mp he
  change call.isRecord = true
  cases r with
  | file | fileLanguage | namelessSymbol | signatureLocation | ambiguousReference => exact h.elim
  | _ =>
    obtain rfl := Option.some.inj hcall
    simp [Call.isRecord, Call.function]

/-- What is recorded along with the file. -/
theorem ofFile {path : String} {file : Value} {s t : Trace Client}
    (h : FileLogged path file s t) : RecordsOnly s.calls t.calls := by
  obtain ⟨more, calls, ofFile⟩ := h.calls
  refine ⟨_, calls, fun e he => ?_⟩
  rcases List.mem_cons.mp he with rfl | he
  · exact .inl (by simp [Call.isRecord, Call.function])
  · rcases ofFile e he with call | call
    · exact .inr call
    · exact .inl (by simp [call, Call.isRecord, Call.function])

/-- What is recorded at the beginning of a run. -/
theorem ofBegun {path : String} {s t : Trace Client} {name : Option QualifiedName}
    (h : Begun path s t name) : RecordsOnly s.calls t.calls := by
  cases name with
  | none =>
    obtain ⟨file, logged, -⟩ := h
    exact ofFile logged
  | some name =>
    obtain ⟨file, symbol, u, described, logged, -, calls, about, -⟩ := h
    refine (ofFile logged).trans ⟨_, calls, fun e he => .inl ?_⟩
    rcases List.mem_cons.mp he with rfl | he
    · simp [Call.isRecord, Call.function]
    · rcases about e he with call | call <;> simp [call, Call.isRecord, Call.function]

end RecordsOnly

/-- The discipline of doing nothing but record. -/
def recordingOnly : Discipline Client where
  holds _ := True
  goes s t := RecordsOnly s.calls t.calls
  standing _ := ⟨fun _ => True, fun _ => True, fun _ => True, fun _ => True⟩
  refl _ := .refl _
  trans := .trans
  holds_of_goes _ := trivial
  symbol_mono _ _ := trivial
  print _ _ _ := .refl _
  declare _ _ := .refl _
  record {s r} _ admitted := by
    obtain ⟨call, v, hcall, emitted, -⟩ := emit_eq_logged admitted s
    rw [emitted]
    exact ⟨.logged admitted hcall, by cases r <;> trivial⟩

section Runs

variable {A : Actions Client} {R : List Cursor → Cursor → Prop} {ds ds' : List Cursor}

theorem RecordsOnly.step (disciplined : A.Disciplined) {x : Step} (shifts : Shifts R ds ds' x)
    (held : Held) (s : Trace Client) :
    Outcome (fun _ t => RecordsOnly s.calls t.calls) (fun t => RecordsOnly s.calls t.calls)
      (A.perform x held s) := by
  have keeps : A.Keeps recordingOnly x := disciplined.keeps shifts fun _ _ _ _ _ => trivial
  refine (Actions.outcome_perform keeps held trivial).mono (fun held' t effect => ?_) fun _ h => h
  cases x with
  | list | unlist | look | parameter => exact effect.2
  | enter c =>
    obtain ⟨-, o, symbol, s₁, u, -, -, recorded, -, -, rfl⟩ := effect
    exact recorded
  | leave | impose | lift | drop | beginAlias | endAlias =>
    obtain ⟨-, rfl⟩ := effect
    exact .refl _
  | aliasWord =>
    rcases held with _ | ⟨_ | _, rest⟩ <;> obtain ⟨-, rfl⟩ := effect <;> exact .refl _
  | fail e => exact effect.elim

theorem RecordsOnly.run (disciplined : A.Disciplined) {xs : List Step} (way : Way R ds xs ds')
    (held : Held) (s : Trace Client) :
    Outcome (fun _ t => RecordsOnly s.calls t.calls) (fun t => RecordsOnly s.calls t.calls)
      (A.run xs held s) := by
  induction way generalizing held s with
  | nil => exact .refl _
  | cons shifts _ ih =>
    rw [Actions.run_cons]
    refine Outcome.bind ((RecordsOnly.step disciplined shifts held s).mono ?_ fun _ h => h)
    intro held' t first
    exact (ih held' t).mono (fun _ _ h => first.trans h) fun _ h => first.trans h

theorem Walk.records_only {w : Walk Client} (disciplined : w.actions.Disciplined)
    (way : Way R [] w.steps ds) (c : Client) :
    RecordsOnly c.fresh.calls (finalState (w.carryOut c.fresh)).calls := by
  refine Outcome.final (E := fun t : Trace Client => RecordsOnly c.fresh.calls t.calls)
    (Outcome.bind ?_)
  refine (outcome_start w.source w.moduleName c).mono ?_ ?_
  · rintro _ t ⟨name, -, begun⟩
    have first := RecordsOnly.ofBegun begun
    exact Outcome.bind ((RecordsOnly.run disciplined way [] t).mono (fun _ _ h => first.trans h)
      fun _ h => first.trans h)
  · rintro t ⟨file, logged⟩
    exact .ofFile logged

end Runs

/-- A run of either indexer does nothing but record. -/
theorem Session.Plan.index_records_only (p : Session.Plan) (verbose : Bool) (t : Tree)
    (c : Client) :
    RecordsOnly c.fresh.calls (finalState (p.index verbose t c.fresh)).calls := by
  cases p with
  | syntactic source =>
    change RecordsOnly _ (finalState (Syntactic.index ⟨source, verbose⟩ t c.fresh)).calls
    rw [Syntactic.index_eq]
    exact Walk.records_only (Syntactic.disciplined_actions _) (Syntactic.way_inside t) c
  | semantic setting =>
    let s : Semantic.Setting := { setting with verbose }
    change RecordsOnly _ (finalState (s.index t c.fresh)).calls
    rw [Semantic.Setting.index_eq]
    exact Walk.records_only s.disciplined_actions (Semantic.Setting.way_inside t) c

/-! ### The database -/

namespace Database

/-- The database has the version that the indexer needs. -/
def IsCompatible (d : Database) : Prop :=
  versionFunction ∉ d.unavailable ∧ d.answer .versionString = .text requiredVersion

/-- The database refuses the call, and then gives no text as the reason. -/
def RefusesSilently (d : Database) (call : Call) : Prop :=
  (d.answer call).holds = false ∧ ∀ reason, (d.after call).answer .lastError ≠ .text reason

/-- The database after a call that may be refused: the reason for a refusal is asked for. -/
def attempted (d : Database) (call : Call) : Database :=
  if (d.answer call).holds then d.after call else (d.after call).after .lastError

end Database

namespace Session

/-- The session after a call of the database. -/
def called (s : Session Client) (call : Call) : Session Client :=
  { s with recorder := { s.recorder with database := s.recorder.database.after call } }

@[simp] theorem log_called (s : Session Client) (call : Call) :
    (s.called call).log = s.log ++ [⟨call, s.recorder.database.answer call⟩] := by
  simp [log, called, Database.after]

/-- Since then there were only calls that satisfy `P`. -/
def Calls (P : Call → Prop) (s t : Session Client) : Prop :=
  ∃ more, t.log = s.log ++ more ∧ ∀ e ∈ more, P e.call

namespace Calls

variable {P : Call → Prop} {s t u : Session Client}

theorem quiet (same : t.recorder.database = s.recorder.database) : Calls P s t :=
  ⟨[], by rw [Session.log, same, List.append_nil, Session.log], by simp⟩

theorem called (s : Session Client) {call : Call} (h : P call) : Calls P s (s.called call) :=
  ⟨_, log_called s call, by simpa using h⟩

theorem trans (hst : Calls P s t) (htu : Calls P t u) : Calls P s u := by
  obtain ⟨more, hmore, holds⟩ := hst
  obtain ⟨more', hmore', holds'⟩ := htu
  refine ⟨more ++ more', ?_, fun e he => ?_⟩
  · rw [hmore', hmore, List.append_assoc]
  · rcases List.mem_append.mp he with he | he
    · exact holds e he
    · exact holds' e he

/-- A call that may be refused. -/
theorem attempted {call : Call} (h : P call) (hl : P .lastError)
    (same : t.recorder.database = s.recorder.database.attempted call) : Calls P s t := by
  unfold Database.attempted at same
  split at same
  · exact (called s h).trans (quiet same)
  · exact ((called s h).trans (called _ hl)).trans (quiet same)

end Calls

end Session

/-! ### The command -/

namespace CommandLine

open Session

/-- Opens the database and, if asked to, clears it and says what is in it. -/
def openDatabase (w : World) (a : IndexArguments) : SessionM Client Unit := do
  let _ ← attempt (.openAt (located w a.database))
  if a.clear then clear a.verbose
  if a.verbose then reportContent

/-- What the command does before the indexing. -/
def prepare (w : World) (a : IndexArguments) : SessionM Client Unit := do
  let _ ← checkVersion
  openDatabase w a
  let _ ← ask .beginTransaction
  connect

/-- The file of the command. -/
def subject (w : World) (a : IndexArguments) : Subject := .file (located w a.source)

/-- The indexing itself. -/
def indexing (w : World) (a : IndexArguments) : SessionM Client Unit :=
  (subject w a).index w (if a.shallow then .syntactic else .semantic)
    (a.environment.map (located w)) a.verbose

/-- What the command does after the indexing. -/
def conclude : SessionM Client Unit := do
  let _ ← ask .commitTransaction
  let _ ← attempt .close

/-- The call has nothing to do with transactions. -/
def Surrounds (call : Call) : Prop :=
  call ≠ .beginTransaction ∧ call ≠ .commitTransaction ∧ call.isRecord = false

/-- The database refuses to be opened or cleared and gives no reason that could be printed. -/
def Obstructed (w : World) (a : IndexArguments) (d : Database) : Prop :=
  d.RefusesSilently (.openAt (located w a.database)) ∨
    a.clear = true ∧ (d.attempted (.openAt (located w a.database))).RefusesSilently .clear

/-! ### Calls that may be refused -/

theorem ask_eq (call : Call) (s : Session Client) :
    ask call s = .ok (s.recorder.database.answer call) (s.called call) := rfl

/-- The reason for a refusal is asked for and printed. -/
theorem attempt_eq (call : Call) (s : Session Client) :
    attempt call s =
      if (s.recorder.database.answer call).holds then .ok true (s.called call)
      else (do
        print ["ERROR: " ++ (← ((s.called call).recorder.database.answer .lastError).asText)]
        return false : SessionM Client Bool) ((s.called call).called .lastError) := by
  change (do if (s.recorder.database.answer call).holds then _ else _ : SessionM Client Bool)
    (s.called call) = _
  split <;> rfl

/-- A call that is refused without a reason ends in a fault, as there is nothing to be printed. -/
theorem attempt_of_refusesSilently {call : Call} {s : Session Client}
    (h : s.recorder.database.RefusesSilently call) :
    ∃ type, attempt call s = .error (.notText type) ((s.called call).called .lastError) := by
  rw [attempt_eq, if_neg (by simp [h.1])]
  cases reason : (s.called call).recorder.database.answer .lastError with
  | text r => exact absurd reason (h.2 r)
  | null => exact ⟨_, rfl⟩
  | flag => exact ⟨_, rfl⟩
  | number => exact ⟨_, rfl⟩

/-- Any other call comes to its end. -/
theorem attempt_of_not_refusesSilently {call : Call} {s : Session Client}
    (h : ¬s.recorder.database.RefusesSilently call) :
    ∃ done t, attempt call s = .ok done t ∧
      t.recorder.database = s.recorder.database.attempted call := by
  rw [attempt_eq, Database.attempted]
  by_cases agreed : (s.recorder.database.answer call).holds = true
  · rw [if_pos agreed, if_pos agreed]
    exact ⟨_, _, rfl, rfl⟩
  · rw [if_neg agreed, if_neg agreed]
    have given : ∃ reason, (s.called call).recorder.database.answer .lastError = .text reason := by
      by_contra none
      exact h ⟨by simpa using agreed, fun reason given => none ⟨reason, given⟩⟩
    obtain ⟨reason, given⟩ := given
    rw [given]
    exact ⟨_, _, rfl, rfl⟩

/-! ### Before the indexing -/

theorem printIf_eq (b : Bool) (line : String) (s : Session Client) :
    ∃ t, printIf b line s = .ok () t ∧ t.recorder = s.recorder := by
  cases b with
  | false => exact ⟨s, rfl, rfl⟩
  | true => exact ⟨_, rfl, rfl⟩

theorem surrounds_lastError : Surrounds .lastError := by
  simp [Surrounds, Call.isRecord, Call.function, List.isPrefixOf]

theorem surrounds_clear : Surrounds .clear := by
  simp [Surrounds, Call.isRecord, Call.function, List.isPrefixOf]

theorem clear_of_refusesSilently (verbose : Bool) {s : Session Client}
    (h : s.recorder.database.RefusesSilently .clear) :
    ∃ type t, clear verbose s = .error (.notText type) t ∧ Calls Surrounds s t := by
  obtain ⟨t, printed, same⟩ := printIf_eq verbose "INFO: Clearing database..." s
  obtain ⟨type, stopped⟩ := attempt_of_refusesSilently (s := t) (by rw [same]; exact h)
  unfold clear
  rw [bind_of_ok printed, bind_of_error stopped]
  refine ⟨type, _, rfl, (Calls.quiet (by rw [same]) : Calls Surrounds s t).trans ?_⟩
  exact (Calls.called t surrounds_clear).trans (.called _ surrounds_lastError)

theorem clear_of_not_refusesSilently (verbose : Bool) {s : Session Client}
    (h : ¬s.recorder.database.RefusesSilently .clear) :
    ∃ t, clear verbose s = .ok () t ∧ Calls Surrounds s t := by
  obtain ⟨t, printed, same⟩ := printIf_eq verbose "INFO: Clearing database..." s
  obtain ⟨done, u, attempted, after⟩ :=
    attempt_of_not_refusesSilently (s := t) (by rw [same]; exact h)
  rw [same] at after
  have cleared : Calls Surrounds s u := .attempted surrounds_clear surrounds_lastError after
  unfold clear
  rw [bind_of_ok printed, bind_of_ok attempted]
  cases done with
  | false => exact ⟨u, rfl, cleared⟩
  | true =>
    obtain ⟨v, printed, same⟩ := printIf_eq verbose "INFO: Clearing done." u
    exact ⟨v, printed, cleared.trans (.quiet (by rw [same]))⟩

/-- Saying what is in the database changes nothing, and is always possible. -/
theorem calls_reportContent (a : IndexArguments) (s : Session Client) :
    ∃ t, (if a.verbose then reportContent else pure () : SessionM Client Unit) s = .ok () t ∧
      Calls Surrounds s t := by
  have surrounds : Surrounds .isEmpty := by
    simp [Surrounds, Call.isRecord, Call.function, List.isPrefixOf]
  have asked : Calls Surrounds s (s.called .isEmpty) := .called s surrounds
  split
  · unfold reportContent
    rw [bind_of_ok (ask_eq .isEmpty s)]
    split
    · exact ⟨_, rfl, asked.trans (.quiet rfl)⟩
    · exact ⟨_, rfl, asked.trans (.quiet rfl)⟩
  · exact ⟨s, rfl, .quiet rfl⟩

theorem surrounds_openAt (path : String) : Surrounds (.openAt path) := by
  simp [Surrounds, Call.isRecord, Call.function, List.isPrefixOf]

theorem openDatabase_of_obstructed {w : World} {a : IndexArguments} {s : Session Client}
    (h : Obstructed w a s.recorder.database) :
    ∃ type t, openDatabase w a s = .error (.notText type) t ∧ Calls Surrounds s t := by
  have surrounds := surrounds_openAt (located w a.database)
  unfold openDatabase
  by_cases refused : s.recorder.database.RefusesSilently (.openAt (located w a.database))
  · obtain ⟨type, stopped⟩ := attempt_of_refusesSilently refused
    rw [bind_of_error stopped]
    exact ⟨type, _, rfl, (Calls.called s surrounds).trans (.called _ surrounds_lastError)⟩
  · obtain ⟨asked, refused'⟩ := h.resolve_left refused
    obtain ⟨done, t, opened, after⟩ := attempt_of_not_refusesSilently refused
    rw [← after] at refused'
    obtain ⟨type, u, stopped, calls⟩ := clear_of_refusesSilently a.verbose refused'
    rw [bind_of_ok opened, if_pos asked, bind_of_error stopped]
    exact ⟨type, u, rfl, (Calls.attempted surrounds surrounds_lastError after).trans calls⟩

theorem openDatabase_of_not_obstructed {w : World} {a : IndexArguments} {s : Session Client}
    (h : ¬Obstructed w a s.recorder.database) :
    ∃ t, openDatabase w a s = .ok () t ∧ Calls Surrounds s t := by
  rw [Obstructed, not_or, not_and] at h
  obtain ⟨done, t, opened, after⟩ := attempt_of_not_refusesSilently h.1
  have ht : Calls Surrounds s t :=
    .attempted (surrounds_openAt (located w a.database)) surrounds_lastError after
  unfold openDatabase
  rw [bind_of_ok opened]
  split
  case isTrue asked =>
    obtain ⟨u, cleared, hu⟩ := clear_of_not_refusesSilently a.verbose (after ▸ h.2 asked)
    obtain ⟨v, reported, hv⟩ := calls_reportContent a u
    rw [bind_of_ok cleared]
    exact ⟨v, reported, (ht.trans hu).trans hv⟩
  case isFalse =>
    obtain ⟨v, reported, hv⟩ := calls_reportContent a t
    exact ⟨v, reported, ht.trans hv⟩

/-- What the version check does to the session. -/
theorem checkVersion_eq (s : Session Client) :
    checkVersion s = (do
      let (usable, lines) ← (s.recorder.database.isUsable true).1
      print lines
      return usable : SessionM Client Bool)
      { s with recorder := { s.recorder with
          database := (s.recorder.database.isUsable true).2 } } := rfl

theorem isUsable_of_isCompatible {d : Database} (h : d.IsCompatible) :
    d.isUsable true = (.ok (true, []), d.after .versionString) := by
  unfold Database.isUsable
  rw [if_neg (by simp [h.1])]
  exact if_pos h.2

/-- A database that does not have the right version is never found usable. -/
theorem isUsable_of_not_isCompatible {d : Database} (h : ¬d.IsCompatible) :
    ((d.isUsable true).2 = d ∨ (d.isUsable true).2 = d.after .versionString) ∧
      ∀ found, (d.isUsable true).1 = .ok found → found.1 = false := by
  unfold Database.isUsable
  split
  · exact ⟨.inl rfl, fun found h => by cases h; rfl⟩
  · rename_i available
    have version : d.answer .versionString ≠ .text requiredVersion :=
      fun version => h ⟨by simpa using available, version⟩
    simp only [Database.call, version, if_false, if_true]
    refine ⟨.inr trivial, fun found h => ?_⟩
    cases shown : (d.answer .versionString).asText with
    | ok v =>
      rw [shown] at h
      cases h
      rfl
    | error e =>
      rw [shown] at h
      cases h

/-- The version check of a database that has the right version. -/
theorem checkVersion_of_isCompatible {s : Session Client} (h : s.recorder.database.IsCompatible) :
    ∃ t, checkVersion s = .ok true t ∧
      t.recorder.database = s.recorder.database.after .versionString := by
  rw [checkVersion_eq, isUsable_of_isCompatible h]
  exact ⟨_, rfl, rfl⟩

/-- The version check of any other database. -/
theorem outcome_checkVersion {s : Session Client} (h : ¬s.recorder.database.IsCompatible) :
    CodeIndex.Outcome (fun usable t => usable = false ∧ Calls (· = .versionString) s t)
      (Calls (· = .versionString) s) (checkVersion s) := by
  obtain ⟨asked, unusable⟩ := isUsable_of_not_isCompatible h
  have called : Calls (· = .versionString) s (s.called .versionString) := .called s rfl
  have calls : Calls (· = .versionString) s { s with recorder := { s.recorder with
      database := (s.recorder.database.isUsable true).2 } } := by
    rcases asked with asked | asked
    · exact .quiet asked
    · exact called.trans (.quiet asked)
  rw [checkVersion_eq]
  refine Outcome.liftBind calls fun found hfound => ?_
  exact ⟨unusable found hfound, calls.trans (.quiet rfl)⟩

theorem connect_eq (s : Session Client) :
    connect s = .ok () { s with
      recorder := (Client.connect s.recorder.database).1
      lines := s.lines ++ (Client.connect s.recorder.database).2 } := rfl

/-- A new client only asks about versions. -/
theorem calls_connect (s : Session Client) :
    ∃ t, connect s = .ok () t ∧ Calls Surrounds s t := by
  have surrounds : Surrounds .isCompatible ∧ Surrounds .supportedVersion ∧
      Surrounds .loadedVersion := by
    simp [Surrounds, Call.isRecord, Call.function, List.isPrefixOf]
  have asked : Calls Surrounds s (s.called .isCompatible) := .called s surrounds.1
  have both : Calls Surrounds s
      (((s.called .isCompatible).called .supportedVersion).called .loadedVersion) :=
    (asked.trans (.called _ surrounds.2.1)).trans (.called _ surrounds.2.2)
  refine ⟨_, connect_eq s, ?_⟩
  unfold Client.connect
  dsimp only [Database.call]
  split
  · exact asked.trans (.quiet rfl)
  · exact both.trans (.quiet rfl)

/-- The session has begun a transaction, and nothing was recorded yet. -/
def Started (s t : Session Client) : Prop :=
  ∃ before answer after, t.log = s.log ++ (before ++ ⟨.beginTransaction, answer⟩ :: after) ∧
    (∀ e ∈ before, Surrounds e.call) ∧ ∀ e ∈ after, Surrounds e.call

theorem calls_versionString {s t : Session Client}
    (h : t.recorder.database = s.recorder.database.after .versionString) :
    Calls Surrounds s t := by
  have surrounds : Surrounds .versionString := by
    simp [Surrounds, Call.isRecord, Call.function, versionFunction, List.isPrefixOf]
  exact (Calls.called s surrounds).trans (.quiet h)

/-- What happens before the indexing if the database refuses to be opened or cleared and gives no
reason: the transaction is not begun. -/
theorem prepare_of_obstructed {w : World} {a : IndexArguments} {s : Session Client}
    (compatible : s.recorder.database.IsCompatible)
    (obstructed : Obstructed w a (s.recorder.database.after .versionString)) :
    ∃ type t, prepare w a s = .error (.notText type) t ∧ Calls Surrounds s t := by
  obtain ⟨t, checked, after⟩ := checkVersion_of_isCompatible compatible
  rw [← after] at obstructed
  obtain ⟨type, u, stopped, hu⟩ := openDatabase_of_obstructed obstructed
  unfold prepare
  rw [bind_of_ok checked, bind_of_error stopped]
  exact ⟨type, u, rfl, (calls_versionString after).trans hu⟩

/-- Otherwise it is begun. -/
theorem prepare_of_not_obstructed {w : World} {a : IndexArguments} {s : Session Client}
    (compatible : s.recorder.database.IsCompatible)
    (free : ¬Obstructed w a (s.recorder.database.after .versionString)) :
    ∃ t, prepare w a s = .ok () t ∧ Started s t := by
  obtain ⟨t, checked, after⟩ := checkVersion_of_isCompatible compatible
  rw [← after] at free
  obtain ⟨u, opened, hu⟩ := openDatabase_of_not_obstructed free
  obtain ⟨v, connected, hv⟩ := calls_connect (u.called .beginTransaction)
  obtain ⟨before, hbefore, surrounds⟩ := (calls_versionString after).trans hu
  obtain ⟨later, hlater, surrounds'⟩ := hv
  unfold prepare
  rw [bind_of_ok checked, bind_of_ok opened, bind_of_ok (ask_eq .beginTransaction u), connected]
  refine ⟨v, rfl, before, u.recorder.database.answer .beginTransaction, later, ?_, surrounds,
    surrounds'⟩
  rw [hlater, log_called, hbefore]
  simp

/-! ### The indexing and what follows -/

theorem log_carryOut (m : Indexing Client Unit) (s : Session Client) :
    (finalState (carryOut m s)).log = (finalState (m s.recorder.fresh)).calls := by
  unfold carryOut Client.fresh
  cases m { recorder := s.recorder } <;> rfl

/-- The indexing does nothing but record. -/
theorem indexing_records_only (w : World) (a : IndexArguments) (s : Session Client) :
    RecordsOnly s.log (finalState (indexing w a s)).log := by
  obtain ⟨t, prepared, run⟩ := Subject.index_of_plan w (if a.shallow then .syntactic else .semantic)
    (a.environment.map (located w)) a.verbose (subject w a) s
  have same : t.log = s.log := by rw [log, prepared.recorder, log]
  rw [indexing, run, ← same]
  cases (subject w a).plan w (if a.shallow then .syntactic else .semantic)
      (a.environment.map (located w)) with
  | error e => exact .refl _
  | ok p =>
    rw [lift_ok, pure_bind, log_carryOut]
    exact p.index_records_only a.verbose w.tree t.recorder

/-- Without a plan nothing is recorded. -/
theorem indexing_of_no_plan {w : World} {a : IndexArguments} {fault : Fault}
    (h : (subject w a).plan w (if a.shallow then .syntactic else .semantic)
      (a.environment.map (located w)) = .error fault) (s : Session Client) :
    ∃ t, indexing w a s = .error fault t ∧ t.log = s.log := by
  obtain ⟨t, prepared, run⟩ := Subject.index_of_plan w (if a.shallow then .syntactic else .semantic)
    (a.environment.map (located w)) a.verbose (subject w a) s
  refine ⟨t, ?_, by rw [log, prepared.recorder, log]⟩
  rw [indexing, run, h]
  rfl

theorem log_attempt (call : Call) (s : Session Client) : ∃ answer after,
    (finalState (attempt call s)).log = s.log ++ ⟨call, answer⟩ :: after ∧
      ∀ e ∈ after, e.call = .lastError := by
  rw [attempt_eq]
  split
  · exact ⟨_, [], log_called s call, by simp⟩
  · have asked : ((s.called call).called .lastError).log =
        s.log ++ [⟨call, s.recorder.database.answer call⟩,
          ⟨.lastError, (s.called call).recorder.database.answer .lastError⟩] := by simp
    have same : ∀ reason : Except Fault String, (finalState ((do
        print ["ERROR: " ++ (← reason)]
        return false : SessionM Client Bool) ((s.called call).called .lastError))).log =
        ((s.called call).called .lastError).log := by
      intro reason
      cases reason <;> rfl
    exact ⟨_, _, (same _).trans asked, by simp⟩

/-- The transaction is committed and the database is closed. -/
theorem log_conclude (s : Session Client) : ∃ committed closed after,
    (finalState (conclude s)).log =
      s.log ++ ⟨.commitTransaction, committed⟩ :: ⟨.close, closed⟩ :: after ∧
    ∀ e ∈ after, e.call = .lastError := by
  obtain ⟨closed, after, calls, reasons⟩ := log_attempt .close (s.called .commitTransaction)
  refine ⟨s.recorder.database.answer .commitTransaction, closed, after, ?_, reasons⟩
  unfold conclude
  rw [bind_of_ok (ask_eq .commitTransaction s), finalState_discard, calls, log_called]
  simp

/-! ### The whole command -/

/-- The command, once the version of the database was found to be right. -/
theorem execute_eq {w : World} {a : IndexArguments} {s : Session Client}
    (compatible : s.recorder.database.IsCompatible) :
    execute w (.index a) s = (do prepare w a; indexing w a; conclude : SessionM Client Unit) s := by
  obtain ⟨t, checked, -⟩ := checkVersion_of_isCompatible compatible
  have whole : indexInto w a = (do
      openDatabase w a
      let _ ← ask .beginTransaction
      connect
      indexing w a
      conclude : SessionM Client Unit) := by
    unfold indexInto openDatabase conclude
    simp only [bind_assoc]
    refine bind_congr fun _ => ?_
    split
    · simp only [bind_assoc]
      refine bind_congr fun _ => ?_
      split
      · rfl
      · rfl
    · split
      · rfl
      · rfl
  change (checkVersion >>= fun usable => if usable then indexInto w a else pure ()) s = _
  unfold prepare
  rw [bind_of_ok checked, bind_assoc, bind_of_ok checked]
  simp only [bind_assoc]
  exact congrFun whole t

/-- The log of a command that came to its transaction. The flag says whether the indexing came to
its end. -/
structure Transacted (indexed : Bool) (run : List LogEntry) : Prop where
  /-- The transaction is begun once, and before anything is recorded. -/
  begins : ∃ before answer rest, run = before ++ ⟨.beginTransaction, answer⟩ :: rest ∧
    (∀ e ∈ before ++ rest, e.call ≠ .beginTransaction) ∧ ∀ e ∈ before, e.call.isRecord = false
  /-- After the indexing it is committed once, when everything is recorded, and the database is
  closed. -/
  commits : indexed = true → ∃ before committed closed rest,
    run = before ++ ⟨.commitTransaction, committed⟩ :: ⟨.close, closed⟩ :: rest ∧
    (∀ e ∈ before ++ rest, e.call ≠ .commitTransaction) ∧ ∀ e ∈ rest, e.call.isRecord = false
  /-- It is never committed if the indexing ended in a fault. -/
  keeps : indexed = false → ∀ e ∈ run, e.call ≠ .commitTransaction

/-- What an indexer does is no beginning and no end of a transaction. -/
theorem records_ne {call : Call} (h : call.isRecord = true ∨ call = .lastError) :
    call ≠ .beginTransaction ∧ call ≠ .commitTransaction := by
  rcases h with h | rfl
  · constructor
    · rintro rfl
      simp [Call.isRecord, Call.function, List.isPrefixOf] at h
    · rintro rfl
      simp [Call.isRecord, Call.function, List.isPrefixOf] at h
  · simp

/-- The log of a command by its parts. -/
theorem Transacted.of_parts {before after records : List LogEntry} (answer : Value)
    (hbefore : ∀ e ∈ before, Surrounds e.call) (hafter : ∀ e ∈ after, Surrounds e.call)
    (hrecords : ∀ e ∈ records, e.call.isRecord = true ∨ e.call = .lastError) :
    Transacted false (before ++ ⟨.beginTransaction, answer⟩ :: (after ++ records)) ∧
    ∀ committed closed rest, (∀ e ∈ rest, e.call = .lastError) →
      Transacted true (before ++ ⟨.beginTransaction, answer⟩ :: (after ++ records) ++
        ⟨.commitTransaction, committed⟩ :: ⟨.close, closed⟩ :: rest) := by
  have during : ∀ e ∈ after ++ records,
      e.call ≠ .beginTransaction ∧ e.call ≠ .commitTransaction := by
    intro e he
    rcases List.mem_append.mp he with he | he
    · exact ⟨(hafter e he).1, (hafter e he).2.1⟩
    · exact records_ne (hrecords e he)
  have uncommitted : ∀ e ∈ before ++ ⟨.beginTransaction, answer⟩ :: (after ++ records),
      e.call ≠ .commitTransaction := by
    intro e he
    rcases List.mem_append.mp he with he | he
    · exact (hbefore e he).2.1
    · rcases List.mem_cons.mp he with rfl | he
      · simp
      · exact (during e he).2
  constructor
  · refine ⟨⟨before, answer, _, rfl, fun e he => ?_, fun e he => (hbefore e he).2.2⟩, by simp,
      fun _ => uncommitted⟩
    rcases List.mem_append.mp he with he | he
    · exact (hbefore e he).1
    · exact (during e he).1
  · intro committed closed rest reasons
    refine ⟨⟨before, answer, _, List.append_assoc _ _ _, fun e he => ?_,
      fun e he => (hbefore e he).2.2⟩, fun _ => ⟨_, committed, closed, rest, rfl, fun e he => ?_,
      fun e he => ?_⟩, by simp⟩
    · rcases List.mem_append.mp he with he | he
      · exact (hbefore e he).1
      · rcases List.mem_append.mp he with he | he
        · exact (during e he).1
        · rcases List.mem_cons.mp he with rfl | he
          · simp
          · rcases List.mem_cons.mp he with rfl | he
            · simp
            · simp [reasons e he]
    · rcases List.mem_append.mp he with he | he
      · exact uncommitted e he
      · simp [reasons e he]
    · rw [reasons e he]
      exact surrounds_lastError.2.2

variable {w : World} {a : IndexArguments} {s : Session Client}

/-- A database that has another version is asked for its version at most. -/
theorem execute_of_not_isCompatible (h : ¬s.recorder.database.IsCompatible) :
    Calls (· = .versionString) s (finalState (execute w (.index a) s)) := by
  refine Outcome.final (E := Calls (· = .versionString) s) (Outcome.bind ?_)
  refine (outcome_checkVersion h).mono ?_ fun _ h => h
  rintro usable t ⟨rfl, calls⟩
  exact calls

/-- A command that is obstructed begins no transaction. -/
theorem execute_of_obstructed (compatible : s.recorder.database.IsCompatible)
    (obstructed : Obstructed w a (s.recorder.database.after .versionString)) :
    ∃ type t, execute w (.index a) s = .error (.notText type) t ∧ Calls Surrounds s t := by
  obtain ⟨type, t, stopped, calls⟩ := prepare_of_obstructed compatible obstructed
  rw [execute_eq compatible, bind_of_error stopped]
  exact ⟨type, t, rfl, calls⟩

/-- Any other command has its transaction. Without a plan nothing is recorded. -/
theorem execute_of_not_obstructed (compatible : s.recorder.database.IsCompatible)
    (free : ¬Obstructed w a (s.recorder.database.after .versionString)) :
    ∃ t run, prepare w a s = .ok () t ∧
      (finalState (execute w (.index a) s)).log = s.log ++ run ∧
      Transacted (returned (indexing w a t)) run ∧
      ∀ fault, (subject w a).plan w (if a.shallow then .syntactic else .semantic)
        (a.environment.map (located w)) = .error fault →
          (∃ u, execute w (.index a) s = .error fault u) ∧ ∀ e ∈ run, e.call.isRecord = false := by
  obtain ⟨t, prepared, before, answer, after, started, hbefore, hafter⟩ :=
    prepare_of_not_obstructed compatible free
  obtain ⟨records, recorded, hrecords⟩ := indexing_records_only w a t
  obtain ⟨failed, indexed⟩ := Transacted.of_parts answer hbefore hafter hrecords
  rw [execute_eq compatible, bind_of_ok prepared]
  cases hrun : indexing w a t with
  | error fault u =>
    rw [hrun] at recorded
    change u.log = t.log ++ records at recorded
    rw [bind_of_error hrun]
    refine ⟨t, _, prepared, ?_, by rw [hrun]; exact failed, fun fault' noPlan => ?_⟩
    · change u.log = _
      rw [recorded, started, List.append_assoc, List.append_assoc, List.cons_append]
    · obtain ⟨u', stopped, same⟩ := indexing_of_no_plan noPlan t
      rw [hrun] at stopped
      cases stopped
      obtain rfl : records = [] := List.append_right_eq_self.mp (recorded.symm.trans same)
      refine ⟨⟨u, rfl⟩, fun e he => ?_⟩
      rw [List.append_nil] at he
      rcases List.mem_append.mp he with he | he
      · exact (hbefore e he).2.2
      · rcases List.mem_cons.mp he with rfl | he
        · simp [Call.isRecord, Call.function, List.isPrefixOf]
        · exact (hafter e he).2.2
  | ok _ u =>
    rw [hrun] at recorded
    change u.log = t.log ++ records at recorded
    rw [bind_of_ok hrun]
    obtain ⟨committed, closed, rest, concluded, reasons⟩ := log_conclude u
    refine ⟨t, _, prepared, ?_, by rw [hrun]; exact indexed committed closed rest reasons,
      fun fault noPlan => ?_⟩
    · rw [concluded, recorded, started]
      simp
    · obtain ⟨u', stopped, -⟩ := indexing_of_no_plan noPlan t
      rw [hrun] at stopped
      cases stopped

/-- Indexing a file is one transaction. The log of the command says so: a database of another
version is neither opened nor written to. A command that is obstructed stops before its transaction,
with the fault that the reason is no text. Every other one begins its transaction once and before
anything is recorded, and commits it if and only if the indexing came to its end. If the file cannot
be read as text, or the semantic indexer finds no environment, this is the fault that ends the
command, and nothing was recorded. -/
theorem index_command_is_atomic (w : World) (a : IndexArguments) (s : Session Client) :
    ∃ run, (finalState (execute w (.index a) s)).log = s.log ++ run ∧
      (¬s.recorder.database.IsCompatible → ∀ e ∈ run,
        (∀ path, e.call ≠ .openAt path) ∧ e.call ≠ .beginTransaction ∧
          e.call.isRecord = false) ∧
      (s.recorder.database.IsCompatible →
        Obstructed w a (s.recorder.database.after .versionString) →
        (∃ type u, execute w (.index a) s = .error (.notText type) u) ∧ ∀ e ∈ run,
          e.call ≠ .beginTransaction ∧ e.call ≠ .commitTransaction ∧ e.call.isRecord = false) ∧
      (s.recorder.database.IsCompatible →
        ¬Obstructed w a (s.recorder.database.after .versionString) →
        (∃ t, prepare w a s = .ok () t ∧ Transacted (returned (indexing w a t)) run) ∧
        (∀ fault, w.files.text (located w a.source) = .error fault →
          (∃ u, execute w (.index a) s = .error fault u) ∧ ∀ e ∈ run, e.call.isRecord = false) ∧
        (∀ text failure, w.files.text (located w a.source) = .ok text → a.shallow = false →
          (w.environments.choose (a.environment.map (located w))).2 = .error failure →
          (∃ u, execute w (.index a) s = .error (.reported failure) u) ∧
            ∀ e ∈ run, e.call.isRecord = false)) := by
  by_cases compatible : s.recorder.database.IsCompatible
  · by_cases obstructed : Obstructed w a (s.recorder.database.after .versionString)
    · obtain ⟨type, t, stopped, run, log, surrounds⟩ := execute_of_obstructed compatible obstructed
      rw [stopped]
      exact ⟨run, log, absurd compatible, fun _ _ => ⟨⟨type, t, rfl⟩, surrounds⟩,
        fun _ free => absurd obstructed free⟩
    · obtain ⟨t, run, prepared, log, transacted, noPlan⟩ :=
        execute_of_not_obstructed compatible obstructed
      refine ⟨run, log, absurd compatible, fun _ h => absurd h obstructed,
        fun _ _ => ⟨⟨t, prepared, transacted⟩, fun fault unread => noPlan fault ?_,
        fun text failure read deep missing => noPlan (.reported failure) ?_⟩⟩
      · change (w.files.text (located w a.source) >>= _) = _
        rw [unread]
        rfl
      · change (w.files.text (located w a.source) >>= _) = _
        rw [read, deep]
        change (w.environment (a.environment.map (located w)) >>= _) = _
        rw [World.environment, missing]
        rfl
  · obtain ⟨run, log, version⟩ := execute_of_not_isCompatible (w := w) (a := a) compatible
    refine ⟨run, log, fun _ e he => ?_, fun h => absurd h compatible, fun h => absurd h compatible⟩
    rw [version e he]
    simp [Call.isRecord, Call.function, versionFunction, List.isPrefixOf]

/-- A database of the right version that refuses to be opened and has no reason to give. -/
def silentDatabase : Database where
  fixed := Database.answersByFunction [("open", .flag false), ("getLastError", .null)]

/-- Such a database ends every command before its transaction. -/
theorem silent_refusal_begins_no_transaction :
    silentDatabase.IsCompatible ∧ ∀ w a,
      ∀ e ∈ (finalState (execute w (.index a) { recorder := { database := silentDatabase } })).log,
        e.call ≠ .beginTransaction := by
  have compatible : silentDatabase.IsCompatible := ⟨by decide, by decide⟩
  refine ⟨compatible, fun w a e he => ?_⟩
  have refused : (silentDatabase.after .versionString).RefusesSilently
      (.openAt (located w a.database)) := by
    constructor
    · rfl
    · intro reason given
      cases given
  obtain ⟨type, t, stopped, run, log, surrounds⟩ := execute_of_obstructed (w := w) (a := a)
    (s := { recorder := { database := silentDatabase } }) compatible (.inl refused)
  rw [stopped] at he
  change e ∈ t.log at he
  rw [log] at he
  exact (surrounds e he).1

end CommandLine

end CodeIndex
